import Bittorrent.Client.Rounds
import Bittorrent.Proto.Stream

/-! Where a worker stands in the stream of its peer. A session reads a header
and then the body the header announces; it stays between two messages as long as
no read ends inside a message, and no header goes by whose body is left unread
(`framing_of_clean`). In have mode a worker is used again after either. -/

namespace Bittorrent.Client

open Lib Lib.Exec Misc Net Proto Torrent

/-! ## What a read takes off the stream -/

def Event.consumed : Event → Bytes
  | .received _ _ got => got
  | _ => []

/-- All bytes read from the connection. -/
def consumed (log : List Event) : Bytes := log.flatMap Event.consumed

/-- Where a header is read, the message whose body is read next. -/
def Site.expects : Site → Option MsgId
  | .bitfield => some .bitfield
  | .interested => some .have
  | .waitHave => some .have
  | .pieceHeader => some .piece
  | _ => none

/-- A read that does not end inside a message: a header comes whole, with the
body that is read next or none, or nothing comes but a keep-alive; all of a body comes. -/
def Event.clean : Event → Prop
  | .received site asked got =>
    match site.expects with
    | some id => got = [] ∨ got = packU32 0 ∨
        ∃ header, unpackMsgHeader got = .ok header ∧ (header.id = id ∨ header.bodyLength = 0)
    | none => got.length = asked
  | _ => True

theorem clean_header {site : Site} {id : MsgId} (hs : site.expects = some id) {asked : Nat}
    {got : Bytes} : (Event.received site asked got).clean ↔ got = [] ∨ got = packU32 0 ∨
      ∃ header, unpackMsgHeader got = .ok header ∧ (header.id = id ∨ header.bodyLength = 0) := by
  simp only [Event.clean, hs]

theorem clean_body {site : Site} (hs : site.expects = none) {asked : Nat} {got : Bytes} :
    (Event.received site asked got).clean ↔ got.length = asked := by
  simp only [Event.clean, hs]

instance : DecidablePred Event.clean
  | .sent _ => inferInstanceAs (Decidable True)
  | .completed _ => inferInstanceAs (Decidable True)
  | .received site asked got =>
    match hs : site.expects with
    | none => decidable_of_iff (got.length = asked) (clean_body hs).symm
    | some id => decidable_of_iff (got = [] ∨ got = packU32 0 ∨
        ∃ header ∈ (unpackMsgHeader got).toOption, header.id = id ∨ header.bodyLength = 0) (by
          rw [clean_header hs]
          cases unpackMsgHeader got <;> simp [Except.toOption])

def Clean (log : List Event) : Prop := ∀ e ∈ log, e.clean

instance (log : List Event) : Decidable (Clean log) := List.decidableBAll _ log

theorem Clean.of_append {log : List Event} {e : Event} (h : Clean (log ++ [e])) :
    Clean log ∧ e.clean :=
  ⟨fun e' he' => h e' (List.mem_append_left _ he'), h e (by simp)⟩

/-- What is left of the stream is `n` bytes and then whole messages. -/
def Within (messages : List Message) (n : Nat) (w : PieceWorker) : Prop :=
  Clean w.log → ∃ j body, body.length = n ∧ w.socket.incoming = body ++ encodeAll (messages.drop j)

/-- What is left of the stream is whole messages. -/
def Framed (messages : List Message) (w : PieceWorker) : Prop :=
  Clean w.log → ∃ j, w.socket.incoming = encodeAll (messages.drop j)

/-- What is known after reading a header: at a header with a body that goes
unread, and where none came, the worker still stands between two messages. -/
structure Answered (messages : List Message) (id : MsgId) (result : Except ErrorCode Bytes)
    (w : PieceWorker) : Prop where
  header : ∀ got header, result = .ok got → unpackMsgHeader got = .ok header →
    Within messages header.bodyLength w ∧ (header.id ≠ id → Framed messages w)
  other : (∀ got header, result = .ok got → unpackMsgHeader got ≠ .ok header) → Framed messages w

section
variable {messages : List Message}

theorem Framed.send {w : PieceWorker} (h : Framed messages w) (request : Bytes) :
    Framed messages (w.afterSend request) := fun hc => h hc.of_append.1

theorem Within.body {n : Nat} {site : Site} {w : PieceWorker} (h : Within messages n w)
    (hs : site.expects = none) : Framed messages (w.afterRead site n) := by
  intro hc
  obtain ⟨hc, he⟩ := Clean.of_append hc
  obtain ⟨j, body, hl, hin⟩ := h hc
  have hgot := (clean_body hs).mp he
  rw [w.socket.read_incoming n] at hin
  exact ⟨j, (List.append_inj hin (hgot.trans hl.symm)).2⟩

theorem Framed.answered {id : MsgId} {site : Site} {w : PieceWorker} (h : Framed messages w)
    (hs : site.expects = some id) :
    Answered messages id (w.socket.read MsgHeader.sizeInBytes).1
      (w.afterRead site MsgHeader.sizeInBytes) := by
  have hin := w.socket.read_incoming MsgHeader.sizeInBytes
  have hbody : ∀ header, unpackMsgHeader (w.socket.arriving MsgHeader.sizeInBytes) = .ok header →
      Within messages header.bodyLength (w.afterRead site MsgHeader.sizeInBytes) := by
    intro header hu hc
    obtain ⟨j, hj⟩ := h hc.of_append.1
    obtain ⟨body, hl, hrest⟩ := header_of_stream (hin.symm.trans hj) (header_length hu) hu
    rw [List.drop_drop] at hrest
    exact ⟨j + 1, body, hl, hrest⟩
  have hskip : (∀ header, unpackMsgHeader (w.socket.arriving MsgHeader.sizeInBytes) = .ok header →
      header.id ≠ id) → Framed messages (w.afterRead site MsgHeader.sizeInBytes) := by
    intro hid hc
    obtain ⟨hc', he⟩ := Clean.of_append hc
    obtain ⟨j, hj⟩ := h hc'
    rw [hj] at hin
    rcases (clean_header hs).mp he with he | he | ⟨header, hu, he | he⟩
    · rw [he] at hin
      exact ⟨j, hin.symm⟩
    · rw [he] at hin
      have hrest := keepAlive_of_stream hin.symm
      rw [List.drop_drop] at hrest
      exact ⟨j + 1, hrest⟩
    · exact absurd he (hid header hu)
    · obtain ⟨j', body, hl, hrest⟩ := hbody header hu hc
      rw [he] at hl
      rw [List.length_eq_zero_iff.mp hl] at hrest
      exact ⟨j', hrest⟩
  constructor
  · intro got header hr hu
    obtain ⟨rfl, _⟩ := Socket.read_ok hr
    refine ⟨hbody header hu, fun hid => hskip fun header' hu' => ?_⟩
    rw [hu] at hu'
    cases hu'
    exact hid
  · intro hnone
    exact hskip fun header hu => absurd hu (hnone _ header (read_of_header hu))

theorem Answered.error {id : MsgId} {w : PieceWorker} (h : Framed messages w) (e : ErrorCode) :
    Answered messages id (.error e) w where
  header _ _ hr := by cases hr
  other _ := h

/-! ## Transfers -/

theorem read_answered {id : MsgId} {site : Site} (hs : site.expects = some id) :
    Triple (Framed messages) (read site MsgHeader.sizeInBytes) (Answered messages id)
      (fun _ => Framed messages) := fun _ hw => hw.answered hs

theorem exchange_answered {id : MsgId} {site : Site} (hs : site.expects = some id)
    (request : Bytes) : Triple (Framed messages) (exchange site request MsgHeader.sizeInBytes)
      (Answered messages id) (fun _ => Framed messages) :=
  triple_exchange (fun _ hw => hw.send request) (fun _ hw => hw.answered hs) fun _ e hw => .error hw e

theorem headerOf_answered {id : MsgId} (peer : String) (result : Except ErrorCode Bytes) :
    Triple (Answered messages id result) (headerOf peer result)
      (fun header w => Within messages header.bodyLength w ∧ (header.id ≠ id → Framed messages w))
      (fun _ => Framed messages) := by
  refine .intro (fun w header w' hw h => ?_) fun w e w' hw h => ?_
  · obtain ⟨msg, hr, hu, rfl⟩ := headerOf_ok h
    exact hw.header msg header hr hu
  · cases result with
    | error e' =>
      cases h
      exact hw.other nofun
    | ok msg =>
      have hstep : orThrow (unexpectedAnswer peer) (unpackMsgHeader msg) w = .error e w' := h
      cases hu : unpackMsgHeader msg with
      | ok header =>
        rw [hu] at hstep
        cases hstep
      | error e' =>
        rw [hu] at hstep
        cases hstep
        refine hw.other fun got header hr => ?_
        cases hr
        rw [hu]
        nofun

theorem read_body {site : Site} (hs : site.expects = none) (n : Nat) :
    Triple (Within messages n) (read site n) (fun _ => Framed messages)
      (fun _ => Framed messages) := fun _ hw => hw.body hs

theorem framed_haveOf {site : Site} (hs : site.expects = none) (n : Nat) :
    Triple (Within messages n) (haveOf site n) (fun _ => Framed messages)
      (fun _ => Framed messages) :=
  (read_body hs n).bind fun _ => (keeps_orThrow _ _).bind fun _ => keeps_orThrow _ _

theorem framed_waitHave : Keeps (Framed messages) waitHave := by
  refine (read_answered rfl).bind fun result => .ite (fun hr => ?_) fun _ => ?_
  · exact .pure _ fun w hw => hw.other (by rw [hr]; nofun)
  refine (headerOf_answered _ _).bind fun response => .ite (fun _ => ?_) fun hid => ?_
  · refine ((framed_haveOf rfl _).conseq (fun _ hw => hw.1) (fun _ _ h => h) fun _ _ h => h).bind
      fun msg => .bind (R := fun _ => Framed messages) (.modify fun _ hw => hw) fun _ => ?_
    exact .pure _ fun _ h => h
  · refine ((keeps_throwIf _ _).conseq (fun _ hw => hw.2 hid) (fun _ _ h => h)
      fun _ _ h => h).bind fun _ => .pure _ fun _ h => h

theorem framed_fetchBlock (pieceIdx pieceLen receivedBytes : Nat) :
    Keeps (Framed messages) (fetchBlock pieceIdx pieceLen receivedBytes) := by
  refine .reading fun w _ => (exchange_answered rfl _).bind fun _ => ?_
  refine (headerOf_answered _ _).bind fun header => ?_
  refine .bind (R := fun _ => Within messages header.bodyLength) ?_ fun _ => ?_
  · exact .ite (fun hid => .throw _ fun _ hw => hw.2 hid) fun _ => .pure _ fun _ hw => hw.1
  refine (read_body rfl _).bind fun _ => (keeps_orThrow _ _).bind fun _ => ?_
  refine (keeps_orThrow _ _).bind fun msg => .bind (R := fun _ => Framed messages) ?_ fun _ =>
    .pure _ fun _ h => h
  refine .modify fun w hw => ?_
  show Framed messages (w.afterWrite msg.block)
  unfold Framed
  rw [PieceWorker.afterWrite_log, PieceWorker.afterWrite_socket]
  exact hw

/-- Once the connection is established a transfer does not set it up again. -/
theorem framed_fetchPiece (sha1 : Bytes → Digest) (pieceIdx : Nat) :
    Triple (fun w => Framed messages w ∧ w.isPeerConnectionEstablished = true)
      (fetchPiece sha1 pieceIdx) (fun _ => Framed messages) (fun _ => Framed messages) := by
  refine .bind (R := fun _ => Framed messages) (.reading fun w hw => ?_) fun _ => ?_
  · exact .ite (fun hn => absurd hw.2 (by simpa using hn)) fun _ => .pure _ fun _ h => h.1
  refine .reading fun w _ => (keeps_orThrow _ _).bind fun len => ?_
  refine (keeps_fetchBlocks (fun _ => framed_fetchBlock _ _ _) _ _).bind fun _ => ?_
  refine (keeps_throwIf _ _).bind fun _ => .modify fun w hw hc => ?_
  exact hw hc.of_append.1

theorem established_kept : Kept (fun _ => True) fun w => w.isPeerConnectionEstablished = true :=
  ⟨fun _ _ _ _ h => h, fun _ _ h => h, fun _ _ h => h⟩

theorem framed_takeHavePieceIdx : Keeps (Framed messages) takeHavePieceIdx :=
  keeps_takeHavePieceIdx fun _ _ h => h

theorem framed_downloadPiece (sha1 : Bytes → Digest) (pieceIdx : Nat) :
    Triple (fun w => Framed messages w ∧ w.isPeerConnectionEstablished = true)
      (downloadPiece sha1 pieceIdx) (fun _ => Framed messages) (fun _ => Framed messages) := by
  have take : Triple (fun w => Framed messages w ∧ w.isPeerConnectionEstablished = true)
      takeHavePieceIdx (fun _ w => Framed messages w ∧ w.isPeerConnectionEstablished = true)
      (fun _ => Framed messages) :=
    (framed_takeHavePieceIdx.and established_kept.keeps_takeHavePieceIdx).conseq (fun _ h => h)
      (fun _ _ h => h) fun _ _ h => h.1
  refine .bind (R := fun _ w => Framed messages w ∧ w.isPeerConnectionEstablished = true)
    (.modify fun _ h => h) fun _ => .reading fun w _ => ?_
  refine .ite (fun _ => take.bind fun _ => framed_fetchPiece sha1 _) fun _ => ?_
  refine .ite (fun _ => ?_) fun _ => framed_fetchPiece sha1 _
  refine ((framed_waitHave.and (established_kept.keeps_waitHave trivial trivial)).conseq
    (fun _ h => h) (fun _ _ h => h) fun _ _ h => h.1).bind fun _ => ?_
  exact .ite (fun _ => take.bind fun _ => framed_fetchPiece sha1 _) fun _ => .pure _ fun _ h => h.1

theorem established_downloadPiece (sha1 : Bytes → Digest) (pieceIdx : Nat) :
    Keeps (fun w => w.isPeerConnectionEstablished = true) (downloadPiece sha1 pieceIdx) := by
  refine established_kept.keeps_downloadPiece ⟨fun _ h => h, fun w block h => ?_, fun _ _ h => h⟩
    (.reading fun w hw => ?_) pieceIdx
  · rw [PieceWorker.afterWrite_established]
    exact h
  · exact .ite (fun hn => absurd hw (by simpa using hn)) fun _ => .pure _ fun _ h => h

/-! ## Setting up -/

/-- The handshake of the program asks for one of the same size. -/
theorem framed_doHandshake {handshake : Bytes} (sha1 : Bytes → Digest)
    (hl : handshake.length = PeerHandshakeMsg.size) :
    Triple (fun w => w.socket.incoming = handshake ++ encodeAll messages) (doHandshake sha1)
      (fun _ => Framed messages) (fun _ _ => True) := by
  refine .intro (fun w _ w' hw h => ?_) fun _ _ _ _ _ => trivial
  obtain ⟨_, packed, got, _, _, hsize, hread, _⟩ := doHandshake_ok h
  obtain ⟨hlen, hgot, hw'⟩ := read_ok hread
  have hin := (w.afterSend packed).socket.read_incoming packed.length
  have hsame : (w.afterSend packed).socket.incoming = handshake ++ encodeAll messages := hw
  rw [hsame, ← hgot] at hin
  have hafter := (List.append_inj hin (hl.trans (hlen.trans hsize).symm)).2
  intro _
  refine ⟨0, ?_⟩
  rw [hw']
  exact hafter.symm

theorem framed_doBitfieldOrUnchoke : Keeps (Framed messages) doBitfieldOrUnchoke := by
  refine (read_answered rfl).bind fun _ => (headerOf_answered _ _).bind fun answer => ?_
  refine .ite (fun _ => ?_) fun hid => .ite (fun _ => .pure _ fun _ hw => hw.2 hid) fun _ =>
    .throw _ fun _ hw => hw.2 hid
  refine ((read_body rfl _).conseq (fun _ hw => hw.1) (fun _ _ h => h) fun _ _ h => h).bind
    fun _ => .bind (keeps_orThrow _ _) fun _ => .pure _ fun _ h => h

theorem framed_doInterested : Keeps (Framed messages) doInterested := by
  refine (exchange_answered rfl _).bind fun _ => (headerOf_answered _ _).bind fun response => ?_
  refine .ite (fun _ => ?_) fun hid =>
    (keeps_throwIf _ _).conseq (fun _ hw => hw.2 hid) (fun _ _ h => h) fun _ _ h => h
  refine ((framed_haveOf rfl _).conseq (fun _ hw => hw.1) (fun _ _ h => h) fun _ _ h => h).bind
    fun msg => .modify fun _ hw => hw

theorem framed_connectToPeer {handshake : Bytes} (sha1 : Bytes → Digest)
    (hl : handshake.length = PeerHandshakeMsg.size) :
    Triple (fun w => w.socket.incoming = handshake ++ encodeAll messages) (connectToPeer sha1)
      (fun _ => Framed messages) (fun _ _ => True) := by
  have weaken : ∀ {α : Type} {x : Session α}, Keeps (Framed messages) x →
      Triple (Framed messages) x (fun _ => Framed messages) (fun _ _ => True) :=
    fun h => h.conseq (fun _ h => h) (fun _ _ h => h) fun _ _ _ => trivial
  refine ((keeps_connect fun _ h => h).conseq (fun _ h => h) (fun _ _ h => h)
    fun _ _ _ => trivial).bind fun _ => ?_
  refine (framed_doHandshake sha1 hl).bind fun _ => ?_
  refine (weaken framed_doBitfieldOrUnchoke).bind fun _ => (weaken framed_doInterested).bind fun _ => ?_
  exact .modify fun _ h => h

/-! ## Runs -/

theorem consumed_kept (stream : Bytes) :
    Kept (fun _ => True) fun w => stream = consumed w.log ++ w.socket.incoming where
  read w site length _ h := by
    rw [h, w.socket.read_incoming length]
    simp [consumed, PieceWorker.afterRead, Event.consumed]
  send w request h := by
    rw [h]
    simp [consumed, PieceWorker.afterSend, Event.consumed, Socket.write]
  havePieceIdx _ _ h := h

theorem consumed_connect (stream : Bytes) :
    KeptByConnect fun w => stream = consumed w.log ++ w.socket.incoming :=
  ⟨fun _ h => h, fun _ h => h, fun _ h => h⟩

theorem consumed_transfer (stream : Bytes) :
    KeptByTransfer fun w => stream = consumed w.log ++ w.socket.incoming where
  clear _ h := h
  write w block h := by
    rw [PieceWorker.afterWrite_log, PieceWorker.afterWrite_socket]
    exact h
  complete w pieceIdx h := by
    rw [h]
    simp [consumed, Event.consumed]

end

/-- A connected worker, its connection and where it stands on it. -/
structure OnStream (socket : Socket) (w : PieceWorker) : Prop where
  established : w.isPeerConnectionEstablished = true
  stream : socket.incoming = consumed w.log ++ w.socket.incoming
  framed : ∀ handshake messages, handshake.length = PeerHandshakeMsg.size →
    socket.incoming = handshake ++ encodeAll messages → Framed messages w

section
variable {sha1 : Bytes → Digest} {makeAddress : Bytes → Except Exception Unit}
  {metainfo : Metainfo} {peers : List (Bytes × Socket)}

theorem OnStream.connected {socket : Socket} {peerIp : String} {peerPort : Nat} {w : PieceWorker}
    (h : connectToPeer sha1 (.new metainfo peerIp peerPort socket) = .ok () w) :
    OnStream socket w where
  established := (connectToPeer_established sha1).ok rfl h
  stream := ((consumed_kept _).keeps_connectToPeer (consumed_connect _) (fun _ _ => trivial)
    sha1).ok rfl h
  framed _ _ hl hs := (framed_connectToPeer sha1 hl).ok hs h

theorem OnStream.transfer {socket : Socket} {pieceIdx : Nat} :
    Keeps (OnStream socket) (downloadPiece sha1 pieceIdx) := by
  have hstream := (consumed_kept socket.incoming).keeps_downloadPiece
    (consumed_transfer socket.incoming)
    ((consumed_kept _).keeps_ensureConnected (consumed_connect _) (fun _ _ => trivial) sha1) pieceIdx
  have hest := established_downloadPiece sha1 pieceIdx
  refine .intro (fun w _ w' hw h => ⟨hest.ok hw.established h, hstream.ok hw.stream h, ?_⟩)
    fun w _ w' hw h => ⟨hest.error hw.established h, hstream.error hw.stream h, ?_⟩
  · exact fun handshake messages hl hs =>
      (framed_downloadPiece sha1 pieceIdx).ok ⟨hw.framed _ _ hl hs, hw.established⟩ h
  · exact fun handshake messages hl hs =>
      (framed_downloadPiece sha1 pieceIdx).error ⟨hw.framed _ _ hl hs, hw.established⟩ h

/-- Whenever a round starts, a worker whose reads were clean so far has taken
the handshake and a number of whole messages off the stream of its peer. -/
theorem framing_of_clean {n k : Nat} {shuffled : Shuffled n} {files : Nat → Option Bytes}
    {out : Bytes} {d : Download PieceWorker} {w : Worker PieceWorker}
    (h : DownloadFile.Reaches sha1 makeAddress metainfo peers shuffled files out k d)
    (hw : w ∈ d.workers) :
    ∃ peer ∈ peers, peer.2.incoming = consumed w.body.log ++ w.body.socket.incoming ∧
      ∀ handshake messages, handshake.length = PeerHandshakeMsg.size →
        peer.2.incoming = handshake ++ encodeAll messages → Clean w.body.log →
        ∃ j, consumed w.body.log = handshake ++ encodeAll (messages.take j) := by
  obtain ⟨pieces, workers, _, _, hsetup, _, hheads⟩ := h
  have hkeeps : ∀ pieceIdx, Keeps (fun b => ∃ peer ∈ peers, OnStream peer.2 b)
      (downloadPiece sha1 pieceIdx) := by
    intro pieceIdx
    refine .intro ?_ ?_
    · rintro _ _ _ ⟨peer, hp, hs⟩ hx
      exact ⟨peer, hp, OnStream.transfer.ok hs hx⟩
    · rintro _ _ _ ⟨peer, hp, hs⟩ hx
      exact ⟨peer, hp, OnStream.transfer.error hs hx⟩
  obtain ⟨peer, hp, hs⟩ := keeps_heads hsetup
    (fun peer hp _ _ _ hc => ⟨peer, hp, .connected hc⟩) hkeeps hheads w hw
  refine ⟨peer, hp, hs.stream, fun handshake messages hl hstream hclean => ?_⟩
  obtain ⟨j, hj⟩ := hs.framed handshake messages hl hstream hclean
  have hall : consumed w.body.log ++ w.body.socket.incoming =
      handshake ++ encodeAll (messages.take j) ++ w.body.socket.incoming :=
    calc consumed w.body.log ++ w.body.socket.incoming
        = handshake ++ encodeAll messages := hs.stream.symm.trans hstream
      _ = handshake ++ encodeAll (messages.take j ++ messages.drop j) := by
        rw [List.take_append_drop]
      _ = handshake ++ encodeAll (messages.take j) ++ w.body.socket.incoming := by
        rw [hj, encodeAll, List.flatMap_append, List.append_assoc]
        rfl
  exact ⟨j, List.append_cancel_right hall⟩

end

def loneHandshake : Bytes :=
  19 :: ascii "BitTorrent protocol" ++ List.replicate 8 0 ++ List.replicate 20 62 ++
    List.replicate 20 48

/-- A peer that sends these messages without a pause and then closes the connection. -/
def sending (messages : List Message) : Socket where
  isOpen := false
  incoming := loneHandshake ++ encodeAll messages
  events _ := ⟨none, 1000, .eof⟩

/-- Have instead of a plain Unchoke puts the worker into have mode. -/
def answers : List Message :=
  [.message .unchoke [] (by decide), .message .have [0, 0, 0, 0] (by decide)]

def pieceMessage : Message := .message .piece [0, 0, 0, 0, 0, 0, 0, 0, 7] (by decide)

private theorem loneHead_clean : ((loneHead (sending (answers ++ [pieceMessage]))).map fun d =>
    d.workers.map fun w => decide (Clean w.body.log)) = .ok [true] := by decide +kernel

theorem framing_of_clean_lone : ∃ d w,
    DownloadFile.Reaches lengthDigest (fun _ => .ok ()) onePiece
      (lonePeer (sending (answers ++ [pieceMessage]))) loneShuffled (fun _ => none) [] 1 d ∧
    w ∈ d.workers ∧
    ∃ j, consumed w.body.log = loneHandshake ++ encodeAll ((answers ++ [pieceMessage]).take j) := by
  obtain ⟨d, hd, h⟩ := except_map_eq_ok.mp loneHead_clean
  obtain ⟨w, hw, hclean⟩ := List.map_eq_singleton_iff.mp h
  have hmem : w ∈ d.workers := by simp [hw]
  have hreach := reaches_of_loneHead hd (List.ne_nil_of_mem hmem)
  obtain ⟨peer, hp, _, hframed⟩ := framing_of_clean hreach hmem
  obtain rfl := List.mem_singleton.mp hp
  exact ⟨d, w, hreach, hmem, hframed loneHandshake _ rfl rfl (of_decide_eq_true hclean)⟩

private theorem loneHead_keepAlive :
    ((loneHead (sending (answers ++ [.keepAlive, pieceMessage]))).map fun d =>
      (d.workers.map fun w => (consumed w.body.log).length, d.store.piecesToDownload)) =
    .ok ([87], [0]) := by decide +kernel

/-- A keep-alive where a header is read, and the worker starts its next transfer
one byte into the message behind it. -/
theorem framing_lost :
    ¬ ∀ (sha1 : Bytes → Digest) (makeAddress : Bytes → Except Exception Unit)
      (torrentContent : Bytes) (metainfo : Metainfo) (address : Bytes) (socket : Socket)
      (handshake : Bytes) (messages : List Message) (n : Nat) (shuffled : Shuffled n)
      (files : Nat → Option Bytes) (out : Bytes) (k : Nat) (d : Download PieceWorker),
      fromFile torrentContent true = .value metainfo →
      handshake.length = PeerHandshakeMsg.size →
      socket.incoming = handshake ++ encodeAll messages →
      DownloadFile.Reaches sha1 makeAddress metainfo [(address, socket)] shuffled files out k d →
      ∀ t ∈ d.transfers, ∃ j,
        consumed t.1.body.log = handshake ++ encodeAll (messages.take j) := by
  intro hall
  obtain ⟨d, hd, h⟩ := except_map_eq_ok.mp loneHead_keepAlive
  obtain ⟨hworkers, hpieces⟩ := Prod.mk.inj h
  obtain ⟨w, hw, hlen⟩ := List.map_eq_singleton_iff.mp hworkers
  have hreach := reaches_of_loneHead hd (by simp [hw])
  have ht : (w, 0) ∈ d.transfers := by simp [Download.transfers, hw, hpieces]
  obtain ⟨j, hj⟩ := hall _ _ _ _ _ _ loneHandshake _ _ _ _ _ _ _ fromFile_onePiece rfl rfl
    hreach _ ht
  have hsize := congrArg List.length hj
  rw [hlen] at hsize
  -- whole messages end at 68, 73, 82, 86 and 100
  rcases j with _ | _ | _ | _ | j
  · exact absurd hsize (by decide +kernel)
  · exact absurd hsize (by decide +kernel)
  · exact absurd hsize (by decide +kernel)
  · exact absurd hsize (by decide +kernel)
  · rw [List.take_of_length_le (by simp [answers])] at hsize
    exact absurd hsize (by decide +kernel)

end Bittorrent.Client
