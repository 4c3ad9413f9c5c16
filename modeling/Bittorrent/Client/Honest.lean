import Bittorrent.Client.BlockLoop
import Bittorrent.Client.PeerHandshake

/-! A session with an honest peer: it answers the handshake with its own, says
what it has, admits the worker and answers every request with some of the bytes
it asks for. Both ends of a worker's life against it come out as they should
(`connectToPeer_opening`, `downloadPiece_serves`). -/

namespace Bittorrent.Client

open Lib.Exec Misc Net Proto Torrent

/-- What reads and writes leave alone. -/
structure Alike (w w' : PieceWorker) : Prop where
  metainfo : w'.metainfo = w.metainfo
  buffer : w'.buffer = w.buffer
  ostream : w'.ostream = w.ostream
  haveMode : w'.haveMode = w.haveMode
  havePieceIdx : w'.havePieceIdx = w.havePieceIdx
  established : w'.isPeerConnectionEstablished = w.isPeerConnectionEstablished

theorem Alike.trans {w w' w'' : PieceWorker} (h : Alike w w') (h' : Alike w' w'') : Alike w w'' where
  metainfo := h'.metainfo.trans h.metainfo
  buffer := h'.buffer.trans h.buffer
  ostream := h'.ostream.trans h.ostream
  haveMode := h'.haveMode.trans h.haveMode
  havePieceIdx := h'.havePieceIdx.trans h.havePieceIdx
  established := h'.established.trans h.established

theorem Alike.afterRead (w : PieceWorker) (site : Site) (length : Nat) :
    Alike w (w.afterRead site length) := ⟨rfl, rfl, rfl, rfl, rfl, rfl⟩

theorem Alike.afterSend (w : PieceWorker) (request : Bytes) : Alike w (w.afterSend request) :=
  ⟨rfl, rfl, rfl, rfl, rfl, rfl⟩

/-- The worker is where `rest` is left of its stream. -/
structure Before (rest : Bytes) (w w' : PieceWorker) : Prop where
  alike : Alike w w'
  prompt : w'.socket.Prompt
  incoming : w'.socket.incoming = rest

theorem Before.trans {rest rest' : Bytes} {w w' w'' : PieceWorker} (h : Before rest w w')
    (h' : Before rest' w' w'') : Before rest' w w'' :=
  ⟨h.alike.trans h'.alike, h'.prompt, h'.incoming⟩

/-! ## Setting up -/

section
variable {w : PieceWorker} {rest : Bytes}

theorem read_front {got : Bytes} (hw : w.socket.Prompt) (hin : w.socket.incoming = got ++ rest)
    (site : Site) : ∃ w', read site got.length w = .ok (.ok got) w' ∧ Before rest w w' := by
  obtain ⟨hgot, hrest⟩ := hw.read_front hin
  refine ⟨w.afterRead site got.length, ?_, .afterRead w site _, hw.read _, hrest⟩
  rw [read_eq, hgot]

theorem exchange_front {got : Bytes} (hw : w.socket.Prompt) (hin : w.socket.incoming = got ++ rest)
    (site : Site) (request : Bytes) :
    ∃ w', exchange site request got.length w = .ok (.ok got) w' ∧ Before rest w w' := by
  obtain ⟨w', hread, hb⟩ := @read_front (w.afterSend request) rest got hw.write hin site
  refine ⟨w', ?_, (Alike.afterSend w request).trans hb.alike, hb.prompt, hb.incoming⟩
  rw [exchange_of_written hw.isOpen (hw.written 0), hread]

theorem headerOf_packMsgHeader (peer : String) (id : MsgId) {n : Nat} (h : n + 1 < 2 ^ 32)
    (w : PieceWorker) : headerOf peer (.ok (packMsgHeader id (n + 1))) w = .ok ⟨id, n⟩ w := by
  refine (bind_of_ok (orThrow_of_ok _ _ w)).trans ?_
  rw [unpackMsgHeader_packMsgHeader id h]
  rfl

/-- What a peer may say before it is told that the worker is interested. -/
inductive Greeting : Bytes → Prop where
  | bitfield (bits : Bytes) : bits.length + 1 < 2 ^ 32 →
      Greeting (packMsgHeader .bitfield (bits.length + 1) ++ bits)
  | unchoke : Greeting packUnchokeMsg

theorem doBitfieldOrUnchoke_greeting {greeting : Bytes} (hg : Greeting greeting)
    (hw : w.socket.Prompt) (hin : w.socket.incoming = greeting ++ rest) :
    ∃ w', doBitfieldOrUnchoke w = .ok () w' ∧ Before rest w w' := by
  cases hg with
  | bitfield bits hbits =>
    rw [List.append_assoc] at hin
    obtain ⟨w₁, hheader, hb₁⟩ := read_front hw hin .bitfield
    obtain ⟨w₂, hbody, hb₂⟩ := read_front hb₁.prompt hb₁.incoming .bitfieldBody
    refine ⟨w₂, ?_, hb₁.trans hb₂⟩
    refine (bind_of_ok hheader).trans ?_
    refine (bind_of_ok (headerOf_packMsgHeader "" .bitfield hbits w₁)).trans ?_
    refine (bind_of_ok hbody).trans ?_
    rfl
  | unchoke =>
    obtain ⟨w₁, hheader, hb₁⟩ := read_front hw hin .bitfield
    refine ⟨w₁, ?_, hb₁⟩
    refine (bind_of_ok hheader).trans ?_
    exact (bind_of_ok (headerOf_packMsgHeader "" .unchoke (by decide) w₁)).trans rfl

theorem doInterested_unchoke (hw : w.socket.Prompt)
    (hin : w.socket.incoming = packUnchokeMsg ++ rest) :
    ∃ w', doInterested w = .ok () w' ∧ Before rest w w' := by
  obtain ⟨w₁, hheader, hb₁⟩ := exchange_front hw hin .interested packInterestedMsg
  refine ⟨w₁, ?_, hb₁⟩
  refine (bind_of_ok hheader).trans ?_
  exact (bind_of_ok (headerOf_packMsgHeader "" .unchoke (by decide) w₁)).trans rfl

/-- A whole handshake in front of the stream. -/
theorem doHandshake_front {sha1 : Bytes → Digest} {answer hash : Bytes} (hw : w.socket.Prompt)
    (hin : w.socket.incoming = answer ++ rest) (hhash : w.metainfo.hash sha1 = .ok hash)
    (hsize : answer.length = PeerHandshakeMsg.size) (ha : Acceptable answer hash) :
    ∃ w', doHandshake sha1 w = .ok () w' ∧ Before rest w w' := by
  have hhead : ((answer ++ rest).headD 0) = answer.headD 0 := by
    cases answer with
    | nil => cases hsize
    | cons b answer => rfl
  have hwhole : Acceptable (answer ++ rest) hash := by
    refine ⟨?_, ?_, ?_⟩
    · rw [List.length_append]
      exact Nat.le_trans ha.length (Nat.le_add_right _ _)
    · rw [hhead]
      exact ha.header
    · rw [hashIn_append ha.length ha.header]
      exact ha.hash
  have hanswering : Answering w.socket (answer ++ rest) :=
    ⟨hw.isOpen, hin, hw.written 0, hin ▸ hw.arrived 1⟩
  obtain ⟨w', hw'⟩ := doHandshake_of_acceptable hanswering hhash hwhole
  obtain ⟨_, packed, got, _, _, hpacked, hread, _⟩ := doHandshake_ok hw'
  obtain ⟨w₁, hfront, hb⟩ := @read_front (w.afterSend packed) rest answer hw.write hin .handshake
  rw [hpacked, ← hsize, hfront] at hread
  obtain ⟨-, rfl⟩ := EStateM.Result.ok.inj hread
  exact ⟨w₁, hw', (Alike.afterSend w packed).trans hb.alike, hb.prompt, hb.incoming⟩

/-- What an honest peer sends until it waits for requests. -/
structure Opening (hash opening : Bytes) : Prop where
  parts : ∃ answer greeting, opening = answer ++ (greeting ++ packUnchokeMsg) ∧
    answer.length = PeerHandshakeMsg.size ∧ Acceptable answer hash ∧ Greeting greeting

/-- A connection that succeeds and is prompt from then on. -/
structure Reachable (s : Socket) : Prop where
  connect : s.connect.1 = none
  prompt : s.connect.2.Prompt

theorem connect_of_reachable (hw : Reachable w.socket) :
    connect w = .ok () { w with socket := w.socket.connect.2 } := by
  unfold connect
  rw [hw.connect]

/-- A connection that was set up, in normal mode. -/
structure SetUp (rest : Bytes) (w w' : PieceWorker) : Prop where
  metainfo : w'.metainfo = w.metainfo
  ostream : w'.ostream = w.ostream
  haveMode : w'.haveMode = w.haveMode
  havePieceIdx : w'.havePieceIdx = w.havePieceIdx
  established : w'.isPeerConnectionEstablished = true
  prompt : w'.socket.Prompt
  incoming : w'.socket.incoming = rest

/-- Against an honest peer the connection is set up, and what the peer sends
after that is untouched. -/
theorem connectToPeer_opening {sha1 : Bytes → Digest} {hash opening : Bytes}
    (hw : Reachable w.socket) (hhash : w.metainfo.hash sha1 = .ok hash)
    (hopening : Opening hash opening) (hin : w.socket.incoming = opening ++ rest) :
    ∃ w', connectToPeer sha1 w = .ok () w' ∧ SetUp rest w w' := by
  obtain ⟨answer, greeting, rfl, hsize, ha, hg⟩ := hopening.parts
  rw [List.append_assoc, List.append_assoc] at hin
  obtain ⟨w₂, hhandshake, hb₂⟩ := @doHandshake_front { w with socket := w.socket.connect.2 } _ sha1
    answer hash hw.prompt hin hhash hsize ha
  obtain ⟨w₃, hbitfield, hb₃⟩ := doBitfieldOrUnchoke_greeting hg hb₂.prompt hb₂.incoming
  obtain ⟨w₄, hinterested, hb₄⟩ := doInterested_unchoke hb₃.prompt hb₃.incoming
  have hb := (hb₂.trans hb₃).trans hb₄
  refine ⟨{ w₄ with isPeerConnectionEstablished := true }, ?_, ?_⟩
  · refine (bind_of_ok (connect_of_reachable hw)).trans ?_
    refine (bind_of_ok hhandshake).trans ?_
    exact (bind_of_ok hbitfield).trans ((bind_of_ok hinterested).trans rfl)
  · exact ⟨hb.alike.metainfo, hb.alike.ostream, hb.alike.haveMode, hb.alike.havePieceIdx, rfl,
      hb.prompt, hb.incoming⟩

end

/-! ## Transfers -/

/-- A connected worker in normal mode with nothing announced, and whether it has
an external stream. -/
structure Serving (metainfo : Metainfo) (external : Bool) (w : PieceWorker) : Prop where
  metainfo : w.metainfo = metainfo
  external : w.ostream.isSome = external
  established : w.isPeerConnectionEstablished = true
  haveMode : w.haveMode = false
  prompt : w.socket.Prompt

theorem serving_kept (metainfo : Metainfo) (external : Bool) :
    Kept (fun _ => True) (Serving metainfo external) where
  read _ _ length _ h := ⟨h.metainfo, h.external, h.established, h.haveMode, h.prompt.read length⟩
  send _ _ h := ⟨h.metainfo, h.external, h.established, h.haveMode, h.prompt.write⟩
  havePieceIdx _ _ h := ⟨h.metainfo, h.external, h.established, h.haveMode, h.prompt⟩

theorem PieceWorker.afterWrite_external (w : PieceWorker) (block : Bytes) :
    (w.afterWrite block).ostream.isSome = w.ostream.isSome := by
  unfold afterWrite
  split
  · rfl
  · next out ho => rw [ho]; rfl

theorem Serving.afterWrite {metainfo : Metainfo} {external : Bool} {w : PieceWorker}
    (h : Serving metainfo external w) (block : Bytes) :
    Serving metainfo external (w.afterWrite block) where
  metainfo := (w.afterWrite_metainfo block).trans h.metainfo
  external := (w.afterWrite_external block).trans h.external
  established := (w.afterWrite_established block).trans h.established
  haveMode := (w.afterWrite_haveMode block).trans h.haveMode
  prompt := by
    rw [w.afterWrite_socket block]
    exact h.prompt

/-- What a peer sends that has the pieces, as it is asked for one after another. -/
def serveAll (content : Nat → Bytes) (choose : Nat → Nat → Nat → Nat) (pieces : List Nat) : Bytes :=
  pieces.flatMap fun i => repliesFrom i (content i) (choose i) (content i).length 0 0

/-- The peer sends at least one byte of those it is asked for, and no others. -/
def Chooses (choose : Nat → Nat → Nat) : Prop :=
  ∀ pass length, 1 ≤ length → 1 ≤ choose pass length ∧ choose pass length ≤ length

section
variable {metainfo : Metainfo} {external : Bool} {sha1 : Bytes → Digest} {i : Nat} {len : Int}
  {content rest : Bytes} {choose : Nat → Nat → Nat} {w : PieceWorker}

theorem fetchPiece_serves (sha1 : Bytes → Digest) (hw : Serving metainfo external w)
    (hlen : pieceLen metainfo i = .ok len) (hcontent : content.length = sizeT len)
    (hL : content.length ≤ 2 ^ 32) (hchoose : Chooses choose)
    (hin : w.socket.incoming = repliesFrom i content choose content.length 0 0 ++ rest) :
    ∃ w', fetchPiece sha1 i w = .ok () w' ∧ Serving metainfo external w' ∧
      w'.havePieceIdx = none ∧ w'.lastPieceIdx = i ∧ w'.socket.incoming = rest ∧
      w'.output = w.output ++ content := by
  obtain ⟨w₁, es, hrun, hout, hrest, _⟩ := fetchBlocks_repliesFrom hL hchoose content.length
    (Nat.zero_le _) (Nat.le_refl _) hw.prompt hin (Nat.lt_succ_self w.socket.incoming.length)
  have hserving : Serving metainfo external w₁ :=
    (keeps_fetchBlocks (fun n => (serving_kept metainfo external).keeps_fetchBlock
      (fun v block hv => hv.afterWrite block) trivial trivial content.length n) _ 0).ok hw hrun
  have hconnected : ensureConnected sha1 w = .ok () w := by
    refine (get_bind _ w).trans ?_
    rw [hw.established]
    rfl
  refine ⟨{ w₁ with
    lastPieceIdx := i
    havePieceIdx := none
    log := w₁.log ++ [.completed i] }, ?_, ?_, rfl, rfl, hrest, ?_⟩
  · refine (bind_of_ok hconnected).trans ((get_bind _ w).trans ?_)
    rw [hw.metainfo, hlen]
    refine (bind_of_ok (orThrow_of_ok id len w)).trans ?_
    rw [← hcontent]
    refine (bind_of_ok hrun).trans ?_
    exact (bind_of_ok (throwIf_of_not (not_not.mpr rfl) _ w₁)).trans rfl
  · exact ⟨hserving.metainfo, hserving.external, hserving.established, hserving.haveMode,
      hserving.prompt⟩
  · rw [List.drop_zero] at hout
    exact hout

/-- A transfer that has to connect goes on as one that is connected. -/
theorem fetchPiece_connect {w w' : PieceWorker} (hw : w.isPeerConnectionEstablished = false)
    (hconnect : connectToPeer sha1 w = .ok () w') (hw' : w'.isPeerConnectionEstablished = true) :
    fetchPiece sha1 i w = fetchPiece sha1 i w' := by
  have hbefore : ensureConnected sha1 w = .ok () w' := by
    refine (get_bind _ w).trans ?_
    rw [hw]
    exact hconnect
  have hafter : ensureConnected sha1 w' = .ok () w' := by
    refine (get_bind _ w').trans ?_
    rw [hw']
    rfl
  unfold fetchPiece
  rw [bind_of_ok hbefore, bind_of_ok hafter]

/-- Against an honest peer a transfer brings the piece it was asked for. -/
theorem downloadPiece_serves (sha1 : Bytes → Digest) (hw : Serving metainfo external w)
    (hnone : w.havePieceIdx = none)
    (hlen : pieceLen metainfo i = .ok len) (hcontent : content.length = sizeT len)
    (hL : content.length ≤ 2 ^ 32) (hchoose : Chooses choose)
    (hin : w.socket.incoming = repliesFrom i content choose content.length 0 0 ++ rest) :
    ∃ w', downloadPiece sha1 i w = .ok () w' ∧ Serving metainfo external w' ∧
      w'.havePieceIdx = none ∧ w'.lastPieceIdx = i ∧ w'.socket.incoming = rest ∧
      w'.output = { w with buffer := [] }.output ++ content := by
  have hcleared : Serving metainfo external { w with buffer := [] } :=
    ⟨hw.metainfo, hw.external, hw.established, hw.haveMode, hw.prompt⟩
  have hstep : downloadPiece sha1 i w = fetchPiece sha1 i { w with buffer := [] } := by
    show (if w.havePieceIdx.isSome then takeHavePieceIdx >>= fetchPiece sha1
      else if w.haveMode then do
        let announced ← waitHave
        if announced then takeHavePieceIdx >>= fetchPiece sha1 else pure ()
      else fetchPiece sha1 i) { w with buffer := [] } = _
    rw [hnone, hw.haveMode]
    rfl
  rw [hstep]
  exact fetchPiece_serves sha1 hcleared hlen hcontent hL hchoose hin

end

end Bittorrent.Client
