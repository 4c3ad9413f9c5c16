import Bittorrent.Client.Piece

/-! What the functions of a session do to a worker, in two forms: `Kept` carries
a property of the worker through every function that is built from reads and
writes the property survives, and the `_ok` lemmas invert a call that returned. -/

namespace Bittorrent.Client

open Lib.Exec Misc Net Proto Torrent

namespace PieceWorker

def afterRead (w : PieceWorker) (site : Site) (length : Nat) : PieceWorker :=
  { w with
    socket := (w.socket.read length).2
    log := w.log ++ [.received site length (w.socket.arriving length)] }

def afterSend (w : PieceWorker) (request : Bytes) : PieceWorker :=
  { w with socket := w.socket.write.2, log := w.log ++ [.sent request] }

@[simp] theorem afterSend_incoming (w : PieceWorker) (request : Bytes) :
    (w.afterSend request).socket.incoming = w.socket.incoming := rfl

theorem afterRead_incoming (w : PieceWorker) (site : Site) (length : Nat) :
    w.socket.incoming = w.socket.arriving length ++ (w.afterRead site length).socket.incoming :=
  w.socket.read_incoming length

def afterWrite (w : PieceWorker) (block : Bytes) : PieceWorker :=
  match w.ostream with
  | none => { w with buffer := w.buffer ++ block }
  | some out => { w with ostream := some (out ++ block) }

@[simp] theorem afterWrite_log (w : PieceWorker) (block : Bytes) :
    (w.afterWrite block).log = w.log := by
  unfold afterWrite
  split <;> rfl

@[simp] theorem afterWrite_metainfo (w : PieceWorker) (block : Bytes) :
    (w.afterWrite block).metainfo = w.metainfo := by
  unfold afterWrite
  split <;> rfl

@[simp] theorem afterWrite_socket (w : PieceWorker) (block : Bytes) :
    (w.afterWrite block).socket = w.socket := by
  unfold afterWrite
  split <;> rfl

@[simp] theorem afterWrite_haveMode (w : PieceWorker) (block : Bytes) :
    (w.afterWrite block).haveMode = w.haveMode := by
  unfold afterWrite
  split <;> rfl

@[simp] theorem afterWrite_established (w : PieceWorker) (block : Bytes) :
    (w.afterWrite block).isPeerConnectionEstablished = w.isPeerConnectionEstablished := by
  unfold afterWrite
  split <;> rfl

theorem afterWrite_internal {w : PieceWorker} (block : Bytes) (h : w.ostream = none) :
    w.afterWrite block = { w with buffer := w.buffer ++ block } := by
  unfold afterWrite
  rw [h]

end PieceWorker

/-- A worker on an open connection on which these bytes come without a pause. -/
def openWorker (incoming : Bytes) : PieceWorker :=
  .new onePiece "127.0.0.1" 6881 ⟨true, incoming, fun _ => ⟨none, 1000, .eof⟩⟩

theorem openWorker_prompt {incoming : Bytes} (h : incoming.length ≤ 1000) :
    (openWorker incoming).socket.Prompt := ⟨rfl, fun _ => rfl, fun _ => h⟩

theorem read_eq (site : Site) (length : Nat) (w : PieceWorker) :
    read site length w = .ok (w.socket.read length).1 (w.afterRead site length) := rfl

theorem send_eq (request : Bytes) (w : PieceWorker) :
    send request w = .ok w.socket.write.1 (w.afterSend request) := rfl

/-- On an open socket whose write succeeds an exchange comes down to the read. -/
theorem exchange_of_written {w : PieceWorker} (ho : w.socket.isOpen = true)
    (hw : w.socket.write.1 = none) (site : Site) (request : Bytes) (length : Nat) :
    exchange site request length w = read site length (w.afterSend request) := by
  refine (get_bind _ w).trans ?_
  rw [if_neg (by simp [ho]), bind_of_ok (send_eq request w), hw]

/-- An exchange is a transfer on the socket of the worker. -/
theorem exchange_transfer (site : Site) (request : Bytes) (length : Nat) (w : PieceWorker) :
    ∃ w', exchange site request length w = .ok (w.socket.transfer length).1 w' ∧
      w'.socket = (w.socket.transfer length).2 := by
  unfold Socket.transfer
  cases ho : w.socket.isOpen with
  | false =>
    refine ⟨w, (get_bind _ w).trans ?_, rfl⟩
    rw [if_pos (by simp [ho])]
    rfl
  | true =>
    cases hw : w.socket.write.1 with
    | none => exact ⟨_, exchange_of_written ho hw site request length, rfl⟩
    | some e =>
      refine ⟨w.afterSend request, (get_bind _ w).trans ?_, rfl⟩
      rw [if_neg (by simp [ho]), bind_of_ok (send_eq request w), hw]
      rfl

theorem orThrow_of_ok {E α : Type} (f : E → Exception) (a : α) (w : PieceWorker) :
    orThrow f (.ok a) w = .ok a w := rfl

theorem throwIf_of_not {c : Prop} [Decidable c] (h : ¬ c) (e : Exception) (w : PieceWorker) :
    throwIf c e w = .ok () w := by
  unfold throwIf
  rw [if_neg h]
  rfl

/-! ## Inversion -/

section
variable {E α : Type} {w w' : PieceWorker}

theorem orThrow_ok {f : E → Exception} {x : Except E α} {a : α} (h : orThrow f x w = .ok a w') :
    x = .ok a ∧ w' = w := by
  cases x with
  | ok b =>
    cases h
    exact ⟨rfl, rfl⟩
  | error e => cases h

theorem throwIf_ok {c : Prop} [Decidable c] {e : Exception} {u : Unit}
    (h : throwIf c e w = .ok u w') : ¬ c ∧ w' = w := by
  unfold throwIf at h
  split at h
  · cases h
  · next hc =>
    cases h
    exact ⟨hc, rfl⟩

theorem exchange_written {site : Site} {request got : Bytes} {length : Nat}
    (h : exchange site request length w = .ok (.ok got) w') :
    w.socket.isOpen = true ∧ w.socket.write.1 = none := by
  obtain ⟨_, _, hget, h⟩ := bind_eq_ok.mp h
  cases hget
  split at h
  · cases h
  · next ho =>
    obtain ⟨written, _, hsend, h⟩ := bind_eq_ok.mp h
    obtain ⟨rfl, rfl⟩ := EStateM.Result.ok.inj (send_eq request w ▸ hsend)
    refine ⟨by simpa using ho, ?_⟩
    cases hw : w.socket.write.1 with
    | none => rfl
    | some e =>
      rw [hw] at h
      cases h

theorem exchange_ok {site : Site} {request got : Bytes} {length : Nat}
    (h : exchange site request length w = .ok (.ok got) w') :
    (read site length) (w.afterSend request) = .ok (.ok got) w' := by
  obtain ⟨ho, hw⟩ := exchange_written h
  rwa [exchange_of_written ho hw] at h

theorem read_ok {site : Site} {length : Nat} {got : Bytes}
    (h : read site length w = .ok (.ok got) w') :
    got.length = length ∧ got = w.socket.arriving length ∧ w' = w.afterRead site length := by
  rw [read_eq] at h
  obtain ⟨hr, rfl⟩ := EStateM.Result.ok.inj h
  obtain ⟨hgot, hlen⟩ := Socket.read_ok hr
  exact ⟨hlen, hgot, rfl⟩

theorem header_length {socket : Socket} {header : MsgHeader}
    (h : unpackMsgHeader (socket.arriving MsgHeader.sizeInBytes) = .ok header) :
    (socket.arriving MsgHeader.sizeInBytes).length = MsgHeader.sizeInBytes :=
  Nat.le_antisymm (socket.arriving_length_le _) (unpackMsgHeader_length h)

/-- A whole header that arrived is the result of the read. -/
theorem read_of_header {socket : Socket} {header : MsgHeader}
    (h : unpackMsgHeader (socket.arriving MsgHeader.sizeInBytes) = .ok header) :
    (socket.read MsgHeader.sizeInBytes).1 = .ok (socket.arriving MsgHeader.sizeInBytes) := by
  have hl := header_length h
  cases ho : socket.isOpen with
  | true => exact Socket.read_of_arriving ho hl
  | false =>
    rw [Socket.arriving, ho] at hl
    cases hl

theorem headerOf_ok {peer : String} {result : Except ErrorCode Bytes} {header : MsgHeader}
    (h : headerOf peer result w = .ok header w') :
    ∃ msg, result = .ok msg ∧ unpackMsgHeader msg = .ok header ∧ w' = w := by
  obtain ⟨msg, _, hr, h⟩ := bind_eq_ok.mp h
  obtain ⟨rfl, rfl⟩ := orThrow_ok hr
  obtain ⟨hu, rfl⟩ := orThrow_ok h
  exact ⟨msg, rfl, hu, rfl⟩

theorem haveOf_ok {site : Site} {bodyLength : Nat} {msg : HaveMsg}
    (h : haveOf site bodyLength w = .ok msg w') :
    ∃ body, read site bodyLength w = .ok (.ok body) w' ∧ HaveMsg.minSize ≤ body.length ∧
      msg.index = (unpackU32 ⟨body, 0, HaveMsg.indexSize⟩).toNat := by
  obtain ⟨result, w₁, hr, h₁⟩ := bind_eq_ok.mp h
  obtain ⟨body, w₂, ho, h₂⟩ := bind_eq_ok.mp h₁
  obtain ⟨rfl, rfl⟩ := orThrow_ok ho
  obtain ⟨hu, rfl⟩ := orThrow_ok h₂
  unfold unpackHaveMsg at hu
  split at hu
  · cases hu
  · next hlen =>
    cases hu
    exact ⟨body, hr, Nat.le_of_not_lt hlen, rfl⟩

theorem infoHash_ok {sha1 : Bytes → Digest} {hash : Bytes} (h : infoHash sha1 w = .ok hash w') :
    w.metainfo.hash sha1 = .ok hash ∧ w' = w := by
  obtain ⟨_, _, hget, h⟩ := bind_eq_ok.mp h
  cases hget
  exact orThrow_ok h

/-- "Interested" was answered with Have, whose index is stored, or with Unchoke. -/
theorem doInterested_inv (h : doInterested w = .ok () w') :
    ∃ got header w₁,
      exchange .interested packInterestedMsg MsgHeader.sizeInBytes w = .ok (.ok got) w₁ ∧
      unpackMsgHeader got = .ok header ∧
      ((header.id = .have ∧ ∃ msg w₂, haveOf .interestedBody header.bodyLength w₁ = .ok msg w₂ ∧
          w' = { w₂ with havePieceIdx := some msg.index, haveMode := true }) ∨
        (header.id = .unchoke ∧ w' = w₁)) := by
  obtain ⟨_, w₁, hx, h₁⟩ := bind_eq_ok.mp h
  obtain ⟨header, w₂, hh, h₂⟩ := bind_eq_ok.mp h₁
  obtain ⟨got, rfl, hu, rfl⟩ := headerOf_ok hh
  refine ⟨got, header, _, hx, hu, ?_⟩
  split at h₂
  · next hid =>
    obtain ⟨msg, w₃, hhave, h₃⟩ := bind_eq_ok.mp h₂
    cases h₃
    exact Or.inl ⟨hid, msg, w₃, hhave, rfl⟩
  · obtain ⟨hid, rfl⟩ := throwIf_ok h₂
    exact Or.inr ⟨Decidable.not_not.mp hid, rfl⟩

/-- The length the next request asks for. -/
def blockLen (pieceLen receivedBytes : Nat) : Nat :=
  let remainBytes := sizeT (pieceLen - receivedBytes)
  if remainBytes > maxBlockLen then maxBlockLen else remainBytes

def requestAt (pieceIdx pieceLen receivedBytes : Nat) : Bytes :=
  packRequestMsg (UInt32.ofNat pieceIdx) (UInt32.ofNat receivedBytes)
    (UInt32.ofNat (blockLen pieceLen receivedBytes))

/-- What a pass of the block loop did: a header and the body it announced were read, and the
block in the body was written. -/
theorem fetchBlock_inv {pieceIdx pieceLen receivedBytes n : Nat}
    (h : fetchBlock pieceIdx pieceLen receivedBytes w = .ok n w') :
    ∃ msg header body pieceMsg w₁ w₂,
      exchange .pieceHeader (requestAt pieceIdx pieceLen receivedBytes) MsgHeader.sizeInBytes w =
        .ok (.ok msg) w₁ ∧
      unpackMsgHeader msg = .ok header ∧ header.id = .piece ∧
      read (.pieceBody pieceIdx) header.bodyLength w₁ = .ok (.ok body) w₂ ∧
      unpackPieceMsg body = .ok pieceMsg ∧ n = pieceMsg.block.length ∧
      w' = w₂.afterWrite pieceMsg.block := by
  obtain ⟨_, _, hget, h₁⟩ := bind_eq_ok.mp h
  cases hget
  obtain ⟨_, w₁, hx, h₂⟩ := bind_eq_ok.mp h₁
  obtain ⟨header, w₂, hh, h₃⟩ := bind_eq_ok.mp h₂
  obtain ⟨msg, rfl, hu, rfl⟩ := headerOf_ok hh
  obtain ⟨_, w₃, ht, h₄⟩ := bind_eq_ok.mp h₃
  obtain ⟨hid, rfl⟩ := throwIf_ok ht
  obtain ⟨_, w₄, hr, h₅⟩ := bind_eq_ok.mp h₄
  obtain ⟨body, w₅, ho, h₆⟩ := bind_eq_ok.mp h₅
  obtain ⟨rfl, rfl⟩ := orThrow_ok ho
  obtain ⟨pieceMsg, w₆, hp, h₇⟩ := bind_eq_ok.mp h₆
  obtain ⟨hunpack, rfl⟩ := orThrow_ok hp
  obtain ⟨_, w₇, hw₇, h₈⟩ := bind_eq_ok.mp h₇
  cases h₈
  cases hw₇
  exact ⟨msg, header, body, pieceMsg, _, _, hx, hu, Decidable.not_not.mp hid, hr, hunpack, rfl, rfl⟩

/-- A handshake that returned has read as many bytes as it sent, and found its
own info hash in them. -/
theorem doHandshake_ok {sha1 : Bytes → Digest} (h : doHandshake sha1 w = .ok () w') :
    ∃ hash packed got answer, w.metainfo.hash sha1 = .ok hash ∧
      packed.length = PeerHandshakeMsg.size ∧
      read .handshake packed.length (w.afterSend packed) = .ok (.ok got) w' ∧
      unpackHandshake got = .ok answer ∧ answer.infoHash = hash := by
  obtain ⟨_, _, hget, h₁⟩ := bind_eq_ok.mp h
  cases hget
  obtain ⟨_, w₁, hopen, h₂⟩ := bind_eq_ok.mp h₁
  obtain ⟨_, rfl⟩ := throwIf_ok hopen
  obtain ⟨hash, w₂, hhash, h₃⟩ := bind_eq_ok.mp h₂
  obtain ⟨hhash, rfl⟩ := infoHash_ok hhash
  obtain ⟨digest, hdigest⟩ := Metainfo.hash_ok hhash
  obtain ⟨handshakeMsg, w₃, hpack, h₄⟩ := bind_eq_ok.mp h₃
  obtain ⟨hpacked, rfl⟩ := orThrow_ok hpack
  obtain ⟨packed, hpacked', hsize⟩ :=
    packHandshake_length digest (show (ascii "00112233445566778899").length = _ from rfl)
  rw [hdigest, hpacked'] at hpacked
  obtain rfl := Except.ok.inj hpacked
  obtain ⟨result, w₄, hx, h₅⟩ := bind_eq_ok.mp h₄
  obtain ⟨got, w₅, hr, h₆⟩ := bind_eq_ok.mp h₅
  obtain ⟨rfl, rfl⟩ := orThrow_ok hr
  obtain ⟨answer, w₆, ha, h₇⟩ := bind_eq_ok.mp h₆
  obtain ⟨hanswer, rfl⟩ := orThrow_ok ha
  obtain ⟨hash', w₇, hhash', h₈⟩ := bind_eq_ok.mp h₇
  obtain ⟨hhash', rfl⟩ := infoHash_ok hhash'
  obtain ⟨hsame, rfl⟩ := throwIf_ok h₈
  have hread := exchange_ok hx
  have hmeta : w'.metainfo = w₃.metainfo := by
    rw [(read_ok hread).2.2]
    rfl
  rw [hmeta, hhash] at hhash'
  obtain rfl := Except.ok.inj hhash'
  exact ⟨hash, packed, got, answer, hhash, hsize, hread, hanswer, Decidable.not_not.mp hsame⟩

end

/-! ## Properties that survive reads and writes -/

/-- A property of the worker that reads at `sites`, sends and a change of the
announced index do not touch. -/
structure Kept (sites : Site → Prop) (I : PieceWorker → Prop) : Prop where
  read : ∀ w site length, sites site → I w → I (w.afterRead site length)
  send : ∀ w request, I w → I (w.afterSend request)
  havePieceIdx : ∀ w pieceIdx, I w → I { w with havePieceIdx := pieceIdx }

/-- Neither the connection itself nor its two flags touch the property. -/
structure KeptByConnect (I : PieceWorker → Prop) : Prop where
  connect : ∀ w, I w → I { w with socket := w.socket.connect.2 }
  haveMode : ∀ w, I w → I { w with haveMode := true }
  established : ∀ w, I w → I { w with isPeerConnectionEstablished := true }

section
variable {I : PieceWorker → Prop} {sites : Site → Prop}

/-- `x` has the property on both exits. -/
abbrev Keeps (I : PieceWorker → Prop) {α : Type} (x : Session α) : Prop :=
  Triple I x (fun _ => I) (fun _ => I)

theorem triple_orThrow {E α : Type} (f : E → Exception) (x : Except E α) :
    Triple I (orThrow f x) (fun a w => I w ∧ x = .ok a) (fun _ => I) := by
  cases x with
  | ok a => exact .pure a fun _ h => ⟨h, rfl⟩
  | error e => exact .throw _ fun _ h => h

theorem keeps_orThrow {E α : Type} (f : E → Exception) (x : Except E α) :
    Keeps I (orThrow f x) :=
  (triple_orThrow f x).conseq (fun _ h => h) (fun _ _ h => h.1) fun _ _ h => h

theorem keeps_throwIf (c : Prop) [Decidable c] (e : Exception) : Keeps I (throwIf c e) :=
  .ite (fun _ => .throw e fun _ h => h) fun _ => .pure () fun _ h => h

theorem Kept.keeps_read (hk : Kept sites I) {site : Site} (hs : sites site) (length : Nat) :
    Keeps I (Client.read site length) := fun w hw => hk.read w site length hs hw

/-- An exchange ends in a read, or with the error that kept it from one. -/
theorem triple_exchange {P : PieceWorker → Prop} {Q : Except ErrorCode Bytes → PieceWorker → Prop}
    {E : Exception → PieceWorker → Prop} {site : Site} {request : Bytes} {length : Nat}
    (hsend : ∀ w, P w → P (w.afterSend request))
    (hread : ∀ w, P w → Q (w.socket.read length).1 (w.afterRead site length))
    (herror : ∀ w e, P w → Q (.error e) w) : Triple P (exchange site request length) Q E := by
  refine .reading fun w _ => ?_
  refine .ite (fun _ => .pure _ fun w hw => herror w _ hw) fun _ => ?_
  refine .bind (R := fun _ => P) (fun w hw => hsend w hw) fun written => ?_
  cases written with
  | none => exact fun w hw => hread w hw
  | some e => exact .pure _ fun w hw => herror w e hw

theorem Kept.keeps_exchange (hk : Kept sites I) {site : Site} (hs : sites site) (request : Bytes)
    (length : Nat) : Keeps I (exchange site request length) :=
  triple_exchange (fun w hw => hk.send w request hw) (fun w hw => hk.read w site length hs hw)
    fun _ _ hw => hw

theorem keeps_headerOf (peer : String) (result : Except ErrorCode Bytes) :
    Keeps I (headerOf peer result) :=
  (keeps_orThrow _ _).bind fun _ => keeps_orThrow _ _

theorem Kept.keeps_haveOf (hk : Kept sites I) {site : Site} (hs : sites site) (bodyLength : Nat) :
    Keeps I (haveOf site bodyLength) :=
  (hk.keeps_read hs bodyLength).bind fun _ => (keeps_orThrow _ _).bind fun _ => keeps_orThrow _ _

theorem Kept.keeps_waitHave (hk : Kept sites I) (hh : sites .waitHave) (hb : sites .waitHaveBody) :
    Keeps I waitHave := by
  refine (hk.keeps_read hh _).bind fun result => ?_
  refine .ite (fun _ => .pure _ fun _ h => h) fun _ => ?_
  refine (keeps_headerOf _ _).bind fun response => ?_
  refine .ite (fun _ => ?_) fun _ => (keeps_throwIf _ _).bind fun _ => .pure _ fun _ h => h
  refine (hk.keeps_haveOf hb _).bind fun msg => ?_
  exact .bind (.modify fun w hw => hk.havePieceIdx w _ hw) fun _ => .pure _ fun _ h => h

theorem keeps_takeHavePieceIdx (hp : ∀ w pieceIdx, I w → I { w with havePieceIdx := pieceIdx }) :
    Keeps I takeHavePieceIdx := by
  refine .reading fun w _ => ?_
  split
  · exact .bind (.modify fun w hw => hp w _ hw) fun _ => .pure _ fun _ h => h
  · exact .throw _ fun _ h => h

theorem Kept.keeps_takeHavePieceIdx (hk : Kept sites I) : Keeps I takeHavePieceIdx :=
  Client.keeps_takeHavePieceIdx hk.havePieceIdx

/-- The reads before the first piece. -/
def Site.isSetup : Site → Prop
  | .handshake | .bitfield | .bitfieldBody | .interested | .interestedBody => True
  | _ => False

theorem keeps_infoHash (sha1 : Bytes → Digest) : Keeps I (infoHash sha1) := by
  exact .reading fun w _ => keeps_orThrow _ _

theorem Kept.keeps_doHandshake (hk : Kept sites I) (hs : sites .handshake)
    (sha1 : Bytes → Digest) : Keeps I (doHandshake sha1) := by
  refine .reading fun w _ => ?_
  refine (keeps_throwIf _ _).bind fun _ => ?_
  refine (keeps_infoHash sha1).bind fun _ => (keeps_orThrow _ _).bind fun _ => ?_
  refine (hk.keeps_exchange hs _ _).bind fun _ => (keeps_orThrow _ _).bind fun _ => ?_
  exact (keeps_orThrow _ _).bind fun _ => (keeps_infoHash sha1).bind fun _ => keeps_throwIf _ _

theorem Kept.keeps_doBitfieldOrUnchoke (hk : Kept sites I) (hs : sites .bitfield)
    (hb : sites .bitfieldBody) : Keeps I doBitfieldOrUnchoke := by
  refine (hk.keeps_read hs _).bind fun _ => (keeps_headerOf _ _).bind fun answer => ?_
  refine .ite (fun _ => ?_) fun _ => .ite (fun _ => .pure _ fun _ h => h) fun _ => .throw _ fun _ h => h
  refine (hk.keeps_read hb _).bind fun _ => ?_
  exact .bind (keeps_orThrow _ _) fun _ => .pure _ fun _ h => h

theorem Kept.keeps_doInterested (hk : Kept sites I)
    (hm : ∀ w, I w → I { w with haveMode := true }) (hs : sites .interested)
    (hb : sites .interestedBody) : Keeps I doInterested := by
  refine (hk.keeps_exchange hs _ _).bind fun _ => (keeps_headerOf _ _).bind fun response => ?_
  refine .ite (fun _ => ?_) fun _ => keeps_throwIf _ _
  refine (hk.keeps_haveOf hb _).bind fun msg => .modify fun w hw => ?_
  exact hk.havePieceIdx _ _ (hm w hw)

theorem keeps_connect (hc : ∀ w, I w → I { w with socket := w.socket.connect.2 }) :
    Keeps I connect := by
  intro w hw
  unfold connect
  cases w.socket.connect.1 <;> exact hc w hw

theorem Kept.keeps_connectToPeer (hk : Kept sites I) (hc : KeptByConnect I)
    (hs : ∀ site, site.isSetup → sites site) (sha1 : Bytes → Digest) :
    Keeps I (connectToPeer sha1) := by
  refine (keeps_connect hc.connect).bind fun _ => ?_
  refine (hk.keeps_doHandshake (hs _ trivial) sha1).bind fun _ => ?_
  refine (hk.keeps_doBitfieldOrUnchoke (hs _ trivial) (hs _ trivial)).bind fun _ => ?_
  refine (hk.keeps_doInterested hc.haveMode (hs _ trivial) (hs _ trivial)).bind fun _ => ?_
  exact .modify fun w hw => hc.established w hw

/-- The connection counts as established just when setting it up did not throw. -/
theorem connectToPeer_established (sha1 : Bytes → Digest) :
    Triple (fun w => w.isPeerConnectionEstablished = false) (connectToPeer sha1)
      (fun _ w => w.isPeerConnectionEstablished = true)
      (fun _ w => w.isPeerConnectionEstablished = false) := by
  have hk : Kept (fun _ => True) fun w => w.isPeerConnectionEstablished = false :=
    ⟨fun _ _ _ _ h => h, fun _ _ h => h, fun _ _ h => h⟩
  refine (keeps_connect fun _ h => h).bind fun _ => ?_
  refine (hk.keeps_doHandshake trivial sha1).bind fun _ => ?_
  refine (hk.keeps_doBitfieldOrUnchoke trivial trivial).bind fun _ => ?_
  refine (hk.keeps_doInterested (fun _ h => h) trivial trivial).bind fun _ => ?_
  exact .modify fun _ _ => rfl

theorem Kept.keeps_ensureConnected (hk : Kept sites I) (hc : KeptByConnect I)
    (hs : ∀ site, site.isSetup → sites site) (sha1 : Bytes → Digest) :
    Keeps I (ensureConnected sha1) := by
  refine .reading fun w _ => ?_
  exact .ite (fun _ => hk.keeps_connectToPeer hc hs sha1) fun _ => .pure _ fun _ h => h

/-- A pass is an exchange, and then reads the body of the answer and writes its block. -/
theorem triple_fetchBlock {P : PieceWorker → Prop} {pieceIdx pieceLen receivedBytes : Nat}
    (hx : Triple P (exchange .pieceHeader (requestAt pieceIdx pieceLen receivedBytes)
      MsgHeader.sizeInBytes) (fun _ => I) fun _ => I)
    (hr : ∀ length, Keeps I (Client.read (.pieceBody pieceIdx) length))
    (hw : ∀ w block, I w → I (w.afterWrite block)) :
    Triple P (fetchBlock pieceIdx pieceLen receivedBytes) (fun _ => I) fun _ => I := by
  refine .reading fun w _ => ?_
  refine hx.bind fun _ => (keeps_headerOf _ _).bind fun header => ?_
  refine (keeps_throwIf _ _).bind fun _ => (hr _).bind fun _ => ?_
  refine (keeps_orThrow _ _).bind fun _ => (keeps_orThrow _ _).bind fun msg => ?_
  exact .bind (.modify fun s hs => hw s _ hs) fun _ => .pure _ fun _ h => h

theorem Kept.keeps_fetchBlock (hk : Kept sites I) (hw : ∀ w block, I w → I (w.afterWrite block))
    {pieceIdx : Nat} (hs : sites .pieceHeader) (hb : sites (.pieceBody pieceIdx))
    (pieceLen receivedBytes : Nat) : Keeps I (fetchBlock pieceIdx pieceLen receivedBytes) :=
  triple_fetchBlock (hk.keeps_exchange hs _ _) (hk.keeps_read hb) hw

/-- What a pass leaves behind when it returns, the next pass starts with. -/
theorem triple_fetchBlocks {E : PieceWorker → Prop} (he : ∀ w, I w → E w) {pieceIdx pieceLen : Nat}
    (hb : ∀ receivedBytes,
      Triple I (fetchBlock pieceIdx pieceLen receivedBytes) (fun _ => I) fun _ => E) (fuel : Nat) :
    ∀ receivedBytes,
      Triple I (fetchBlocks pieceIdx pieceLen fuel receivedBytes) (fun _ => I) fun _ => E := by
  induction fuel with
  | zero => exact fun _ => .throw _ he
  | succ fuel ih =>
    intro receivedBytes
    refine .ite (fun _ => .pure _ fun _ h => h) fun _ => ?_
    exact (hb receivedBytes).bind fun _ => ih _

theorem keeps_fetchBlocks {pieceIdx pieceLen : Nat}
    (hb : ∀ receivedBytes, Keeps I (fetchBlock pieceIdx pieceLen receivedBytes)) (fuel : Nat) :
    ∀ receivedBytes, Keeps I (fetchBlocks pieceIdx pieceLen fuel receivedBytes) :=
  triple_fetchBlocks (fun _ h => h) hb fuel

/-- What a transfer does besides: it empties the buffer, writes blocks and
stores the index. -/
structure KeptByTransfer (I : PieceWorker → Prop) : Prop where
  clear : ∀ w, I w → I { w with buffer := [] }
  write : ∀ w block, I w → I (w.afterWrite block)
  complete : ∀ w pieceIdx, I w → I { w with
    lastPieceIdx := pieceIdx
    havePieceIdx := none
    log := w.log ++ [.completed pieceIdx] }

theorem Kept.keeps_fetchPiece (hk : Kept (fun _ => True) I) (ht : KeptByTransfer I)
    {sha1 : Bytes → Digest} (hc : Keeps I (ensureConnected sha1)) (pieceIdx : Nat) :
    Keeps I (fetchPiece sha1 pieceIdx) := by
  refine hc.bind fun _ => .reading fun w _ => (keeps_orThrow _ _).bind fun len => ?_
  refine (keeps_fetchBlocks (fun _ => hk.keeps_fetchBlock ht.write trivial trivial _ _) _ _).bind
    fun _ => (keeps_throwIf _ _).bind fun _ => .modify fun w hw => ht.complete w _ hw

theorem Kept.keeps_downloadPiece (hk : Kept (fun _ => True) I) (ht : KeptByTransfer I)
    {sha1 : Bytes → Digest} (hc : Keeps I (ensureConnected sha1)) (pieceIdx : Nat) :
    Keeps I (downloadPiece sha1 pieceIdx) := by
  refine .bind (R := fun _ => I) (.modify ht.clear) fun _ => .reading fun w _ => ?_
  refine .ite (fun _ => ?_) fun _ => .ite (fun _ => ?_) fun _ => hk.keeps_fetchPiece ht hc _
  · exact hk.keeps_takeHavePieceIdx.bind fun _ => hk.keeps_fetchPiece ht hc _
  · refine (hk.keeps_waitHave trivial trivial).bind fun _ => .ite (fun _ => ?_) fun _ => ?_
    · exact hk.keeps_takeHavePieceIdx.bind fun _ => hk.keeps_fetchPiece ht hc _
    · exact .pure _ fun _ h => h

end

end Bittorrent.Client
