import Bittorrent.Client.Session

/-! What one transfer of a worker with the internal buffer leaves behind. A
transfer that reaches the end of the block loop has the bytes of one piece in
the buffer and its index stored; one that gives up waiting for Have returns in
the same way with neither (`downloadPiece_ok`). -/

namespace Bittorrent.Client

open Lib.Exec Misc Net Proto Torrent

/-- The block in the body of a Piece message that answered a request for the piece. -/
def Event.block (pieceIdx : Nat) : Event → Bytes
  | .received (.pieceBody i) _ got => if i = pieceIdx then got.drop PieceMsg.minSize else []
  | _ => []

/-- The blocks received for a piece, in order. -/
def blocksFor (pieceIdx : Nat) (events : List Event) : Bytes := events.flatMap (Event.block pieceIdx)

@[simp] theorem blocksFor_nil (pieceIdx : Nat) : blocksFor pieceIdx [] = [] := rfl

@[simp] theorem blocksFor_append (pieceIdx : Nat) (es es' : List Event) :
    blocksFor pieceIdx (es ++ es') = blocksFor pieceIdx es ++ blocksFor pieceIdx es' :=
  List.flatMap_append

/-! ## Parts without blocks -/

def Site.isPieceBody : Site → Prop
  | .pieceBody _ => True
  | _ => False

/-- Neither a block nor the end of a piece. -/
def Event.quiet : Event → Prop
  | .sent _ => True
  | .received site _ _ => ¬ site.isPieceBody
  | .completed _ => False

/-- Only quiet events happened since, and the buffer is as it was. -/
structure Quiet (w₀ w : PieceWorker) : Prop where
  log : ∃ es, w.log = w₀.log ++ es ∧ ∀ e ∈ es, e.quiet
  buffer : w.buffer = w₀.buffer
  ostream : w.ostream = w₀.ostream
  metainfo : w.metainfo = w₀.metainfo

theorem Quiet.refl (w : PieceWorker) : Quiet w w := ⟨⟨[], by simp, by simp⟩, rfl, rfl, rfl⟩

private theorem Quiet.logged {w₀ w : PieceWorker} (h : Quiet w₀ w) {e : Event} (he : e.quiet) :
    ∃ es, w.log ++ [e] = w₀.log ++ es ∧ ∀ e ∈ es, e.quiet := by
  obtain ⟨es, hl, hq⟩ := h.log
  refine ⟨es ++ [e], by rw [hl, List.append_assoc], ?_⟩
  intro e' hm
  rcases List.mem_append.mp hm with hm | hm
  · exact hq e' hm
  · rw [List.mem_singleton.mp hm]
    exact he

theorem quiet_kept (w₀ : PieceWorker) : Kept (fun site => ¬ site.isPieceBody) (Quiet w₀) where
  read _ _ _ hs h := ⟨h.logged hs, h.buffer, h.ostream, h.metainfo⟩
  send _ _ h := ⟨h.logged trivial, h.buffer, h.ostream, h.metainfo⟩
  havePieceIdx _ _ h := ⟨h.log, h.buffer, h.ostream, h.metainfo⟩

theorem quiet_connect (w₀ : PieceWorker) : KeptByConnect (Quiet w₀) where
  connect _ h := ⟨h.log, h.buffer, h.ostream, h.metainfo⟩
  haveMode _ h := ⟨h.log, h.buffer, h.ostream, h.metainfo⟩
  established _ h := ⟨h.log, h.buffer, h.ostream, h.metainfo⟩

theorem Site.isSetup.not_pieceBody {site : Site} (h : site.isSetup) : ¬ site.isPieceBody := by
  cases site <;> simp_all [Site.isSetup, Site.isPieceBody]

theorem blocksFor_quiet {es : List Event} (h : ∀ e ∈ es, e.quiet) (pieceIdx : Nat) :
    blocksFor pieceIdx es = [] := by
  refine List.flatMap_eq_nil_iff.mpr fun e he => ?_
  have hq := h e he
  cases e with
  | received site asked got => cases site <;> simp_all [Event.quiet, Site.isPieceBody, Event.block]
  | _ => rfl

/-! ## The block loop -/

/-- The bytes of `n` were written for a piece that is not complete yet. -/
structure Fetched (pieceIdx : Nat) (w w' : PieceWorker) (n : Nat) : Prop where
  log : ∃ es, w'.log = w.log ++ es ∧ (∀ i, .completed i ∉ es) ∧ (blocksFor pieceIdx es).length = n ∧
    (w.ostream = none → w'.buffer = w.buffer ++ blocksFor pieceIdx es)
  ostream : w.ostream = none → w'.ostream = none
  metainfo : w'.metainfo = w.metainfo

theorem Fetched.refl (pieceIdx : Nat) (w : PieceWorker) : Fetched pieceIdx w w 0 :=
  ⟨⟨[], by simp, by simp, rfl, by simp⟩, id, rfl⟩

theorem Fetched.trans {pieceIdx n n' : Nat} {w w' w'' : PieceWorker}
    (h : Fetched pieceIdx w w' n) (h' : Fetched pieceIdx w' w'' n') :
    Fetched pieceIdx w w'' (n + n') := by
  obtain ⟨es, hl, hc, hn, hb⟩ := h.log
  obtain ⟨es', hl', hc', hn', hb'⟩ := h'.log
  refine ⟨⟨es ++ es', by rw [hl', hl, List.append_assoc], ?_, ?_, ?_⟩,
    fun ho => h'.ostream (h.ostream ho), h'.metainfo.trans h.metainfo⟩
  · intro i hi
    rcases List.mem_append.mp hi with hi | hi
    · exact hc i hi
    · exact hc' i hi
  · rw [blocksFor_append, List.length_append, hn, hn']
  · intro ho
    rw [hb' (h.ostream ho), hb ho, blocksFor_append, List.append_assoc]

theorem fetchBlock_ok {pieceIdx pieceLen receivedBytes n : Nat} {w w' : PieceWorker}
    (h : fetchBlock pieceIdx pieceLen receivedBytes w = .ok n w') : Fetched pieceIdx w w' n := by
  obtain ⟨msg, header, body, pieceMsg, w₁, w₂, hx, _, _, hr, hunpack, rfl, rfl⟩ := fetchBlock_inv h
  obtain ⟨_, _, hw₁⟩ := read_ok (exchange_ok hx)
  obtain ⟨_, hgot, hw₂⟩ := read_ok hr
  have hblock := (unpackPieceMsg_ok hunpack).2
  have hlog : w₂.log = w.log ++ [.sent (requestAt pieceIdx pieceLen receivedBytes),
      .received .pieceHeader MsgHeader.sizeInBytes
        ((w.afterSend (requestAt pieceIdx pieceLen receivedBytes)).socket.arriving
          MsgHeader.sizeInBytes),
      .received (.pieceBody pieceIdx) header.bodyLength body] := by
    rw [hw₂, hgot, hw₁]
    simp [PieceWorker.afterRead, PieceWorker.afterSend]
  have hstream : w₂.ostream = w.ostream := by
    rw [hw₂, hw₁]
    rfl
  have hbuffer : w₂.buffer = w.buffer := by
    rw [hw₂, hw₁]
    rfl
  refine ⟨⟨_, by rw [PieceWorker.afterWrite_log, hlog], by simp, ?_, fun ho => ?_⟩, fun ho => ?_, ?_⟩
  · simp [blocksFor, Event.block, hblock]
  · rw [PieceWorker.afterWrite_internal _ (hstream.trans ho)]
    simp [blocksFor, Event.block, hblock, hbuffer]
  · rw [PieceWorker.afterWrite_internal _ (hstream.trans ho)]
    exact hstream.trans ho
  · rw [PieceWorker.afterWrite_metainfo, hw₂, hw₁]
    rfl

theorem fetchBlocks_ok {pieceIdx pieceLen : Nat} (fuel : Nat) : ∀ {receivedBytes n : Nat}
    {w w' : PieceWorker}, fetchBlocks pieceIdx pieceLen fuel receivedBytes w = .ok n w' →
    n = pieceLen ∧ ∃ m, n = receivedBytes + m ∧ Fetched pieceIdx w w' m := by
  induction fuel with
  | zero =>
    intro _ _ _ _ h
    cases h
  | succ fuel ih =>
    intro receivedBytes n w w' h
    rw [fetchBlocks] at h
    split at h
    · next hl =>
      cases h
      exact ⟨hl, 0, rfl, .refl _ _⟩
    · obtain ⟨blockSize, w₁, hb, h⟩ := bind_eq_ok.mp h
      obtain ⟨hn, m, hm, hf⟩ := ih h
      exact ⟨hn, blockSize + m, by omega, (fetchBlock_ok hb).trans hf⟩

/-! ## A transfer -/

/-- What the caller takes a finished transfer for: since it started the worker
has stored the index of one piece, and the buffer holds the bytes received for
that piece, as many as the piece has. -/
structure Truthful (before after : PieceWorker) : Prop where
  events : ∃ es, after.log = before.log ++ es ∧
    (∀ i, .completed i ∈ es ↔ i = after.lastPieceIdx) ∧
    after.buffer = blocksFor after.lastPieceIdx es
  length : ∃ len, pieceLen before.metainfo after.lastPieceIdx = .ok len ∧
    after.buffer.length = sizeT len

/-- The answers `_wait_have` takes for "no piece yet". -/
def NoHave : Except ErrorCode Bytes → Prop
  | .error e => e = .operationAborted
  | .ok msg => ∃ n, unpackMsgHeader msg = .ok ⟨.unchoke, n⟩

instance (answer : Except ErrorCode Bytes) : Decidable (NoHave answer) :=
  match answer with
  | .error _ => inferInstanceAs (Decidable (_ = _))
  | .ok msg => decidable_of_iff ((unpackMsgHeader msg).toOption.map MsgHeader.id = some .unchoke) (by
      rw [NoHave]
      cases unpackMsgHeader msg with
      | error e => simp [Except.toOption]
      | ok header =>
        obtain ⟨msgId, bodyLength⟩ := header
        simp [Except.toOption])

/-- A worker in have mode without an announced piece, whose next read times out
or brings Unchoke. -/
def WaitsInVain (w : PieceWorker) : Prop :=
  w.havePieceIdx = none ∧ w.haveMode = true ∧ NoHave (w.socket.read MsgHeader.sizeInBytes).1

/-- The index in a Have message at the front of the stream. -/
def announcedIdx (incoming : Bytes) : Nat :=
  (unpackU32 ⟨incoming, MsgHeader.sizeInBytes, HaveMsg.indexSize⟩).toNat

/-- The piece a transfer is about: one announced before; in have mode the one
that the next message announces, or still the last one; else the one asked for. -/
def pieceFor (w : PieceWorker) (pieceIdx : Nat) : Nat :=
  match w.havePieceIdx with
  | some i => i
  | none =>
    if w.haveMode then
      if NoHave (w.socket.read MsgHeader.sizeInBytes).1 then w.lastPieceIdx
      else announcedIdx w.socket.incoming
    else pieceIdx

theorem pieceFor_of_some {w : PieceWorker} {i : Nat} (h : w.havePieceIdx = some i)
    (pieceIdx : Nat) : pieceFor w pieceIdx = i := by
  rw [pieceFor, h]

theorem pieceFor_of_none {w : PieceWorker} (h : w.havePieceIdx = none) (pieceIdx : Nat) :
    pieceFor w pieceIdx =
      if w.haveMode then
        if NoHave (w.socket.read MsgHeader.sizeInBytes).1 then w.lastPieceIdx
        else announcedIdx w.socket.incoming
      else pieceIdx := by
  rw [pieceFor, h]

theorem fetchPiece_ok {sha1 : Bytes → Digest} {pieceIdx : Nat} {w w' : PieceWorker}
    (h : fetchPiece sha1 pieceIdx w = .ok () w') (hb : w.buffer = []) (ho : w.ostream = none) :
    w'.ostream = none ∧ w'.metainfo = w.metainfo ∧ w'.lastPieceIdx = pieceIdx ∧
    (∃ len, pieceLen w.metainfo pieceIdx = .ok len ∧ w'.buffer.length = sizeT len) ∧
    ∃ es, w'.log = w.log ++ es ∧ (∀ i, .completed i ∈ es ↔ i = pieceIdx) ∧
      w'.buffer = blocksFor pieceIdx es := by
  obtain ⟨_, w₁, hconn, h₁⟩ := bind_eq_ok.mp h
  obtain ⟨hlog, hbuf, host, hmeta⟩ := ((quiet_kept w).keeps_ensureConnected (quiet_connect w)
    (fun _ hs => hs.not_pieceBody) sha1).ok (Quiet.refl w) hconn
  obtain ⟨es, hes, hq⟩ := hlog
  obtain ⟨_, w₂, hget, h₂⟩ := bind_eq_ok.mp h₁
  cases hget
  obtain ⟨len, w₃, hl, h₃⟩ := bind_eq_ok.mp h₂
  obtain ⟨hlen, hw₃⟩ := orThrow_ok hl
  obtain ⟨received, w₄, hblocks, h₄⟩ := bind_eq_ok.mp h₃
  obtain ⟨hn, m, hm, hf⟩ := fetchBlocks_ok _ hblocks
  obtain ⟨es', hes', hc', hn', hb'⟩ := hf.log
  obtain ⟨_, w₅, ht, h₅⟩ := bind_eq_ok.mp h₄
  obtain ⟨_, hw₅⟩ := throwIf_ok ht
  cases h₅
  subst hw₅ hw₃
  rw [hmeta] at hlen
  have hbuf' : w₅.buffer = blocksFor pieceIdx es' := by
    rw [hb' (host.trans ho), hbuf, hb, List.nil_append]
  refine ⟨hf.ostream (host.trans ho), hf.metainfo.trans hmeta, rfl, ⟨len, hlen, ?_⟩,
    es ++ es' ++ [.completed pieceIdx], ?_, ?_, ?_⟩
  · show w₅.buffer.length = sizeT len
    rw [hbuf', hn']
    omega
  · show w₅.log ++ [.completed pieceIdx] = _
    rw [hes', hes, List.append_assoc, List.append_assoc, List.append_assoc]
  · intro i
    have hi : .completed i ∉ es := fun hi => hq _ hi
    simp [hi, hc' i]
  · show w₅.buffer = _
    rw [hbuf', blocksFor_append, blocksFor_append, blocksFor_quiet hq]
    simp [blocksFor, Event.block]

theorem takeHavePieceIdx_ok {pieceIdx : Nat} {w w' : PieceWorker}
    (h : takeHavePieceIdx w = .ok pieceIdx w') :
    w.havePieceIdx = some pieceIdx ∧ w' = { w with havePieceIdx := none } := by
  obtain ⟨_, _, hget, h₁⟩ := bind_eq_ok.mp h
  cases hget
  cases hp : w.havePieceIdx with
  | some i =>
    rw [hp] at h₁
    obtain ⟨_, _, hm, h₂⟩ := bind_eq_ok.mp h₁
    cases hm
    cases h₂
    exact ⟨rfl, rfl⟩
  | none =>
    rw [hp] at h₁
    cases h₁

/-- The index of a Have message that was read in two parts. -/
theorem announcedIdx_eq {w w₁ w₂ : PieceWorker} {site site' : Site} {header body : Bytes}
    {bodyLength : Nat} (hh : read site MsgHeader.sizeInBytes w = .ok (.ok header) w₁)
    (hb : read site' bodyLength w₁ = .ok (.ok body) w₂) (hl : HaveMsg.minSize ≤ body.length) :
    (unpackU32 ⟨body, 0, HaveMsg.indexSize⟩).toNat = announcedIdx w.socket.incoming := by
  obtain ⟨hlen, hheader, hw₁⟩ := read_ok hh
  obtain ⟨_, hbody, _⟩ := read_ok hb
  have hin := w.socket.read_incoming MsgHeader.sizeInBytes
  have hin₁ := w₁.socket.read_incoming bodyLength
  have hw : w₁.socket = (w.socket.read MsgHeader.sizeInBytes).2 := by
    rw [hw₁]
    rfl
  rw [← hheader, ← hw, hin₁, ← hbody] at hin
  unfold announcedIdx
  rw [hin]
  refine congrArg UInt32.toNat (unpackU32_congr fun i hi => ?_)
  have hi' : i < body.length := Nat.lt_of_lt_of_le hi hl
  show body.getD (0 + i) 0 = (header ++ (body ++ _)).getD (MsgHeader.sizeInBytes + i) 0
  simp only [List.getD_eq_getElem?_getD]
  rw [Nat.zero_add, List.getElem?_append_right (by omega), hlen, Nat.add_sub_cancel_left,
    List.getElem?_append_left hi']

/-- Waiting comes back empty-handed just on the answers of `NoHave`, having read one header. -/
theorem waitHave_ok {b : Bool} {w w' : PieceWorker} (h : waitHave w = .ok b w') :
    (b = false ↔ NoHave (w.socket.read MsgHeader.sizeInBytes).1) ∧
    (b = false → w' = w.afterRead .waitHave MsgHeader.sizeInBytes) ∧
    (b = true → w'.havePieceIdx = some (announcedIdx w.socket.incoming)) := by
  obtain ⟨result, w₁, hr, h₁⟩ := bind_eq_ok.mp h
  obtain ⟨hres, hw₁⟩ := EStateM.Result.ok.inj (read_eq _ _ w ▸ hr)
  rw [hres, hw₁]
  split at h₁
  · next ha =>
    cases h₁
    exact ⟨⟨fun _ => ha ▸ rfl, fun _ => rfl⟩, fun _ => rfl, fun hb => Bool.noConfusion hb⟩
  · next ha =>
    obtain ⟨response, w₂, hh, h₂⟩ := bind_eq_ok.mp h₁
    obtain ⟨msg, hmsg, hu, hw₂⟩ := headerOf_ok hh
    subst hmsg
    have hunchoke : NoHave (.ok msg) ↔ response.id = .unchoke := by
      constructor
      · rintro ⟨n, hn⟩
        rw [hu] at hn
        cases hn
        rfl
      · intro hid
        exact ⟨response.bodyLength, by rw [hu, ← hid]⟩
    rw [hunchoke]
    split at h₂
    · next hid =>
      obtain ⟨haveMsg, w₃, hhave, h₃⟩ := bind_eq_ok.mp h₂
      obtain ⟨body, hbody, hl, hidx⟩ := haveOf_ok hhave
      obtain ⟨_, w₄, hm, h₄⟩ := bind_eq_ok.mp h₃
      cases hm
      cases h₄
      rw [hw₂] at hbody
      refine ⟨by simp [hid], fun hb => Bool.noConfusion hb, fun _ => ?_⟩
      rw [← announcedIdx_eq hr hbody hl, ← hidx]
    · next hid =>
      obtain ⟨_, w₃, ht, h₃⟩ := bind_eq_ok.mp h₂
      obtain ⟨hun, hw₃⟩ := throwIf_ok ht
      cases h₃
      exact ⟨⟨fun _ => Decidable.not_not.mp hun, fun _ => rfl⟩, fun _ => by rw [hw₃, hw₂],
        fun hb => Bool.noConfusion hb⟩

theorem Truthful.of_fetchPiece {sha1 : Bytes → Digest} {pieceIdx : Nat} {w w₁ w' : PieceWorker}
    (hq : Quiet { w with buffer := [] } w₁) (ho : w.ostream = none)
    (h : fetchPiece sha1 pieceIdx w₁ = .ok () w') : w'.lastPieceIdx = pieceIdx ∧ Truthful w w' := by
  obtain ⟨es, hes, hquiet⟩ := hq.log
  obtain ⟨_, _, hlast, hlen, es', hes', hc, hb⟩ := fetchPiece_ok h hq.buffer (hq.ostream.trans ho)
  rw [← hlast, hq.metainfo] at hlen
  rw [← hlast] at hc hb
  refine ⟨hlast, ⟨es ++ es', by rw [hes', hes, List.append_assoc], ?_, ?_⟩, hlen⟩
  · intro i
    have hi : .completed i ∉ es := fun hi => hquiet _ hi
    simp [hi, hc i]
  · rw [hb, blocksFor_append, blocksFor_quiet hquiet, List.nil_append]

theorem Quiet.untruthful {w w' : PieceWorker} (hq : Quiet { w with buffer := [] } w') :
    ¬ Truthful w w' := by
  intro ht
  obtain ⟨es, hes, hquiet⟩ := hq.log
  obtain ⟨es', hes', hc, _⟩ := ht.events
  obtain rfl : es = es' := List.append_cancel_left (hes.symm.trans hes')
  exact hquiet _ ((hc _).mpr rfl)

/-- The two ways in which a transfer returns. -/
theorem downloadPiece_ok {sha1 : Bytes → Digest} {pieceIdx : Nat} {w w' : PieceWorker}
    (h : downloadPiece sha1 pieceIdx w = .ok () w') (ho : w.ostream = none) :
    w'.lastPieceIdx = pieceFor w pieceIdx ∧
      ((¬ WaitsInVain w ∧ Truthful w w') ∨ (WaitsInVain w ∧ Quiet { w with buffer := [] } w')) := by
  have hkept := quiet_kept { w with buffer := [] }
  obtain ⟨_, w₀, hm, h₁⟩ := bind_eq_ok.mp h
  obtain rfl : { w with buffer := [] } = w₀ := by
    cases hm
    rfl
  obtain ⟨_, _, hget, h₂⟩ := bind_eq_ok.mp h₁
  cases hget
  split at h₂
  · next hsome =>
    obtain ⟨i, w₁, ht, h₃⟩ := bind_eq_ok.mp h₂
    have hq := hkept.keeps_takeHavePieceIdx.ok (Quiet.refl _) ht
    have hi : w.havePieceIdx = some i := (takeHavePieceIdx_ok ht).1
    obtain ⟨hlast, htrue⟩ := Truthful.of_fetchPiece hq ho h₃
    rw [pieceFor_of_some hi]
    refine ⟨hlast, Or.inl ⟨fun hvain => ?_, htrue⟩⟩
    rw [hvain.1] at hi
    cases hi
  · next hnone =>
    have hnone : w.havePieceIdx = none := by simpa using hnone
    rw [pieceFor_of_none hnone]
    split at h₂
    · next hmode =>
      have hmode : w.haveMode = true := hmode
      obtain ⟨b, w₁, hwait, h₃⟩ := bind_eq_ok.mp h₂
      have hq := (hkept.keeps_waitHave (fun h => h) (fun h => h)).ok (Quiet.refl _) hwait
      obtain ⟨hb, hsame, hidx⟩ := waitHave_ok hwait
      have hvain : WaitsInVain w ↔ b = false := by
        rw [hb]
        exact ⟨fun hv => hv.2.2, fun hv => ⟨hnone, hmode, hv⟩⟩
      rw [hvain, if_pos hmode]
      cases b with
      | true =>
        obtain ⟨i, w₂, ht, h₄⟩ := bind_eq_ok.mp h₃
        have hi := (takeHavePieceIdx_ok ht).1
        have hq₂ := hkept.keeps_takeHavePieceIdx.ok hq ht
        obtain ⟨hlast, htrue⟩ := Truthful.of_fetchPiece hq₂ ho h₄
        rw [hidx rfl] at hi
        refine ⟨?_, Or.inl ⟨nofun, htrue⟩⟩
        rw [if_neg (fun hv => Bool.noConfusion (hb.mpr hv))]
        exact hlast.trans (Option.some.inj hi).symm
      | false =>
        cases h₃
        refine ⟨?_, Or.inr ⟨rfl, hq⟩⟩
        rw [if_pos (hb.mp rfl), hsame rfl]
        rfl
    · next hmode =>
      obtain ⟨hlast, htrue⟩ := Truthful.of_fetchPiece (Quiet.refl _) ho h₂
      rw [if_neg hmode]
      exact ⟨hlast, Or.inl ⟨fun hvain => hmode hvain.2.1, htrue⟩⟩

/-- A transfer that returned did what its caller takes it for, unless it waited in vain. -/
theorem truthful_iff {sha1 : Bytes → Digest} {pieceIdx : Nat} {w w' : PieceWorker}
    (h : downloadPiece sha1 pieceIdx w = .ok () w') (ho : w.ostream = none) :
    Truthful w w' ↔ ¬ WaitsInVain w := by
  rcases (downloadPiece_ok h ho).2 with ⟨hvain, ht⟩ | ⟨hvain, hq⟩
  · exact ⟨fun _ => hvain, fun _ => ht⟩
  · exact ⟨fun ht => absurd ht hq.untruthful, fun hn => absurd hvain hn⟩

/-- Either way the buffer holds what was received for the piece. -/
theorem buffer_eq_received {sha1 : Bytes → Digest} {pieceIdx : Nat} {w w' : PieceWorker}
    (h : downloadPiece sha1 pieceIdx w = .ok () w') (ho : w.ostream = none) :
    ∃ es, w'.log = w.log ++ es ∧ w'.buffer = blocksFor (pieceFor w pieceIdx) es := by
  obtain ⟨hlast, ⟨_, ht⟩ | ⟨_, hq⟩⟩ := downloadPiece_ok h ho
  · obtain ⟨es, hes, _, hb⟩ := ht.events
    exact ⟨es, hes, hlast ▸ hb⟩
  · obtain ⟨es, hes, hquiet⟩ := hq.log
    refine ⟨es, hes, ?_⟩
    rw [hq.buffer, blocksFor_quiet hquiet]

end Bittorrent.Client
