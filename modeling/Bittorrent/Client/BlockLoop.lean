import Bittorrent.Client.Transfer
import Bittorrent.Proto.RoundTrip

/-! The block loop against any peer. A pass appends the block of whatever Piece
message comes, whole and of whatever piece (`fetchBlock_replies`), so the loop
does what it should exactly when the peer answers as it should
(`replies_match_iff`, `progress_iff`); against a peer that does, it tiles the
piece (`fetchBlocks_tiles`). -/

namespace Bittorrent.Client

open Lib.Exec Misc Net Proto Torrent

/-! ## One pass -/

/-- Where blocks are written, and what has been written so far. -/
def PieceWorker.output (w : PieceWorker) : Bytes :=
  match w.ostream with
  | none => w.buffer
  | some out => out

@[simp] theorem PieceWorker.afterWrite_output (w : PieceWorker) (block : Bytes) :
    (w.afterWrite block).output = w.output ++ block := by
  unfold afterWrite output
  cases w.ostream <;> simp

/-- In answer to a request the Piece message comes whole. -/
structure Replies (s : Socket) (pieceMsg : PieceMsg) : Prop where
  isOpen : s.isOpen = true
  written : s.write.1 = none
  message : ∃ msg header body, (s.write.2.read MsgHeader.sizeInBytes).1 = .ok msg ∧
    unpackMsgHeader msg = .ok header ∧ header.id = .piece ∧
    ((s.write.2.read MsgHeader.sizeInBytes).2.read header.bodyLength).1 = .ok body ∧
    unpackPieceMsg body = .ok pieceMsg

theorem Replies.unique {s : Socket} {pieceMsg pieceMsg' : PieceMsg} (h : Replies s pieceMsg)
    (h' : Replies s pieceMsg') : pieceMsg = pieceMsg' := by
  obtain ⟨msg, header, body, hm, hu, _, hb, hp⟩ := h.message
  obtain ⟨msg', header', body', hm', hu', _, hb', hp'⟩ := h'.message
  obtain rfl := Except.ok.inj (hm.symm.trans hm')
  obtain rfl := Except.ok.inj (hu.symm.trans hu')
  obtain rfl := Except.ok.inj (hb.symm.trans hb')
  exact Except.ok.inj (hp.symm.trans hp')

/-- What a pass leaves behind that got the message. -/
structure Appended (pieceIdx pieceLen receivedBytes : Nat) (pieceMsg : PieceMsg)
    (w w' : PieceWorker) : Prop where
  output : w'.output = w.output ++ pieceMsg.block
  log : ∃ msg bodyLength body, w'.log = w.log ++
      [.sent (requestAt pieceIdx pieceLen receivedBytes),
        .received .pieceHeader MsgHeader.sizeInBytes msg,
        .received (.pieceBody pieceIdx) bodyLength body] ∧
    body.drop PieceMsg.minSize = pieceMsg.block
  incoming : ∃ taken, w.socket.incoming = taken ++ w'.socket.incoming ∧
    taken.length = MsgHeader.sizeInBytes + (PieceMsg.minSize + pieceMsg.block.length)

/-- A Piece message as a peer sends it. -/
def pieceReply (pieceIdx begin : Nat) (block : Bytes) : Bytes :=
  let body := packU32 (UInt32.ofNat pieceIdx) ++ (packU32 (UInt32.ofNat begin) ++ block)
  packMsgHeader .piece (body.length + 1) ++ body

section
variable {pieceIdx pieceLen receivedBytes : Nat}

/-- A pass that returned had a whole Piece message as its answer, whatever numbers stand in it. -/
theorem fetchBlock_replies {n : Nat} {w w' : PieceWorker}
    (h : fetchBlock pieceIdx pieceLen receivedBytes w = .ok n w') :
    ∃ pieceMsg, Replies w.socket pieceMsg ∧ n = pieceMsg.block.length ∧
      Appended pieceIdx pieceLen receivedBytes pieceMsg w w' := by
  obtain ⟨msg, header, body, pieceMsg, w₁, w₂, hx, hu, hid, hr, hp, hn, rfl⟩ := fetchBlock_inv h
  obtain ⟨ho, hw⟩ := exchange_written hx
  obtain ⟨hlen, hmsg, rfl⟩ := read_ok (exchange_ok hx)
  obtain ⟨hlen', hbody, rfl⟩ := read_ok hr
  obtain ⟨hread, _⟩ := EStateM.Result.ok.inj (read_eq _ _ _ ▸ exchange_ok hx)
  obtain ⟨hread', _⟩ := EStateM.Result.ok.inj (read_eq _ _ _ ▸ hr)
  obtain ⟨hmin, hblock⟩ := unpackPieceMsg_ok hp
  refine ⟨pieceMsg, ⟨ho, hw, msg, header, body, hread, hu, hid, hread', hp⟩, hn, ?_, ?_, ?_⟩
  · rw [PieceWorker.afterWrite_output]
    rfl
  · refine ⟨msg, header.bodyLength, body, ?_, hblock.symm⟩
    rw [PieceWorker.afterWrite_log, hbody, hmsg]
    simp [PieceWorker.afterRead, PieceWorker.afterSend]
  · have hin := PieceWorker.afterRead_incoming
      (w.afterSend (requestAt pieceIdx pieceLen receivedBytes)) .pieceHeader MsgHeader.sizeInBytes
    have hin' := PieceWorker.afterRead_incoming
      ((w.afterSend (requestAt pieceIdx pieceLen receivedBytes)).afterRead .pieceHeader
        MsgHeader.sizeInBytes) (.pieceBody pieceIdx) header.bodyLength
    rw [PieceWorker.afterSend_incoming, ← hmsg, hin', ← hbody, ← List.append_assoc] at hin
    refine ⟨msg ++ body, ?_, ?_⟩
    · rw [PieceWorker.afterWrite_socket]
      exact hin
    · rw [List.length_append, hlen, hblock, List.length_drop, Nat.add_sub_cancel' hmin]

theorem fetchBlock_of_replies {w : PieceWorker} {pieceMsg : PieceMsg}
    (h : Replies w.socket pieceMsg) :
    ∃ w', fetchBlock pieceIdx pieceLen receivedBytes w = .ok pieceMsg.block.length w' := by
  obtain ⟨msg, header, body, hm, hu, hid, hb, hp⟩ := h.message
  have hexchange : exchange .pieceHeader (requestAt pieceIdx pieceLen receivedBytes)
      MsgHeader.sizeInBytes w = .ok (.ok msg)
        ((w.afterSend (requestAt pieceIdx pieceLen receivedBytes)).afterRead .pieceHeader
          MsgHeader.sizeInBytes) := by
    rw [exchange_of_written h.isOpen h.written, read_eq]
    exact congrArg (fun x => EStateM.Result.ok x _) hm
  have hheader : ∀ peer v, headerOf peer (.ok msg) v = .ok header v := by
    intro peer v
    unfold headerOf
    rw [bind_of_ok (orThrow_of_ok _ _ _), hu]
    rfl
  obtain ⟨w₁, hw₁⟩ : ∃ w₁, w₁ = (w.afterSend (requestAt pieceIdx pieceLen receivedBytes)).afterRead
    .pieceHeader MsgHeader.sizeInBytes := ⟨_, rfl⟩
  rw [← hw₁] at hexchange
  have hread : read (.pieceBody pieceIdx) header.bodyLength w₁ =
      .ok (.ok body) (w₁.afterRead (.pieceBody pieceIdx) header.bodyLength) := by
    rw [read_eq, hw₁]
    exact congrArg (fun x => EStateM.Result.ok x _) hb
  refine ⟨(w₁.afterRead (.pieceBody pieceIdx) header.bodyLength).afterWrite pieceMsg.block, ?_⟩
  refine (get_bind _ w).trans ((bind_of_ok hexchange).trans ?_)
  rw [bind_of_ok (hheader _ w₁), bind_of_ok (throwIf_of_not (not_not.mpr hid) _ w₁), bind_of_ok hread,
    bind_of_ok (orThrow_of_ok _ _ _), hp, bind_of_ok (orThrow_of_ok _ _ _)]
  rfl

/-! ## The loop -/

/-- The state at the head of the loop. -/
structure BlockLoop where
  receivedBytes : Nat
  worker : PieceWorker

def Unfinished (pieceLen : Nat) (s : BlockLoop) : Prop := s.receivedBytes ≠ pieceLen

def blockPass (pieceIdx pieceLen : Nat) : EStateM Exception BlockLoop Unit := fun s =>
  match fetchBlock pieceIdx pieceLen s.receivedBytes s.worker with
  | .ok blockSize worker => .ok () ⟨s.receivedBytes + blockSize, worker⟩
  | .error e worker => .error e ⟨s.receivedBytes, worker⟩

/-- `k` passes lead from one head to another. -/
abbrev BlockHeads (pieceIdx pieceLen : Nat) : BlockLoop → Nat → BlockLoop → Prop :=
  Iterates (Unfinished pieceLen) (blockPass pieceIdx pieceLen)

theorem blockPass_of_ok {n : Nat} {w w' : PieceWorker}
    (h : fetchBlock pieceIdx pieceLen receivedBytes w = .ok n w') :
    blockPass pieceIdx pieceLen ⟨receivedBytes, w⟩ = .ok () ⟨receivedBytes + n, w'⟩ := by
  unfold blockPass
  rw [h]

theorem blockPass_of_error {e : Exception} {w w' : PieceWorker}
    (h : fetchBlock pieceIdx pieceLen receivedBytes w = .error e w') :
    blockPass pieceIdx pieceLen ⟨receivedBytes, w⟩ = .error e ⟨receivedBytes, w'⟩ := by
  unfold blockPass
  rw [h]

theorem blockPass_ok {s s' : BlockLoop} (h : blockPass pieceIdx pieceLen s = .ok () s') :
    ∃ pieceMsg, Replies s.worker.socket pieceMsg ∧
      s'.receivedBytes = s.receivedBytes + pieceMsg.block.length ∧
      Appended pieceIdx pieceLen s.receivedBytes pieceMsg s.worker s'.worker := by
  unfold blockPass at h
  cases hf : fetchBlock pieceIdx pieceLen s.receivedBytes s.worker with
  | error e worker =>
    rw [hf] at h
    cases h
  | ok blockSize worker =>
    rw [hf] at h
    cases h
    obtain ⟨pieceMsg, hr, rfl, ha⟩ := fetchBlock_replies hf
    exact ⟨pieceMsg, hr, rfl, ha⟩

variable (pieceIdx pieceLen) in
theorem blockPass_of_replies {s : BlockLoop} {pieceMsg : PieceMsg}
    (h : Replies s.worker.socket pieceMsg) : ∃ s', blockPass pieceIdx pieceLen s = .ok () s' := by
  obtain ⟨w', hw'⟩ := fetchBlock_of_replies h
  exact ⟨⟨s.receivedBytes + pieceMsg.block.length, w'⟩, blockPass_of_ok hw'⟩

/-- The recursion over the stream is this loop: its bound is never met. -/
theorem fetchBlocks_ends (fuel : Nat) : ∀ {receivedBytes : Nat} {w : PieceWorker},
    w.socket.incoming.length < fuel →
    (∃ k w', BlockHeads pieceIdx pieceLen ⟨receivedBytes, w⟩ k ⟨pieceLen, w'⟩ ∧
      fetchBlocks pieceIdx pieceLen fuel receivedBytes w = .ok pieceLen w') ∨
    ∃ k s e s', BlockHeads pieceIdx pieceLen ⟨receivedBytes, w⟩ k s ∧ Unfinished pieceLen s ∧
      blockPass pieceIdx pieceLen s = .error e s' ∧
      fetchBlocks pieceIdx pieceLen fuel receivedBytes w = .error e s'.worker := by
  induction fuel with
  | zero => exact fun h => absurd h (Nat.not_lt_zero _)
  | succ fuel ih =>
    intro receivedBytes w hlt
    rw [fetchBlocks]
    by_cases hend : receivedBytes = pieceLen
    · subst hend
      rw [if_pos rfl]
      exact Or.inl ⟨0, w, .zero, rfl⟩
    rw [if_neg hend]
    cases hf : fetchBlock pieceIdx pieceLen receivedBytes w with
    | error e w' =>
      exact Or.inr ⟨0, ⟨receivedBytes, w⟩, e, ⟨receivedBytes, w'⟩, .zero, hend,
        blockPass_of_error hf, bind_of_error hf⟩
    | ok blockSize w₁ =>
      have hpass := blockPass_of_ok hf
      obtain ⟨pieceMsg, _, _, ha⟩ := fetchBlock_replies hf
      obtain ⟨taken, htaken, hlen⟩ := ha.incoming
      have hshorter := congrArg List.length htaken
      rw [List.length_append, hlen] at hshorter
      simp only [MsgHeader.sizeInBytes, PieceMsg.minSize] at hshorter
      rw [bind_of_ok hf]
      rcases @ih (receivedBytes + blockSize) w₁ (by omega) with
        ⟨k, w', hk, hx⟩ | ⟨k, s, e, s', hk, hs, hb, hx⟩
      · exact Or.inl ⟨k + 1, w', .cons hend hpass hk, hx⟩
      · exact Or.inr ⟨k + 1, s, e, s', .cons hend hpass hk, hs, hb, hx⟩

/-- Every appended block comes from a Piece message for this piece and for the
bytes that follow those appended so far, and any other makes the transfer fail,
exactly when no other comes whole. -/
theorem replies_match_iff (pieceIdx pieceLen : Nat) (w : PieceWorker) :
    ((∀ k s s', BlockHeads pieceIdx pieceLen ⟨0, w⟩ k s → Unfinished pieceLen s →
        blockPass pieceIdx pieceLen s = .ok () s' →
        ∃ pieceMsg, Replies s.worker.socket pieceMsg ∧
          s'.worker.output = s.worker.output ++ pieceMsg.block ∧
          pieceMsg.index = pieceIdx ∧ pieceMsg.begin = s.receivedBytes) ∧
      ∀ k s pieceMsg, BlockHeads pieceIdx pieceLen ⟨0, w⟩ k s → Unfinished pieceLen s →
        Replies s.worker.socket pieceMsg →
        ¬ (pieceMsg.index = pieceIdx ∧ pieceMsg.begin = s.receivedBytes) →
        ∃ e s', blockPass pieceIdx pieceLen s = .error e s') ↔
    ∀ k s pieceMsg, BlockHeads pieceIdx pieceLen ⟨0, w⟩ k s → Unfinished pieceLen s →
      Replies s.worker.socket pieceMsg →
      pieceMsg.index = pieceIdx ∧ pieceMsg.begin = s.receivedBytes := by
  constructor
  · rintro ⟨hmatch, _⟩ k s pieceMsg hs hrun hr
    obtain ⟨s', hs'⟩ := blockPass_of_replies pieceIdx pieceLen hr
    obtain ⟨pieceMsg', hr', _, hnumbers⟩ := hmatch k s s' hs hrun hs'
    rwa [hr.unique hr']
  · refine fun hall => ⟨fun k s s' hs hrun hb => ?_, fun k s pieceMsg hs hrun hr hn => ?_⟩
    · obtain ⟨pieceMsg, hr, _, ha⟩ := blockPass_ok hb
      exact ⟨pieceMsg, hr, ha.output, hall k s pieceMsg hs hrun hr⟩
    · exact absurd (hall k s pieceMsg hs hrun hr) hn

/-- One byte of piece 0 is asked for, and one of piece 5 comes. -/
theorem replies_of_another_piece : Replies (openWorker (pieceReply 5 9 [7])).socket ⟨5, 9, [7]⟩ where
  isOpen := rfl
  written := rfl
  message := ⟨packMsgHeader .piece 10, ⟨.piece, 9⟩, packU32 5 ++ (packU32 9 ++ [7]), by decide +kernel,
    by decide +kernel, rfl, by decide +kernel, by decide +kernel⟩

/-- The byte is appended. -/
theorem appends_another_piece :
    ¬ ∀ (pieceIdx pieceLen : Nat) (w : PieceWorker),
      (∀ k s s', BlockHeads pieceIdx pieceLen ⟨0, w⟩ k s → Unfinished pieceLen s →
        blockPass pieceIdx pieceLen s = .ok () s' →
        ∃ pieceMsg, Replies s.worker.socket pieceMsg ∧
          s'.worker.output = s.worker.output ++ pieceMsg.block ∧
          pieceMsg.index = pieceIdx ∧ pieceMsg.begin = s.receivedBytes) ∧
      ∀ k s pieceMsg, BlockHeads pieceIdx pieceLen ⟨0, w⟩ k s → Unfinished pieceLen s →
        Replies s.worker.socket pieceMsg →
        ¬ (pieceMsg.index = pieceIdx ∧ pieceMsg.begin = s.receivedBytes) →
        ∃ e s', blockPass pieceIdx pieceLen s = .error e s' := by
  intro hall
  obtain ⟨s', hs'⟩ := blockPass_of_replies 0 1
    (s := ⟨0, openWorker (pieceReply 5 9 [7])⟩) replies_of_another_piece
  obtain ⟨pieceMsg, hr, _, hindex, _⟩ := (hall 0 1 _).1 0 _ s' .zero Nat.zero_ne_one hs'
  obtain rfl := replies_of_another_piece.unique hr
  cases hindex

/-! ## Requests -/

theorem blockLen_le (pieceLen receivedBytes : Nat) : blockLen pieceLen receivedBytes ≤ maxBlockLen := by
  unfold blockLen
  dsimp only
  split <;> omega

theorem blockLen_of_le (h : receivedBytes ≤ pieceLen) :
    blockLen pieceLen receivedBytes = min maxBlockLen (pieceLen - receivedBytes) := by
  unfold blockLen
  rw [sizeT_of_nonneg (by omega)]
  dsimp only
  split <;> omega

/-- A request as the peer reads it. -/
theorem requestOf_requestAt (pieceIdx pieceLen receivedBytes : Nat) :
    requestOf (requestAt pieceIdx pieceLen receivedBytes) =
      some ⟨pieceIdx % 2 ^ 32, receivedBytes % 2 ^ 32, blockLen pieceLen receivedBytes⟩ := by
  have hle := blockLen_le pieceLen receivedBytes
  rw [requestAt, requestOf_packRequestMsg, UInt32.toNat_ofNat', UInt32.toNat_ofNat',
    UInt32.toNat_ofNat', Nat.mod_eq_of_lt (a := blockLen pieceLen receivedBytes)]
  exact Nat.lt_of_le_of_lt hle (by decide)

/-- The messages sent since are these. -/
def SentSince (msgs : List Bytes) (w₀ w : PieceWorker) : Prop :=
  ∃ es, w.log = w₀.log ++ es ∧ ∀ msg, .sent msg ∈ es ↔ msg ∈ msgs

theorem SentSince.read {msgs : List Bytes} {w₀ w : PieceWorker} (h : SentSince msgs w₀ w)
    (site : Site) (length : Nat) : SentSince msgs w₀ (w.afterRead site length) := by
  obtain ⟨es, hes, hsent⟩ := h
  refine ⟨es ++ [.received site length (w.socket.arriving length)], ?_, fun msg => ?_⟩
  · rw [← List.append_assoc, ← hes]
    rfl
  · rw [← hsent msg]
    simp

/-- An open socket is all it takes to send a request. -/
theorem triple_exchange_sent (w₀ : PieceWorker) (site : Site) (request : Bytes) (length : Nat) :
    Triple (fun w => w = w₀) (exchange site request length)
      (fun _ => SentSince (if w₀.socket.isOpen then [request] else []) w₀)
      fun _ => SentSince (if w₀.socket.isOpen then [request] else []) w₀ := by
  refine .reading fun w hw => ?_
  subst hw
  refine .ite (fun hclosed => .pure _ fun v hv => ?_) fun hopen => ?_
  · rw [hv, if_neg (by simpa using hclosed)]
    exact ⟨[], (List.append_nil _).symm, by simp⟩
  · rw [if_pos (by simpa using hopen)]
    have hsend : SentSince [request] w (w.afterSend request) := ⟨[.sent request], rfl, by simp⟩
    refine .bind (R := fun _ => SentSince [request] w) (fun v hv => hv ▸ hsend) fun written => ?_
    cases written with
    | none => exact fun v hv => hv.read site length
    | some e => exact .pure _ fun _ hv => hv

theorem blockPass_sent (pieceIdx pieceLen : Nat) (s : BlockLoop) (msg : Bytes) :
    .sent msg ∈ (final (blockPass pieceIdx pieceLen) s).worker.log.drop s.worker.log.length ↔
      s.worker.socket.isOpen = true ∧ msg = requestAt pieceIdx pieceLen s.receivedBytes := by
  have hpass : (final (blockPass pieceIdx pieceLen) s).worker =
      final (fetchBlock pieceIdx pieceLen s.receivedBytes) s.worker := by
    unfold final blockPass
    cases fetchBlock pieceIdx pieceLen s.receivedBytes s.worker <;> rfl
  have hsent := (triple_fetchBlock (triple_exchange_sent s.worker .pieceHeader
    (requestAt pieceIdx pieceLen s.receivedBytes) MsgHeader.sizeInBytes)
    (fun length w hw => hw.read _ length) fun w block hw => by
      unfold SentSince
      rw [PieceWorker.afterWrite_log]
      exact hw).final rfl
  obtain ⟨es, hes, hmem⟩ := hsent
  rw [hpass, hes, List.drop_left, hmem]
  cases s.worker.socket.isOpen <;> simp

/-- Every request carries the numbers of the loop exactly when those of each
pass that sends one fit in four bytes. -/
theorem requests_exact_iff (pieceIdx pieceLen : Nat) (w : PieceWorker) :
    (∀ k s msg, BlockHeads pieceIdx pieceLen ⟨0, w⟩ k s → Unfinished pieceLen s →
      .sent msg ∈ (final (blockPass pieceIdx pieceLen) s).worker.log.drop s.worker.log.length →
      requestOf msg = some ⟨pieceIdx, s.receivedBytes, blockLen pieceLen s.receivedBytes⟩) ↔
    ∀ k s, BlockHeads pieceIdx pieceLen ⟨0, w⟩ k s → Unfinished pieceLen s →
      s.worker.socket.isOpen = true → pieceIdx < 2 ^ 32 ∧ s.receivedBytes < 2 ^ 32 := by
  have hfits : ∀ n : Nat, n % 2 ^ 32 = n ↔ n < 2 ^ 32 := fun n => by omega
  constructor
  · intro h k s hs hrun hopen
    have hexact := h k s _ hs hrun ((blockPass_sent pieceIdx pieceLen s _).mpr ⟨hopen, rfl⟩)
    rw [requestOf_requestAt, Option.some.injEq, Request.mk.injEq, hfits, hfits] at hexact
    exact ⟨hexact.1, hexact.2.1⟩
  · intro h k s msg hs hrun hmsg
    obtain ⟨hopen, rfl⟩ := (blockPass_sent pieceIdx pieceLen s msg).mp hmsg
    obtain ⟨hidx, hreceived⟩ := h k s hs hrun hopen
    rw [requestOf_requestAt, (hfits _).mpr hidx, (hfits _).mpr hreceived]

/-- The peer is asked for piece 0 in place of piece 2^32. -/
theorem request_wraps :
    ¬ ∀ (torrentContent : Bytes) (metainfo : Metainfo) (pieceIdx : Nat) (len : Int) (w : PieceWorker),
      fromFile torrentContent true = .value metainfo → 0 < metainfo.pieceLength →
      pieceIdx < 2 ^ 64 → w.metainfo = metainfo → Client.pieceLen metainfo pieceIdx = .ok len →
      ∀ k s msg, BlockHeads pieceIdx (sizeT len) ⟨0, w⟩ k s → Unfinished (sizeT len) s →
        .sent msg ∈ (final (blockPass pieceIdx (sizeT len)) s).worker.log.drop s.worker.log.length →
        requestOf msg = some ⟨pieceIdx, s.receivedBytes, blockLen (sizeT len) s.receivedBytes⟩ := by
  intro h
  have hlen : Client.pieceLen onePiece (2 ^ 32) = .ok 2 := by decide +kernel
  have hsent := (blockPass_sent (2 ^ 32) 2 ⟨0, openWorker []⟩ _).mpr ⟨rfl, rfl⟩
  have hexact := h onePieceText onePiece (2 ^ 32) 2 (openWorker []) fromFile_onePiece (by decide)
    (by decide) rfl hlen 0 ⟨0, openWorker []⟩ _ .zero (show 0 ≠ 2 by decide) hsent
  rw [requestOf_requestAt, Option.some.injEq, Request.mk.injEq] at hexact
  exact absurd hexact.1 (by decide)

/-- The messages sent since are requests within the piece. -/
def SentWithin (pieceLen : Nat) (w₀ w : PieceWorker) : Prop :=
  ∃ es, w.log = w₀.log ++ es ∧ ∀ msg, .sent msg ∈ es →
    ∃ request, requestOf msg = some request ∧ request.begin + request.length ≤ pieceLen

theorem SentWithin.read {w₀ w : PieceWorker} (h : SentWithin pieceLen w₀ w) (site : Site)
    (length : Nat) : SentWithin pieceLen w₀ (w.afterRead site length) := by
  obtain ⟨es, hes, hsent⟩ := h
  refine ⟨es ++ [.received site length (w.socket.arriving length)], ?_, fun msg hm => ?_⟩
  · rw [← List.append_assoc, ← hes]
    rfl
  · exact hsent msg (by simpa using hm)

theorem SentWithin.send {w₀ w : PieceWorker} (h : SentWithin pieceLen w₀ w)
    (hle : receivedBytes ≤ pieceLen) :
    SentWithin pieceLen w₀ (w.afterSend (requestAt pieceIdx pieceLen receivedBytes)) := by
  obtain ⟨es, hes, hsent⟩ := h
  refine ⟨es ++ [.sent (requestAt pieceIdx pieceLen receivedBytes)], ?_, fun msg hm => ?_⟩
  · rw [← List.append_assoc, ← hes]
    rfl
  · rcases List.mem_append.mp hm with hm | hm
    · exact hsent msg hm
    · cases List.mem_singleton.mp hm
      refine ⟨_, requestOf_requestAt _ _ _, ?_⟩
      have hmod := Nat.mod_le receivedBytes (2 ^ 32)
      rw [blockLen_of_le hle]
      dsimp only
      omega

theorem sentWithin_fetchBlock (w₀ : PieceWorker) (hle : receivedBytes ≤ pieceLen) :
    Keeps (SentWithin pieceLen w₀) (fetchBlock pieceIdx pieceLen receivedBytes) := by
  refine triple_fetchBlock ?_ (fun length w hw => hw.read _ length) fun w block hw => ?_
  · exact triple_exchange (fun w hw => hw.send hle) (fun w hw => hw.read _ _) fun _ _ hw => hw
  · unfold SentWithin
    rw [PieceWorker.afterWrite_log]
    exact hw

/-- The peer's blocks are neither empty nor longer than what is left. -/
def Sized (pieceIdx pieceLen : Nat) (s₀ : BlockLoop) : Prop :=
  ∀ k s pieceMsg, BlockHeads pieceIdx pieceLen s₀ k s → Unfinished pieceLen s →
    Replies s.worker.socket pieceMsg →
    1 ≤ pieceMsg.block.length ∧ s.receivedBytes + pieceMsg.block.length ≤ pieceLen

theorem sentWithin_fetchBlocks (w₀ : PieceWorker) (fuel : Nat) : ∀ {receivedBytes : Nat}
    {w : PieceWorker}, receivedBytes ≤ pieceLen → Sized pieceIdx pieceLen ⟨receivedBytes, w⟩ →
    SentWithin pieceLen w₀ w →
    SentWithin pieceLen w₀ (final (fetchBlocks pieceIdx pieceLen fuel receivedBytes) w) := by
  induction fuel with
  | zero => exact fun _ _ hw => hw
  | succ fuel ih =>
    intro receivedBytes w hle hsized hw
    have hpass : Keeps (SentWithin pieceLen w₀) (fetchBlock pieceIdx pieceLen receivedBytes) :=
      sentWithin_fetchBlock w₀ hle
    unfold final
    rw [fetchBlocks]
    split_ifs with hend
    · exact hw
    cases hf : fetchBlock pieceIdx pieceLen receivedBytes w with
    | error e w' =>
      rw [bind_of_error hf]
      exact hpass.error hw hf
    | ok blockSize w₁ =>
      rw [bind_of_ok hf]
      obtain ⟨pieceMsg, hr, rfl, _⟩ := fetchBlock_replies hf
      have hb := blockPass_of_ok hf
      refine ih (hsized 0 _ pieceMsg .zero hend hr).2 ?_ (hpass.ok hw hf)
      exact fun k s msg hs hrun hrep => hsized (k + 1) s msg (.cons hend hb hs) hrun hrep

/-- Each pass makes progress within the piece, so that the requests stay within
it and the passes are at most as many as its bytes, exactly when the blocks that
come are neither empty nor too long. -/
theorem progress_iff (pieceIdx pieceLen : Nat) (w : PieceWorker) :
    ((∀ k s s', BlockHeads pieceIdx pieceLen ⟨0, w⟩ k s → Unfinished pieceLen s →
        blockPass pieceIdx pieceLen s = .ok () s' →
        s.receivedBytes < s'.receivedBytes ∧ s'.receivedBytes ≤ pieceLen) ∧
      (∀ msg, .sent msg ∈ (final (fetchBlocks pieceIdx pieceLen (w.socket.incoming.length + 1) 0)
          w).log.drop w.log.length →
        ∃ request, requestOf msg = some request ∧ request.begin + request.length ≤ pieceLen) ∧
      ∀ k s, BlockHeads pieceIdx pieceLen ⟨0, w⟩ k s → k ≤ pieceLen) ↔
    ∀ k s pieceMsg, BlockHeads pieceIdx pieceLen ⟨0, w⟩ k s → Unfinished pieceLen s →
      Replies s.worker.socket pieceMsg →
      1 ≤ pieceMsg.block.length ∧ s.receivedBytes + pieceMsg.block.length ≤ pieceLen := by
  constructor
  · rintro ⟨hstep, _, _⟩ k s pieceMsg hs hrun hr
    obtain ⟨s', hs'⟩ := blockPass_of_replies pieceIdx pieceLen hr
    obtain ⟨pieceMsg', hr', hreceived, _⟩ := blockPass_ok hs'
    obtain rfl := hr.unique hr'
    obtain ⟨hlt, hle⟩ := hstep k s s' hs hrun hs'
    omega
  · intro hall
    have hstep : ∀ k s s', BlockHeads pieceIdx pieceLen ⟨0, w⟩ k s → Unfinished pieceLen s →
        blockPass pieceIdx pieceLen s = .ok () s' →
        s.receivedBytes < s'.receivedBytes ∧ s'.receivedBytes ≤ pieceLen := by
      intro k s s' hs hrun hb
      obtain ⟨pieceMsg, hr, hreceived, _⟩ := blockPass_ok hb
      obtain ⟨hpos, hle⟩ := hall k s pieceMsg hs hrun hr
      omega
    refine ⟨hstep, fun msg hm => ?_, fun k s hs => ?_⟩
    · obtain ⟨es, hes, hsent⟩ := sentWithin_fetchBlocks w (w.socket.incoming.length + 1)
        (Nat.zero_le pieceLen) hall ⟨[], (List.append_nil _).symm, by simp⟩
      rw [hes, List.drop_left] at hm
      exact hsent msg hm
    · have hbound := hs.rule (I := fun k s => k ≤ s.receivedBytes ∧ s.receivedBytes ≤ pieceLen)
        ⟨Nat.le_refl _, Nat.zero_le _⟩ fun k t t' ht hi hrun hb => by
          obtain ⟨hlt, hle⟩ := hstep k t t' ht hrun hb
          omega
      omega

/-- Two bytes come for the one that is asked for. -/
theorem replies_too_long : Replies (openWorker (pieceReply 0 0 [7, 7])).socket ⟨0, 0, [7, 7]⟩ where
  isOpen := rfl
  written := rfl
  message := ⟨packMsgHeader .piece 11, ⟨.piece, 10⟩, packU32 0 ++ (packU32 0 ++ [7, 7]),
    by decide +kernel, by decide +kernel, rfl, by decide +kernel, by decide +kernel⟩

/-- They are appended, and the loop goes on past the end of the piece. -/
theorem passes_the_end :
    ¬ ∀ (pieceIdx pieceLen : Nat) (w : PieceWorker), 0 < pieceLen →
      (∀ k s s', BlockHeads pieceIdx pieceLen ⟨0, w⟩ k s → Unfinished pieceLen s →
        blockPass pieceIdx pieceLen s = .ok () s' →
        s.receivedBytes < s'.receivedBytes ∧ s'.receivedBytes ≤ pieceLen) ∧
      (∀ msg, .sent msg ∈ (final (fetchBlocks pieceIdx pieceLen (w.socket.incoming.length + 1) 0)
          w).log.drop w.log.length →
        ∃ request, requestOf msg = some request ∧ request.begin + request.length ≤ pieceLen) ∧
      ∀ k s, BlockHeads pieceIdx pieceLen ⟨0, w⟩ k s → k ≤ pieceLen := by
  intro hall
  obtain ⟨s', hs'⟩ := blockPass_of_replies 0 1
    (s := ⟨0, openWorker (pieceReply 0 0 [7, 7])⟩) replies_too_long
  obtain ⟨pieceMsg, hr, hreceived, _⟩ := blockPass_ok hs'
  obtain rfl := replies_too_long.unique hr
  obtain ⟨_, hle⟩ := (hall 0 1 _ Nat.zero_lt_one).1 0 _ s' .zero Nat.zero_ne_one hs'
  rw [hreceived] at hle
  exact absurd hle (by decide)

end

/-! ## A peer that answers -/

/-- The first answers of a peer that has the piece: to a request that is its
`pass`-th, for `length` bytes from `begin` on, it sends the first `choose pass length` of these. -/
def repliesFrom (pieceIdx : Nat) (content : Bytes) (choose : Nat → Nat → Nat) :
    Nat → Nat → Nat → Bytes
  | 0, _, _ => []
  | count + 1, pass, begin =>
    if begin = content.length then []
    else
      let length := choose pass (blockLen content.length begin)
      pieceReply pieceIdx begin ((content.drop begin).take length) ++
        repliesFrom pieceIdx content choose count (pass + 1) (begin + length)

section
variable {pieceIdx pieceLen receivedBytes : Nat}

theorem prompt_kept : Kept (fun _ => True) fun w => w.socket.Prompt :=
  ⟨fun _ _ length _ h => h.read length, fun _ _ h => h.write, fun _ _ h => h⟩

variable (pieceLen receivedBytes) in
/-- A pass with a reply in front of the stream. -/
theorem fetchBlock_reply {w : PieceWorker} {begin : Nat} {block rest : Bytes}
    (hw : w.socket.Prompt) (hl : block.length ≤ maxBlockLen)
    (hin : w.socket.incoming = pieceReply pieceIdx begin block ++ rest) :
    ∃ w' pieceMsg, fetchBlock pieceIdx pieceLen receivedBytes w = .ok block.length w' ∧
      pieceMsg.block = block ∧ Appended pieceIdx pieceLen receivedBytes pieceMsg w w' ∧
      w'.socket.Prompt ∧ w'.socket.incoming = rest := by
  obtain ⟨body, hbody⟩ : ∃ body, body =
    packU32 (UInt32.ofNat pieceIdx) ++ (packU32 (UInt32.ofNat begin) ++ block) := ⟨_, rfl⟩
  have hsize : body.length = PieceMsg.minSize + block.length := by
    rw [hbody, ← List.append_assoc, List.length_append]
    rfl
  have hfits : body.length + 1 < 2 ^ 32 := by
    rw [hsize]
    simp only [maxBlockLen, PieceMsg.minSize] at hl ⊢
    omega
  have hreply : pieceReply pieceIdx begin block =
      packMsgHeader .piece (body.length + 1) ++ body := by
    rw [hbody]
    rfl
  rw [hreply, List.append_assoc] at hin
  have hsent : w.socket.write.2.incoming = _ := hin
  obtain ⟨hheader, hrest⟩ := hw.write.read_front hsent
  obtain ⟨hread, _⟩ := (hw.write.read _).read_front hrest
  obtain ⟨pieceMsg, hunpack, hblock⟩ : ∃ pieceMsg, unpackPieceMsg body = .ok pieceMsg ∧
      pieceMsg.block = block := by
    have hmin : ¬ body.length < PieceMsg.minSize := by omega
    refine ⟨_, if_neg hmin, ?_⟩
    rw [hbody]
    rfl
  have hreplies : Replies w.socket pieceMsg :=
    ⟨hw.isOpen, hw.written 0, _, _, body, hheader, unpackMsgHeader_packMsgHeader .piece hfits, rfl,
      hread, hunpack⟩
  obtain ⟨w', hw'⟩ : ∃ w', fetchBlock pieceIdx pieceLen receivedBytes w =
      .ok pieceMsg.block.length w' := fetchBlock_of_replies hreplies
  obtain ⟨pieceMsg', hreplies', _, ha⟩ := fetchBlock_replies hw'
  obtain rfl := hreplies.unique hreplies'
  rw [hblock] at hw'
  refine ⟨w', pieceMsg, hw', hblock, ha, ?_, ?_⟩
  · refine (prompt_kept.keeps_fetchBlock (fun v block hv => ?_) trivial trivial _ _).ok hw hw'
    rw [PieceWorker.afterWrite_socket]
    exact hv
  · obtain ⟨taken, htaken, hlen⟩ := ha.incoming
    rw [htaken, ← List.append_assoc] at hin
    refine (List.append_inj hin ?_).2
    rw [hlen, hblock, List.length_append, hsize]
    rfl

def Event.isReply : Event → Bool
  | .received (.pieceBody _) _ _ => true
  | _ => false

/-- The reply that stands right behind a request: the first of the bytes it asks for. -/
def Fulfilled (pieceIdx : Nat) (content : Bytes) (request : Request) (after : List Event) : Prop :=
  ∃ header bodyLength body rest, after = .received .pieceHeader MsgHeader.sizeInBytes header ::
      .received (.pieceBody pieceIdx) bodyLength body :: rest ∧
    1 ≤ (body.drop PieceMsg.minSize).length ∧ (body.drop PieceMsg.minSize).length ≤ request.length ∧
    body.drop PieceMsg.minSize <+: content.drop request.begin

/-- The log of a loop that had `begin` bytes: each request is for the bytes that
follow those received and has its reply behind it, each reply has its request in
front of it, and there are no more replies than bytes. -/
structure Tiles (pieceIdx : Nat) (content : Bytes) (begin : Nat) (es : List Event) : Prop where
  replies : es.countP Event.isReply ≤ content.length - begin
  requests : ∀ before msg after, es = before ++ .sent msg :: after →
    ∃ request, requestOf msg = some request ∧
      request.begin = begin + (blocksFor pieceIdx before).length ∧
      request.length = blockLen content.length request.begin ∧ 1 ≤ request.length ∧
      request.length ≤ maxBlockLen ∧ request.begin + request.length ≤ content.length ∧
      Fulfilled pieceIdx content request after
  follows : ∀ before bodyLength body after,
    es = before ++ .received (.pieceBody pieceIdx) bodyLength body :: after →
    ∃ before' msg header,
      before = before' ++ [.sent msg, .received .pieceHeader MsgHeader.sizeInBytes header]

theorem Tiles.nil (pieceIdx : Nat) (content : Bytes) (begin : Nat) : Tiles pieceIdx content begin [] where
  replies := Nat.zero_le _
  requests _ _ _ h := by simp at h
  follows _ _ _ _ h := by simp at h

/-- The first pass and the others. -/
theorem Tiles.cons {content : Bytes} {begin : Nat} {body : Bytes} {es : List Event} (header : Bytes)
    (bodyLength : Nat) (hL : content.length ≤ 2 ^ 32) (hlt : begin < content.length)
    (hbody : 1 ≤ (body.drop PieceMsg.minSize).length)
    (hshort : (body.drop PieceMsg.minSize).length ≤ blockLen content.length begin)
    (hfirst : body.drop PieceMsg.minSize <+: content.drop begin)
    (h : Tiles pieceIdx content (begin + (body.drop PieceMsg.minSize).length) es) :
    Tiles pieceIdx content begin
      ([.sent (requestAt pieceIdx content.length begin),
        .received .pieceHeader MsgHeader.sizeInBytes header,
        .received (.pieceBody pieceIdx) bodyLength body] ++ es) where
  replies := by
    have hcount := h.replies
    have hone : List.countP Event.isReply [.sent (requestAt pieceIdx content.length begin),
        .received .pieceHeader MsgHeader.sizeInBytes header,
        .received (.pieceBody pieceIdx) bodyLength body] = 1 := rfl
    rw [List.countP_append, hone]
    omega
  requests before msg after hes := by
    rcases before with _ | ⟨e₁, _ | ⟨e₂, _ | ⟨e₃, before⟩⟩⟩
    · obtain ⟨hsent, hafter⟩ := List.cons.inj hes
      cases hsent
      have hmod : begin % 2 ^ 32 = begin := Nat.mod_eq_of_lt (Nat.lt_of_lt_of_le hlt hL)
      refine ⟨_, requestOf_requestAt _ _ _, hmod, by rw [hmod], hbody.trans hshort, blockLen_le _ _, ?_,
        header, bodyLength, body, es, hafter.symm, hbody, hshort, ?_⟩
      · show begin % 2 ^ 32 + blockLen content.length begin ≤ content.length
        rw [blockLen_of_le (Nat.le_of_lt hlt), hmod]
        omega
      · show body.drop PieceMsg.minSize <+: content.drop (begin % 2 ^ 32)
        rw [hmod]
        exact hfirst
    · cases hes
    · cases hes
    · simp only [List.cons_append, List.nil_append, List.cons.injEq] at hes
      obtain ⟨rfl, rfl, rfl, hes⟩ := hes
      obtain ⟨request, hrequest, hbegin, hrest⟩ := h.requests before msg after hes
      refine ⟨request, hrequest, ?_, hrest⟩
      rw [hbegin]
      simp [blocksFor, Event.block, Nat.add_assoc]
  follows before n got after hes := by
    rcases before with _ | ⟨e₁, _ | ⟨e₂, _ | ⟨e₃, before⟩⟩⟩
    · cases hes
    · cases hes
    · obtain ⟨hsent, hes⟩ := List.cons.inj hes
      obtain ⟨hheader, _⟩ := List.cons.inj hes
      exact ⟨[], _, _, by rw [← hsent, ← hheader]; rfl⟩
    · simp only [List.cons_append, List.nil_append, List.cons.injEq] at hes
      obtain ⟨rfl, rfl, rfl, hes⟩ := hes
      obtain ⟨before', msg, header', rfl⟩ := h.follows before n got after hes
      exact ⟨_ :: _ :: _ :: before', msg, header', rfl⟩

theorem fetchBlocks_repliesFrom {content rest : Bytes} {choose : Nat → Nat → Nat}
    (hL : content.length ≤ 2 ^ 32)
    (hchoose : ∀ pass length, 1 ≤ length → 1 ≤ choose pass length ∧ choose pass length ≤ length)
    (count : Nat) : ∀ {pass begin fuel : Nat} {w : PieceWorker}, begin ≤ content.length →
    content.length - begin ≤ count → w.socket.Prompt →
    w.socket.incoming = repliesFrom pieceIdx content choose count pass begin ++ rest →
    w.socket.incoming.length < fuel →
    ∃ w' es, fetchBlocks pieceIdx content.length fuel begin w = .ok content.length w' ∧
      w'.output = w.output ++ content.drop begin ∧ w'.socket.incoming = rest ∧
      w'.log = w.log ++ es ∧ Tiles pieceIdx content begin es := by
  induction count with
  | zero =>
    intro pass begin fuel w hle hcount hw hin hfuel
    obtain rfl : begin = content.length := by omega
    obtain ⟨fuel, rfl⟩ := Nat.exists_eq_succ_of_ne_zero (Nat.ne_of_gt (Nat.zero_lt_of_lt hfuel))
    refine ⟨w, [], ?_, by simp, hin, by simp, .nil ..⟩
    rw [fetchBlocks, if_pos rfl]
    rfl
  | succ count ih =>
    intro pass begin fuel w hle hcount hw hin hfuel
    obtain ⟨fuel, rfl⟩ := Nat.exists_eq_succ_of_ne_zero (Nat.ne_of_gt (Nat.zero_lt_of_lt hfuel))
    rw [fetchBlocks]
    rw [repliesFrom] at hin
    split_ifs with hend
    · subst hend
      rw [if_pos rfl, List.nil_append] at hin
      exact ⟨w, [], rfl, by simp, hin, by simp, .nil ..⟩
    rw [if_neg hend, List.append_assoc] at hin
    obtain ⟨block, hblock⟩ : ∃ block, block = (content.drop begin).take
      (choose pass (blockLen content.length begin)) := ⟨_, rfl⟩
    have hrequest := blockLen_of_le hle
    obtain ⟨hpos, hshort⟩ := hchoose pass (blockLen content.length begin)
      (by simp only [maxBlockLen] at hrequest; omega)
    have hlen : block.length = choose pass (blockLen content.length begin) := by
      rw [hblock, List.length_take_of_le]
      rw [List.length_drop]
      omega
    rw [← hblock, ← hlen] at hin
    obtain ⟨w₁, pieceMsg, hpass, hmsg, ha, hw₁, hin₁⟩ := fetchBlock_reply
      content.length begin hw (by omega) hin
    obtain ⟨taken, htaken, hsize⟩ := ha.incoming
    obtain ⟨w', es, hrun, hout, hrest, hlog, htiles⟩ := @ih (pass + 1)
      (begin + block.length) fuel w₁ (by omega) (by omega) hw₁ hin₁ (by
        rw [htaken, List.length_append, hsize] at hfuel
        simp only [MsgHeader.sizeInBytes, PieceMsg.minSize] at hfuel
        omega)
    obtain ⟨header, bodyLength, body, hfirst, hbody⟩ := ha.log
    rw [hmsg] at hbody
    have hwhole : block ++ content.drop (begin + block.length) = content.drop begin := by
      rw [hlen, hblock, ← List.drop_drop, List.take_append_drop]
    have hlt : begin < content.length := by omega
    have hfirst' : block <+: content.drop begin := ⟨_, hwhole⟩
    rw [← hlen] at hpos hshort
    rw [← hbody] at htiles hpos hshort hfirst'
    refine ⟨w', _, (bind_of_ok hpass).trans hrun, ?_, hrest, ?_,
      htiles.cons header bodyLength hL hlt hpos hshort hfirst'⟩
    · rw [hout, ha.output, hmsg, List.append_assoc, hwhole]
    · rw [hlog, hfirst, List.append_assoc]

/-- Against a peer that answers every request with some of the bytes it asks
for, the loop ends with all of the content written in order. Requests and replies
take turns. -/
theorem fetchBlocks_tiles {content rest : Bytes} {choose : Nat → Nat → Nat} {w : PieceWorker}
    (hL : content.length ≤ 2 ^ 32)
    (hchoose : ∀ pass length, 1 ≤ length → 1 ≤ choose pass length ∧ choose pass length ≤ length)
    (hw : w.socket.Prompt)
    (hin : w.socket.incoming = repliesFrom pieceIdx content choose content.length 0 0 ++ rest) :
    ∃ w' es, fetchBlocks pieceIdx content.length (w.socket.incoming.length + 1) 0 w =
        .ok content.length w' ∧
      w'.output = w.output ++ content ∧ w'.socket.incoming = rest ∧ w'.log = w.log ++ es ∧
      es.countP Event.isReply ≤ content.length ∧
      (∀ before msg after, es = before ++ .sent msg :: after →
        ∃ request, requestOf msg = some request ∧
          request.begin = (blocksFor pieceIdx before).length ∧
          request.length = blockLen content.length request.begin ∧ 1 ≤ request.length ∧
          request.length ≤ 16384 ∧ request.begin + request.length ≤ content.length ∧
          Fulfilled pieceIdx content request after) ∧
      ∀ before bodyLength body after,
        es = before ++ .received (.pieceBody pieceIdx) bodyLength body :: after →
        ∃ before' msg header,
          before = before' ++ [.sent msg, .received .pieceHeader MsgHeader.sizeInBytes header] := by
  obtain ⟨w', es, hrun, hout, hrest, hlog, htiles⟩ := fetchBlocks_repliesFrom hL hchoose
    content.length (Nat.zero_le _) (Nat.le_refl _) hw hin (Nat.lt_succ_self _)
  refine ⟨w', es, hrun, hout, hrest, hlog, htiles.replies, fun before msg after hes => ?_, htiles.follows⟩
  obtain ⟨request, hrequest, hbegin, hsize⟩ := htiles.requests before msg after hes
  exact ⟨request, hrequest, hbegin.trans (Nat.zero_add _), hsize⟩

end

theorem fetchBlocks_tiles_threeBytes :
    ∃ w' es, fetchBlocks 0 3
        ((openWorker (repliesFrom 0 [1, 2, 3] (fun _ _ => 1) 3 0 0 ++ [])).socket.incoming.length + 1) 0
        (openWorker (repliesFrom 0 [1, 2, 3] (fun _ _ => 1) 3 0 0 ++ [])) = .ok 3 w' ∧
      w'.output = [] ++ [1, 2, 3] ∧ w'.socket.incoming = [] ∧ w'.log = [] ++ es ∧
      es.countP Event.isReply ≤ 3 ∧
      (∀ before msg after, es = before ++ .sent msg :: after →
        ∃ request, requestOf msg = some request ∧
          request.begin = (blocksFor 0 before).length ∧
          request.length = blockLen 3 request.begin ∧ 1 ≤ request.length ∧
          request.length ≤ 16384 ∧ request.begin + request.length ≤ 3 ∧
          Fulfilled 0 [1, 2, 3] request after) ∧
      ∀ before bodyLength body after,
        es = before ++ .received (.pieceBody 0) bodyLength body :: after →
        ∃ before' msg header,
          before = before' ++ [.sent msg, .received .pieceHeader MsgHeader.sizeInBytes header] :=
  @fetchBlocks_tiles 0 [1, 2, 3] [] (fun _ _ => 1)
    (openWorker (repliesFrom 0 [1, 2, 3] (fun _ _ => 1) 3 0 0 ++ [])) (by decide)
    (fun _ _ h => ⟨Nat.le_refl 1, h⟩) (openWorker_prompt (by decide +kernel)) rfl

end Bittorrent.Client
