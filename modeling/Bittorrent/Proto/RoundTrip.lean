import Bittorrent.Proto.Stream

/-! Packing and unpacking are inverse: what the program sends reads back message
by message (`takeMessages_pack`), and what it reads, errors included, is what the
bytes stand for (`unpack_faithful`). -/

namespace Bittorrent.Proto

open Misc

/-! ## Numbers -/

/-- A packed number reads back wherever it stands. -/
theorem unpackU32_packU32 (before : Bytes) (value : UInt32) (after : Bytes) (size : Nat) :
    unpackU32 ⟨before ++ (packU32 value ++ after), before.length, size⟩ = value := by
  obtain ⟨a, b, c, d, hp⟩ : ∃ a b c d, packU32 value = [a, b, c, d] := ⟨_, _, _, _, rfl⟩
  have hn : bigEndian a b c d = value.toNat :=
    bigEndian_packU32 value.toNat_lt (by rw [UInt32.ofNat_toNat, hp])
  rw [hp]
  refine UInt32.toNat_inj.mp ((unpackU32_toNat _).trans ?_)
  simp only [Span.get, List.getD_eq_getElem?_getD, Nat.add_zero]
  rw [List.getElem?_append_right (Nat.le_refl _), List.getElem?_append_right (Nat.le_add_right _ _),
    List.getElem?_append_right (Nat.le_add_right _ _),
    List.getElem?_append_right (Nat.le_add_right _ _)]
  simp only [Nat.sub_self, Nat.add_sub_cancel_left]
  exact hn

/-- The number in four bytes packs to them. -/
theorem packU32_unpackU32 (before : Bytes) (a b c d : UInt8) (after : Bytes) (size : Nat) :
    packU32 (unpackU32 ⟨before ++ (a :: b :: c :: d :: after), before.length, size⟩) =
      [a, b, c, d] := by
  rw [← packU32_bigEndian a b c d]
  have := unpackU32_packU32 before (UInt32.ofNat (bigEndian a b c d)) after size
  rw [packU32_bigEndian] at this
  exact congrArg packU32 this

/-! ## What the program sends -/

inductive Outgoing where
  | interested
  | notInterested
  | unchoke
  | have (pieceIdx : UInt32)
  | request (pieceIdx begin length : UInt32)

namespace Outgoing

def pack : Outgoing → Bytes
  | interested => packInterestedMsg
  | notInterested => packNotInterestedMsg
  | unchoke => packUnchokeMsg
  | .have pieceIdx => packHaveMsg pieceIdx
  | request pieceIdx begin length => packRequestMsg pieceIdx begin length

def id : Outgoing → MsgId
  | interested => .interested
  | notInterested => .notInterested
  | unchoke => .unchoke
  | .have _ => .have
  | request _ _ _ => .request

def body : Outgoing → Bytes
  | .have pieceIdx => packU32 pieceIdx
  | request pieceIdx begin length => packU32 pieceIdx ++ (packU32 begin ++ packU32 length)
  | _ => []

/-- Each pack function announces the length of the body it appends. -/
theorem pack_eq (m : Outgoing) : m.pack = packMsgHeader m.id (m.body.length + 1) ++ m.body := by
  cases m with
  | request pieceIdx begin length => simp [pack, id, body, packRequestMsg]
  | _ => rfl

theorem body_fits (m : Outgoing) : m.body.length + 1 < 2 ^ 32 := by
  have hle : m.body.length ≤ 12 := by
    cases m with
    | request pieceIdx begin length => exact Nat.le_refl 12
    | _ => exact Nat.le_of_ble_eq_true rfl
  omega

end Outgoing

/-- A reader of one message: a header, and the body it announces. -/
def takeMessage (s : Bytes) : Option ((MsgId × Bytes) × Bytes) :=
  match unpackMsgHeader (s.take MsgHeader.sizeInBytes) with
  | .error _ => none
  | .ok header =>
    let rest := s.drop MsgHeader.sizeInBytes
    if rest.length < header.bodyLength then none
    else some ((header.id, rest.take header.bodyLength), rest.drop header.bodyLength)

def takeMessages : Nat → Bytes → Option (List (MsgId × Bytes) × Bytes)
  | 0, s => some ([], s)
  | count + 1, s => do
    let (message, s) ← takeMessage s
    let (messages, s) ← takeMessages count s
    some (message :: messages, s)

theorem takeMessage_pack (m : Outgoing) (t : Bytes) :
    takeMessage (m.pack ++ t) = some ((m.id, m.body), t) := by
  have hlen := packMsgHeader_length m.id (m.body.length + 1)
  unfold takeMessage
  rw [m.pack_eq, List.append_assoc, ← hlen, List.take_left, List.drop_left,
    unpackMsgHeader_packMsgHeader m.id m.body_fits]
  dsimp only
  rw [if_neg (by simp), List.take_left, List.drop_left]

theorem unpackU32_request (pieceIdx begin length : UInt32) :
    unpackU32 ⟨(Outgoing.request pieceIdx begin length).body, 0, 4⟩ = pieceIdx ∧
    unpackU32 ⟨(Outgoing.request pieceIdx begin length).body, 4, 4⟩ = begin ∧
    unpackU32 ⟨(Outgoing.request pieceIdx begin length).body, 8, 4⟩ = length := by
  refine ⟨?_, ?_, ?_⟩
  · exact unpackU32_packU32 [] pieceIdx (packU32 begin ++ packU32 length) 4
  · exact unpackU32_packU32 (packU32 pieceIdx) begin (packU32 length) 4
  · have := unpackU32_packU32 (packU32 pieceIdx ++ packU32 begin) length [] 4
    rw [List.append_nil, List.append_assoc] at this
    exact this

/-- The messages of the program, one behind the other, read back as they were
sent, and so do the numbers in them. -/
theorem takeMessages_pack (ms : List Outgoing) (t : Bytes) :
    takeMessages ms.length (ms.flatMap Outgoing.pack ++ t) =
      some (ms.map fun m => (m.id, m.body), t) ∧
    (∀ i, unpackHaveMsg (Outgoing.have i).body = .ok ⟨i.toNat⟩) ∧
    ∀ i b l, unpackU32 ⟨(Outgoing.request i b l).body, 0, 4⟩ = i ∧
      unpackU32 ⟨(Outgoing.request i b l).body, 4, 4⟩ = b ∧
      unpackU32 ⟨(Outgoing.request i b l).body, 8, 4⟩ = l := by
  refine ⟨?_, fun i => ?_, unpackU32_request⟩
  · induction ms with
    | nil => rfl
    | cons m ms ih =>
      rw [List.flatMap_cons, List.append_assoc, List.length_cons, takeMessages, takeMessage_pack]
      simp [ih]
  · have := unpackU32_packU32 [] i [] HaveMsg.indexSize
    rw [List.append_nil] at this
    show Except.ok (HaveMsg.mk (unpackU32 _).toNat) = _
    exact congrArg (fun v : UInt32 => Except.ok (HaveMsg.mk v.toNat)) this

/-- The numbers in a request. -/
structure Request where
  pieceIdx : Nat
  begin : Nat
  length : Nat
  deriving DecidableEq

/-- A message that is one request, read back. -/
def requestOf (msg : Bytes) : Option Request :=
  match takeMessage msg with
  | some ((.request, body), []) =>
    some ⟨(unpackU32 ⟨body, 0, 4⟩).toNat, (unpackU32 ⟨body, 4, 4⟩).toNat,
      (unpackU32 ⟨body, 8, 4⟩).toNat⟩
  | _ => none

theorem requestOf_packRequestMsg (pieceIdx begin length : UInt32) :
    requestOf (packRequestMsg pieceIdx begin length) =
      some ⟨pieceIdx.toNat, begin.toNat, length.toNat⟩ := by
  have htake := takeMessage_pack (.request pieceIdx begin length) []
  rw [List.append_nil] at htake
  obtain ⟨hpiece, hbegin, hlength⟩ := unpackU32_request pieceIdx begin length
  unfold requestOf
  rw [show packRequestMsg pieceIdx begin length = (Outgoing.request pieceIdx begin length).pack from rfl,
    htake]
  show some (Request.mk _ _ _) = _
  rw [hpiece, hbegin, hlength]

/-! ## What the program receives -/

theorem MsgId.enumCast_eq_none {byte : UInt8} : enumCast byte = none ↔ 8 < byte.toNat := by
  unfold enumCast
  split <;> simp_all
  omega

theorem exists_of_five_le {m : Bytes} (h : MsgHeader.sizeInBytes ≤ m.length) :
    ∃ a b c d e rest, m = a :: b :: c :: d :: e :: rest := by
  rcases m with _ | ⟨a, _ | ⟨b, _ | ⟨c, _ | ⟨d, _ | ⟨e, rest⟩⟩⟩⟩⟩
  · exact absurd h (by decide)
  · exact absurd h (by simp [MsgHeader.sizeInBytes])
  · exact absurd h (by simp [MsgHeader.sizeInBytes])
  · exact absurd h (by simp [MsgHeader.sizeInBytes])
  · exact absurd h (by simp [MsgHeader.sizeInBytes])
  · exact ⟨a, b, c, d, e, rest, rfl⟩

theorem bigEndian_eq_zero {a b c d : UInt8} :
    bigEndian a b c d = 0 ↔ [a, b, c, d] = [0, 0, 0, 0] := by
  simp only [List.cons.injEq, and_true, ← UInt8.toNat_inj, bigEndian, UInt8.toNat_ofNat]
  omega

/-- The four ways to read a header, in the order in which the program looks. -/
theorem unpackMsgHeader_cases (m : Bytes) :
    (m.length < 5 ∧ unpackMsgHeader m = .error .incompleteMessage) ∨
    (5 ≤ m.length ∧ m.take 4 = [0, 0, 0, 0] ∧ unpackMsgHeader m = .error .malformedMessage) ∨
    (5 ≤ m.length ∧ m.take 4 ≠ [0, 0, 0, 0] ∧ 8 < (m.getD 4 0).toNat ∧
      unpackMsgHeader m = .error .unknowMessageId) ∨
    (5 ≤ m.length ∧ m.take 4 ≠ [0, 0, 0, 0] ∧ (m.getD 4 0).toNat ≤ 8 ∧
      ∃ id n, unpackMsgHeader m = .ok ⟨id, n⟩ ∧ n + 1 < 2 ^ 32 ∧
        packMsgHeader id (n + 1) = m.take 5) := by
  rcases Nat.lt_or_ge m.length 5 with hl | hl
  · exact Or.inl ⟨hl, if_pos hl⟩
  obtain ⟨a, b, c, d, e, rest, rfl⟩ := exists_of_five_le hl
  have hlt := bigEndian_lt a b c d
  rw [unpackMsgHeader_cons]
  by_cases h0 : bigEndian a b c d = 0
  · exact Or.inr (Or.inl ⟨hl, bigEndian_eq_zero.mp h0, if_pos h0⟩)
  · rw [if_neg h0]
    have hne : (a :: b :: c :: d :: e :: rest).take 4 ≠ [0, 0, 0, 0] := mt bigEndian_eq_zero.mpr h0
    cases hid : MsgId.enumCast e with
    | none => exact Or.inr (Or.inr (Or.inl ⟨hl, hne, MsgId.enumCast_eq_none.mp hid, rfl⟩))
    | some id =>
      have hle : e.toNat ≤ 8 := by
        refine Nat.le_of_not_lt fun h => ?_
        rw [MsgId.enumCast_eq_none.mpr h] at hid
        cases hid
      refine Or.inr (Or.inr (Or.inr ⟨hl, hne, hle, id, _, rfl, by omega, ?_⟩))
      rw [Nat.sub_add_cancel (Nat.pos_of_ne_zero h0), packMsgHeader, packU32_bigEndian,
        MsgId.toByte_of_enumCast hid]
      rfl

theorem unpackPieceMsg_cases (b : Bytes) :
    (b.length < 8 ∧ unpackPieceMsg b = .error .incompleteMessage) ∨
    (8 ≤ b.length ∧ ∃ i g k, unpackPieceMsg b = .ok ⟨i, g, k⟩ ∧ i < 2 ^ 32 ∧ g < 2 ^ 32 ∧
      packU32 (UInt32.ofNat i) ++ packU32 (UInt32.ofNat g) ++ k = b) := by
  rcases Nat.lt_or_ge b.length 8 with hl | hl
  · exact Or.inl ⟨hl, if_pos hl⟩
  refine Or.inr ⟨hl, _, _, _, if_neg (Nat.not_lt.mpr hl), UInt32.toNat_lt _, UInt32.toNat_lt _, ?_⟩
  obtain ⟨b₀, b₁, b₂, b₃, b₄, rest, rfl⟩ := exists_of_five_le (Nat.le_trans (by decide) hl)
  rcases rest with _ | ⟨b₅, _ | ⟨b₆, _ | ⟨b₇, k⟩⟩⟩
  · simp at hl
  · simp at hl
  · simp at hl
  · rw [UInt32.ofNat_toNat, UInt32.ofNat_toNat]
    have hindex := packU32_unpackU32 [] b₀ b₁ b₂ b₃ (b₄ :: b₅ :: b₆ :: b₇ :: k) PieceMsg.indexSize
    have hbegin := packU32_unpackU32 [b₀, b₁, b₂, b₃] b₄ b₅ b₆ b₇ k PieceMsg.beginSize
    exact congrArg₂ (fun x y => x ++ y ++ k) hindex hbegin

theorem unpackMsgHeader_iff (m : Bytes) :
    (unpackMsgHeader m = .error .incompleteMessage ↔ m.length < 5) ∧
    (unpackMsgHeader m = .error .malformedMessage ↔ 5 ≤ m.length ∧ m.take 4 = [0, 0, 0, 0]) ∧
    (unpackMsgHeader m = .error .unknowMessageId ↔
      5 ≤ m.length ∧ m.take 4 ≠ [0, 0, 0, 0] ∧ 8 < (m.getD 4 0).toNat) ∧
    ((∃ id n, unpackMsgHeader m = .ok ⟨id, n⟩ ∧ n + 1 < 2 ^ 32 ∧
        packMsgHeader id (n + 1) = m.take 5) ↔
      5 ≤ m.length ∧ m.take 4 ≠ [0, 0, 0, 0] ∧ (m.getD 4 0).toNat ≤ 8) := by
  rcases unpackMsgHeader_cases m with ⟨hl, h⟩ | ⟨hl, h0, h⟩ | ⟨hl, h0, h8, h⟩ |
    ⟨hl, h0, h8, id, n, h, hn⟩
  all_goals refine ⟨?_, ?_, ?_, ?_⟩ <;> grind

theorem unpackPieceMsg_iff (b : Bytes) :
    (unpackPieceMsg b = .error .incompleteMessage ↔ b.length < 8) ∧
    ((∃ i g k, unpackPieceMsg b = .ok ⟨i, g, k⟩ ∧ i < 2 ^ 32 ∧ g < 2 ^ 32 ∧
        packU32 (UInt32.ofNat i) ++ packU32 (UInt32.ofNat g) ++ k = b) ↔ 8 ≤ b.length) := by
  rcases unpackPieceMsg_cases b with ⟨hl, h⟩ | ⟨hl, hex⟩
  · simp [h, hl]
  · obtain ⟨i, g, k, h, hi, hg, hb⟩ := hex
    exact ⟨by simp [h, hl], fun _ => hl, fun _ => ⟨i, g, k, h, hi, hg, hb⟩⟩

/-- Which header a message starts with, or which of the three errors it is, in
the order in which the program looks; and that a piece message is read in full. -/
theorem unpack_faithful (m b : Bytes) :
    ((unpackMsgHeader m = .error .incompleteMessage ↔ m.length < 5) ∧
      (unpackMsgHeader m = .error .malformedMessage ↔ 5 ≤ m.length ∧ m.take 4 = [0, 0, 0, 0]) ∧
      (unpackMsgHeader m = .error .unknowMessageId ↔
        5 ≤ m.length ∧ m.take 4 ≠ [0, 0, 0, 0] ∧ 8 < (m.getD 4 0).toNat) ∧
      ((∃ id n, unpackMsgHeader m = .ok ⟨id, n⟩ ∧ n + 1 < 2 ^ 32 ∧
          packMsgHeader id (n + 1) = m.take 5) ↔
        5 ≤ m.length ∧ m.take 4 ≠ [0, 0, 0, 0] ∧ (m.getD 4 0).toNat ≤ 8)) ∧
    (unpackPieceMsg b = .error .incompleteMessage ↔ b.length < 8) ∧
    ((∃ i g k, unpackPieceMsg b = .ok ⟨i, g, k⟩ ∧ i < 2 ^ 32 ∧ g < 2 ^ 32 ∧
        packU32 (UInt32.ofNat i) ++ packU32 (UInt32.ofNat g) ++ k = b) ↔ 8 ≤ b.length) :=
  ⟨unpackMsgHeader_iff m, unpackPieceMsg_iff b⟩

end Bittorrent.Proto
