import Bittorrent.Proto.Deserialize

/-! Where the unpackers read their numbers. `unpack_u32` indexes four bytes of
the span it is given. The unpackers cut the spans out of a message that is long
enough, but the one for a header is a byte short (`u32_spans_iff`). -/

namespace Bittorrent.Proto

/-! ## The unpackers, whatever reads a number -/

section
variable {m : Type → Type} [Monad m] (unpackNumber : Span → m UInt32)

def unpackMsgHeaderBy (msg : Bytes) : m (Except Error MsgHeader) :=
  if msg.length < MsgHeader.sizeInBytes then pure (.error .incompleteMessage)
  else do
    let length ← unpackNumber ⟨msg, 0, 3⟩
    if length < 1 then pure (.error .malformedMessage)
    else
      match MsgId.enumCast (msg.getD 4 0) with
      | none => pure (.error .unknowMessageId)
      | some msgId => pure (.ok ⟨msgId, (length - 1).toNat⟩)

def unpackPieceMsgBy (msg : Bytes) : m (Except Error PieceMsg) :=
  if msg.length < PieceMsg.minSize then pure (.error .incompleteMessage)
  else do
    let index ← unpackNumber ⟨msg, 0, PieceMsg.indexSize⟩
    let begin ← unpackNumber ⟨msg, PieceMsg.indexSize, PieceMsg.beginSize⟩
    pure (.ok ⟨index.toNat, begin.toNat, msg.drop (PieceMsg.indexSize + PieceMsg.indexSize)⟩)

def unpackHaveMsgBy (msg : Bytes) : m (Except Error HaveMsg) :=
  if msg.length < HaveMsg.minSize then pure (.error .incompleteMessage)
  else do
    let index ← unpackNumber ⟨msg, 0, PieceMsg.indexSize⟩
    pure (.ok ⟨index.toNat⟩)

end

/-- `unpack_u32`, which leaves a note of the span. -/
def notingUnpackU32 (msg : Span) : StateM (List Span) UInt32 := do
  modify (· ++ [msg])
  pure (unpackU32 msg)

inductive Unpacker where
  | msgHeader
  | pieceMsg
  | haveMsg

/-- The spans `unpack_u32` is called with. -/
def Unpacker.spans (unpacker : Unpacker) (msg : Bytes) : List Span :=
  match unpacker with
  | msgHeader => ((unpackMsgHeaderBy notingUnpackU32 msg).run []).2
  | pieceMsg => ((unpackPieceMsgBy notingUnpackU32 msg).run []).2
  | haveMsg => ((unpackHaveMsgBy notingUnpackU32 msg).run []).2

theorem noting_bind {α : Type} (span : Span) (f : UInt32 → StateM (List Span) α) (spans : List Span) :
    (notingUnpackU32 span >>= f).run spans = (f (unpackU32 span)).run (spans ++ [span]) := rfl

/-- The notes aside these are the unpackers. -/
theorem noting_results (msg : Bytes) :
    ((unpackMsgHeaderBy notingUnpackU32 msg).run []).1 = unpackMsgHeader msg ∧
    ((unpackPieceMsgBy notingUnpackU32 msg).run []).1 = unpackPieceMsg msg ∧
    ((unpackHaveMsgBy notingUnpackU32 msg).run []).1 = unpackHaveMsg msg := by
  refine ⟨?_, ?_, ?_⟩
  · unfold unpackMsgHeaderBy unpackMsgHeader
    split
    · rfl
    · rw [noting_bind]
      dsimp only
      split
      · rfl
      · cases MsgId.enumCast (msg.getD 4 0) <;> rfl
  · unfold unpackPieceMsgBy unpackPieceMsg
    split <;> rfl
  · unfold unpackHaveMsgBy unpackHaveMsg
    split <;> rfl

theorem spans_msgHeader (msg : Bytes) : Unpacker.msgHeader.spans msg =
    if msg.length < MsgHeader.sizeInBytes then [] else [⟨msg, 0, 3⟩] := by
  show ((unpackMsgHeaderBy notingUnpackU32 msg).run []).2 = _
  unfold unpackMsgHeaderBy
  split
  · rfl
  · rw [noting_bind]
    split
    · rfl
    · cases MsgId.enumCast (msg.getD 4 0) <;> rfl

theorem spans_pieceMsg (msg : Bytes) : Unpacker.pieceMsg.spans msg =
    if msg.length < PieceMsg.minSize then [] else [⟨msg, 0, 4⟩, ⟨msg, 4, 4⟩] := by
  show ((unpackPieceMsgBy notingUnpackU32 msg).run []).2 = _
  unfold unpackPieceMsgBy
  split <;> rfl

theorem spans_haveMsg (msg : Bytes) : Unpacker.haveMsg.spans msg =
    if msg.length < HaveMsg.minSize then [] else [⟨msg, 0, 4⟩] := by
  show ((unpackHaveMsgBy notingUnpackU32 msg).run []).2 = _
  unfold unpackHaveMsgBy
  split <;> rfl

/-! ## Four bytes -/

/-- The span is a part of the message that has every index `unpack_u32` reads. -/
structure Span.HoldsU32 (span : Span) (msg : Bytes) : Prop where
  memory : span.memory = msg
  inside : span.Inside
  size : ∀ i, i < 4 → i < span.size

theorem holdsU32_of_le {msg : Bytes} {first : Nat} (h : first + 4 ≤ msg.length) :
    Span.HoldsU32 ⟨msg, first, 4⟩ msg := ⟨rfl, h, fun _ hi => hi⟩

/-- Every call is given four bytes of the message, except by the unpacker of
headers, which calls with three as soon as the message has a header. -/
theorem u32_spans_iff (unpacker : Unpacker) (msg : Bytes) :
    (∀ span ∈ unpacker.spans msg, span.HoldsU32 msg) ↔
      (unpacker = .msgHeader → msg.length < MsgHeader.sizeInBytes) := by
  cases unpacker with
  | msgHeader =>
    rw [spans_msgHeader]
    by_cases hshort : msg.length < MsgHeader.sizeInBytes
    · simp [hshort]
    · rw [if_neg hshort]
      constructor
      · intro h
        exact absurd ((h _ (List.mem_singleton_self _)).size 3 (Nat.lt_succ_self 3))
          (Nat.lt_irrefl 3)
      · intro h
        exact absurd (h rfl) hshort
  | pieceMsg =>
    refine iff_of_true ?_ fun h => by cases h
    rw [spans_pieceMsg]
    by_cases hshort : msg.length < PieceMsg.minSize
    · simp [hshort]
    · rw [if_neg hshort]
      have hle : 8 ≤ msg.length := Nat.le_of_not_lt hshort
      intro span hspan
      rcases List.mem_pair.mp hspan with rfl | rfl
      · exact holdsU32_of_le (Nat.le_trans (Nat.le_add_left 4 4) hle)
      · exact holdsU32_of_le hle
  | haveMsg =>
    refine iff_of_true ?_ fun h => by cases h
    rw [spans_haveMsg]
    by_cases hshort : msg.length < HaveMsg.minSize
    · simp [hshort]
    · rw [if_neg hshort]
      intro span hspan
      rw [List.mem_singleton.mp hspan]
      exact holdsU32_of_le (Nat.le_of_not_lt hshort)

/-- The header of an empty message. -/
theorem u32_span_short :
    ¬ ∀ (unpacker : Unpacker) (msg : Bytes), ∀ span ∈ unpacker.spans msg, span.HoldsU32 msg := by
  intro h
  have hspans : (⟨[0, 0, 0, 1, 0], 0, 3⟩ : Span) ∈ Unpacker.msgHeader.spans [0, 0, 0, 1, 0] := by
    rw [spans_msgHeader]
    exact List.mem_singleton_self _
  exact absurd ((h .msgHeader [0, 0, 0, 1, 0] _ hspans).size 3 (Nat.lt_succ_self 3))
    (Nat.lt_irrefl 3)

end Bittorrent.Proto
