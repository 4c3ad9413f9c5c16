import Bittorrent.Misc.Sha1
import Bittorrent.Proto.Types

/-! Reading messages. -/

namespace Bittorrent.Proto

open Misc

def unpackMsgHeader (msg : Bytes) : Except Error MsgHeader :=
  if msg.length < MsgHeader.sizeInBytes then .error .incompleteMessage
  else
    let length := unpackU32 ⟨msg, 0, 3⟩
    if length < 1 then .error .malformedMessage
    else
      match MsgId.enumCast (msg.getD 4 0) with
      | none => .error .unknowMessageId
      | some msgId => .ok ⟨msgId, (length - 1).toNat⟩

def unpackPieceMsg (msg : Bytes) : Except Error PieceMsg :=
  if msg.length < PieceMsg.minSize then .error .incompleteMessage
  else
    let index := unpackU32 ⟨msg, 0, PieceMsg.indexSize⟩
    let begin := unpackU32 ⟨msg, PieceMsg.indexSize, PieceMsg.beginSize⟩
    .ok ⟨index.toNat, begin.toNat, msg.drop (PieceMsg.indexSize + PieceMsg.indexSize)⟩

def unpackHaveMsg (msg : Bytes) : Except Error HaveMsg :=
  if msg.length < HaveMsg.minSize then .error .incompleteMessage
  else .ok ⟨(unpackU32 ⟨msg, 0, HaveMsg.indexSize⟩).toNat⟩

/-- The first byte of the peer places the hash and the id; nothing checks that
they lie inside the message. -/
def unpackHandshake (msg : Bytes) : Except Exception PeerHandshakeMsg :=
  if msg.length < PeerHandshakeMsg.size then
    .error (.runtimeError "Bad PeerHandshakeMsg size. Message is incomplete!")
  else
    let headerLen := (msg.headD 0).toNat
    let hashFirst := 1 + headerLen + PeerHandshakeMsg.reservedSize
    let peerIdFirst := hashFirst + PeerHandshakeMsg.hashSize
    if peerIdFirst + PeerHandshakeMsg.peerIdSize ≤ msg.length then
      .ok { infoHash := hex ((msg.drop hashFirst).take PeerHandshakeMsg.hashSize),
            peerId := hex ((msg.drop peerIdFirst).take PeerHandshakeMsg.peerIdSize) }
    else .error (.undefined "span past the end of the message")

theorem unpackPieceMsg_ok {msg : Bytes} {pieceMsg : PieceMsg}
    (h : unpackPieceMsg msg = .ok pieceMsg) :
    PieceMsg.minSize ≤ msg.length ∧ pieceMsg.block = msg.drop PieceMsg.minSize := by
  unfold unpackPieceMsg at h
  split at h
  · cases h
  · next hl =>
    cases h
    exact ⟨Nat.le_of_not_lt hl, rfl⟩

theorem unpackMsgHeader_length {msg : Bytes} {header : MsgHeader}
    (h : unpackMsgHeader msg = .ok header) : MsgHeader.sizeInBytes ≤ msg.length := by
  unfold unpackMsgHeader at h
  split at h
  · cases h
  · next hl => exact Nat.le_of_not_lt hl

/-- The header in the first five bytes. -/
theorem unpackMsgHeader_cons (a b c d e : UInt8) (rest : Bytes) :
    unpackMsgHeader (a :: b :: c :: d :: e :: rest) =
    if bigEndian a b c d = 0 then .error .malformedMessage
    else match MsgId.enumCast e with
      | none => .error .unknowMessageId
      | some msgId => .ok ⟨msgId, bigEndian a b c d - 1⟩ := by
  have hlen : (unpackU32 ⟨a :: b :: c :: d :: e :: rest, 0, 3⟩).toNat = bigEndian a b c d :=
    unpackU32_toNat _
  have hlt : unpackU32 ⟨a :: b :: c :: d :: e :: rest, 0, 3⟩ < 1 ↔ bigEndian a b c d = 0 := by
    rw [UInt32.lt_iff_toNat_lt, hlen]
    exact Nat.lt_one_iff
  unfold unpackMsgHeader
  rw [if_neg (by simp [MsgHeader.sizeInBytes])]
  dsimp only
  by_cases h0 : bigEndian a b c d = 0
  · rw [if_pos (hlt.mpr h0), if_pos h0]
  · rw [if_neg (mt hlt.mp h0), if_neg h0]
    have hsub : (unpackU32 ⟨a :: b :: c :: d :: e :: rest, 0, 3⟩ - 1).toNat =
        bigEndian a b c d - 1 := by
      rw [UInt32.toNat_sub_of_le _ _ (UInt32.not_lt.mp (mt hlt.mp h0)), hlen]
      rfl
    rw [hsub]
    rfl

end Bittorrent.Proto
