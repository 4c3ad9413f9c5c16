import Bittorrent.Proto.Deserialize
import Bittorrent.Proto.Serialize

/-! The stream of a peer after its handshake: messages behind the length of
what follows, the length zero being a keep-alive. A reader that takes whole
headers and whole bodies meets the messages one after the other. -/

namespace Bittorrent.Proto

open Misc

inductive Message where
  | keepAlive
  | message (id : MsgId) (body : Bytes) (fits : body.length + 1 < 2 ^ 32)

def Message.encode : Message → Bytes
  | keepAlive => packU32 0
  | message id body _ => packMsgHeader id (body.length + 1) ++ body

def encodeAll (messages : List Message) : Bytes := messages.flatMap Message.encode

@[simp] theorem encodeAll_nil : encodeAll [] = [] := rfl

@[simp] theorem encodeAll_cons (m : Message) (messages : List Message) :
    encodeAll (m :: messages) = m.encode ++ encodeAll messages := rfl

theorem packU32_zero : packU32 0 = [0, 0, 0, 0] := rfl

/-- The four bytes of a number read back. -/
theorem bigEndian_packU32 {n : Nat} (h : n < 2 ^ 32) {a b c d : UInt8}
    (hp : packU32 (UInt32.ofNat n) = [a, b, c, d]) : bigEndian a b c d = n := by
  rw [packU32_eq] at hp
  simp only [UInt32.toNat_ofNat', Nat.mod_eq_of_lt h, List.cons.injEq, and_true] at hp
  obtain ⟨rfl, rfl, rfl, rfl⟩ := hp
  simp only [bigEndian, UInt8.toNat_ofNat']
  omega

/-- The header of a message reads back. -/
theorem unpackMsgHeader_packMsgHeader (id : MsgId) {n : Nat} (h : n + 1 < 2 ^ 32) :
    unpackMsgHeader (packMsgHeader id (n + 1)) = .ok ⟨id, n⟩ := by
  obtain ⟨a, b, c, d, hp⟩ : ∃ a b c d, packU32 (UInt32.ofNat (n + 1)) = [a, b, c, d] :=
    ⟨_, _, _, _, rfl⟩
  have hn := bigEndian_packU32 h hp
  rw [packMsgHeader, hp]
  show unpackMsgHeader [a, b, c, d, id.toByte] = _
  rw [unpackMsgHeader_cons, hn, if_neg (Nat.succ_ne_zero n), MsgId.enumCast_toByte]
  rfl

theorem packMsgHeader_length (id : MsgId) (n : Nat) :
    (packMsgHeader id n).length = MsgHeader.sizeInBytes := rfl

/-- A header in front of the stream is that of its first message, the body follows. -/
theorem header_of_stream {got rest : Bytes} {messages : List Message} {header : MsgHeader}
    (h : got ++ rest = encodeAll messages) (hl : got.length = MsgHeader.sizeInBytes)
    (hu : unpackMsgHeader got = .ok header) :
    ∃ body, body.length = header.bodyLength ∧ rest = body ++ encodeAll (messages.drop 1) := by
  cases messages with
  | nil =>
    rw [encodeAll_nil, List.append_eq_nil_iff] at h
    rw [h.1] at hl
    cases hl
  | cons m messages =>
    cases m with
    | keepAlive =>
      -- the four zeros of a keep-alive and one byte more are no header
      obtain ⟨e, rfl⟩ : ∃ e, got = [0, 0, 0, 0, e] := by
        rcases got with _ | ⟨a, _ | ⟨b, _ | ⟨c, _ | ⟨d, _ | ⟨e, _ | ⟨f, got⟩⟩⟩⟩⟩⟩ <;>
          simp [MsgHeader.sizeInBytes] at hl
        simp only [encodeAll_cons, Message.encode, packU32_zero, List.cons_append,
          List.cons.injEq] at h
        obtain ⟨rfl, rfl, rfl, rfl, _⟩ := h
        exact ⟨e, rfl⟩
      rw [unpackMsgHeader_cons, if_pos (show bigEndian 0 0 0 0 = 0 from rfl)] at hu
      cases hu
    | message id body fits =>
      rw [encodeAll_cons, Message.encode, List.append_assoc] at h
      obtain ⟨rfl, hrest⟩ := List.append_inj h (hl.trans (packMsgHeader_length id _).symm)
      rw [unpackMsgHeader_packMsgHeader id fits] at hu
      cases hu
      exact ⟨body, rfl, hrest⟩

/-- Four zeros in front of the stream are a keep-alive. -/
theorem keepAlive_of_stream {rest : Bytes} {messages : List Message}
    (h : packU32 0 ++ rest = encodeAll messages) : rest = encodeAll (messages.drop 1) := by
  cases messages with
  | nil => cases h
  | cons m messages =>
    cases m with
    | keepAlive => exact List.append_cancel_left h
    | message id body fits =>
      rw [encodeAll_cons, Message.encode, packMsgHeader, List.append_assoc, List.append_assoc] at h
      have hp := (List.append_inj h rfl).1
      have hzero := bigEndian_packU32 fits (hp.symm.trans packU32_zero)
      exact absurd hzero (Nat.succ_ne_zero _).symm

end Bittorrent.Proto
