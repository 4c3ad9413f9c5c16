import Bittorrent.Basic

/-! Messages of the peer wire protocol and the four-byte numbers in them. -/

namespace Bittorrent.Proto

inductive MsgId where
  | choke
  | unchoke
  | interested
  | notInterested
  | have
  | bitfield
  | request
  | piece
  | cancel
  deriving DecidableEq

namespace MsgId

def toByte : MsgId → UInt8
  | choke => 0
  | unchoke => 1
  | interested => 2
  | notInterested => 3
  | .have => 4
  | bitfield => 5
  | request => 6
  | piece => 7
  | cancel => 8

def name : MsgId → String
  | choke => "Choke"
  | unchoke => "Unchoke"
  | interested => "Interested"
  | notInterested => "NotInterested"
  | .have => "Have"
  | bitfield => "Bitfield"
  | request => "Request"
  | piece => "Piece"
  | cancel => "Cancel"

/-- `magic_enum::enum_cast<MsgId>` -/
def enumCast (byte : UInt8) : Option MsgId :=
  match byte.toNat with
  | 0 => some choke
  | 1 => some unchoke
  | 2 => some interested
  | 3 => some notInterested
  | 4 => some .have
  | 5 => some bitfield
  | 6 => some request
  | 7 => some piece
  | 8 => some cancel
  | _ => none

@[simp] theorem enumCast_toByte (id : MsgId) : enumCast id.toByte = some id := by
  cases id <;> rfl

theorem toByte_of_enumCast {byte : UInt8} {id : MsgId} (h : enumCast byte = some id) :
    id.toByte = byte := by
  have hall : ∀ n : Fin 256, ∀ id ∈ enumCast (UInt8.ofNat n), id.toByte = UInt8.ofNat n := by
    decide +kernel
  have hb : UInt8.ofNat byte.toNat = byte := UInt8.ofNat_toNat
  have := hall ⟨byte.toNat, byte.toNat_lt⟩ id (by rw [hb]; exact h)
  rwa [hb] at this

end MsgId

structure MsgHeader where
  id : MsgId
  bodyLength : Nat
  deriving DecidableEq

def MsgHeader.sizeInBytes : Nat := 5

inductive Error where
  | incompleteMessage
  | malformedMessage
  | unknowMessageId
  deriving DecidableEq

def Error.name : Error → String
  | incompleteMessage => "INCOMPLETE_MESSAGE"
  | malformedMessage => "MALFORMED_MESSAGE"
  | unknowMessageId => "UNKNOW_MESSAGE_ID"

structure PeerHandshakeMsg where
  header : Bytes := ascii "BitTorrent protocol"
  reserved : Bytes := List.replicate 8 0
  infoHash : Bytes
  peerId : Bytes

namespace PeerHandshakeMsg

def headerSize : Nat := 20
def reservedSize : Nat := 8
def hashSize : Nat := 20
def peerIdSize : Nat := 20
def size : Nat := headerSize + reservedSize + hashSize + peerIdSize

end PeerHandshakeMsg

structure PieceMsg where
  index : Nat
  begin : Nat
  block : Bytes
  deriving DecidableEq

def PieceMsg.indexSize : Nat := 4
def PieceMsg.beginSize : Nat := 4
def PieceMsg.minSize : Nat := 8

structure HaveMsg where
  index : Nat
  deriving DecidableEq

def HaveMsg.indexSize : Nat := 4
def HaveMsg.minSize : Nat := 4

/-! ## Four-byte numbers -/

/-- A `std::span`: `size` elements of a contiguous memory, from `first` on. An
access reads that memory whatever the size of the span; zero past its end. -/
structure Span where
  memory : Bytes
  first : Nat
  size : Nat

def Span.get (msg : Span) (i : Nat) : UInt8 := msg.memory.getD (msg.first + i) 0

/-- All elements of the span lie in the memory. -/
def Span.Inside (msg : Span) : Prop := msg.first + msg.size ≤ msg.memory.length

instance (msg : Span) : Decidable msg.Inside := inferInstanceAs (Decidable (_ ≤ _))

/-- The elements of a span that lies in its memory. -/
def Span.bytes (msg : Span) : Bytes := (msg.memory.drop msg.first).take msg.size

/-- Most significant byte first. -/
def packU32 (value : UInt32) : Bytes :=
  [((value >>> 24) &&& 0xFF).toUInt8, ((value >>> 16) &&& 0xFF).toUInt8,
    ((value >>> 8) &&& 0xFF).toUInt8, (value &&& 0xFF).toUInt8]

def unpackU32 (msg : Span) : UInt32 :=
  (msg.get 0).toUInt32 <<< 24 ||| (msg.get 1).toUInt32 <<< 16 |||
    (msg.get 2).toUInt32 <<< 8 ||| (msg.get 3).toUInt32

/-- Only the four bytes count. -/
theorem unpackU32_congr {msg msg' : Span} (h : ∀ i, i < 4 → msg.get i = msg'.get i) :
    unpackU32 msg = unpackU32 msg' := by
  simp only [unpackU32, h 0 (by omega), h 1 (by omega), h 2 (by omega), h 3 (by omega)]

/-- The number four bytes stand for. -/
def bigEndian (a b c d : UInt8) : Nat :=
  ((a.toNat * 256 + b.toNat) * 256 + c.toNat) * 256 + d.toNat

theorem bigEndian_lt (a b c d : UInt8) : bigEndian a b c d < 2 ^ 32 := by
  have := a.toNat_lt
  have := b.toNat_lt
  have := c.toNat_lt
  have := d.toNat_lt
  unfold bigEndian
  omega

private theorem shiftLeft_or {n k : Nat} (h : n < 2 ^ k) (a : Nat) :
    a <<< k ||| n = a * 2 ^ k + n := by
  rw [← Nat.shiftLeft_add_eq_or_of_lt h, Nat.shiftLeft_eq]

theorem unpackU32_toNat (msg : Span) :
    (unpackU32 msg).toNat = bigEndian (msg.get 0) (msg.get 1) (msg.get 2) (msg.get 3) := by
  have shifted : ∀ (b : UInt8) (k : Nat), k ≤ 24 →
      b.toNat <<< k % 4294967296 = b.toNat <<< k := by
    intro b k hk
    have hb := b.toNat_lt
    have hp : 2 ^ k ≤ 2 ^ 24 := Nat.pow_le_pow_right (by omega) hk
    have : b.toNat * 2 ^ k ≤ 255 * 2 ^ 24 := Nat.mul_le_mul (by omega) hp
    rw [Nat.shiftLeft_eq, Nat.mod_eq_of_lt (by omega)]
  have := (msg.get 1).toNat_lt
  have := (msg.get 2).toNat_lt
  have := (msg.get 3).toNat_lt
  simp only [unpackU32, UInt32.toNat_or, UInt32.toNat_shiftLeft, UInt8.toNat_toUInt32,
    UInt32.toNat_ofNat, Nat.reduceMod, Nat.reducePow, Nat.or_assoc]
  rw [shifted _ 24 (by omega), shifted _ 16 (by omega), shifted _ 8 (by omega)]
  rw [shiftLeft_or (k := 8) (by omega), shiftLeft_or (k := 16) (by omega),
    shiftLeft_or (k := 24) (by omega)]
  unfold bigEndian
  omega

theorem packU32_eq (value : UInt32) : packU32 value =
    [UInt8.ofNat (value.toNat / 2 ^ 24), UInt8.ofNat (value.toNat / 2 ^ 16),
      UInt8.ofNat (value.toNat / 2 ^ 8), UInt8.ofNat value.toNat] := by
  have mask : ∀ n : Nat, n &&& 255 = n % 256 := fun n => Nat.and_two_pow_sub_one_eq_mod n 8
  simp only [packU32, List.cons.injEq, and_true, ← UInt8.toNat_inj, UInt32.toNat_toUInt8,
    UInt32.toNat_and, UInt32.toNat_shiftRight, UInt32.toNat_ofNat, UInt8.toNat_ofNat',
    Nat.shiftRight_eq_div_pow, Nat.reducePow, Nat.reduceMod, mask]
  omega

theorem packU32_bigEndian (a b c d : UInt8) :
    packU32 (UInt32.ofNat (bigEndian a b c d)) = [a, b, c, d] := by
  have hlt := bigEndian_lt a b c d
  have := a.toNat_lt
  have := b.toNat_lt
  have := c.toNat_lt
  have := d.toNat_lt
  simp only [packU32_eq, UInt32.toNat_ofNat', Nat.mod_eq_of_lt hlt, List.cons.injEq, and_true,
    ← UInt8.toNat_inj, UInt8.toNat_ofNat']
  unfold bigEndian
  omega

end Bittorrent.Proto
