import Bittorrent.Basic

/-! SHA-1 digests as the program passes them around: as 40 hexadecimal digits,
and back to bytes. The hash function itself is a parameter wherever it is used. -/

namespace Bittorrent.Misc

structure Digest where
  bytes : Bytes
  length_eq : bytes.length = 20

/-- A stand-in for the hash function that tells texts of different lengths apart. -/
def lengthDigest (text : Bytes) : Digest := ⟨List.replicate 20 (UInt8.ofNat text.length), by simp⟩

def hexDigit (n : Nat) : UInt8 := if n < 10 then UInt8.ofNat (48 + n) else UInt8.ofNat (87 + n)

/-- `{:02x}` -/
def hexByte (b : UInt8) : Bytes := [hexDigit (b.toNat / 16), hexDigit (b.toNat % 16)]

/-- What `SHA1::final` prints of a digest, and `fmt::join` of any bytes. -/
def hex (bytes : Bytes) : Bytes := bytes.flatMap hexByte

/-! ## `sha1_hash_to_bytes` -/

def isSpace (b : UInt8) : Bool := b = 32 || (9 ≤ b && b ≤ 13)

def hexVal (b : UInt8) : Option Nat :=
  if 48 ≤ b && b ≤ 57 then some (b.toNat - 48)
  else if 97 ≤ b && b ≤ 102 then some (b.toNat - 87)
  else if 65 ≤ b && b ≤ 70 then some (b.toNat - 55)
  else none

def hexValue (ds : Bytes) : Nat := ds.foldl (fun n b => n * 16 + (hexVal b).getD 0) 0

/-- `std::stoi(s, 0, 16)` on a text too short to overflow: blanks, a sign and a
`0x` may precede the digits, and what follows them is ignored. -/
def stoi16 (s : Bytes) : Except Exception Int :=
  let s := s.dropWhile isSpace
  let (neg, s) := match s with
    | 45 :: s => (true, s)
    | 43 :: s => (false, s)
    | _ => (false, s)
  let s := match s with
    | 48 :: x :: d :: rest => if (x = 120 || x = 88) && (hexVal d).isSome then d :: rest else s
    | _ => s
  let digits := s.takeWhile fun b => (hexVal b).isSome
  if digits = [] then .error (.invalidArgument "stoi")
  else .ok (if neg then -hexValue digits else hexValue digits)

/-- `views::chunk(2)` -/
def chunk2 : Bytes → List Bytes
  | [] => []
  | [a] => [[a]]
  | a :: b :: rest => [a, b] :: chunk2 rest

def hexStrToInt (chunk : Bytes) : Except Exception UInt8 := do
  let n ← stoi16 chunk
  .ok (UInt8.ofInt n)

def sha1HashToBytes (hash : Bytes) : Except Exception Bytes := (chunk2 hash).mapM hexStrToInt

theorem hexStrToInt_hexByte (b : UInt8) : hexStrToInt (hexByte b) = .ok b := by
  have h : ∀ n : Fin 256, hexStrToInt (hexByte (UInt8.ofNat n)) = .ok (UInt8.ofNat n) := by
    decide +kernel
  simpa using h ⟨b.toNat, b.toNat_lt⟩

/-- Reading the digits gives the bytes they were printed from. -/
theorem sha1HashToBytes_hex (bytes : Bytes) : sha1HashToBytes (hex bytes) = .ok bytes := by
  induction bytes with
  | nil => rfl
  | cons b bytes ih =>
    have hchunk : chunk2 (hex (b :: bytes)) = hexByte b :: chunk2 (hex bytes) := rfl
    unfold sha1HashToBytes at ih ⊢
    rw [hchunk, List.mapM_cons, ih, hexStrToInt_hexByte]
    rfl

end Bittorrent.Misc
