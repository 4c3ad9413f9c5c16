import Mathlib.Data.Nat.Digits.Lemmas
import Bittorrent.Misc.Sha1
import Bittorrent.Misc.Transform

/-! The class `SHA1`: text is added in parts of any length and in the end asked
for as 40 hexadecimal digits, and then the object starts over. Through all its
calls it prints what the standard makes of the text since the last answer. -/

namespace Bittorrent.Misc

open Lib Lib.BlockHash Lib.Chunks

def blockBytes : Nat := 64

/-- Between calls the buffer never holds a whole block. -/
structure SHA1 where
  digest : Sha1.Words
  buffer : Bytes
  transforms : UInt64
  buffer_lt : buffer.length < blockBytes

namespace SHA1

def reset : SHA1 := ⟨⟨0x67452301, 0xefcdab89, 0x98badcfe, 0x10325476, 0xc3d2e1f0⟩, [], 0, by decide⟩

def bufferToBlock (buffer : Bytes) : Block := Vector.ofFn fun i =>
  (buffer.getD (4 * i + 3) 0).toUInt32 ||| (buffer.getD (4 * i + 2) 0).toUInt32 <<< 8 |||
    (buffer.getD (4 * i + 1) 0).toUInt32 <<< 16 ||| (buffer.getD (4 * i) 0).toUInt32 <<< 24

/-- The loop of `update`. Each round but the last fills the buffer and empties it. -/
def updateFrom : Nat → SHA1 → Bytes → SHA1
  | 0, self, _ => self
  | fuel + 1, self, is =>
    if h : (self.buffer ++ is.take (blockBytes - self.buffer.length)).length = blockBytes then
      let block := bufferToBlock (self.buffer ++ is.take (blockBytes - self.buffer.length))
      let (digest, _, transforms) := transform self.digest block self.transforms
      updateFrom fuel ⟨digest, [], transforms, by decide⟩
        (is.drop (blockBytes - self.buffer.length))
    else
      { self with
        buffer := self.buffer ++ is.take (blockBytes - self.buffer.length)
        buffer_lt := by
          have := self.buffer_lt
          rw [List.length_append, List.length_take] at *
          omega }

def update (self : SHA1) (s : Bytes) : SHA1 := updateFrom (s.length + 1) self s

/-- A number with `std::hex`. -/
def hexNumber (n : Nat) : Bytes :=
  if n = 0 then [48] else (Nat.digits 16 n).reverse.map hexDigit

/-- `std::setfill('0') << std::setw(8)` -/
def setw8 (s : Bytes) : Bytes := List.leftpad 8 48 s

def hexDigest (digest : Sha1.Words) : Bytes :=
  [digest.h0, digest.h1, digest.h2, digest.h3, digest.h4].flatMap fun word =>
    setw8 (hexNumber word.toNat)

/-- All but the last two words of the block are zeroed. -/
def zeroed (block : Block) : Block := Vector.ofFn fun i => if i.val < 14 then 0 else block.get i

/-- The count of bits in the last two words. -/
def appendBits (block : Block) (totalBits : UInt64) : Block :=
  (block.set 15 totalBits.toUInt32).set 14 (totalBits >>> 32).toUInt32

/-- The answer, and the object reset for the next run. -/
def final (self : SHA1) : Bytes × SHA1 :=
  let totalBits := (self.transforms * 64 + UInt64.ofNat self.buffer.length) * 8
  let buffer := self.buffer ++ [0x80]
  let origSize := buffer.length
  let block := bufferToBlock (buffer ++ List.replicate (blockBytes - buffer.length) 0)
  if origSize > blockBytes - 8 then
    let (digest, block, transforms) := transform self.digest block self.transforms
    let (digest, _, _) := transform digest (appendBits (zeroed block) totalBits) transforms
    (hexDigest digest, reset)
  else
    let (digest, _, _) := transform self.digest (appendBits block totalBits) self.transforms
    (hexDigest digest, reset)

/-- A file that does not open reads as an empty one. -/
def fromFile (file : Option Bytes) : Bytes := (reset.update (file.getD [])).final.1

/-! ## Hexadecimal digits -/

/-- The last `m` digits, the zeros included. -/
theorem leftpad_digits (m n : Nat) :
    List.leftpad (m + 1) 48 ((Nat.digits 16 n).reverse.map hexDigit) =
      List.leftpad m 48 ((Nat.digits 16 (n / 16)).reverse.map hexDigit) ++ [hexDigit (n % 16)] := by
  rcases Nat.eq_zero_or_pos n with rfl | hpos
  · have h0 : hexDigit (0 % 16) = 48 := rfl
    simp [List.leftpad, h0, List.replicate_succ']
  · rw [Nat.digits_def' (by omega) hpos]
    simp [List.leftpad]

theorem leftpad_hex (k : Nat) : ∀ {n : Nat}, n < 256 ^ k →
    List.leftpad (2 * k) 48 ((Nat.digits 16 n).reverse.map hexDigit) = hex (Sha1.bigEndian k n) := by
  induction k with
  | zero =>
    intro n h
    obtain rfl : n = 0 := by simpa using h
    rfl
  | succ k ih =>
    intro n h
    have hlt : n / 16 / 16 < 256 ^ k := by
      rw [Nat.div_div_eq_div_mul, Nat.div_lt_iff_lt_mul (by omega)]
      rwa [Nat.pow_succ] at h
    have hhi : (UInt8.ofNat n).toNat / 16 = n / 16 % 16 := by
      rw [UInt8.toNat_ofNat']
      omega
    have hlo : (UInt8.ofNat n).toNat % 16 = n % 16 := by
      rw [UInt8.toNat_ofNat']
      omega
    have happend : hex (Sha1.bigEndian k (n / 256) ++ [UInt8.ofNat n]) =
        hex (Sha1.bigEndian k (n / 256)) ++ hexByte (UInt8.ofNat n) := by
      simp only [hex, List.flatMap_append, List.flatMap_singleton]
    rw [Nat.mul_succ, leftpad_digits, leftpad_digits, ih hlt, Sha1.bigEndian, happend, hexByte,
      hhi, hlo, Nat.div_div_eq_div_mul, List.append_assoc]
    rfl

theorem setw8_hexNumber (word : UInt32) :
    setw8 (hexNumber word.toNat) = hex (Sha1.bigEndian 4 word.toNat) := by
  have hlt : word.toNat < 256 ^ 4 := word.toNat_lt
  rw [← leftpad_hex 4 hlt, setw8, hexNumber]
  split
  · next h => rw [h]; rfl
  · rfl

theorem hexDigest_eq (digest : Sha1.Words) : hexDigest digest = hex digest.bytes := by
  simp only [hexDigest, setw8_hexNumber, Sha1.Words.bytes, hex, List.flatMap_assoc]

/-! ## Adding text -/

theorem wordOfBytes_four (p q r t : UInt8) : Sha1.wordOfBytes [p, q, r, t] =
    t.toUInt32 ||| r.toUInt32 <<< 8 ||| q.toUInt32 <<< 16 ||| p.toUInt32 <<< 24 := by
  have := p.toNat_lt
  have := q.toNat_lt
  have := r.toNat_lt
  have := t.toNat_lt
  have above : ∀ low high k : Nat, low < 2 ^ k → low ||| high <<< k = high * 2 ^ k + low := by
    intro low high k h
    rw [Nat.or_comm, ← Nat.shiftLeft_add_eq_or_of_lt h, Nat.shiftLeft_eq]
  have shifted : ∀ {n k : Nat}, n < 256 → k ≤ 24 → n <<< k % 4294967296 = n <<< k := by
    intro n k hn hk
    have hp : 2 ^ k ≤ 2 ^ 24 := Nat.pow_le_pow_right (by omega) hk
    have : n * 2 ^ k ≤ 255 * 2 ^ 24 := Nat.mul_le_mul (by omega) hp
    rw [Nat.shiftLeft_eq, Nat.mod_eq_of_lt (by omega)]
  rw [← UInt32.toNat_inj]
  simp only [Sha1.wordOfBytes, List.foldl_cons, List.foldl_nil, UInt32.toNat_ofNat',
    UInt32.toNat_or, UInt32.toNat_shiftLeft, UInt8.toNat_toUInt32, UInt32.toNat_ofNat,
    Nat.reduceMod, Nat.reducePow]
  rw [shifted (by omega) (by omega), shifted (by omega) (by omega), shifted (by omega) (by omega),
    above t.toNat _ 8 (by omega), above _ _ 16 (by omega), above _ _ 24 (by omega)]
  omega

theorem take_four {n : Nat} {buffer : Bytes} (h : n + 4 ≤ buffer.length) :
    (buffer.drop n).take 4 = [buffer.getD n 0, buffer.getD (n + 1) 0, buffer.getD (n + 2) 0,
      buffer.getD (n + 3) 0] := by
  rw [List.drop_eq_getElem_cons (by omega), List.drop_eq_getElem_cons (by omega),
    List.drop_eq_getElem_cons (by omega), List.drop_eq_getElem_cons (by omega),
    List.getD_eq_getElem _ _ (by omega), List.getD_eq_getElem _ _ (by omega),
    List.getD_eq_getElem _ _ (by omega), List.getD_eq_getElem _ _ (by omega)]
  rfl

theorem bufferToBlock_toList {buffer : Bytes} (h : buffer.length = 64) :
    (bufferToBlock buffer).toList = Sha1.wordsOfBytes buffer := by
  have hlen : (chunk 4 buffer).length = 16 := (chunk_exact (n := 16) (by omega) h).1
  apply List.ext_getElem?
  intro i
  by_cases hi : i < 16
  · have hchunk := chunk_getElem? (k := 4) (n := 16) (by omega) h hi
    rw [Sha1.wordsOfBytes, List.getElem?_map, hchunk, Option.map_some, take_four (by omega),
      wordOfBytes_four]
    simp [bufferToBlock, hi]
  · rw [List.getElem?_eq_none (by simp; omega), List.getElem?_eq_none]
    rw [Sha1.wordsOfBytes, List.length_map, hlen]
    omega

/-- The object after the text that a pass over the input absorbed. -/
structure Represents (sha : SHA1) (a : Absorbed Sha1.Words UInt8) : Prop where
  digest : sha.digest = a.state
  buffer : sha.buffer = a.rest
  transforms : sha.transforms = UInt64.ofNat a.blocks

/-- One pass over the input from the first call on. -/
def absorbed (message : Bytes) : Absorbed Sha1.Words UInt8 :=
  absorb blockBytes Sha1.compressBytes ⟨Sha1.initial, [], 0⟩ message

theorem reset_represents : Represents reset (absorbed []) := ⟨rfl, rfl, rfl⟩

theorem updateFrom_represents (fuel : Nat) : ∀ {self : SHA1} {is : Bytes}
    {a : Absorbed Sha1.Words UInt8}, is.length < fuel → Represents self a →
      Represents (updateFrom fuel self is) (absorb blockBytes Sha1.compressBytes a is) := by
  induction fuel with
  | zero =>
    intro self is a h _
    exact absurd h (Nat.not_lt_zero _)
  | succ fuel ih =>
    intro self is a h hr
    have hlt := self.buffer_lt
    have hrest := hr.buffer
    rw [updateFrom]
    split
    · next hfull =>
      have hread : (is.take (blockBytes - self.buffer.length)).length =
          blockBytes - self.buffer.length := by
        rw [List.length_append] at hfull
        omega
      have hblock := absorb_full (f := Sha1.compressBytes) (a := a) (hrest ▸ hlt)
        (by rw [← List.length_append, ← hrest]; exact hfull)
      conv => rhs; rw [← List.take_append_drop (blockBytes - self.buffer.length) is]
      rw [absorb_append, hblock]
      refine ih ?_ ⟨?_, rfl, ?_⟩
      · rw [List.length_take] at hread
        rw [List.length_drop]
        omega
      · show (transform self.digest (bufferToBlock _) self.transforms).1 = Sha1.compress _ _
        rw [transform_digest, bufferToBlock_toList hfull, hr.digest, hrest]
      · show self.transforms + 1 = _
        rw [hr.transforms, UInt64.ofNat_add]
        rfl
    · next hfull =>
      -- a short read is the end of the input
      have hshort : self.buffer.length + is.length < blockBytes := by
        rw [List.length_append, List.length_take] at hfull
        omega
      have hall : is.take (blockBytes - self.buffer.length) = is :=
        List.take_of_length_le (by omega)
      rw [absorb_short (by rw [← hrest]; exact hshort)]
      refine ⟨hr.digest, ?_, hr.transforms⟩
      show self.buffer ++ _ = a.rest ++ is
      rw [hall, hrest]

theorem update_represents {self : SHA1} {message : Bytes} (h : Represents self (absorbed message))
    (s : Bytes) : Represents (self.update s) (absorbed (message ++ s)) := by
  rw [absorbed, absorb_append]
  exact updateFrom_represents (s.length + 1) (Nat.lt_succ_self _) h

/-! ## The answer -/

theorem totalBits_eq {sha : SHA1} {message : Bytes} (h : Represents sha (absorbed message)) :
    (sha.transforms * 64 + UInt64.ofNat sha.buffer.length) * 8 = UInt64.ofNat (8 * message.length) := by
  have hcount : message.length = (absorbed message).blocks * 64 + (absorbed message).rest.length :=
    ((absorb_length _ message).trans (by simp)).symm
  rw [h.transforms, h.buffer, hcount, Nat.mul_comm 8, UInt64.ofNat_mul, UInt64.ofNat_add,
    UInt64.ofNat_mul]
  rfl

/-- Whatever the last two words were, the length field replaces them. -/
theorem appendBits_toList {field : Bytes} (hfield : field.length = 56) {block : Block}
    (hblock : block.toList.take 14 = Sha1.wordsOfBytes field) (bits : Nat) :
    (appendBits block (UInt64.ofNat bits)).toList =
      Sha1.wordsOfBytes (field ++ Sha1.bigEndian 8 bits) := by
  have hlo : (UInt64.ofNat bits).toUInt32 = UInt32.ofNat bits := by
    rw [← UInt32.toNat_inj, UInt64.toNat_toUInt32, UInt64.toNat_ofNat', UInt32.toNat_ofNat']
    omega
  have hhi : (UInt64.ofNat bits >>> 32).toUInt32 = UInt32.ofNat (bits / 2 ^ 32) := by
    rw [← UInt32.toNat_inj, UInt64.toNat_toUInt32, UInt64.toNat_shiftRight, UInt64.toNat_ofNat',
      UInt32.toNat_ofNat', Nat.shiftRight_eq_div_pow]
    show bits % 2 ^ 64 / 2 ^ 32 % 2 ^ 32 = bits / 2 ^ 32 % 2 ^ 32
    omega
  have hlen : (block.toList.take 14).length = 14 := by simp
  have htwo : (block.toList.drop 14).length = 2 := by simp
  obtain ⟨p, q, hpq⟩ := List.length_eq_two.mp htwo
  rw [Sha1.wordsOfBytes_append (n := 14) hfield, Sha1.wordsOfBytes_bigEndian, ← hblock,
    appendBits, hlo, hhi, Vector.toList_set, Vector.toList_set, ← List.take_append_drop 14 block.toList, hpq]
  simp [hlen]

theorem take_zeroed (block : Block) : (zeroed block).toList.take 14 =
    Sha1.wordsOfBytes (List.replicate 56 0) := by
  have hfirst : (zeroed block).toList.take 14 = List.replicate 14 0 := by
    apply List.ext_getElem (by simp)
    intro i hi _
    have hlt : i < 14 := by
      rw [List.length_take] at hi
      omega
    rw [List.getElem_replicate, List.getElem_take, Vector.getElem_toList]
    simp [zeroed, hlt]
  rw [hfirst]
  decide +kernel

theorem take_bufferToBlock {field rest : Bytes} (hfield : field.length = 56) (hrest : rest.length = 8) :
    (bufferToBlock (field ++ rest)).toList.take 14 = Sha1.wordsOfBytes field := by
  have hlen := Sha1.wordsOfBytes_length (n := 14) hfield
  rw [bufferToBlock_toList (by rw [List.length_append, hfield, hrest]),
    Sha1.wordsOfBytes_append (n := 14) hfield, List.take_left' hlen]

theorem buffer_length {sha : SHA1} {message : Bytes} (h : Represents sha (absorbed message)) :
    sha.buffer.length = message.length % 64 := by
  have hlt : sha.buffer.length < 64 := sha.buffer_lt
  have hlen : (absorbed message).blocks * 64 + (absorbed message).rest.length = message.length :=
    (absorb_length _ message).trans (by simp)
  rw [h.buffer] at hlt ⊢
  omega

/-- The hash takes the padding after the text. -/
theorem hash_eq_absorbed (message : Bytes) : Sha1.hash message =
    (absorb 64 Sha1.compressBytes (absorbed message)
      (0x80 :: List.replicate (Sha1.zeros message.length) 0 ++
        Sha1.bigEndian 8 (8 * message.length))).state := by
  rw [Sha1.hash_eq_absorb, Sha1.pad, absorb_append]
  rfl

/-- The padding fits into the block that was begun. -/
theorem hash_short {sha : SHA1} {message : Bytes} (h : Represents sha (absorbed message))
    (hlt : sha.buffer.length < 56) : Sha1.hash message =
      Sha1.compressBytes sha.digest (sha.buffer ++ 0x80 :: List.replicate (55 - sha.buffer.length) 0 ++
        Sha1.bigEndian 8 (8 * message.length)) := by
  have hlen := buffer_length h
  have hzeros : Sha1.zeros message.length = 55 - sha.buffer.length := by
    rw [Sha1.zeros]
    omega
  rw [hash_eq_absorbed, hzeros, absorb_full, h.digest, h.buffer, List.append_assoc]
  · rw [← h.buffer]
    omega
  · rw [← h.buffer]
    simp only [List.length_append, List.length_cons, List.length_replicate, Sha1.bigEndian_length]
    omega

/-- The padding needs a block of its own. -/
theorem hash_long {sha : SHA1} {message : Bytes} (h : Represents sha (absorbed message))
    (hge : 56 ≤ sha.buffer.length) : Sha1.hash message =
      Sha1.compressBytes
        (Sha1.compressBytes sha.digest (sha.buffer ++ 0x80 :: List.replicate (63 - sha.buffer.length) 0))
        (List.replicate 56 0 ++ Sha1.bigEndian 8 (8 * message.length)) := by
  have hlt : sha.buffer.length < 64 := sha.buffer_lt
  have hlen := buffer_length h
  have hzeros : Sha1.zeros message.length = 63 - sha.buffer.length + 56 := by
    rw [Sha1.zeros]
    omega
  have hfirst : absorb 64 Sha1.compressBytes (absorbed message)
      (0x80 :: List.replicate (63 - sha.buffer.length) 0) =
        ⟨Sha1.compressBytes sha.digest (sha.buffer ++ 0x80 :: List.replicate (63 - sha.buffer.length) 0),
          [], (absorbed message).blocks + 1⟩ := by
    rw [h.digest, h.buffer, absorb_full]
    · rw [← h.buffer]
      exact hlt
    · rw [← h.buffer, List.length_cons, List.length_replicate]
      omega
  rw [hash_eq_absorbed, hzeros, List.replicate_add, ← List.cons_append, List.append_assoc,
    absorb_append, hfirst, absorb_full (by simp) (by simp)]
  rfl

/-- `final` prints what the standard makes of the text, and resets the object. -/
theorem final_represents {sha : SHA1} {message : Bytes} (h : Represents sha (absorbed message)) :
    sha.final = (hex (Sha1.hash message).bytes, reset) := by
  have hlt : sha.buffer.length < 64 := sha.buffer_lt
  have hfilled : sha.buffer ++ [0x80] ++
      List.replicate (blockBytes - (sha.buffer ++ [0x80]).length) 0 =
        sha.buffer ++ 0x80 :: List.replicate (63 - sha.buffer.length) 0 := by
    rw [List.append_assoc, List.singleton_append, List.length_append, List.length_singleton,
      blockBytes, show 64 - (sha.buffer.length + 1) = 63 - sha.buffer.length by omega]
  rw [final, totalBits_eq h, ← hexDigest_eq]
  dsimp only
  split
  · next horig =>
    rw [List.length_append, List.length_singleton, blockBytes] at horig
    have hpadded : (sha.buffer ++ 0x80 :: List.replicate (63 - sha.buffer.length) 0).length = 64 := by
      simp
      omega
    have hblock := bufferToBlock_toList hpadded
    rw [transform_digest, appendBits_toList (by simp) (take_zeroed _), transform_digest, hfilled,
      hblock, hash_long h (by omega)]
    rfl
  · next horig =>
    rw [List.length_append, List.length_singleton, blockBytes] at horig
    have hfield : (sha.buffer ++ 0x80 :: List.replicate (55 - sha.buffer.length) 0).length = 56 := by
      simp
      omega
    have hzeros : (0x80 :: List.replicate (63 - sha.buffer.length) 0 : Bytes) =
        0x80 :: List.replicate (55 - sha.buffer.length) 0 ++ List.replicate 8 0 := by
      rw [show 63 - sha.buffer.length = 55 - sha.buffer.length + 8 by omega, List.replicate_add,
        List.cons_append]
    rw [transform_digest, hfilled, hzeros, ← List.append_assoc,
      appendBits_toList hfield (take_bufferToBlock hfield (by simp)), hash_short h (by omega)]
    rfl

/-! ## Whole runs -/

inductive Call where
  | update (s : Bytes)
  | final

/-- What the calls of `final` return, one after another. -/
def answers : SHA1 → List Call → List Bytes
  | _, [] => []
  | self, .update s :: calls => answers (self.update s) calls
  | self, .final :: calls => self.final.1 :: answers self.final.2 calls

/-- What a checksum is for: an answer is about the text since the last one. -/
def expected : Bytes → List Call → List Bytes
  | _, [] => []
  | message, .update s :: calls => expected (message ++ s) calls
  | message, .final :: calls => hex (Sha1.hash message).bytes :: expected [] calls

theorem answers_represents (calls : List Call) : ∀ {sha : SHA1} {message : Bytes},
    Represents sha (absorbed message) → sha.answers calls = expected message calls := by
  induction calls with
  | nil =>
    intro sha message _
    rfl
  | cons call calls ih =>
    intro sha message h
    cases call with
    | update s => exact ih (update_represents h s)
    | final =>
      rw [answers, expected, final_represents h]
      exact congrArg _ (ih reset_represents)

/-- However the text is cut into calls of `update`, and however often the object
is used again after an answer, it prints the hashes of the standard. -/
theorem answers_eq (calls : List Call) : reset.answers calls = expected [] calls :=
  answers_represents calls reset_represents

example : fromFile (some (ascii "abc")) = ascii "a9993e364706816aba3e25717850c26c9cd0d89d" := by
  decide +kernel

end SHA1

/-! ## The hash function of the program -/

def sha1 (text : Bytes) : Digest := ⟨(Sha1.hash text).bytes, Sha1.Words.bytes_length _⟩

/-- What the program prints of a text that it hashes in one go. -/
theorem SHA1.final_update (text : Bytes) : (reset.update text).final.1 = hex (sha1 text).bytes := by
  rw [final_represents (update_represents reset_represents text)]
  rfl

end Bittorrent.Misc
