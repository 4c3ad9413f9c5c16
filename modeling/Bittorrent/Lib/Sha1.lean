import Mathlib.Data.List.GetD
import Bittorrent.Lib.BlockHash

/-! SHA-1 as its standard states it, over lists: the padded message is cut into
blocks of 64 bytes, and each block is compressed into five words. -/

namespace Lib.Sha1
open Lib.Chunks

/-- `ROTL^k` -/
def rotl (k : Nat) (x : UInt32) : UInt32 := ⟨x.toBitVec.rotateLeft k⟩

def ch (x y z : UInt32) : UInt32 := (x &&& y) ^^^ (~~~x &&& z)

def parity (x y z : UInt32) : UInt32 := x ^^^ y ^^^ z

def maj (x y z : UInt32) : UInt32 := (x &&& y) ^^^ (x &&& z) ^^^ (y &&& z)

/-- `f_t` -/
def logical (t : Nat) : UInt32 → UInt32 → UInt32 → UInt32 :=
  if t < 20 then ch else if t < 40 then parity else if t < 60 then maj else parity

/-- `K_t` -/
def constant (t : Nat) : UInt32 :=
  if t < 20 then 0x5a827999 else if t < 40 then 0x6ed9eba1
  else if t < 60 then 0x8f1bbcdc else 0xca62c1d6

/-! ## The message schedule -/

def nextWord (ws : List UInt32) : UInt32 :=
  let t := ws.length
  rotl 1 (ws.getD (t - 3) 0 ^^^ ws.getD (t - 8) 0 ^^^ ws.getD (t - 14) 0 ^^^ ws.getD (t - 16) 0)

/-- The words of a block and `k` more. -/
def schedule (block : List UInt32) : Nat → List UInt32
  | 0 => block
  | k + 1 => schedule block k ++ [nextWord (schedule block k)]

/-- `W_t` -/
def word (block : List UInt32) (t : Nat) : UInt32 := (schedule block 64).getD t 0

theorem schedule_length (block : List UInt32) (k : Nat) :
    (schedule block k).length = block.length + k := by
  induction k with
  | zero => rfl
  | succ k ih => rw [schedule, List.length_append, ih, List.length_singleton, Nat.add_assoc]

/-- A longer schedule begins with a shorter one. -/
theorem schedule_getD (block : List UInt32) {t k j : Nat} (ht : t < block.length + k) (hk : k ≤ j) :
    (schedule block j).getD t 0 = (schedule block k).getD t 0 := by
  induction hk with
  | refl => rfl
  | @step j hj ih =>
    rw [schedule, List.getD_append _ _ _ _ (by rw [schedule_length]; have := hj; simp at this; omega),
      ih]

theorem word_of_block {block : List UInt32} {t : Nat} (h : t < block.length) :
    word block t = block.getD t 0 := schedule_getD block h (Nat.zero_le 64)

theorem word_of_later {block : List UInt32} (hb : block.length = 16) {t : Nat} (hlo : 16 ≤ t)
    (hhi : t < 80) :
    word block t = rotl 1 (word block (t - 3) ^^^ word block (t - 8) ^^^ word block (t - 14) ^^^
      word block (t - 16)) := by
  obtain ⟨k, rfl⟩ := Nat.exists_eq_add_of_le hlo
  have hlen : (schedule block k).length = 16 + k := by rw [schedule_length, hb]
  have earlier : ∀ s, s < 16 + k → word block s = (schedule block k).getD s 0 := fun s hs =>
    schedule_getD block (by rw [hb]; exact hs) (by omega)
  have hword : word block (16 + k) = nextWord (schedule block k) := by
    rw [word, schedule_getD block (k := k + 1) (by omega) (by omega), schedule,
      List.getD_append_right _ _ _ _ (by omega), hlen, Nat.sub_self]
    rfl
  rw [hword, earlier _ (by omega), earlier _ (by omega), earlier _ (by omega),
    earlier _ (by omega), nextWord, hlen]

/-! ## Compression -/

/-- The hash value, or the working variables `a` to `e`. -/
structure Words where
  h0 : UInt32
  h1 : UInt32
  h2 : UInt32
  h3 : UInt32
  h4 : UInt32
  deriving DecidableEq

def initial : Words := ⟨0x67452301, 0xefcdab89, 0x98badcfe, 0x10325476, 0xc3d2e1f0⟩

def Words.add (h h' : Words) : Words :=
  ⟨h.h0 + h'.h0, h.h1 + h'.h1, h.h2 + h'.h2, h.h3 + h'.h3, h.h4 + h'.h4⟩

/-- Step `t`, with its word of the schedule. -/
def step (t : Nat) (w : UInt32) : Words → Words
  | ⟨a, b, c, d, e⟩ => ⟨rotl 5 a + logical t b c d + e + constant t + w, a, rotl 30 b, c, d⟩

/-- The first `t` steps. -/
def steps (block : List UInt32) (h : Words) : Nat → Words
  | 0 => h
  | t + 1 => step t (word block t) (steps block h t)

def compress (h : Words) (block : List UInt32) : Words := h.add (steps block h 80)

/-! ## Bytes -/

def wordOfBytes (bytes : List UInt8) : UInt32 :=
  UInt32.ofNat (bytes.foldl (fun n b => n * 256 + b.toNat) 0)

def wordsOfBytes (bytes : List UInt8) : List UInt32 := (chunk 4 bytes).map wordOfBytes

/-- A number as `k` bytes, the most significant first. -/
def bigEndian : Nat → Nat → List UInt8
  | 0, _ => []
  | k + 1, n => bigEndian k (n / 256) ++ [UInt8.ofNat n]

def Words.bytes (h : Words) : List UInt8 :=
  [h.h0, h.h1, h.h2, h.h3, h.h4].flatMap fun w => bigEndian 4 w.toNat

@[simp] theorem bigEndian_length (k : Nat) : ∀ n, (bigEndian k n).length = k := by
  induction k with
  | zero => intro n; rfl
  | succ k ih => intro n; rw [bigEndian, List.length_append, ih, List.length_singleton]

theorem bigEndian_add (j k : Nat) : ∀ n,
    bigEndian (j + k) n = bigEndian j (n / 256 ^ k) ++ bigEndian k n := by
  induction k with
  | zero => intro n; simp [bigEndian]
  | succ k ih =>
    intro n
    rw [← Nat.add_assoc, bigEndian, ih, bigEndian, List.append_assoc, Nat.div_div_eq_div_mul,
      Nat.pow_succ']

/-- Only what the bytes can hold counts. -/
theorem wordOfBytes_bigEndian (n : Nat) : wordOfBytes (bigEndian 4 n) = UInt32.ofNat n := by
  rw [← UInt32.toNat_inj]
  simp only [wordOfBytes, bigEndian, List.nil_append, List.cons_append, List.foldl_cons,
    List.foldl_nil, UInt32.toNat_ofNat', UInt8.toNat_ofNat']
  omega

theorem wordsOfBytes_length {n : Nat} {xs : List UInt8} (h : xs.length = 4 * n) :
    (wordsOfBytes xs).length = n := by
  rw [wordsOfBytes, List.length_map, (chunk_exact (by omega) h).1]

theorem wordsOfBytes_append {n : Nat} {xs : List UInt8} (h : xs.length = 4 * n) (ys : List UInt8) :
    wordsOfBytes (xs ++ ys) = wordsOfBytes xs ++ wordsOfBytes ys := by
  obtain ⟨cs, -, hcs, rfl⟩ := exists_chunks n h
  clear h
  rw [wordsOfBytes, wordsOfBytes, wordsOfBytes, chunk_flatten (by omega) hcs, ← List.map_append]
  congr 1
  induction cs with
  | nil => rfl
  | cons c cs ih =>
    rw [List.flatten_cons, List.append_assoc, chunk_append (by omega) (hcs c (by simp)),
      ih fun d hd => hcs d (List.mem_cons_of_mem _ hd), List.cons_append]

/-- The length field as two words. -/
theorem wordsOfBytes_bigEndian (n : Nat) : wordsOfBytes (bigEndian 8 n) =
    [UInt32.ofNat (n / 2 ^ 32), UInt32.ofNat n] := by
  rw [bigEndian_add 4 4, wordsOfBytes_append (n := 1) (by simp)]
  have hword : ∀ m, wordsOfBytes (bigEndian 4 m) = [UInt32.ofNat m] := by
    intro m
    rw [wordsOfBytes, ← List.append_nil (bigEndian 4 m), chunk_append (by omega) (by simp)]
    exact congrArg (· :: []) (wordOfBytes_bigEndian m)
  rw [hword, hword]
  rfl

theorem Words.bytes_length (h : Words) : h.bytes.length = 20 := by simp [Words.bytes]

/-! ## Padding -/

/-- How many zeros bring the length in front of the length field to 56 modulo 64. -/
def zeros (length : Nat) : Nat := (119 - length % 64) % 64

/-- The standard is for messages under 2^64 bits; the length field of a longer
one is taken modulo 2^64. -/
def pad (message : List UInt8) : List UInt8 :=
  message ++ (0x80 :: List.replicate (zeros message.length) 0 ++ bigEndian 8 (8 * message.length))

theorem pad_length (message : List UInt8) :
    (pad message).length = 64 * ((message.length + 8) / 64 + 1) := by
  simp only [pad, zeros, List.length_append, List.length_cons, List.length_replicate, bigEndian_length]
  omega

def compressBytes (h : Words) (block : List UInt8) : Words := compress h (wordsOfBytes block)

def hash (message : List UInt8) : Words := (chunk 64 (pad message)).foldl compressBytes initial

/-- The padded message is absorbed without a rest. -/
theorem hash_eq_absorb (message : List UInt8) : hash message =
    (BlockHash.absorb 64 compressBytes ⟨initial, [], 0⟩ (pad message)).state := by
  rw [BlockHash.absorb_blocks (by omega) initial 0 (pad_length message)]
  rfl

end Lib.Sha1
