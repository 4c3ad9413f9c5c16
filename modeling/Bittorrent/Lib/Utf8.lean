import Mathlib.Data.List.Basic

/-! UTF-8 as the encoding form of Unicode scalar values. `valid_cons_iff` reads
validity byte by byte: a lead byte fixes how many bytes follow and the range of
the first of them, which is what a byte-at-a-time recogniser has to track. -/

namespace Lib.Utf8

/-- A code point that is not a surrogate. -/
def Scalar (c : Nat) : Prop := c < 0xD800 ∨ (0xE000 ≤ c ∧ c < 0x110000)

def encode (c : Nat) : List UInt8 :=
  if c < 0x80 then [UInt8.ofNat c]
  else if c < 0x800 then [UInt8.ofNat (0xC0 + c / 64), UInt8.ofNat (0x80 + c % 64)]
  else if c < 0x10000 then
    [UInt8.ofNat (0xE0 + c / 4096), UInt8.ofNat (0x80 + c / 64 % 64), UInt8.ofNat (0x80 + c % 64)]
  else
    [UInt8.ofNat (0xF0 + c / 262144), UInt8.ofNat (0x80 + c / 4096 % 64),
      UInt8.ofNat (0x80 + c / 64 % 64), UInt8.ofNat (0x80 + c % 64)]

def Valid (s : List UInt8) : Prop := ∃ cs : List Nat, (∀ c ∈ cs, Scalar c) ∧ s = cs.flatMap encode

/-- How many bytes follow a lead byte, and the bounds on the first of them. -/
def lead (b : UInt8) : Option (Nat × Nat × Nat) :=
  if b.toNat < 0x80 then some (0, 0x80, 0xBF)
  else if b.toNat < 0xC2 then none
  else if b.toNat < 0xE0 then some (1, 0x80, 0xBF)
  else if b.toNat = 0xE0 then some (2, 0xA0, 0xBF)
  else if b.toNat = 0xED then some (2, 0x80, 0x9F)
  else if b.toNat < 0xF0 then some (2, 0x80, 0xBF)
  else if b.toNat = 0xF0 then some (3, 0x90, 0xBF)
  else if b.toNat < 0xF4 then some (3, 0x80, 0xBF)
  else if b.toNat = 0xF4 then some (3, 0x80, 0x8F)
  else none

/-- `n` more bytes are due, the first of them between `lo` and `hi`. -/
def Continues : Nat → Nat → Nat → List UInt8 → Prop
  | 0, _, _, s => Valid s
  | _ + 1, _, _, [] => False
  | n + 1, lo, hi, b :: s => lo ≤ b.toNat ∧ b.toNat ≤ hi ∧ Continues n 0x80 0xBF s

theorem valid_nil : Valid [] := ⟨[], by simp, rfl⟩

theorem Valid.cons {c : Nat} {s : List UInt8} (hc : Scalar c) (h : Valid s) :
    Valid (encode c ++ s) := by
  obtain ⟨cs, hcs, rfl⟩ := h
  refine ⟨c :: cs, ?_, by simp⟩
  intro d hd
  rcases List.mem_cons.mp hd with rfl | hd
  · exact hc
  · exact hcs d hd

theorem toNat_ofNat {n : Nat} (h : n < 256) : (UInt8.ofNat n).toNat = n := by
  rw [UInt8.toNat_ofNat']
  omega

private theorem ofNat_eq {n : Nat} {b : UInt8} (h : n = b.toNat) : UInt8.ofNat n = b := by
  rw [h, UInt8.ofNat_toNat]

/-- The encoding of a scalar, split at its lead byte. -/
theorem lead_encode {c : Nat} (hc : Scalar c) {s : List UInt8} (hs : Valid s) :
    ∃ b t n lo hi, encode c = b :: t ∧ lead b = some (n, lo, hi) ∧ Continues n lo hi (t ++ s) := by
  unfold Scalar at hc
  unfold encode
  split_ifs with h1 h2 h3
  · refine ⟨_, _, 0, 0x80, 0xBF, rfl, ?_, hs⟩
    rw [lead, toNat_ofNat (by omega), if_pos h1]
  · refine ⟨_, _, 1, 0x80, 0xBF, rfl, ?_, ?_⟩
    · rw [lead, toNat_ofNat (by omega), if_neg (by omega), if_neg (by omega), if_pos (by omega)]
    · simp only [List.cons_append, List.nil_append, Continues]
      rw [toNat_ofNat (by omega)]
      exact ⟨by omega, by omega, hs⟩
  · have hb : (UInt8.ofNat (0xE0 + c / 4096)).toNat = 0xE0 + c / 4096 := toNat_ofNat (by omega)
    have hlead : ∃ lo hi, lead (UInt8.ofNat (0xE0 + c / 4096)) = some (2, lo, hi) ∧
        lo ≤ 0x80 + c / 64 % 64 ∧ 0x80 + c / 64 % 64 ≤ hi := by
      unfold lead
      rw [hb, if_neg (by omega), if_neg (by omega), if_neg (by omega)]
      split_ifs with h4 h5 h6
      · exact ⟨_, _, rfl, by omega, by omega⟩
      · exact ⟨_, _, rfl, by omega, by omega⟩
      · exact ⟨_, _, rfl, by omega, by omega⟩
      all_goals omega
    obtain ⟨lo, hi, hl, hlo, hhi⟩ := hlead
    refine ⟨_, _, 2, lo, hi, rfl, hl, ?_⟩
    simp only [List.cons_append, List.nil_append, Continues]
    rw [toNat_ofNat (n := 0x80 + c / 64 % 64) (by omega), toNat_ofNat (by omega)]
    exact ⟨hlo, hhi, by omega, by omega, hs⟩
  · have hb : (UInt8.ofNat (0xF0 + c / 262144)).toNat = 0xF0 + c / 262144 := toNat_ofNat (by omega)
    have hlead : ∃ lo hi, lead (UInt8.ofNat (0xF0 + c / 262144)) = some (3, lo, hi) ∧
        lo ≤ 0x80 + c / 4096 % 64 ∧ 0x80 + c / 4096 % 64 ≤ hi := by
      unfold lead
      rw [hb, if_neg (by omega), if_neg (by omega), if_neg (by omega), if_neg (by omega),
        if_neg (by omega), if_neg (by omega)]
      split_ifs with h4 h5 h6
      · exact ⟨_, _, rfl, by omega, by omega⟩
      · exact ⟨_, _, rfl, by omega, by omega⟩
      · exact ⟨_, _, rfl, by omega, by omega⟩
      all_goals omega
    obtain ⟨lo, hi, hl, hlo, hhi⟩ := hlead
    refine ⟨_, _, 3, lo, hi, rfl, hl, ?_⟩
    simp only [List.cons_append, List.nil_append, Continues]
    rw [toNat_ofNat (n := 0x80 + c / 4096 % 64) (by omega),
      toNat_ofNat (n := 0x80 + c / 64 % 64) (by omega), toNat_ofNat (by omega)]
    exact ⟨hlo, hhi, by omega, by omega, by omega, by omega, hs⟩

private theorem continues_two {lo hi : Nat} {s : List UInt8} (h : Continues 2 lo hi s) :
    ∃ b c t, s = b :: c :: t ∧ lo ≤ b.toNat ∧ b.toNat ≤ hi ∧
      0x80 ≤ c.toNat ∧ c.toNat ≤ 0xBF ∧ Valid t := by
  match s, h with
  | [_], ⟨_, _, h⟩ => exact h.elim
  | b :: c :: t, ⟨hl, hh, hl', hh', ht⟩ => exact ⟨b, c, t, rfl, hl, hh, hl', hh', ht⟩

private theorem continues_three {lo hi : Nat} {s : List UInt8} (h : Continues 3 lo hi s) :
    ∃ b c d t, s = b :: c :: d :: t ∧ lo ≤ b.toNat ∧ b.toNat ≤ hi ∧
      0x80 ≤ c.toNat ∧ c.toNat ≤ 0xBF ∧ 0x80 ≤ d.toNat ∧ d.toNat ≤ 0xBF ∧ Valid t := by
  match s, h with
  | b :: s, ⟨hl, hh, h⟩ =>
    obtain ⟨c, d, t, rfl, hc, hc', hd, hd', ht⟩ := continues_two h
    exact ⟨b, c, d, t, rfl, hl, hh, hc, hc', hd, hd', ht⟩

/-- Three bytes in the ranges of their lead encode one scalar. -/
private theorem valid_three {a b c : UInt8} {s : List UInt8} (ha : 0xE0 ≤ a.toNat)
    (ha' : a.toNat < 0xF0) (hb : 0x80 ≤ b.toNat) (hb' : b.toNat ≤ 0xBF)
    (he : a.toNat = 0xE0 → 0xA0 ≤ b.toNat) (hd : a.toNat = 0xED → b.toNat ≤ 0x9F)
    (hc : 0x80 ≤ c.toNat) (hc' : c.toNat ≤ 0xBF) (hs : Valid s) : Valid (a :: b :: c :: s) := by
  let v := (a.toNat - 0xE0) * 4096 + (b.toNat - 0x80) * 64 + (c.toNat - 0x80)
  have henc : encode v = [a, b, c] := by
    unfold encode
    rw [if_neg (by omega), if_neg (by omega), if_pos (by omega),
      ofNat_eq (b := a) (by omega), ofNat_eq (b := b) (by omega), ofNat_eq (b := c) (by omega)]
  have hv : Scalar v := by unfold Scalar; omega
  simpa [henc] using hs.cons hv

private theorem valid_four {a b c d : UInt8} {s : List UInt8} (ha : 0xF0 ≤ a.toNat)
    (ha' : a.toNat ≤ 0xF4) (hb : 0x80 ≤ b.toNat) (hb' : b.toNat ≤ 0xBF)
    (he : a.toNat = 0xF0 → 0x90 ≤ b.toNat) (hf : a.toNat = 0xF4 → b.toNat ≤ 0x8F)
    (hc : 0x80 ≤ c.toNat) (hc' : c.toNat ≤ 0xBF) (hd : 0x80 ≤ d.toNat) (hd' : d.toNat ≤ 0xBF)
    (hs : Valid s) : Valid (a :: b :: c :: d :: s) := by
  let v := (a.toNat - 0xF0) * 262144 + (b.toNat - 0x80) * 4096 + (c.toNat - 0x80) * 64 +
    (d.toNat - 0x80)
  have henc : encode v = [a, b, c, d] := by
    unfold encode
    rw [if_neg (by omega), if_neg (by omega), if_neg (by omega), ofNat_eq (b := a) (by omega),
      ofNat_eq (b := b) (by omega), ofNat_eq (b := c) (by omega), ofNat_eq (b := d) (by omega)]
  have hv : Scalar v := by unfold Scalar; omega
  simpa [henc] using hs.cons hv

theorem valid_of_lead {b : UInt8} {s : List UInt8} {n lo hi : Nat}
    (hl : lead b = some (n, lo, hi)) (h : Continues n lo hi s) : Valid (b :: s) := by
  unfold lead at hl
  split_ifs at hl with h1 h2 h3 h4 h5 h6 h7 h8 h9
  all_goals
    simp only [Option.some.injEq, Prod.mk.injEq] at hl
    obtain ⟨rfl, rfl, rfl⟩ := hl
  · have henc : encode b.toNat = [b] := by
      rw [encode, if_pos h1, UInt8.ofNat_toNat]
    simpa [henc] using Valid.cons (c := b.toNat) (by unfold Scalar; omega) h
  · match s, h with
    | c :: s, ⟨hlo, hhi, hs⟩ =>
      let v := (b.toNat - 0xC0) * 64 + (c.toNat - 0x80)
      have henc : encode v = [b, c] := by
        unfold encode
        rw [if_neg (by omega), if_pos (by omega), ofNat_eq (b := b) (by omega),
          ofNat_eq (b := c) (by omega)]
      simpa [henc] using Valid.cons (c := v) (by unfold Scalar; omega) hs
  all_goals
    first
      | obtain ⟨c, d, t, rfl, hc, hc', hd, hd', ht⟩ := continues_two h
        exact valid_three (by omega) (by omega) (by omega) (by omega) (by omega) (by omega) hd hd' ht
      | obtain ⟨c, d, e, t, rfl, hc, hc', hd, hd', he, he', ht⟩ := continues_three h
        exact valid_four (by omega) (by omega) (by omega) (by omega) (by omega) (by omega)
          hd hd' he he' ht

/-- Validity, decided at the lead byte. -/
theorem valid_cons_iff {b : UInt8} {s : List UInt8} :
    Valid (b :: s) ↔ ∃ n lo hi, lead b = some (n, lo, hi) ∧ Continues n lo hi s := by
  constructor
  · rintro ⟨cs, hcs, he⟩
    cases cs with
    | nil => simp at he
    | cons c cs =>
      obtain ⟨b', t, n, lo, hi, henc, hl, hc⟩ := lead_encode (hcs c (by simp))
        (s := cs.flatMap encode) ⟨cs, fun d hd => hcs d (by simp [hd]), rfl⟩
      simp only [List.flatMap_cons, henc, List.cons_append, List.cons.injEq] at he
      obtain ⟨rfl, rfl⟩ := he
      exact ⟨n, lo, hi, hl, hc⟩
  · rintro ⟨n, lo, hi, hl, hc⟩
    exact valid_of_lead hl hc

end Lib.Utf8
