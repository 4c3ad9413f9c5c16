import Mathlib.Data.Nat.Digits.Lemmas

/-! Decimal numerals as byte strings. Reading is defined on every run of ASCII
digits, leading zeros included; printing yields the one numeral of a number
that has none. `print_value` is the converse of `value_print` and is what makes
a minimal numeral recoverable from the number it denotes. -/

namespace Lib.Decimal

def isDigit (b : UInt8) : Bool := 48 ≤ b && b ≤ 57

def digitVal (b : UInt8) : Nat := b.toNat - 48

def digitByte (d : Nat) : UInt8 := UInt8.ofNat (48 + d)

/-- A non-empty run of digits, with leading zeros or without. -/
def Numeral (ds : List UInt8) : Prop := ds ≠ [] ∧ ∀ b ∈ ds, isDigit b = true

/-- A numeral without redundant zeros: zero itself, or a non-zero leading digit. -/
def Minimal (ds : List UInt8) : Prop := Numeral ds ∧ (ds = [48] ∨ ds.head? ≠ some 48)

instance (ds : List UInt8) : Decidable (Numeral ds) :=
  decidable_of_iff (ds ≠ [] ∧ ds.all isDigit = true) (by simp [Numeral])

instance (ds : List UInt8) : Decidable (Minimal ds) := inferInstanceAs (Decidable (_ ∧ _))

def value (ds : List UInt8) : Nat := ds.foldl (fun n b => n * 10 + digitVal b) 0

def print (n : Nat) : List UInt8 :=
  if n = 0 then [48] else (Nat.digits 10 n).reverse.map digitByte

/-- Digits behind an optional minus sign, and the integer they denote. -/
def signed (neg : Bool) (ds : List UInt8) : List UInt8 := if neg then 45 :: ds else ds

def signedValue (neg : Bool) (ds : List UInt8) : Int := if neg then -(value ds : Int) else value ds

/-- A minus sign in front of the numeral of a negative number, nothing otherwise. -/
def printInt (i : Int) : List UInt8 :=
  if i < 0 then 45 :: print i.natAbs else print i.natAbs

theorem isDigit_iff {b : UInt8} : isDigit b = true ↔ 48 ≤ b.toNat ∧ b.toNat ≤ 57 := by
  simp [isDigit, UInt8.le_iff_toNat_le]

theorem digitByte_toNat {d : Nat} (h : d < 10) : (digitByte d).toNat = 48 + d := by
  simp only [digitByte, UInt8.toNat_ofNat']
  omega

theorem isDigit_digitByte {d : Nat} (h : d < 10) : isDigit (digitByte d) = true := by
  rw [isDigit_iff, digitByte_toNat h]
  omega

theorem digitVal_digitByte {d : Nat} (h : d < 10) : digitVal (digitByte d) = d := by
  rw [digitVal, digitByte_toNat h]
  omega

theorem digitVal_lt {b : UInt8} (h : isDigit b = true) : digitVal b < 10 := by
  have := isDigit_iff.mp h
  simp only [digitVal]
  omega

theorem digitByte_digitVal {b : UInt8} (h : isDigit b = true) : digitByte (digitVal b) = b := by
  apply UInt8.toNat_inj.mp
  rw [digitByte_toNat (digitVal_lt h)]
  have := isDigit_iff.mp h
  simp only [digitVal]
  omega

private theorem foldl_ofDigits (ds : List UInt8) (n : Nat) :
    ds.foldl (fun n b => n * 10 + digitVal b) n =
      Nat.ofDigits 10 (ds.map digitVal).reverse + n * 10 ^ ds.length := by
  induction ds generalizing n with
  | nil => simp
  | cons b ds ih =>
    simp only [List.foldl_cons, ih, List.map_cons, List.reverse_cons, Nat.ofDigits_append,
      List.length_reverse, List.length_map, Nat.ofDigits_singleton, List.length_cons]
    ring

theorem value_eq_ofDigits (ds : List UInt8) :
    value ds = Nat.ofDigits 10 (ds.map digitVal).reverse := by
  rw [value, foldl_ofDigits]
  simp

theorem print_pos {n : Nat} (h : n ≠ 0) : print n = (Nat.digits 10 n).reverse.map digitByte := by
  rw [print, if_neg h]

theorem print_numeral (n : Nat) : Numeral (print n) := by
  by_cases h : n = 0
  · subst h
    show Numeral [48]
    decide
  · rw [print_pos h]
    refine ⟨by simpa using Nat.digits_ne_nil_iff_ne_zero.mpr h, ?_⟩
    intro b hb
    obtain ⟨d, hd, rfl⟩ := List.mem_map.mp hb
    exact isDigit_digitByte (Nat.digits_lt_base (by omega) (List.mem_reverse.mp hd))

theorem value_print (n : Nat) : value (print n) = n := by
  by_cases h : n = 0
  · subst h
    rfl
  · rw [print_pos h, value_eq_ofDigits, List.map_map, ← List.map_reverse, List.reverse_reverse]
    have hid : ∀ d ∈ Nat.digits 10 n, (digitVal ∘ digitByte) d = d := fun d hd =>
      digitVal_digitByte (Nat.digits_lt_base (by omega) hd)
    rw [List.map_congr_left hid, List.map_id', Nat.ofDigits_digits]

theorem print_length_le {n k : Nat} (hk : 0 < k) (h : n < 10 ^ k) : (print n).length ≤ k := by
  by_cases h0 : n = 0
  · subst h0
    exact hk
  · rw [print_pos h0, List.length_map, List.length_reverse]
    exact (Nat.digits_length_le_iff (by omega) n).mpr h

theorem print_minimal (n : Nat) : Minimal (print n) := by
  refine ⟨print_numeral n, ?_⟩
  by_cases h : n = 0
  · exact Or.inl (by rw [h]; rfl)
  · right
    have hne : Nat.digits 10 n ≠ [] := Nat.digits_ne_nil_iff_ne_zero.mpr h
    have hlast := Nat.getLast_digit_ne_zero 10 h
    have hlt := Nat.digits_lt_base (by omega : 1 < 10) (List.getLast_mem hne)
    rw [print_pos h, List.head?_map, List.head?_reverse, List.getLast?_eq_some_getLast hne]
    intro he
    have hb : (digitByte ((Nat.digits 10 n).getLast hne)).toNat = 48 :=
      congrArg UInt8.toNat (Option.some.inj he)
    rw [digitByte_toNat hlt] at hb
    omega

/-- A minimal numeral is the printed form of its own value. -/
theorem print_value {ds : List UInt8} (h : Minimal ds) : print (value ds) = ds := by
  obtain ⟨⟨hne, hds⟩, rfl | hhead⟩ := h
  · rfl
  · cases ds with
    | nil => exact absurd rfl hne
    | cons b ds =>
      have hb : digitVal b ≠ 0 := by
        intro h0
        have hz := digitByte_digitVal (hds b (by simp))
        rw [h0] at hz
        exact hhead (by rw [← hz]; rfl)
      have hdig : Nat.digits 10 (value (b :: ds)) = ((b :: ds).map digitVal).reverse := by
        rw [value_eq_ofDigits]
        apply Nat.digits_ofDigits 10 (by omega)
        · intro d hd
          obtain ⟨c, hc, rfl⟩ := List.mem_map.mp (List.mem_reverse.mp hd)
          exact digitVal_lt (hds c hc)
        · intro hl
          rw [List.getLast_reverse]
          simpa using hb
      have hpos : value (b :: ds) ≠ 0 := by
        intro h0
        rw [h0] at hdig
        simp at hdig
      rw [print_pos hpos, hdig, List.reverse_reverse, List.map_map]
      exact (List.map_congr_left fun c hc => digitByte_digitVal (hds c hc)).trans (List.map_id' _)

theorem numeral_head {b : UInt8} {ds : List UInt8} (h : Numeral (b :: ds)) : isDigit b = true :=
  h.2 b (by simp)

theorem signed_inj {neg neg' : Bool} {ds ds' : List UInt8} (h : Numeral ds) (h' : Numeral ds')
    (he : signed neg ds = signed neg' ds') : neg = neg' ∧ ds = ds' := by
  cases neg <;> cases neg'
  · exact ⟨rfl, he⟩
  · have hd : ds = 45 :: ds' := he
    rw [hd] at h
    exact absurd (numeral_head h) (by decide)
  · have hd : 45 :: ds = ds' := he
    rw [← hd] at h'
    exact absurd (numeral_head h') (by decide)
  · exact ⟨rfl, (List.cons.inj he).2⟩

theorem takeWhile_numeral {ds : List UInt8} {rest : List UInt8} (h : Numeral ds)
    (hr : ∀ b ∈ rest.head?, isDigit b = false) : (ds ++ rest).takeWhile isDigit = ds := by
  rw [List.takeWhile_append_of_pos h.2]
  cases rest with
  | nil => simp
  | cons c rest => simp [hr c rfl]

theorem dropWhile_numeral {ds : List UInt8} {rest : List UInt8} (h : Numeral ds)
    (hr : ∀ b ∈ rest.head?, isDigit b = false) : (ds ++ rest).dropWhile isDigit = rest := by
  have hsplit := List.takeWhile_append_dropWhile (p := isDigit) (l := ds ++ rest)
  rw [takeWhile_numeral h hr] at hsplit
  exact List.append_cancel_left hsplit

end Lib.Decimal
