import Mathlib.Data.List.TakeWhile
import Bittorrent.Json

/-! Constants, decoded values and number parsing of the bencode component. -/

namespace Bittorrent.Bencode

open Lib Lib.Decimal

def endSymbol : UInt8 := 101
def listStartSymbol : UInt8 := 108
def dictStartSymbol : UInt8 := 100
def integerStartSymbol : UInt8 := 105
def stringDelimiterSymbol : UInt8 := 58

def pieceHashLength : Nat := 20

inductive EncodedValueType where
  | integer
  | string
  | list
  | dictionary
  | unknown
  deriving DecidableEq

structure EncodedValue where
  type : EncodedValueType
  value : Bytes

abbrev DecodedValue := EncodedValue × Json

/-! ## `std::from_chars` and `to_integer` -/

def splitSign : Bytes → Bool × Bytes
  | [] => (false, [])
  | b :: s => if b = 45 then (true, s) else (false, b :: s)

/-- `std::from_chars` on `long long`, base 10: the value and what follows the
matched text, nothing when no digit matches or the value is out of range. -/
def fromChars (s : Bytes) : Option (Int × Bytes) :=
  let (neg, rest) := splitSign s
  let digits := rest.takeWhile isDigit
  if digits = [] then none
  else if InInt64 (signedValue neg digits) then
    some (signedValue neg digits, rest.dropWhile isDigit)
  else none

def toInteger (s : Bytes) : Option Int :=
  match fromChars s with
  | some (value, []) => some value
  | _ => none

theorem signed_splitSign (s : Bytes) : signed (splitSign s).1 (splitSign s).2 = s := by
  cases s with
  | nil => rfl
  | cons b s =>
    by_cases hb : b = 45 <;> simp [splitSign, signed, hb]

theorem splitSign_signed {neg : Bool} {ds : Bytes} (h : Numeral ds) :
    splitSign (signed neg ds) = (neg, ds) := by
  cases neg with
  | true => simp [signed, splitSign]
  | false =>
    cases ds with
    | nil => exact absurd rfl h.1
    | cons b ds =>
      have hb : b ≠ 45 := by
        rintro rfl
        exact absurd (numeral_head h) (by decide)
      simp [signed, splitSign, hb]

/-- `to_integer` takes the whole text: digits behind an optional minus sign,
denoting a value in range. -/
theorem toInteger_eq_some {s : Bytes} {i : Int} : toInteger s = some i ↔
    ∃ neg ds, Numeral ds ∧ s = signed neg ds ∧ i = signedValue neg ds ∧ InInt64 i := by
  unfold toInteger fromChars
  constructor
  · intro h
    have hs := signed_splitSign s
    generalize splitSign s = p at h hs
    obtain ⟨neg, rest⟩ := p
    have hall := List.takeWhile_append_dropWhile (p := isDigit) (l := rest)
    dsimp only at h hs
    by_cases hne : rest.takeWhile isDigit = []
    · simp [hne] at h
    · by_cases hin : InInt64 (signedValue neg (rest.takeWhile isDigit))
      · rw [if_neg hne, if_pos hin] at h
        cases hd : rest.dropWhile isDigit with
        | nil =>
          rw [hd] at h hall
          obtain rfl := Option.some.inj h
          have hrest : rest.takeWhile isDigit = rest := by simpa using hall
          refine ⟨neg, rest.takeWhile isDigit, ⟨hne, fun b hb => List.mem_takeWhile_imp hb⟩, ?_, rfl, hin⟩
          rw [hrest]
          exact hs.symm
        | cons b t =>
          rw [hd] at h
          cases h
      · simp [hne, hin] at h
  · rintro ⟨neg, ds, hds, rfl, rfl, hin⟩
    have ht : (ds ++ []).takeWhile isDigit = ds := takeWhile_numeral hds (by simp)
    rw [List.append_nil] at ht
    have hd : ds.dropWhile isDigit = [] := List.dropWhile_eq_nil_iff.mpr hds.2
    simp [splitSign_signed hds, ht, hd, hds.1, hin]

end Bittorrent.Bencode
