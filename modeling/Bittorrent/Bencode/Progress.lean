import Bittorrent.Bencode.Exceptions

/-! The decoder ends on every input, and each pass of its loops takes something
from the front of what is left (`decode_progress`). A key need not take anything:
with a negative length it may end before it begins. The value behind it does. -/

namespace Bittorrent.Bencode

open Lib Lib.OrderedMap

/-- A pass of the loop of `decode_bencoded_list`. -/
def listPass (decode : Bytes → Outcome DecodedValue) (remaining : Bytes) (list : List Json) :
    Outcome (Bytes × List Json) := do
  let (encoded, result) ← decode remaining
  .value (remaining.drop encoded.value.length, list ++ [result])

/-- A pass of the loop of `decode_bencoded_dict`. -/
def dictPass (decode : Bytes → Outcome DecodedValue) (remaining : Bytes)
    (dict : List (Bytes × Json)) : Outcome (Bytes × List (Bytes × Json)) := do
  let (encodedKey, key) ← decodeString remaining
  let remaining := remaining.drop encodedKey.value.length
  let (encodedValue, value) ← decode remaining
  let remaining := remaining.drop encodedValue.value.length
  let key ← Outcome.ofExcept key.getString
  .value (remaining, insert key value dict)

theorem listLoop_pass (decode : Bytes → Outcome DecodedValue) (fuel : Nat) (remaining : Bytes)
    (list : List Json) : listLoop decode (fuel + 1) remaining list =
    if remaining.head? = some endSymbol then .value (remaining, list)
    else listPass decode remaining list >>= fun d => listLoop decode fuel d.1 d.2 := by
  rw [listLoop, listPass]
  cases decode remaining <;> rfl

theorem dictLoop_pass (decode : Bytes → Outcome DecodedValue) (fuel : Nat) (remaining : Bytes)
    (dict : List (Bytes × Json)) : dictLoop decode (fuel + 1) remaining dict =
    if remaining.head? = some endSymbol then .value (remaining, dict)
    else dictPass decode remaining dict >>= fun d => dictLoop decode fuel d.1 d.2 := by
  rw [dictLoop, dictPass]
  cases decodeString remaining with
  | nullopt => rfl
  | throws x => rfl
  | value k =>
    simp only [Outcome.value_bind]
    cases decode (remaining.drop k.1.value.length) with
    | nullopt => rfl
    | throws x => rfl
    | value d =>
      simp only [Outcome.value_bind]
      cases Outcome.ofExcept k.2.getString <;> rfl

/-! ## What is taken -/

/-- What is decoded is the front of the input, and at least two bytes of it. -/
theorem decode_taken {s : Bytes} {e : EncodedValue} {v : Json}
    (h : decodeBencodedValue s = .value (e, v)) :
    (∃ t, s = e.value ++ t) ∧ 2 ≤ e.value.length ∧ e.value.length ≤ s.length := by
  obtain ⟨t, ht⟩ := decode_prefix h
  have hle : e.value.length ≤ s.length := by
    rw [congrArg List.length ht, List.length_append]
    exact Nat.le_add_right _ _
  have hlen := ((explained s).value _ h).length_le
  rw [List.length_drop] at hlen
  simp only [minLength] at hlen
  exact ⟨⟨t, ht⟩, by omega, hle⟩

theorem decodeString_length_le {s : Bytes} {e : EncodedValue} {v : Json}
    (h : decodeString s = .value (e, v)) : e.value.length ≤ s.length := by
  obtain ⟨_, _, _, _, _, hd⟩ := decodeString_eq_value h
  cases hd
  exact List.length_take_le' _ _

/-- What the passes of both loops take: the key, nothing in a list, and the value. -/
structure Taken (s rest : Bytes) (key value : EncodedValue) : Prop where
  key_le : key.value.length ≤ s.length
  value_le : value.value.length ≤ (s.drop key.value.length).length
  rest_eq : rest = (s.drop key.value.length).drop value.value.length
  shorter : rest.length < s.length

theorem taken_of_decode {s : Bytes} {key e : EncodedValue} {v : Json}
    (hkey : key.value.length ≤ s.length)
    (h : decodeBencodedValue (s.drop key.value.length) = .value (e, v)) :
    Taken s ((s.drop key.value.length).drop e.value.length) key e := by
  obtain ⟨_, hmin, hle⟩ := decode_taken h
  refine ⟨hkey, hle, rfl, ?_⟩
  rw [List.length_drop] at hle ⊢
  rw [List.length_drop]
  omega

/-! ## Ends -/

/-- The bound of the recursion is never met. -/
theorem decode_ends (s : Bytes) : decodeBencodedValue s ≠ .throws .outOfFuel := by
  intro h
  have hthrows : decodeBencodedValue s = .throws (.typeError 302) :=
    ((explained s).throws _ h).thrownBy
  cases h.symm.trans hthrows

theorem listLoop_ends {s : Bytes} {fuel : Nat} (hfuel : s.length < fuel) (list : List Json) :
    listLoop decodeBencodedValue fuel s list ≠ .throws .outOfFuel := by
  intro h
  have hkey := (listLoop_explained (fun s _ => explained s) fuel list (Nat.le_refl _) hfuel).throws _ h
  cases h.symm.trans (hkey.thrownBy fuel list hfuel)

theorem dictLoop_ends {s : Bytes} {fuel : Nat} (hfuel : s.length < fuel)
    (dict : List (Bytes × Json)) :
    dictLoop decodeBencodedValue fuel s dict ≠ .throws .outOfFuel := by
  intro h
  have hkey := (dictLoop_explained (fun s _ => explained s) fuel dict (Nat.le_refl _) hfuel).throws _ h
  cases h.symm.trans (hkey.thrownBy fuel dict hfuel)

/-- What holds of the decoder on one input, and of a pass of its loops that
finds this input left. -/
structure Progress (s : Bytes) : Prop where
  recursion : decodeBencodedValue s = decodeStep decodeBencodedValue s
  bound : ∀ fuel, s.length < fuel → decodeFuel fuel s = decodeBencodedValue s
  ends : decodeBencodedValue s ≠ .throws .outOfFuel
  listEnds : ∀ fuel list, s.length < fuel →
    listLoop decodeBencodedValue fuel s list ≠ .throws .outOfFuel
  dictEnds : ∀ fuel dict, s.length < fuel →
    dictLoop decodeBencodedValue fuel s dict ≠ .throws .outOfFuel
  front : ∀ e v, decodeBencodedValue s = .value (e, v) →
    (∃ t, s = e.value ++ t) ∧ 2 ≤ e.value.length ∧ e.value.length ≤ s.length
  list : ∀ list d, listPass decodeBencodedValue s list = .value d →
    ∃ e v, decodeBencodedValue s = .value (e, v) ∧ Taken s d.1 ⟨.string, []⟩ e
  dict : ∀ dict d, dictPass decodeBencodedValue s dict = .value d →
    ∃ key k e v, decodeString s = .value (key, k) ∧
      decodeBencodedValue (s.drop key.value.length) = .value (e, v) ∧ Taken s d.1 key e

theorem decode_progress (s : Bytes) : Progress s where
  recursion := decodeBencodedValue_eq s
  bound fuel hfuel := decodeFuel_irrel fuel (s.length + 1) s hfuel (Nat.lt_succ_self _)
  ends := decode_ends s
  listEnds _ list hfuel := listLoop_ends hfuel list
  dictEnds _ dict hfuel := dictLoop_ends hfuel dict
  front _ _ h := decode_taken h
  list list d h := by
    obtain ⟨⟨e, v⟩, hd, h⟩ := Outcome.bind_eq_value.mp h
    cases h
    exact ⟨e, v, hd, @taken_of_decode s ⟨.string, []⟩ e v (Nat.zero_le _) hd⟩
  dict dict d h := by
    obtain ⟨⟨key, k⟩, hk, h⟩ := Outcome.bind_eq_value.mp h
    obtain ⟨⟨e, v⟩, hd, h⟩ := Outcome.bind_eq_value.mp h
    obtain ⟨_, _, h⟩ := Outcome.bind_eq_value.mp h
    cases h
    exact ⟨key, k, e, v, hk, hd, taken_of_decode (decodeString_length_le hk) hd⟩

/-- A key of which only the minus sign is taken. -/
example : dictPass decodeBencodedValue (ascii "-2:abe") [] =
    .value (ascii "e", [(ascii "abe", .string (ascii "ab"))]) := rfl

end Bittorrent.Bencode
