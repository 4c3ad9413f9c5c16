import Bittorrent.Bencode.Types

/-! The recursive-descent decoder. Its functions are mutually recursive in the
source; here the list and dictionary decoders take the value decoder as an
argument and `decodeFuel` ties the knot. A nested value is shorter than the
value around it, so the length of the input is fuel enough and
`decodeBencodedValue_eq` is the recursion of the source, without fuel. -/

namespace Bittorrent.Bencode

open Lib Lib.Decimal Lib.OrderedMap

/-- `encoded_value[0]`; the byte behind the last one of a `std::string` is NUL. -/
def isEncodedStringAhead (encodedValue : Bytes) : Bool := isDigit (encodedValue.headD 0)

def isEncodedIntegerAhead (encodedValue : Bytes) : Bool :=
  encodedValue.head? = some integerStartSymbol

def isEncodedListAhead (encodedValue : Bytes) : Bool := encodedValue.head? = some listStartSymbol

def isEncodedDictAhead (encodedValue : Bytes) : Bool := encodedValue.head? = some dictStartSymbol

def detectBencodedValueType (bencodedValue : Bytes) : EncodedValueType :=
  if isEncodedIntegerAhead bencodedValue then .integer
  else if isEncodedStringAhead bencodedValue then .string
  else if isEncodedListAhead bencodedValue then .list
  else if isEncodedDictAhead bencodedValue then .dictionary
  else .unknown

/-- `"5:hello"` is text, bytes that are not UTF-8 are binary. -/
def decodeString (encodedString : Bytes) : Outcome DecodedValue :=
  match encodedString.idxOf? stringDelimiterSymbol with
  | none => .nullopt
  | some delimiterIndex =>
    match toInteger (encodedString.take delimiterIndex) with
    | none => .nullopt
    | some len =>
      -- `size_t` plus `long long`: a negative length wraps around
      let lastSymbolPos := sizeT (delimiterIndex + 1 + len)
      if lastSymbolPos > encodedString.length then .nullopt
      else
        let decodedStr := (encodedString.drop (delimiterIndex + 1)).take (sizeT len)
        let encoded := ⟨.string, encodedString.take lastSymbolPos⟩
        match Json.dumpEscaped decodedStr with
        | .ok () => .value (encoded, .string decodedStr)
        | .error (.typeError _) => .value (encoded, .binary decodedStr)
        | .error e => .throws e

/-- `"i-123e"` is -123. -/
def decodeInteger (encodedValue : Bytes) : Outcome DecodedValue :=
  match encodedValue.idxOf? endSymbol with
  | none => .nullopt
  | some endIndex =>
    let encodedInteger := encodedValue.take (endIndex + 1)
    let integerStr := (encodedInteger.drop 1).dropLast
    match toInteger integerStr with
    | none => .nullopt
    | some decodedInt =>
      .value (⟨.integer, encodedInteger.take (endIndex + 1)⟩, .numberInteger decodedInt)

/-- The loop of `decode_bencoded_list`; `fuel` bounds its iterations. -/
def listLoop (decode : Bytes → Outcome DecodedValue) :
    Nat → Bytes → List Json → Outcome (Bytes × List Json)
  | 0, _, _ => .throws .outOfFuel
  | fuel + 1, remaining, list =>
    if remaining.head? = some endSymbol then .value (remaining, list)
    else do
      let (encoded, result) ← decode remaining
      listLoop decode fuel (remaining.drop encoded.value.length) (list ++ [result])

def decodeBencodedList (decode : Bytes → Outcome DecodedValue) (encodedList : Bytes) :
    Outcome DecodedValue := do
  let remaining := encodedList.drop 1
  let (remaining, list) ← listLoop decode (remaining.length + 1) remaining []
  let encodedListLen := encodedList.length - (remaining.drop 1).length
  .value (⟨.list, encodedList.take encodedListLen⟩, .array list)

/-- The loop of `decode_bencoded_dict`. A key is converted to a string only
when its value has been decoded, and an entry already in the map stays. -/
def dictLoop (decode : Bytes → Outcome DecodedValue) :
    Nat → Bytes → List (Bytes × Json) → Outcome (Bytes × List (Bytes × Json))
  | 0, _, _ => .throws .outOfFuel
  | fuel + 1, remaining, dict =>
    if remaining.head? = some endSymbol then .value (remaining, dict)
    else do
      let (encodedKey, key) ← decodeString remaining
      let remaining := remaining.drop encodedKey.value.length
      let (encodedValue, value) ← decode remaining
      let remaining := remaining.drop encodedValue.value.length
      let key ← Outcome.ofExcept key.getString
      dictLoop decode fuel remaining (insert key value dict)

def decodeBencodedDict (decode : Bytes → Outcome DecodedValue) (encodedDict : Bytes) :
    Outcome DecodedValue := do
  let remaining := encodedDict.drop 1
  let (remaining, dict) ← dictLoop decode (remaining.length + 1) remaining []
  let encodedDictLen := encodedDict.length - (remaining.drop 1).length
  .value (⟨.dictionary, encodedDict.take encodedDictLen⟩, .object dict)

/-- The body of `decode_bencoded_value`, over the decoder for nested values. -/
def decodeStep (decode : Bytes → Outcome DecodedValue) (encodedValue : Bytes) :
    Outcome DecodedValue :=
  match detectBencodedValueType encodedValue with
  | .string => decodeString encodedValue
  | .integer => decodeInteger encodedValue
  | .list => decodeBencodedList decode encodedValue
  | .dictionary => decodeBencodedDict decode encodedValue
  | .unknown => .nullopt

def decodeFuel : Nat → Bytes → Outcome DecodedValue
  | 0, _ => .throws .outOfFuel
  | fuel + 1, encodedValue => decodeStep (decodeFuel fuel) encodedValue

def decodeBencodedValue (encodedValue : Bytes) : Outcome DecodedValue :=
  decodeFuel (encodedValue.length + 1) encodedValue

/-! ## What the loops preserve -/

/-- What one iteration keeps, the loop keeps; it stops at an end mark. -/
theorem listLoop_invariant {decode : Bytes → Outcome DecodedValue} {P : Bytes → List Json → Prop}
    (hstep : ∀ remaining list encoded result, P remaining list →
      remaining.head? ≠ some endSymbol → decode remaining = .value (encoded, result) →
      P (remaining.drop encoded.value.length) (list ++ [result]))
    (fuel : Nat) : ∀ {remaining list remaining' list'}, P remaining list →
      listLoop decode fuel remaining list = .value (remaining', list') →
      P remaining' list' ∧ remaining'.head? = some endSymbol := by
  induction fuel with
  | zero =>
    intro _ _ _ _ _ h
    cases h
  | succ fuel ih =>
    intro remaining list remaining' list' hP h
    rw [listLoop] at h
    split at h
    · next hend =>
      cases h
      exact ⟨hP, hend⟩
    · next hend =>
      obtain ⟨⟨encoded, result⟩, hd, h⟩ := Outcome.bind_eq_value.mp h
      exact ih (hstep _ _ _ _ hP hend hd) h

theorem dictLoop_invariant {decode : Bytes → Outcome DecodedValue}
    {P : Bytes → List (Bytes × Json) → Prop}
    (hstep : ∀ remaining dict encodedKey key keyString encodedValue value, P remaining dict →
      remaining.head? ≠ some endSymbol → decodeString remaining = .value (encodedKey, key) →
      decode (remaining.drop encodedKey.value.length) = .value (encodedValue, value) →
      key.getString = .ok keyString →
      P ((remaining.drop encodedKey.value.length).drop encodedValue.value.length)
        (insert keyString value dict))
    (fuel : Nat) : ∀ {remaining dict remaining' dict'}, P remaining dict →
      dictLoop decode fuel remaining dict = .value (remaining', dict') →
      P remaining' dict' ∧ remaining'.head? = some endSymbol := by
  induction fuel with
  | zero =>
    intro _ _ _ _ _ h
    cases h
  | succ fuel ih =>
    intro remaining dict remaining' dict' hP h
    rw [dictLoop] at h
    split at h
    · next hend =>
      cases h
      exact ⟨hP, hend⟩
    · next hend =>
      obtain ⟨⟨encodedKey, key⟩, hk, h⟩ := Outcome.bind_eq_value.mp h
      obtain ⟨⟨encodedValue, value⟩, hv, h⟩ := Outcome.bind_eq_value.mp h
      obtain ⟨keyString, hs, h⟩ := Outcome.bind_eq_value.mp h
      exact ih (hstep _ _ _ _ _ _ _ hP hend hk hv (Outcome.ofExcept_eq_value.mp hs)) h

/-! ## The recursion without fuel -/

theorem listLoop_congr {f g : Bytes → Outcome DecodedValue} {m : Nat}
    (h : ∀ r, r.length ≤ m → f r = g r) (fuel : Nat) : ∀ (remaining : Bytes) (list : List Json),
      remaining.length ≤ m → listLoop f fuel remaining list = listLoop g fuel remaining list := by
  induction fuel with
  | zero => intros; rfl
  | succ fuel ih =>
    intro remaining list hm
    simp only [listLoop, h remaining hm]
    split
    · rfl
    · congr 1
      funext ⟨encoded, result⟩
      exact ih _ _ (by simp only [List.length_drop]; omega)

theorem dictLoop_congr {f g : Bytes → Outcome DecodedValue} {m : Nat}
    (h : ∀ r, r.length ≤ m → f r = g r) (fuel : Nat) :
    ∀ (remaining : Bytes) (dict : List (Bytes × Json)),
      remaining.length ≤ m → dictLoop f fuel remaining dict = dictLoop g fuel remaining dict := by
  induction fuel with
  | zero => intros; rfl
  | succ fuel ih =>
    intro remaining dict hm
    simp only [dictLoop]
    split
    · rfl
    · congr 1
      funext ⟨encodedKey, key⟩
      have hk : (remaining.drop encodedKey.value.length).length ≤ m := by
        simp only [List.length_drop]
        omega
      dsimp only
      rw [h _ hk]
      congr 1
      funext ⟨encodedValue, value⟩
      congr 1
      funext key
      exact ih _ _ (by simp only [List.length_drop] at hk ⊢; omega)

/-- The body looks only at inputs shorter than its own. -/
theorem decodeStep_congr {f g : Bytes → Outcome DecodedValue} {s : Bytes}
    (h : ∀ r, r.length < s.length → f r = g r) : decodeStep f s = decodeStep g s := by
  cases s with
  | nil => rfl
  | cons c s =>
    have h' : ∀ r, r.length ≤ s.length → f r = g r := fun r hr => h r (by simp; omega)
    unfold decodeStep
    split
    · rfl
    · rfl
    · simp only [decodeBencodedList, List.drop_succ_cons, List.drop_zero]
      rw [listLoop_congr h' _ _ _ (Nat.le_refl _)]
    · simp only [decodeBencodedDict, List.drop_succ_cons, List.drop_zero]
      rw [dictLoop_congr h' _ _ _ (Nat.le_refl _)]
    · rfl

theorem decodeFuel_irrel : ∀ (n m : Nat) (s : Bytes), s.length < n → s.length < m →
    decodeFuel n s = decodeFuel m s
  | 0, _, _, h, _ => absurd h (by omega)
  | _, 0, _, _, h => absurd h (by omega)
  | n + 1, m + 1, _, hn, hm => decodeStep_congr fun r hr =>
      decodeFuel_irrel n m r (by omega) (by omega)

/-- `decode_bencoded_value` calls itself through the list and dictionary decoders. -/
theorem decodeBencodedValue_eq (s : Bytes) :
    decodeBencodedValue s = decodeStep decodeBencodedValue s :=
  decodeStep_congr fun r hr => decodeFuel_irrel _ _ r hr (Nat.lt_succ_self _)

example : (decodeBencodedValue [105, 45, 49, 50, 51, 101]).isValue = true := by decide

end Bittorrent.Bencode
