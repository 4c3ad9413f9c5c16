import Bittorrent.Bencode.Progress

/-! Where the decoder looks. The decoders are given again with a note of every
access to a view; without the notes they are the decoders (`outcome_decode`).
An access leaves its view exactly when the input ends where a value should begin
(`accesses_inside_iff`): the test for a string indexes the view it is given, and
neither the list loop nor the dictionary loop asks whether anything is left. -/

namespace Bittorrent.Bencode

open Lib Lib.OrderedMap Lib.Bencode

/-! ## Accesses -/

inductive Operation where
  | index
  | removePrefix
  | removeSuffix
  | substr
  | iterator
  deriving DecidableEq

/-- An operation on a view of the length. -/
structure Access where
  operation : Operation
  offset : Nat
  length : Nat
  deriving DecidableEq

/-- An index is a place in the view, every other offset may be its end. -/
def Access.Inside (access : Access) : Prop :=
  if access.operation = .index then access.offset < access.length
  else access.offset ≤ access.length

/-- A result and the accesses on the way to it. -/
structure Traced (α : Type) where
  accesses : List Access
  outcome : Outcome α

namespace Traced

variable {α β : Type}

def ofOutcome (x : Outcome α) : Traced α := ⟨[], x⟩

def access (operation : Operation) (offset : Nat) (view : Bytes) : Traced Unit :=
  ⟨[⟨operation, offset, view.length⟩], .value ()⟩

/-- What comes after a failure is not reached. -/
instance instMonad : Monad Traced where
  pure a := ofOutcome (.value a)
  bind x f :=
    match x.outcome with
    | .value a => ⟨x.accesses ++ (f a).accesses, (f a).outcome⟩
    | .nullopt => ⟨x.accesses, .nullopt⟩
    | .throws e => ⟨x.accesses, .throws e⟩

/-- Some access is not inside the view it is applied to. -/
def Outside (x : Traced α) : Prop := ∃ access ∈ x.accesses, ¬ access.Inside

@[simp] theorem outcome_ofOutcome (x : Outcome α) : (ofOutcome x).outcome = x := rfl

@[simp] theorem outcome_pure (a : α) : (pure a : Traced α).outcome = .value a := rfl

@[simp] theorem outcome_access (operation : Operation) (offset : Nat) (view : Bytes) :
    (access operation offset view).outcome = .value () := rfl

@[simp] theorem outcome_bind (x : Traced α) (f : α → Traced β) :
    (x >>= f).outcome = x.outcome >>= fun a => (f a).outcome := by
  obtain ⟨accesses, outcome⟩ := x
  cases outcome <;> rfl

@[simp] theorem not_outside_ofOutcome (x : Outcome α) : ¬ (ofOutcome x).Outside := by
  rintro ⟨access, h, _⟩
  cases h

@[simp] theorem not_outside_pure (a : α) : ¬ (pure a : Traced α).Outside :=
  not_outside_ofOutcome _

theorem not_outside_access {operation : Operation} {offset : Nat} {view : Bytes}
    (h : Access.Inside ⟨operation, offset, view.length⟩) :
    ¬ (access operation offset view).Outside := by
  rintro ⟨a, ha, hout⟩
  rw [List.mem_singleton.mp ha] at hout
  exact hout h

theorem outside_bind {x : Traced α} {f : α → Traced β} :
    (x >>= f).Outside ↔ x.Outside ∨ ∃ a, x.outcome = .value a ∧ (f a).Outside := by
  obtain ⟨accesses, outcome⟩ := x
  cases outcome with
  | value a =>
    have hbind : (⟨accesses, .value a⟩ : Traced α) >>= f =
      ⟨accesses ++ (f a).accesses, (f a).outcome⟩ := rfl
    rw [hbind]
    constructor
    · rintro ⟨access, ha, hout⟩
      rcases List.mem_append.mp ha with ha | ha
      · exact .inl ⟨access, ha, hout⟩
      · exact .inr ⟨a, rfl, access, ha, hout⟩
    · rintro (⟨access, ha, hout⟩ | ⟨b, hb, access, ha, hout⟩)
      · exact ⟨access, List.mem_append_left _ ha, hout⟩
      · cases hb
        exact ⟨access, List.mem_append_right _ ha, hout⟩
  | nullopt =>
    refine ⟨.inl, fun h => h.resolve_right ?_⟩
    rintro ⟨a, ha, _⟩
    cases ha
  | throws e =>
    refine ⟨.inl, fun h => h.resolve_right ?_⟩
    rintro ⟨a, ha, _⟩
    cases ha

/-- What follows an access that is inside its view. -/
theorem outside_access_bind {operation : Operation} {offset : Nat} {view : Bytes}
    {f : Unit → Traced β} (h : Access.Inside ⟨operation, offset, view.length⟩) :
    (access operation offset view >>= f).Outside ↔ (f ()).Outside := by
  rw [outside_bind]
  constructor
  · rintro (hout | ⟨_, _, hout⟩)
    · exact absurd hout (not_outside_access h)
    · exact hout
  · exact fun hout => .inr ⟨(), rfl, hout⟩

/-! ## The decoders with their accesses -/

def isEncodedStringAhead (encodedValue : Bytes) : Traced Bool := do
  access .index 0 encodedValue
  pure (Bencode.isEncodedStringAhead encodedValue)

def detectBencodedValueType (bencodedValue : Bytes) : Traced EncodedValueType :=
  if isEncodedIntegerAhead bencodedValue then pure .integer
  else do
    if ← isEncodedStringAhead bencodedValue then pure .string
    else if isEncodedListAhead bencodedValue then pure .list
    else if isEncodedDictAhead bencodedValue then pure .dictionary
    else pure .unknown

def decodeString (encodedString : Bytes) : Traced DecodedValue :=
  match encodedString.idxOf? stringDelimiterSymbol with
  | none => ofOutcome .nullopt
  | some delimiterIndex => do
    access .substr 0 encodedString
    match toInteger (encodedString.take delimiterIndex) with
    | none => ofOutcome .nullopt
    | some len =>
      let lastSymbolPos := sizeT (delimiterIndex + 1 + len)
      if lastSymbolPos > encodedString.length then ofOutcome .nullopt
      else do
        access .substr (delimiterIndex + 1) encodedString
        let decodedStr := (encodedString.drop (delimiterIndex + 1)).take (sizeT len)
        match Json.dumpEscaped decodedStr with
        | .ok () => do
          access .iterator lastSymbolPos encodedString
          pure (⟨.string, encodedString.take lastSymbolPos⟩, .string decodedStr)
        | .error (.typeError _) => do
          access .iterator lastSymbolPos encodedString
          pure (⟨.string, encodedString.take lastSymbolPos⟩, .binary decodedStr)
        | .error e => ofOutcome (.throws e)

def decodeInteger (encodedValue : Bytes) : Traced DecodedValue :=
  match encodedValue.idxOf? endSymbol with
  | none => ofOutcome .nullopt
  | some endIndex => do
    access .iterator (endIndex + 1) encodedValue
    let encodedInteger := encodedValue.take (endIndex + 1)
    access .removePrefix 1 encodedInteger
    let integerStr := encodedInteger.drop 1
    access .removeSuffix 1 integerStr
    match toInteger integerStr.dropLast with
    | none => ofOutcome .nullopt
    | some decodedInt => do
      access .iterator (endIndex + 1) encodedInteger
      pure (⟨.integer, encodedInteger.take (endIndex + 1)⟩, .numberInteger decodedInt)

def listLoop (decode : Bytes → Traced DecodedValue) :
    Nat → Bytes → List Json → Traced (Bytes × List Json)
  | 0, _, _ => ofOutcome (.throws .outOfFuel)
  | fuel + 1, remaining, list =>
    if remaining.head? = some endSymbol then pure (remaining, list)
    else do
      let (encoded, result) ← decode remaining
      access .removePrefix encoded.value.length remaining
      listLoop decode fuel (remaining.drop encoded.value.length) (list ++ [result])

def decodeBencodedList (decode : Bytes → Traced DecodedValue) (encodedList : Bytes) :
    Traced DecodedValue := do
  access .removePrefix 1 encodedList
  let remaining := encodedList.drop 1
  let (remaining, list) ← listLoop decode (remaining.length + 1) remaining []
  access .removePrefix 1 remaining
  let encodedListLen := encodedList.length - (remaining.drop 1).length
  access .iterator encodedListLen encodedList
  pure (⟨.list, encodedList.take encodedListLen⟩, .array list)

def dictLoop (decode : Bytes → Traced DecodedValue) :
    Nat → Bytes → List (Bytes × Json) → Traced (Bytes × List (Bytes × Json))
  | 0, _, _ => ofOutcome (.throws .outOfFuel)
  | fuel + 1, remaining, dict =>
    if remaining.head? = some endSymbol then pure (remaining, dict)
    else do
      let (encodedKey, key) ← decodeString remaining
      access .removePrefix encodedKey.value.length remaining
      let remaining := remaining.drop encodedKey.value.length
      let (encodedValue, value) ← decode remaining
      access .removePrefix encodedValue.value.length remaining
      let remaining := remaining.drop encodedValue.value.length
      let key ← ofOutcome (Outcome.ofExcept key.getString)
      dictLoop decode fuel remaining (insert key value dict)

def decodeBencodedDict (decode : Bytes → Traced DecodedValue) (encodedDict : Bytes) :
    Traced DecodedValue := do
  access .removePrefix 1 encodedDict
  let remaining := encodedDict.drop 1
  let (remaining, dict) ← dictLoop decode (remaining.length + 1) remaining []
  access .removePrefix 1 remaining
  let encodedDictLen := encodedDict.length - (remaining.drop 1).length
  access .iterator encodedDictLen encodedDict
  pure (⟨.dictionary, encodedDict.take encodedDictLen⟩, .object dict)

/-- The branches of `decode_bencoded_value`. -/
def decodeAs (decode : Bytes → Traced DecodedValue) (valueTypeAhead : EncodedValueType)
    (encodedValue : Bytes) : Traced DecodedValue :=
  match valueTypeAhead with
  | .string => decodeString encodedValue
  | .integer => decodeInteger encodedValue
  | .list => decodeBencodedList decode encodedValue
  | .dictionary => decodeBencodedDict decode encodedValue
  | .unknown => ofOutcome .nullopt

def decodeStep (decode : Bytes → Traced DecodedValue) (encodedValue : Bytes) :
    Traced DecodedValue := do
  let valueTypeAhead ← detectBencodedValueType encodedValue
  decodeAs decode valueTypeAhead encodedValue

def decodeFuel : Nat → Bytes → Traced DecodedValue
  | 0, _ => ofOutcome (.throws .outOfFuel)
  | fuel + 1, encodedValue => decodeStep (decodeFuel fuel) encodedValue

def decodeBencodedValue (encodedValue : Bytes) : Traced DecodedValue :=
  decodeFuel (encodedValue.length + 1) encodedValue

/-! ## Without the notes -/

theorem outcome_detect (s : Bytes) :
    (detectBencodedValueType s).outcome = .value (Bencode.detectBencodedValueType s) := by
  unfold detectBencodedValueType Bencode.detectBencodedValueType isEncodedStringAhead
  split
  · rfl
  · simp only [outcome_bind, outcome_access, outcome_pure, Outcome.value_bind]
    split_ifs <;> rfl

theorem outcome_decodeString (s : Bytes) : (decodeString s).outcome = Bencode.decodeString s := by
  unfold decodeString Bencode.decodeString
  cases s.idxOf? stringDelimiterSymbol with
  | none => rfl
  | some i =>
    simp only [outcome_bind, outcome_access, Outcome.value_bind]
    cases toInteger (s.take i) with
    | none => rfl
    | some len =>
      dsimp only
      split
      · rfl
      · simp only [outcome_bind, outcome_access, Outcome.value_bind]
        cases Json.dumpEscaped ((s.drop (i + 1)).take (sizeT len)) with
        | ok u => rfl
        | error e => cases e <;> rfl

theorem outcome_decodeInteger (s : Bytes) :
    (decodeInteger s).outcome = Bencode.decodeInteger s := by
  unfold decodeInteger Bencode.decodeInteger
  cases s.idxOf? endSymbol with
  | none => rfl
  | some i =>
    simp only [outcome_bind, outcome_access, Outcome.value_bind]
    cases toInteger ((s.take (i + 1)).drop 1).dropLast <;> rfl

theorem outcome_listLoop {f : Bytes → Traced DecodedValue} {g : Bytes → Outcome DecodedValue}
    (h : ∀ s, (f s).outcome = g s) (fuel : Nat) : ∀ (s : Bytes) (list : List Json),
      (listLoop f fuel s list).outcome = Bencode.listLoop g fuel s list := by
  induction fuel with
  | zero => intros; rfl
  | succ fuel ih =>
    intro s list
    rw [listLoop, Bencode.listLoop]
    split
    · rfl
    · simp only [outcome_bind, outcome_access, Outcome.value_bind, h, ih]

theorem outcome_dictLoop {f : Bytes → Traced DecodedValue} {g : Bytes → Outcome DecodedValue}
    (h : ∀ s, (f s).outcome = g s) (fuel : Nat) : ∀ (s : Bytes) (dict : List (Bytes × Json)),
      (dictLoop f fuel s dict).outcome = Bencode.dictLoop g fuel s dict := by
  induction fuel with
  | zero => intros; rfl
  | succ fuel ih =>
    intro s dict
    rw [dictLoop, Bencode.dictLoop]
    split
    · rfl
    · simp only [outcome_bind, outcome_access, outcome_ofOutcome, Outcome.value_bind,
        outcome_decodeString, h, ih]

theorem outcome_decodeStep {f : Bytes → Traced DecodedValue} {g : Bytes → Outcome DecodedValue}
    (h : ∀ s, (f s).outcome = g s) (s : Bytes) :
    (decodeStep f s).outcome = Bencode.decodeStep g s := by
  rw [decodeStep, Bencode.decodeStep, outcome_bind, outcome_detect, Outcome.value_bind]
  cases Bencode.detectBencodedValueType s with
  | string => exact outcome_decodeString s
  | integer => exact outcome_decodeInteger s
  | list =>
    simp only [decodeAs, decodeBencodedList, Bencode.decodeBencodedList, outcome_bind,
      outcome_access, outcome_pure, Outcome.value_bind, outcome_listLoop h]
  | dictionary =>
    simp only [decodeAs, decodeBencodedDict, Bencode.decodeBencodedDict, outcome_bind,
      outcome_access, outcome_pure, Outcome.value_bind, outcome_dictLoop h]
  | unknown => rfl

theorem outcome_decodeFuel (fuel : Nat) :
    ∀ s : Bytes, (decodeFuel fuel s).outcome = Bencode.decodeFuel fuel s := by
  induction fuel with
  | zero => intros; rfl
  | succ fuel ih => exact outcome_decodeStep ih

theorem outcome_decode (s : Bytes) :
    (decodeBencodedValue s).outcome = Bencode.decodeBencodedValue s := outcome_decodeFuel _ s

end Traced

/-! ## Where an access leaves its view -/

/-- Reading from the front comes to the end of the input where a value should
begin. A key that should begin there is searched for a colon, which is no access
outside. -/
inductive RunsOut : Place → Bytes → Prop where
  | empty : RunsOut .value []
  | list {s} : RunsOut .items s → RunsOut .value (108 :: s)
  | dict {s} : RunsOut .entries s → RunsOut .value (100 :: s)
  | first {s} : RunsOut .value s → RunsOut .items s
  | next {s s'} : Reads .value s s' → RunsOut .items s' → RunsOut .items s
  | inside {s key s'} : KeyAt s key s' → RunsOut .value s' → RunsOut .entries s
  | after {s key s' s''} : KeyAt s key s' → Utf8.Valid key → Reads .value s' s'' →
      RunsOut .entries s'' → RunsOut .entries s

/-- An input that has its end mark does not run out before it. -/
theorem RunsOut.not_end {place : Place} {s : Bytes} (h : RunsOut place s) :
    s.head? ≠ some endSymbol := by
  cases h with
  | empty => exact fun h => by cases h
  | list _ => exact (by decide : (some 108 : Option UInt8) ≠ some endSymbol)
  | dict _ => exact (by decide : (some 100 : Option UInt8) ≠ some endSymbol)
  | first hs =>
    cases hs with
    | empty => exact fun h => by cases h
    | list _ => exact (by decide : (some 108 : Option UInt8) ≠ some endSymbol)
    | dict _ => exact (by decide : (some 100 : Option UInt8) ≠ some endSymbol)
  | next hv _ => exact hv.not_end
  | inside hk _ => exact hk.not_end
  | after hk _ _ _ => exact hk.not_end

namespace Traced

theorem inside_of_le {operation : Operation} {offset length : Nat} (hop : operation ≠ .index)
    (h : offset ≤ length) : Access.Inside ⟨operation, offset, length⟩ := by
  rw [Access.Inside, if_neg hop]
  exact h

/-- Only the test for a string indexes, and it does so before anything is known of the view. -/
theorem detect_outside_iff (s : Bytes) : (detectBencodedValueType s).Outside ↔ s = [] := by
  unfold detectBencodedValueType isEncodedStringAhead
  cases s with
  | nil =>
    refine iff_of_true ?_ rfl
    rw [if_neg (fun h => by cases h), outside_bind]
    exact .inl ⟨⟨.index, 0, 0⟩, List.mem_singleton_self _, fun h => Nat.lt_irrefl 0 h⟩
  | cons c s =>
    refine iff_of_false ?_ (List.cons_ne_nil c s)
    have hindex : Access.Inside ⟨.index, 0, (c :: s).length⟩ := Nat.succ_pos _
    by_cases hi : isEncodedIntegerAhead (c :: s)
    · rw [if_pos hi]
      exact not_outside_pure _
    · rw [if_neg hi, outside_bind, outside_access_bind hindex]
      rintro (h | ⟨b, _, h⟩)
      · exact not_outside_pure _ h
      · split_ifs at h
        all_goals exact not_outside_pure _ h

theorem decodeString_inside (s : Bytes) : ¬ (decodeString s).Outside := by
  unfold decodeString
  cases hi : s.idxOf? stringDelimiterSymbol with
  | none => exact not_outside_ofOutcome _
  | some i =>
    have hlt : i + 1 ≤ s.length := by
      obtain ⟨h, _⟩ := List.idxOf?_eq_some_iff.mp hi
      exact h
    dsimp only
    rw [outside_access_bind (inside_of_le (fun h => by cases h) (Nat.zero_le _))]
    cases toInteger (s.take i) with
    | none => exact not_outside_ofOutcome _
    | some len =>
      dsimp only
      split_ifs with hpos
      · exact not_outside_ofOutcome _
      · have hpos := Nat.le_of_not_lt hpos
        rw [outside_access_bind (inside_of_le (fun h => by cases h) hlt)]
        cases Json.dumpEscaped ((s.drop (i + 1)).take (sizeT len)) with
        | ok u =>
          dsimp only
          rw [outside_access_bind (inside_of_le (fun h => by cases h) hpos)]
          exact not_outside_pure _
        | error e =>
          cases e with
          | typeError id =>
            dsimp only
            rw [outside_access_bind (inside_of_le (fun h => by cases h) hpos)]
            exact not_outside_pure _
          | _ => exact not_outside_ofOutcome _

/-- The start mark is not the end mark, so there is something to remove from both sides. -/
theorem decodeInteger_inside {s : Bytes} (hs : s.head? = some integerStartSymbol) :
    ¬ (decodeInteger s).Outside := by
  unfold decodeInteger
  cases hi : s.idxOf? endSymbol with
  | none => exact not_outside_ofOutcome _
  | some i =>
    obtain ⟨hlt, hend, _⟩ := List.idxOf?_eq_some_iff.mp hi
    have hpos : 0 < i := by
      obtain ⟨t, rfl⟩ := head?_eq_cons hs
      cases i with
      | zero => exact absurd hend (by decide : integerStartSymbol ≠ endSymbol)
      | succ i => exact Nat.succ_pos i
    dsimp only
    rw [outside_access_bind (inside_of_le (fun h => by cases h) hlt),
      outside_access_bind (inside_of_le (fun h => by cases h) (by simp; omega)),
      outside_access_bind (inside_of_le (fun h => by cases h) (by simp; omega))]
    cases toInteger ((s.take (i + 1)).drop 1).dropLast with
    | none => exact not_outside_ofOutcome _
    | some n =>
      dsimp only
      rw [outside_access_bind (inside_of_le (fun h => by cases h) (by simp; omega))]
      exact not_outside_pure _

/-- What is read, said of the decoder with its accesses. -/
theorem reads_iff {n : Nat} {s r : Bytes} (hn : s.length < n) : Reads .value s r ↔
    ∃ e v, (decodeFuel n s).outcome = .value (e, v) ∧ s.drop e.value.length = r := by
  have hfuel : (decodeFuel n s).outcome = Bencode.decodeBencodedValue s :=
    (outcome_decodeFuel n s).trans (decodeFuel_irrel n (s.length + 1) s hn (Nat.lt_succ_self _))
  rw [hfuel]
  constructor
  · exact fun h => h.readBy
  · rintro ⟨e, v, hd, rfl⟩
    exact (explained s).value _ hd

theorem value_length_le {n : Nat} {s : Bytes} {e : EncodedValue} {v : Json} (hn : s.length < n)
    (h : (decodeFuel n s).outcome = .value (e, v)) : e.value.length ≤ s.length := by
  rw [outcome_decodeFuel, decodeFuel_irrel n (s.length + 1) s hn (Nat.lt_succ_self _)] at h
  exact (decode_taken h).2.2

/-- A pass of the list loop. -/
theorem listLoop_outside_pass {n fuel : Nat} {s : Bytes} {list : List Json}
    (hend : s.head? ≠ some endSymbol) (hn : s.length < n) :
    (listLoop (decodeFuel n) (fuel + 1) s list).Outside ↔ (decodeFuel n s).Outside ∨
      ∃ e v, (decodeFuel n s).outcome = .value (e, v) ∧
        (listLoop (decodeFuel n) fuel (s.drop e.value.length) (list ++ [v])).Outside := by
  rw [listLoop, if_neg hend, outside_bind, Prod.exists]
  refine or_congr_right (exists_congr fun e => exists_congr fun v => and_congr_right fun hd => ?_)
  rw [outside_access_bind (inside_of_le (fun h => by cases h) (value_length_le hn hd))]

theorem listLoop_outside_iff {n : Nat}
    (hall : ∀ s, s.length < n → ((decodeFuel n s).Outside ↔ RunsOut .value s)) (fuel : Nat) :
    ∀ (s : Bytes) (list : List Json), s.length < n → s.length < fuel →
      ((listLoop (decodeFuel n) fuel s list).Outside ↔ RunsOut .items s) := by
  induction fuel with
  | zero => exact fun s list _ hfuel => absurd hfuel (Nat.not_lt_zero _)
  | succ fuel ih =>
    intro s list hn hfuel
    by_cases hend : s.head? = some endSymbol
    · rw [listLoop, if_pos hend]
      exact iff_of_false (not_outside_pure _) fun h => h.not_end hend
    · rw [listLoop_outside_pass hend hn, hall s hn]
      have hrest : ∀ (e : EncodedValue) (v : Json), Reads .value s (s.drop e.value.length) →
          ((listLoop (decodeFuel n) fuel (s.drop e.value.length) (list ++ [v])).Outside ↔
            RunsOut .items (s.drop e.value.length)) := by
        intro e v hread
        have hlen := hread.length_le
        simp only [minLength] at hlen
        exact ih _ _ (by omega) (by omega)
      constructor
      · rintro (h | ⟨e, v, hd, h⟩)
        · exact .first h
        · have hread := (reads_iff hn).mpr ⟨e, v, hd, rfl⟩
          exact .next hread ((hrest e v hread).mp h)
      · intro h
        cases h with
        | first hs => exact .inl hs
        | next hread hs =>
          obtain ⟨e, v, hd, rfl⟩ := (reads_iff hn).mp hread
          exact .inr ⟨e, v, hd, (hrest e v hread).mpr hs⟩

/-- A pass of the dictionary loop. The key is decoded inside its view. -/
theorem dictLoop_outside_pass {n fuel : Nat} {s : Bytes} {dict : List (Bytes × Json)}
    (hend : s.head? ≠ some endSymbol) (hn : s.length < n) :
    (dictLoop (decodeFuel n) (fuel + 1) s dict).Outside ↔
      ∃ ek k, Bencode.decodeString s = .value (ek, k) ∧
        ((decodeFuel n (s.drop ek.value.length)).Outside ∨
          ∃ e v, (decodeFuel n (s.drop ek.value.length)).outcome = .value (e, v) ∧
            ∃ key, Outcome.ofExcept k.getString = .value key ∧
              (dictLoop (decodeFuel n) fuel ((s.drop ek.value.length).drop e.value.length)
                (insert key v dict)).Outside) := by
  rw [dictLoop, if_neg hend, outside_bind, outcome_decodeString, or_iff_right (decodeString_inside s),
    Prod.exists]
  refine exists_congr fun ek => exists_congr fun k => and_congr_right fun hk => ?_
  have hkn : (s.drop ek.value.length).length < n :=
    Nat.lt_of_le_of_lt (List.drop_sublist _ _).length_le hn
  rw [outside_access_bind (inside_of_le (fun h => by cases h) (decodeString_length_le hk)),
    outside_bind, Prod.exists]
  refine or_congr_right (exists_congr fun e => exists_congr fun v => and_congr_right fun hd => ?_)
  rw [outside_access_bind (inside_of_le (fun h => by cases h) (value_length_le hkn hd)),
    outside_bind, outcome_ofOutcome]
  exact or_iff_right (not_outside_ofOutcome _)

theorem dictLoop_outside_iff {n : Nat}
    (hall : ∀ s, s.length < n → ((decodeFuel n s).Outside ↔ RunsOut .value s)) (fuel : Nat) :
    ∀ (s : Bytes) (dict : List (Bytes × Json)), s.length < n → s.length < fuel →
      ((dictLoop (decodeFuel n) fuel s dict).Outside ↔ RunsOut .entries s) := by
  induction fuel with
  | zero => exact fun s dict _ hfuel => absurd hfuel (Nat.not_lt_zero _)
  | succ fuel ih =>
    intro s dict hn hfuel
    by_cases hend : s.head? = some endSymbol
    · rw [dictLoop, if_pos hend]
      exact iff_of_false (not_outside_pure _) fun h => h.not_end hend
    · rw [dictLoop_outside_pass hend hn]
      have hrest : ∀ {key rest rest'} dict', KeyAt s key rest → Reads .value rest rest' →
          ((dictLoop (decodeFuel n) fuel rest' dict').Outside ↔ RunsOut .entries rest') := by
        intro key rest rest' dict' hkey hread
        have hklen := hkey.length_le
        have hlen := hread.length_le
        simp only [minLength] at hlen
        exact ih _ _ (by omega) (by omega)
      constructor
      · rintro ⟨ek, k, hk, h⟩
        obtain ⟨key, hkey, rfl⟩ := KeyAt.of_decodeString hk
        have hkn := Nat.lt_of_le_of_lt hkey.length_le hn
        rcases h with h | ⟨e, v, hd, key', hconv, h⟩
        · exact .inside hkey ((hall _ hkn).mp h)
        · have hread := (reads_iff hkn).mpr ⟨e, v, hd, rfl⟩
          have hvalid := (getString_denoteString_ends key).value key' hconv
          exact .after hkey hvalid.2 hread ((hrest _ hkey hread).mp h)
      · intro h
        cases h with
        | inside hkey hs =>
          obtain ⟨ek, hk, rfl⟩ := hkey.decodeString
          have hkn := Nat.lt_of_le_of_lt hkey.length_le hn
          exact ⟨ek, _, hk, .inl ((hall _ hkn).mpr hs)⟩
        | after hkey hvalid hread hs =>
          obtain ⟨ek, hk, rfl⟩ := hkey.decodeString
          have hkn := Nat.lt_of_le_of_lt hkey.length_le hn
          obtain ⟨e, v, hd, rfl⟩ := (reads_iff hkn).mp hread
          exact ⟨ek, _, hk, .inr ⟨e, v, hd, _, getString_denoteString_valid hvalid,
            (hrest _ hkey hread).mpr hs⟩⟩

/-- What the list decoder looks at outside, its loop looks at outside: what
remains behind the loop begins with an end mark. -/
theorem decodeBencodedList_outside_iff {decode : Bytes → Traced DecodedValue}
    {g : Bytes → Outcome DecodedValue} (hg : ∀ s, (decode s).outcome = g s) (c : UInt8) (t : Bytes) :
    (decodeBencodedList decode (c :: t)).Outside ↔
      (listLoop decode (t.length + 1) t []).Outside := by
  unfold decodeBencodedList
  rw [outside_access_bind (inside_of_le (fun h => by cases h) (Nat.succ_pos _))]
  rw [outside_bind]
  refine or_iff_left ?_
  rintro ⟨⟨remaining, list⟩, hd, h⟩
  rw [outcome_listLoop hg] at hd
  obtain ⟨_, hend⟩ := listLoop_invariant (P := fun _ _ => True) (fun _ _ _ _ _ _ _ => trivial) _
    trivial hd
  obtain ⟨r, rfl⟩ := head?_eq_cons hend
  rw [outside_access_bind (inside_of_le (fun h => by cases h) (Nat.succ_pos _)),
    outside_access_bind (inside_of_le (fun h => by cases h) (Nat.sub_le _ _))] at h
  exact not_outside_pure _ h

theorem decodeBencodedDict_outside_iff {decode : Bytes → Traced DecodedValue}
    {g : Bytes → Outcome DecodedValue} (hg : ∀ s, (decode s).outcome = g s) (c : UInt8) (t : Bytes) :
    (decodeBencodedDict decode (c :: t)).Outside ↔
      (dictLoop decode (t.length + 1) t []).Outside := by
  unfold decodeBencodedDict
  rw [outside_access_bind (inside_of_le (fun h => by cases h) (Nat.succ_pos _))]
  rw [outside_bind]
  refine or_iff_left ?_
  rintro ⟨⟨remaining, dict⟩, hd, h⟩
  rw [outcome_dictLoop hg] at hd
  obtain ⟨_, hend⟩ := dictLoop_invariant (P := fun _ _ => True)
    (fun _ _ _ _ _ _ _ _ _ _ _ _ => trivial) _ trivial hd
  obtain ⟨r, rfl⟩ := head?_eq_cons hend
  rw [outside_access_bind (inside_of_le (fun h => by cases h) (Nat.succ_pos _)),
    outside_access_bind (inside_of_le (fun h => by cases h) (Nat.sub_le _ _))] at h
  exact not_outside_pure _ h

/-- The branch is the one the first byte asks for. -/
theorem decodeAs_outside_iff {n : Nat}
    (hall : ∀ s, s.length < n → ((decodeFuel n s).Outside ↔ RunsOut .value s)) {c : UInt8} {t : Bytes}
    (hn : t.length < n) :
    (decodeAs (decodeFuel n) (Bencode.detectBencodedValueType (c :: t)) (c :: t)).Outside ↔
      RunsOut .value (c :: t) := by
  have hlist := listLoop_outside_iff hall (t.length + 1) t [] hn (Nat.lt_succ_self _)
  have hdict := dictLoop_outside_iff hall (t.length + 1) t [] hn (Nat.lt_succ_self _)
  rw [← decodeBencodedList_outside_iff (outcome_decodeFuel n) c] at hlist
  rw [← decodeBencodedDict_outside_iff (outcome_decodeFuel n) c] at hdict
  by_cases hl : c = listStartSymbol
  · subst hl
    refine hlist.trans ⟨.list, fun h => ?_⟩
    cases h with
    | list hs => exact hs
  · by_cases hd : c = dictStartSymbol
    · subst hd
      refine hdict.trans ⟨.dict, fun h => ?_⟩
      cases h with
      | dict hs => exact hs
    · refine iff_of_false ?_ fun h => ?_
      · have hnl : isEncodedListAhead (c :: t) = false := by simp [isEncodedListAhead, hl]
        have hnd : isEncodedDictAhead (c :: t) = false := by simp [isEncodedDictAhead, hd]
        unfold Bencode.detectBencodedValueType
        rw [hnl, hnd, if_neg Bool.false_ne_true, if_neg Bool.false_ne_true]
        split_ifs with hi
        · exact decodeInteger_inside (of_decide_eq_true hi)
        · exact decodeString_inside _
        · exact not_outside_ofOutcome _
      · cases h with
        | list _ => exact hl rfl
        | dict _ => exact hd rfl

/-- By length: a nested value is decoded with less fuel. -/
theorem outside_iff (n : Nat) :
    ∀ s : Bytes, s.length < n → ((decodeFuel n s).Outside ↔ RunsOut .value s) := by
  induction n with
  | zero => exact fun s h => absurd h (Nat.not_lt_zero _)
  | succ n ih =>
    intro s hn
    rw [decodeFuel, decodeStep, outside_bind, outcome_detect, detect_outside_iff]
    cases s with
    | nil => exact iff_of_true (.inl rfl) .empty
    | cons c t =>
      rw [← decodeAs_outside_iff ih (Nat.lt_of_succ_lt_succ hn)]
      simp

end Traced

/-- Every access is inside its view exactly when the input does not run out where
a value should begin. -/
theorem accesses_inside_iff (s : Bytes) :
    (∀ access ∈ (Traced.decodeBencodedValue s).accesses, access.Inside) ↔ ¬ RunsOut .value s := by
  rw [← Traced.outside_iff (s.length + 1) s (Nat.lt_succ_self _)]
  constructor
  · rintro h ⟨access, ha, hout⟩
    exact hout (h access ha)
  · intro h access ha
    by_contra hout
    exact h ⟨access, ha, hout⟩

/-- An index into nothing. -/
theorem access_outside_empty :
    ¬ ∀ s : Bytes, ∀ access ∈ (Traced.decodeBencodedValue s).accesses, access.Inside := by
  intro h
  have haccess : (⟨.index, 0, 0⟩ : Access) ∈ (Traced.decodeBencodedValue []).accesses :=
    List.mem_singleton_self _
  exact Nat.lt_irrefl 0 (h [] _ haccess)

end Bittorrent.Bencode
