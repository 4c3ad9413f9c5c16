import Bittorrent.Bencode.Soundness

/-! When the decoder throws. Every byte string is read, refused, or brings the
decoder to a dictionary entry whose key it cannot take as a string, because the
bytes are not UTF-8 (`decode_never_throws_iff`). A key is converted when its
value has been read, so a value that is refused hides such a key. -/

namespace Bittorrent.Bencode

open Lib Lib.Decimal Lib.OrderedMap Lib.Bencode

/-! ## What is read -/

/-- The key in front of `s` and what is left. A length may be negative here: it
is added to the position of the colon like any other. -/
def KeyAt (s key rest : Bytes) : Prop :=
  ∃ i len, s.idxOf? stringDelimiterSymbol = some i ∧ toInteger (s.take i) = some len ∧
    sizeT (i + 1 + len) ≤ s.length ∧ key = (s.drop (i + 1)).take (sizeT len) ∧
    rest = s.drop (sizeT (i + 1 + len))

/-- What the decoder takes from the front of an input, the end mark of a list or
dictionary included, and what is left. -/
inductive Reads : Place → Bytes → Bytes → Prop where
  | int {w i r} : accepted.int w i → Reads .value (105 :: (w ++ [101]) ++ r) r
  | str {w b r} : StringText accepted w b → Reads .value (w ++ r) r
  | list {s r} : Reads .items s r → Reads .value (108 :: s) r
  | dict {s r} : Reads .entries s r → Reads .value (100 :: s) r
  | noItems {r} : Reads .items (101 :: r) r
  | item {s s' r} : Reads .value s s' → Reads .items s' r → Reads .items s r
  | noEntries {r} : Reads .entries (101 :: r) r
  | entry {s key s' s'' r} : KeyAt s key s' → Utf8.Valid key → Reads .value s' s'' →
      Reads .entries s'' r → Reads .entries s r

/-- Reading from the front comes to an entry whose key is not UTF-8 and whose
value is read. -/
inductive BinaryKey : Place → Bytes → Prop where
  | list {s} : BinaryKey .items s → BinaryKey .value (108 :: s)
  | dict {s} : BinaryKey .entries s → BinaryKey .value (100 :: s)
  | first {s} : BinaryKey .value s → BinaryKey .items s
  | next {s s'} : Reads .value s s' → BinaryKey .items s' → BinaryKey .items s
  | key {s key s' r} : KeyAt s key s' → ¬ Utf8.Valid key → Reads .value s' r →
      BinaryKey .entries s
  | inside {s key s'} : KeyAt s key s' → BinaryKey .value s' → BinaryKey .entries s
  | after {s key s' s''} : KeyAt s key s' → Utf8.Valid key → Reads .value s' s'' →
      BinaryKey .entries s'' → BinaryKey .entries s

/-! ## Keys -/

theorem KeyAt.of_decodeString {s : Bytes} {e : EncodedValue} {v : Json}
    (h : decodeString s = .value (e, v)) :
    ∃ key, KeyAt s key (s.drop e.value.length) ∧ v = denoteString key := by
  obtain ⟨i, len, hi, hlen, hle, hd⟩ := decodeString_eq_value h
  cases hd
  refine ⟨_, ⟨i, len, hi, hlen, hle, rfl, ?_⟩, rfl⟩
  rw [List.length_take_of_le hle]

theorem KeyAt.decodeString {s key rest : Bytes} (h : KeyAt s key rest) :
    ∃ e, decodeString s = .value (e, denoteString key) ∧ rest = s.drop e.value.length := by
  obtain ⟨i, len, hi, hlen, hle, rfl, rfl⟩ := h
  refine ⟨⟨.string, s.take (sizeT (i + 1 + len))⟩, ?_, ?_⟩
  · unfold Bencode.decodeString
    simp only [hi, hlen]
    rw [if_neg (Nat.not_lt.mpr hle)]
    cases hd : Json.dumpEscaped ((s.drop (i + 1)).take (sizeT len)) with
    | ok u =>
      rw [denoteString, if_pos ((Json.dumpEscaped_ok_iff _).mp hd)]
    | error e =>
      have hv : ¬ Utf8.Valid ((s.drop (i + 1)).take (sizeT len)) := by
        rw [← Json.dumpEscaped_ok_iff, hd]
        intro h
        cases h
      rw [Json.dumpEscaped_error hd, denoteString, if_neg hv]
  · rw [List.length_take_of_le hle]

theorem decodeString_not_throws (s : Bytes) (x : Exception) : decodeString s ≠ .throws x := by
  intro h
  unfold decodeString at h
  split at h
  · cases h
  · split at h
    · cases h
    · dsimp only at h
      split at h
      · cases h
      · split at h
        · cases h
        · cases h
        · next hne hd =>
          exact hne _ (Json.dumpEscaped_error hd)

theorem decodeInteger_not_throws (s : Bytes) (x : Exception) : decodeInteger s ≠ .throws x := by
  intro h
  unfold decodeInteger at h
  split at h
  · cases h
  · dsimp only at h
    split at h
    · cases h
    · cases h

/-- A key begins with a digit or a sign. -/
theorem KeyAt.not_end {s key rest : Bytes} (h : KeyAt s key rest) : s.head? ≠ some endSymbol := by
  obtain ⟨i, len, hi, hlen, _⟩ := h
  obtain ⟨neg, ds, hds, hs, _⟩ := toInteger_eq_some.mp hlen
  intro he
  cases s with
  | nil => cases he
  | cons c s =>
    obtain rfl : c = endSymbol := Option.some.inj he
    have hmem : endSymbol ∈ signed neg ds := by
      rw [← hs]
      cases i with
      | zero =>
        rw [List.take_zero] at hs
        cases neg with
        | true => cases hs
        | false => exact absurd hs.symm hds.1
      | succ i => simp
    exact signed_ne_end hds _ hmem rfl

theorem KeyAt.suffix {s key rest : Bytes} (h : KeyAt s key rest) : ∃ u, s = u ++ rest := by
  obtain ⟨i, len, _, _, _, _, rfl⟩ := h
  exact ⟨_, (List.take_append_drop _ s).symm⟩

theorem KeyAt.length_le {s key rest : Bytes} (h : KeyAt s key rest) : rest.length ≤ s.length := by
  obtain ⟨u, rfl⟩ := h.suffix
  rw [List.length_append]
  exact Nat.le_add_left _ _

/-! ## What is left -/

/-- A value takes at least two bytes, the inside of a list or dictionary its end mark. -/
def minLength : Place → Nat
  | .value => 2
  | .items | .entries => 1

theorem Reads.suffix {place : Place} {s r : Bytes} (h : Reads place s r) :
    ∃ u, s = u ++ r ∧ minLength place ≤ u.length := by
  induction h with
  | int _ => exact ⟨_, rfl, by simp [minLength]⟩
  | @str w b r hs =>
    obtain ⟨l, ⟨⟨hl, _⟩, _⟩, rfl⟩ := hs
    have := List.length_pos_iff.mpr hl.1
    refine ⟨_, rfl, ?_⟩
    simp only [minLength, List.length_append, List.length_cons]
    omega
  | list _ ih =>
    obtain ⟨u, rfl, hu⟩ := ih
    exact ⟨108 :: u, rfl, Nat.succ_le_succ hu⟩
  | dict _ ih =>
    obtain ⟨u, rfl, hu⟩ := ih
    exact ⟨100 :: u, rfl, Nat.succ_le_succ hu⟩
  | noItems => exact ⟨[101], rfl, Nat.le_refl 1⟩
  | item _ _ ihv ihs =>
    obtain ⟨u, rfl, _⟩ := ihv
    obtain ⟨u', rfl, hu'⟩ := ihs
    refine ⟨u ++ u', (List.append_assoc ..).symm, ?_⟩
    rw [List.length_append]
    exact Nat.le_trans hu' (Nat.le_add_left _ _)
  | noEntries => exact ⟨[101], rfl, Nat.le_refl 1⟩
  | entry hk _ _ _ ihv ihs =>
    obtain ⟨k, rfl⟩ := hk.suffix
    obtain ⟨u, rfl, _⟩ := ihv
    obtain ⟨u', rfl, hu'⟩ := ihs
    refine ⟨k ++ (u ++ u'), by simp, ?_⟩
    rw [List.length_append, List.length_append]
    exact Nat.le_trans hu' (Nat.le_trans (Nat.le_add_left _ _) (Nat.le_add_left _ _))

theorem Reads.length_le {place : Place} {s r : Bytes} (h : Reads place s r) :
    r.length + minLength place ≤ s.length := by
  obtain ⟨u, rfl, hu⟩ := h.suffix
  rw [List.length_append]
  omega

/-- What is left, found again by the length of what the decoder says it took. -/
theorem drop_taken {s u r : Bytes} (h : s = u ++ r) :
    s.drop (s.take (s.length - r.length)).length = r := by
  subst h
  have hlen : (u ++ r).length - r.length = u.length := by
    rw [List.length_append]
    omega
  rw [hlen, List.take_left, List.drop_left]

/-! ## What the decoder does says what the input is -/

/-- What the two ways to end say about one input. -/
def Explained (s : Bytes) : Prop :=
  (decodeBencodedValue s).Ends (fun d => Reads .value s (s.drop d.1.value.length)) (BinaryKey .value s)

theorem listLoop_explained {m : Nat} (hall : ∀ s, s.length ≤ m → Explained s) (fuel : Nat) :
    ∀ {s : Bytes} (list : List Json), s.length ≤ m → s.length < fuel →
    (listLoop decodeBencodedValue fuel s list).Ends
      (fun d => ∃ r, d.1 = 101 :: r ∧ Reads .items s r) (BinaryKey .items s) := by
  induction fuel with
  | zero =>
    intro s list _ hfuel
    exact absurd hfuel (Nat.not_lt_zero _)
  | succ fuel ih =>
    intro s list hm hfuel
    rw [listLoop]
    by_cases hend : s.head? = some endSymbol
    · rw [if_pos hend]
      obtain ⟨r, rfl⟩ := head?_eq_cons hend
      exact .ret ⟨r, rfl, .noItems⟩
    · rw [if_neg hend]
      have hitem := (hall s hm).mono (fun _ h => h) BinaryKey.first
      refine hitem.bind fun d hread => ?_
      have hlen := hread.length_le
      simp only [minLength] at hlen
      have hrest := @ih (s.drop d.1.value.length) (list ++ [d.2]) (by omega) (by omega)
      refine hrest.mono (fun d' h => ?_) (BinaryKey.next hread)
      obtain ⟨r, hr, hitems⟩ := h
      exact ⟨r, hr, .item hread hitems⟩

/-- A key can be used as a string exactly when it is UTF-8. -/
theorem getString_denoteString_ends (b : Bytes) :
    (Outcome.ofExcept (denoteString b).getString).Ends (fun k => k = b ∧ Utf8.Valid b)
      (¬ Utf8.Valid b) := by
  by_cases hb : Utf8.Valid b
  · rw [getString_denoteString_eq_ok.mpr ⟨hb, rfl⟩]
    exact .ret ⟨rfl, hb⟩
  · rw [denoteString, if_neg hb]
    exact .raise hb

theorem decodeString_ends (s : Bytes) (Q : Prop) : (decodeString s).Ends
    (fun d => ∃ key, KeyAt s key (s.drop d.1.value.length) ∧ d.2 = denoteString key) Q :=
  ⟨fun _ h => KeyAt.of_decodeString h, fun x h => absurd h (decodeString_not_throws s x)⟩

theorem dictLoop_explained {m : Nat} (hall : ∀ s, s.length ≤ m → Explained s) (fuel : Nat) :
    ∀ {s : Bytes} (dict : List (Bytes × Json)), s.length ≤ m → s.length < fuel →
    (dictLoop decodeBencodedValue fuel s dict).Ends
      (fun d => ∃ r, d.1 = 101 :: r ∧ Reads .entries s r) (BinaryKey .entries s) := by
  induction fuel with
  | zero =>
    intro s dict _ hfuel
    exact absurd hfuel (Nat.not_lt_zero _)
  | succ fuel ih =>
    intro s dict hm hfuel
    rw [dictLoop]
    by_cases hend : s.head? = some endSymbol
    · rw [if_pos hend]
      obtain ⟨r, rfl⟩ := head?_eq_cons hend
      exact .ret ⟨r, rfl, .noEntries⟩
    · rw [if_neg hend]
      refine (decodeString_ends s _).bind fun k hk => ?_
      obtain ⟨key, hkey, hkv⟩ := hk
      have hklen := hkey.length_le
      have hvalue := (hall _ (Nat.le_trans hklen hm)).mono (fun _ h => h) (BinaryKey.inside hkey)
      refine hvalue.bind fun d hread => ?_
      have hlen := hread.length_le
      simp only [minLength] at hlen
      -- Only now is the key converted.
      have hconv := (getString_denoteString_ends key).mono (fun _ h => h)
        fun hbad => BinaryKey.key hkey hbad hread
      rw [← hkv] at hconv
      refine hconv.bind fun key' hvalid => ?_
      have hrest := @ih ((s.drop k.1.value.length).drop d.1.value.length) (insert key' d.2 dict)
        (by omega) (by omega)
      refine hrest.mono (fun d' h => ?_) (BinaryKey.after hkey hvalid.2 hread)
      obtain ⟨r, hr, hentries⟩ := h
      exact ⟨r, hr, .entry hkey hvalid.2 hread hentries⟩

theorem decode_throws_cases {s : Bytes} {x : Exception} (h : decodeBencodedValue s = .throws x) :
    (s.head? = some listStartSymbol ∧ decodeBencodedList decodeBencodedValue s = .throws x) ∨
    (s.head? = some dictStartSymbol ∧ decodeBencodedDict decodeBencodedValue s = .throws x) := by
  rw [decodeBencodedValue_eq] at h
  unfold decodeStep detectBencodedValueType isEncodedIntegerAhead isEncodedStringAhead
    isEncodedListAhead isEncodedDictAhead at h
  split_ifs at h with hi hs hl hd
  · exact absurd h (decodeInteger_not_throws s x)
  · exact absurd h (decodeString_not_throws s x)
  · exact Or.inl ⟨of_decide_eq_true hl, h⟩
  · exact Or.inr ⟨of_decide_eq_true hd, h⟩

/-- What is left behind the end mark, found again by the length of the encoded value. -/
theorem drop_bracketed {place : Place} {c : UInt8} {t r : Bytes} (h : Reads place t r) :
    (c :: t).drop ((c :: t).take ((c :: t).length - ((101 :: r).drop 1).length)).length = r := by
  obtain ⟨u, hu, _⟩ := h.suffix
  exact drop_taken (u := c :: u) (congrArg (List.cons c) hu)

theorem list_explained {t : Bytes} (hall : ∀ s, s.length ≤ t.length → Explained s) :
    (decodeBencodedList decodeBencodedValue (108 :: t)).Ends
      (fun d => Reads .value (108 :: t) ((108 :: t).drop d.1.value.length))
      (BinaryKey .value (108 :: t)) := by
  have hloop := (listLoop_explained hall (t.length + 1) [] (Nat.le_refl _) (Nat.lt_succ_self _)).mono
    (fun _ h => h) BinaryKey.list
  refine hloop.bind fun d h => ?_
  obtain ⟨remaining, list⟩ := d
  obtain ⟨r, rfl, hread⟩ := h
  refine .ret ?_
  rw [drop_bracketed hread]
  exact .list hread

theorem dict_explained {t : Bytes} (hall : ∀ s, s.length ≤ t.length → Explained s) :
    (decodeBencodedDict decodeBencodedValue (100 :: t)).Ends
      (fun d => Reads .value (100 :: t) ((100 :: t).drop d.1.value.length))
      (BinaryKey .value (100 :: t)) := by
  have hloop := (dictLoop_explained hall (t.length + 1) [] (Nat.le_refl _) (Nat.lt_succ_self _)).mono
    (fun _ h => h) BinaryKey.dict
  refine hloop.bind fun d h => ?_
  obtain ⟨remaining, dict⟩ := d
  obtain ⟨r, rfl, hread⟩ := h
  refine .ret ?_
  rw [drop_bracketed hread]
  exact .dict hread

theorem leaf_reads {s : Bytes} {e : EncodedValue} {v : Json} :
    (s.head? = some integerStartSymbol → decodeInteger s = .value (e, v) →
      Reads .value s (s.drop e.value.length)) ∧
    (isDigit (s.headD 0) = true → decodeString s = .value (e, v) →
      Reads .value s (s.drop e.value.length)) := by
  constructor
  · intro hi h
    obtain ⟨i, t, hd, hs, _⟩ := decodeInteger_sound h hi
    generalize e.value = w at hd hs ⊢
    subst hs
    rw [List.drop_left]
    cases hd with
    | int hw => exact .int hw
  · intro hi h
    obtain ⟨b, t, hd, hs, _⟩ := decodeString_sound h (digit_head_ne_minus hi)
    generalize e.value = w at hd hs ⊢
    subst hs
    rw [List.drop_left]
    exact .str hd

theorem explained (s : Bytes) : Explained s := by
  induction hn : s.length using Nat.strong_induction_on generalizing s with
  | _ n ih =>
    have hall : ∀ c t, s = c :: t → ∀ s', s'.length ≤ t.length → Explained s' := by
      intro c t hs s' hs'
      refine ih s'.length ?_ s' rfl
      rw [← hn, hs, List.length_cons]
      omega
    constructor
    · intro d h
      rcases decode_cases h with ⟨hi, h⟩ | ⟨hi, h⟩ | ⟨hi, h⟩ | ⟨hi, h⟩
      · exact leaf_reads.1 hi h
      · exact leaf_reads.2 hi h
      · obtain ⟨t, rfl⟩ := head?_eq_cons hi
        exact (list_explained (hall _ t rfl)).value d h
      · obtain ⟨t, rfl⟩ := head?_eq_cons hi
        exact (dict_explained (hall _ t rfl)).value d h
    · intro x h
      rcases decode_throws_cases h with ⟨hi, h⟩ | ⟨hi, h⟩
      · obtain ⟨t, rfl⟩ := head?_eq_cons hi
        exact (list_explained (hall _ t rfl)).throws x h
      · obtain ⟨t, rfl⟩ := head?_eq_cons hi
        exact (dict_explained (hall _ t rfl)).throws x h

/-! ## What the input is says what the decoder does -/

/-- The decoder takes what the input is read as. -/
def ReadBy : Place → Bytes → Bytes → Prop
  | .value, s, r => ∃ e v, decodeBencodedValue s = .value (e, v) ∧ s.drop e.value.length = r
  | .items, s, r => ∀ fuel list, s.length < fuel →
      ∃ list', listLoop decodeBencodedValue fuel s list = .value (101 :: r, list')
  | .entries, s, r => ∀ fuel dict, s.length < fuel →
      ∃ dict', dictLoop decodeBencodedValue fuel s dict = .value (101 :: r, dict')

/-- The decoder throws the exception for a wrong type. -/
def ThrownBy : Place → Bytes → Prop
  | .value, s => decodeBencodedValue s = .throws (.typeError 302)
  | .items, s => ∀ fuel list, s.length < fuel →
      listLoop decodeBencodedValue fuel s list = .throws (.typeError 302)
  | .entries, s => ∀ fuel dict, s.length < fuel →
      dictLoop decodeBencodedValue fuel s dict = .throws (.typeError 302)

/-- Something to be decoded does not begin with an end mark. -/
theorem Reads.not_end {s r : Bytes} (h : Reads .value s r) : s.head? ≠ some endSymbol := by
  cases h with
  | int _ => exact (by decide : (some 105 : Option UInt8) ≠ some endSymbol)
  | str hs =>
    obtain ⟨c, t, rfl, hc⟩ := (hs.mono accepted_le_loose).head
    intro he
    exact digit_ne_end hc (Option.some.inj he)
  | list _ => exact (by decide : (some 108 : Option UInt8) ≠ some endSymbol)
  | dict _ => exact (by decide : (some 100 : Option UInt8) ≠ some endSymbol)

theorem BinaryKey.not_end {s : Bytes} (h : BinaryKey .value s) : s.head? ≠ some endSymbol := by
  cases h with
  | list _ => exact (by decide : (some 108 : Option UInt8) ≠ some endSymbol)
  | dict _ => exact (by decide : (some 100 : Option UInt8) ≠ some endSymbol)

/-- A pass of the list loop that reads an item. -/
theorem listLoop_item {s r : Bytes} (hv : Reads .value s r) (h : ReadBy .value s r) {fuel : Nat}
    (list : List Json) (hfuel : s.length < fuel) : ∃ fuel' result, r.length < fuel' ∧
    listLoop decodeBencodedValue fuel s list =
      listLoop decodeBencodedValue fuel' r (list ++ [result]) := by
  obtain ⟨n, rfl⟩ := Nat.exists_eq_add_of_lt hfuel
  have hlen := hv.length_le
  simp only [minLength] at hlen
  obtain ⟨e, v, hd, rfl⟩ := h
  refine ⟨s.length + n, v, by omega, ?_⟩
  rw [listLoop, if_neg hv.not_end, hd]
  rfl

/-- A pass of the dictionary loop that reads an entry, up to the conversion of the key. -/
theorem dictLoop_entry {s key s' r : Bytes} (hk : KeyAt s key s') (hv : Reads .value s' r)
    (h : ReadBy .value s' r) {fuel : Nat} (dict : List (Bytes × Json)) (hfuel : s.length < fuel) :
    ∃ fuel' value, r.length < fuel' ∧ dictLoop decodeBencodedValue fuel s dict =
      Outcome.ofExcept (denoteString key).getString >>= fun key =>
        dictLoop decodeBencodedValue fuel' r (insert key value dict) := by
  obtain ⟨n, rfl⟩ := Nat.exists_eq_add_of_lt hfuel
  have hlen := hv.length_le
  have hklen := hk.length_le
  simp only [minLength] at hlen
  obtain ⟨ek, hkey, rfl⟩ := hk.decodeString
  obtain ⟨e, v, hd, rfl⟩ := h
  refine ⟨s.length + n, v, by omega, ?_⟩
  rw [dictLoop, if_neg hk.not_end, hkey]
  simp only [Outcome.value_bind, hd]

theorem getString_denoteString_valid {key : Bytes} (h : Utf8.Valid key) :
    Outcome.ofExcept (denoteString key).getString = .value key :=
  Outcome.ofExcept_eq_value.mpr (getString_denoteString_eq_ok.mpr ⟨h, rfl⟩)

/-- What the loop in a list makes of the bytes behind the first one. -/
theorem decode_list_loop (s : Bytes) : decodeBencodedValue (108 :: s) =
    listLoop decodeBencodedValue (s.length + 1) s [] >>= fun d =>
      .value (⟨.list, (108 :: s).take ((108 :: s).length - (d.1.drop 1).length)⟩, .array d.2) := by
  rw [decode_list_ahead]
  rfl

theorem decode_dict_loop (s : Bytes) : decodeBencodedValue (100 :: s) =
    dictLoop decodeBencodedValue (s.length + 1) s [] >>= fun d =>
      .value (⟨.dictionary, (100 :: s).take ((100 :: s).length - (d.1.drop 1).length)⟩,
        .object d.2) := by
  rw [decode_dict_ahead]
  rfl

theorem Reads.readBy {place : Place} {s r : Bytes} (h : Reads place s r) : ReadBy place s r := by
  induction h with
  | int hi => exact ⟨_, _, decode_complete (.int hi) _, List.drop_left⟩
  | str hs => exact ⟨_, _, decode_complete (.str hs) _, List.drop_left⟩
  | list hs ih =>
    obtain ⟨list', hl⟩ := ih _ [] (Nat.lt_succ_self _)
    rw [ReadBy, decode_list_loop, hl]
    exact ⟨_, _, rfl, drop_bracketed hs⟩
  | dict hs ih =>
    obtain ⟨dict', hl⟩ := ih _ [] (Nat.lt_succ_self _)
    rw [ReadBy, decode_dict_loop, hl]
    exact ⟨_, _, rfl, drop_bracketed hs⟩
  | noItems =>
    intro fuel list hfuel
    obtain ⟨n, rfl⟩ := Nat.exists_eq_add_of_lt hfuel
    exact ⟨list, if_pos rfl⟩
  | item hv _ ihv ihs =>
    intro fuel list hfuel
    obtain ⟨fuel', result, hfuel', hstep⟩ := listLoop_item hv ihv list hfuel
    rw [hstep]
    exact ihs fuel' _ hfuel'
  | noEntries =>
    intro fuel dict hfuel
    obtain ⟨n, rfl⟩ := Nat.exists_eq_add_of_lt hfuel
    exact ⟨dict, if_pos rfl⟩
  | entry hk hvalid hv _ ihv ihs =>
    intro fuel dict hfuel
    obtain ⟨fuel', value, hfuel', hstep⟩ := dictLoop_entry hk hv ihv dict hfuel
    rw [hstep, getString_denoteString_valid hvalid, Outcome.value_bind]
    exact ihs fuel' _ hfuel'

theorem BinaryKey.thrownBy {place : Place} {s : Bytes} (h : BinaryKey place s) :
    ThrownBy place s := by
  induction h with
  | list _ ih =>
    rw [ThrownBy, decode_list_loop, ih _ [] (Nat.lt_succ_self _)]
    rfl
  | dict _ ih =>
    rw [ThrownBy, decode_dict_loop, ih _ [] (Nat.lt_succ_self _)]
    rfl
  | first hs ih =>
    intro fuel list hfuel
    obtain ⟨n, rfl⟩ := Nat.exists_eq_add_of_lt hfuel
    rw [listLoop, if_neg hs.not_end, ih]
    rfl
  | next hv _ ih =>
    intro fuel list hfuel
    obtain ⟨fuel', result, hfuel', hstep⟩ := listLoop_item hv hv.readBy list hfuel
    rw [hstep]
    exact ih fuel' _ hfuel'
  | @key s key _ _ hk hbad hv =>
    intro fuel dict hfuel
    obtain ⟨fuel', value, _, hstep⟩ := dictLoop_entry hk hv hv.readBy dict hfuel
    have hthrows : (denoteString key).getString = .error (.typeError 302) := by
      rw [denoteString, if_neg hbad]
      rfl
    rw [hstep, hthrows]
    rfl
  | inside hk _ ih =>
    intro fuel dict hfuel
    obtain ⟨n, rfl⟩ := Nat.exists_eq_add_of_lt hfuel
    obtain ⟨ek, hkey, rfl⟩ := hk.decodeString
    rw [dictLoop, if_neg hk.not_end, hkey]
    simp only [Outcome.value_bind]
    rw [ih]
    rfl
  | after hk hvalid hv _ ih =>
    intro fuel dict hfuel
    obtain ⟨fuel', value, hfuel', hstep⟩ := dictLoop_entry hk hv hv.readBy dict hfuel
    rw [hstep, getString_denoteString_valid hvalid, Outcome.value_bind]
    exact ih fuel' _ hfuel'

/-- Decoding returns a value or nothing exactly when it comes to no binary key. -/
theorem decode_never_throws_iff (s : Bytes) :
    ((∃ d, decodeBencodedValue s = .value d) ∨ decodeBencodedValue s = .nullopt) ↔
      ¬ BinaryKey .value s := by
  constructor
  · intro h hkey
    have hthrows : decodeBencodedValue s = .throws (.typeError 302) := hkey.thrownBy
    rcases h with ⟨d, h⟩ | h
    · cases h.symm.trans hthrows
    · cases h.symm.trans hthrows
  · intro hkey
    cases h : decodeBencodedValue s with
    | value d => exact Or.inl ⟨d, rfl⟩
    | nullopt => exact Or.inr rfl
    | throws x => exact absurd ((explained s).throws x h) hkey

/-- A key of one byte that is not UTF-8. -/
theorem decode_throws_on_binary_key :
    ¬ ∀ s : Bytes, (∃ d, decodeBencodedValue s = .value d) ∨ decodeBencodedValue s = .nullopt := by
  intro h
  have hthrows : decodeBencodedValue (ascii "d1:" ++ [0xFF] ++ ascii "i1ee") =
    .throws (.typeError 302) := rfl
  rcases h (ascii "d1:" ++ [0xFF] ++ ascii "i1ee") with ⟨d, hd⟩ | hd
  · cases hd.symm.trans hthrows
  · cases hd.symm.trans hthrows

end Bittorrent.Bencode
