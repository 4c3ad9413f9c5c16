import Bittorrent.Bencode.Denotation

/-! What a returned value says about the input. The decoders are inverted one
by one; `decode_sound` joins the parts: as long as no key begins with a minus
sign, the consumed text is a text of the grammar and the value is its meaning. -/

namespace Bittorrent.Bencode

open Lib Lib.Decimal Lib.OrderedMap Lib.Bencode

/-! ## Inversion of the decoders -/

/-- Which decoder a returned value comes from. -/
theorem decode_cases {s : Bytes} {d : DecodedValue} (h : decodeBencodedValue s = .value d) :
    (s.head? = some integerStartSymbol ∧ decodeInteger s = .value d) ∨
    (isDigit (s.headD 0) = true ∧ decodeString s = .value d) ∨
    (s.head? = some listStartSymbol ∧ decodeBencodedList decodeBencodedValue s = .value d) ∨
    (s.head? = some dictStartSymbol ∧ decodeBencodedDict decodeBencodedValue s = .value d) := by
  rw [decodeBencodedValue_eq] at h
  unfold decodeStep detectBencodedValueType isEncodedIntegerAhead isEncodedStringAhead
    isEncodedListAhead isEncodedDictAhead at h
  split_ifs at h with hi hs hl hd
  · exact Or.inl ⟨of_decide_eq_true hi, h⟩
  · exact Or.inr (Or.inl ⟨hs, h⟩)
  · exact Or.inr (Or.inr (Or.inl ⟨of_decide_eq_true hl, h⟩))
  · exact Or.inr (Or.inr (Or.inr ⟨of_decide_eq_true hd, h⟩))

theorem decodeString_eq_value {s : Bytes} {d : DecodedValue} (h : decodeString s = .value d) :
    ∃ i len, s.idxOf? stringDelimiterSymbol = some i ∧ toInteger (s.take i) = some len ∧
      sizeT (i + 1 + len) ≤ s.length ∧
      d = (⟨.string, s.take (sizeT (i + 1 + len))⟩,
        denoteString ((s.drop (i + 1)).take (sizeT len))) := by
  unfold decodeString at h
  split at h
  · cases h
  · next i hi =>
    split at h
    · cases h
    · next len hlen =>
      dsimp only at h
      split at h
      · cases h
      · next hle =>
        refine ⟨i, len, hi, hlen, by omega, ?_⟩
        split at h
        · next hok =>
          cases h
          rw [denoteString, if_pos ((Json.dumpEscaped_ok_iff _).mp hok)]
        · next herr =>
          cases h
          have hv : ¬ Utf8.Valid ((s.drop (i + 1)).take (sizeT len)) := by
            rw [← Json.dumpEscaped_ok_iff, herr]
            simp
          rw [denoteString, if_neg hv]
        · cases h

theorem decodeInteger_eq_value {s : Bytes} {d : DecodedValue} (h : decodeInteger s = .value d) :
    ∃ n i, s.idxOf? endSymbol = some n ∧
      toInteger ((s.take (n + 1)).drop 1).dropLast = some i ∧
      d = (⟨.integer, s.take (n + 1)⟩, .numberInteger i) := by
  unfold decodeInteger at h
  split at h
  · cases h
  · next n hn =>
    dsimp only at h
    split at h
    · cases h
    · next i hi =>
      cases h
      refine ⟨n, i, hn, hi, ?_⟩
      rw [List.take_take, Nat.min_self]

theorem decodeBencodedList_eq_value {decode : Bytes → Outcome DecodedValue} {s : Bytes}
    {d : DecodedValue} (h : decodeBencodedList decode s = .value d) :
    ∃ remaining list,
      listLoop decode ((s.drop 1).length + 1) (s.drop 1) [] = .value (remaining, list) ∧
      d = (⟨.list, s.take (s.length - (remaining.drop 1).length)⟩, .array list) := by
  obtain ⟨⟨remaining, list⟩, hl, h⟩ := Outcome.bind_eq_value.mp h
  cases h
  exact ⟨remaining, list, hl, rfl⟩

theorem decodeBencodedDict_eq_value {decode : Bytes → Outcome DecodedValue} {s : Bytes}
    {d : DecodedValue} (h : decodeBencodedDict decode s = .value d) :
    ∃ remaining dict,
      dictLoop decode ((s.drop 1).length + 1) (s.drop 1) [] = .value (remaining, dict) ∧
      d = (⟨.dictionary, s.take (s.length - (remaining.drop 1).length)⟩, .object dict) := by
  obtain ⟨⟨remaining, dict⟩, hl, h⟩ := Outcome.bind_eq_value.mp h
  cases h
  exact ⟨remaining, dict, hl, rfl⟩

theorem getString_denoteString_eq_ok {b k : Bytes} :
    (denoteString b).getString = .ok k ↔ Utf8.Valid b ∧ k = b := by
  by_cases hb : Utf8.Valid b
  · simp [denoteString, hb, Json.getString, eq_comm]
  · simp [denoteString, hb, Json.getString]

/-- What is consumed stands at the beginning of the input. -/
theorem decode_prefix {s : Bytes} {e : EncodedValue} {v : Json}
    (h : decodeBencodedValue s = .value (e, v)) : ∃ t, s = e.value ++ t := by
  have htake : ∀ {n}, ∃ t, s = s.take n ++ t := ⟨_, (List.take_append_drop _ s).symm⟩
  rcases decode_cases h with ⟨_, h⟩ | ⟨_, h⟩ | ⟨_, h⟩ | ⟨_, h⟩
  · obtain ⟨_, _, _, _, hd⟩ := decodeInteger_eq_value h
    cases hd
    exact htake
  · obtain ⟨_, _, _, _, _, hd⟩ := decodeString_eq_value h
    cases hd
    exact htake
  · obtain ⟨_, _, _, hd⟩ := decodeBencodedList_eq_value h
    cases hd
    exact htake
  · obtain ⟨_, _, _, hd⟩ := decodeBencodedDict_eq_value h
    cases hd
    exact htake

/-! ## Leaves -/

private theorem idxOf?_split {s : Bytes} {c : UInt8} {i : Nat} (h : s.idxOf? c = some i) :
    ∃ p r, s = p ++ c :: r ∧ p.length = i := by
  rw [List.idxOf?_eq_some_iff] at h
  obtain ⟨hi, he, _⟩ := h
  refine ⟨s.take i, s.drop (i + 1), ?_, List.length_take_of_le (by omega)⟩
  rw [← he, ← List.drop_eq_getElem_cons hi, List.take_append_drop]

/-- A string text is read as what it announces, unless a minus sign is in front. -/
theorem decodeString_sound {s : Bytes} {e : EncodedValue} {v : Json}
    (h : decodeString s = .value (e, v)) (hs : s.head? ≠ some 45) :
    ∃ b t, StringText accepted e.value b ∧ s = e.value ++ t ∧ v = denoteString b := by
  obtain ⟨i, len, hi, hlen, hle, hd⟩ := decodeString_eq_value h
  cases hd
  obtain ⟨p, r, rfl, rfl⟩ := idxOf?_split hi
  rw [List.take_left] at hlen
  obtain ⟨neg, ds, hds, rfl, rfl, hin⟩ := toInteger_eq_some.mp hlen
  cases neg with
  | true => exact absurd rfl hs
  | false =>
    have hpos : ((signed false ds).length : Int) + 1 + signedValue false ds =
        ((ds.length + 1 + value ds : Nat) : Int) := by
      simp only [signed, signedValue, Bool.false_eq_true, if_false]
      omega
    have hval : sizeT (signedValue false ds) = value ds := sizeT_natCast _
    have hdrop : (signed false ds ++ stringDelimiterSymbol :: r).drop
        ((signed false ds).length + 1) = r := by
      rw [← List.drop_drop, List.drop_left]
      rfl
    have htake : (signed false ds ++ stringDelimiterSymbol :: r).take
        (ds.length + 1 + value ds) = ds ++ 58 :: r.take (value ds) := by
      have hc : ds.length + 1 + value ds = ds.length + (value ds + 1) := by omega
      rw [hc]
      exact List.take_length_add_append _
    rw [hpos, sizeT_natCast] at hle
    have hlen : (r.take (value ds)).length = value ds := by
      simp only [signed, Bool.false_eq_true, if_false, List.length_append, List.length_cons] at hle
      rw [List.length_take]
      omega
    rw [hpos, sizeT_natCast, htake, hdrop, hval]
    refine ⟨r.take (value ds), r.drop (value ds), ⟨ds, ⟨⟨hds, hlen.symm⟩, ?_⟩, rfl⟩, ?_, rfl⟩
    · rw [hlen]
      exact hin
    · simp [signed, stringDelimiterSymbol]

theorem decodeInteger_sound {s : Bytes} {e : EncodedValue} {v : Json}
    (h : decodeInteger s = .value (e, v)) (hs : s.head? = some integerStartSymbol) :
    ∃ i t, Derives accepted e.value (.value (.int i)) ∧ s = e.value ++ t ∧ v = .numberInteger i := by
  obtain ⟨n, i, hn, hi, hd⟩ := decodeInteger_eq_value h
  cases hd
  obtain ⟨p, r, rfl, rfl⟩ := idxOf?_split hn
  have htake : (p ++ endSymbol :: r).take (p.length + 1) = p ++ [endSymbol] :=
    List.take_length_add_append 1
  rw [htake] at hi ⊢
  cases p with
  | nil => exact absurd (Option.some.inj hs) (by decide)
  | cons c p =>
    obtain rfl : c = integerStartSymbol := Option.some.inj hs
    have hp : ((integerStartSymbol :: p ++ [endSymbol]).drop 1).dropLast = p := by simp
    rw [hp] at hi
    obtain ⟨neg, ds, hds, rfl, rfl, hin⟩ := toInteger_eq_some.mp hi
    exact ⟨_, r, .int ⟨⟨neg, ds, hds, rfl, rfl⟩, hin⟩, by simp [endSymbol, integerStartSymbol], rfl⟩

/-! ## Nested values -/

/-- No minus sign stands where a key is due. -/
def NoSignedKey (s : Bytes) (place : Place) : Prop :=
  ∀ p b, s = p ++ 45 :: b → ¬ KeyDue loose p place

private theorem NoSignedKey.drop {u s : Bytes} {place place' : Place} (h : NoSignedKey (u ++ s) place)
    (hu : ∀ p, KeyDue loose p place' → KeyDue loose (u ++ p) place) : NoSignedKey s place' := by
  intro p b he hp
  exact h (u ++ p) b (by rw [he, List.append_assoc]) (hu p hp)

theorem accepted_le_loose : accepted.Le loose := loose.restrict_le _ _ _

/-- The statement of soundness for one input. -/
def Sound (s : Bytes) : Prop :=
  ∀ e v, decodeBencodedValue s = .value (e, v) → NoSignedKey s .value →
    ∃ x t, Derives accepted e.value (.value x) ∧ s = e.value ++ t ∧ v = denote x

theorem head?_eq_cons {s : Bytes} {c : UInt8} (h : s.head? = some c) : ∃ r, s = c :: r := by
  cases s with
  | nil => cases h
  | cons b r =>
    obtain rfl := Option.some.inj h
    exact ⟨r, rfl⟩

theorem digit_head_ne_minus {s : Bytes} (h : isDigit (s.headD 0) = true) : s.head? ≠ some 45 := by
  intro hm
  obtain ⟨r, rfl⟩ := head?_eq_cons hm
  have h45 : isDigit 45 = true := h
  exact absurd h45 (by decide)

/-- Invariant of the list loop: what it has read of `r` denotes the list so far. -/
def ItemsRead (r remaining : Bytes) (list : List Json) : Prop :=
  ∃ u vs, r = u ++ remaining ∧ Derives accepted u (.items vs) ∧ list = denoteItems vs

/-- Invariant of the dictionary loop. -/
def EntriesRead (r remaining : Bytes) (dict : List (Bytes × Json)) : Prop :=
  ∃ u es, r = u ++ remaining ∧ Derives accepted u (.entries es) ∧
    (∀ k ∈ es.map Prod.fst, Utf8.Valid k) ∧ dict = ofList (denoteEntries es)

theorem ItemsRead.step {r remaining : Bytes} {list : List Json} {encoded : EncodedValue}
    {result : Json} (ih : ∀ s, s.length ≤ r.length → Sound s)
    (hclean : NoSignedKey (108 :: r) .value) (h : ItemsRead r remaining list)
    (hdec : decodeBencodedValue remaining = .value (encoded, result)) :
    ItemsRead r (remaining.drop encoded.value.length) (list ++ [result]) := by
  obtain ⟨u, vs, rfl, hu, rfl⟩ := h
  have hdrop : NoSignedKey remaining .value := by
    refine NoSignedKey.drop (u := 108 :: u) hclean ?_
    intro p hp
    exact .list (KeyDue.after_items (hu.mono accepted_le_loose) (.first hp) rfl)
  obtain ⟨x, t, hx, rfl, rfl⟩ := ih remaining (by simp) encoded result hdec hdrop
  have hone : Derives accepted (encoded.value ++ []) (.items [x]) := .item hx .noItems
  rw [List.append_nil] at hone
  refine ⟨u ++ encoded.value, vs ++ [x], by simp, hu.items_append hone rfl, ?_⟩
  simp [denoteItems_eq_map]

theorem EntriesRead.step {r remaining : Bytes} {dict : List (Bytes × Json)}
    {encodedKey encodedValue : EncodedValue} {key value : Json} {keyString : Bytes}
    (ih : ∀ s, s.length ≤ r.length → Sound s)
    (hclean : NoSignedKey (100 :: r) .value) (h : EntriesRead r remaining dict)
    (hk : decodeString remaining = .value (encodedKey, key))
    (hv : decodeBencodedValue (remaining.drop encodedKey.value.length) =
      .value (encodedValue, value))
    (hs : key.getString = .ok keyString) :
    EntriesRead r ((remaining.drop encodedKey.value.length).drop encodedValue.value.length)
      (insert keyString value dict) := by
  obtain ⟨u, es, rfl, hu, hvalid, rfl⟩ := h
  have hreach : ∀ p, KeyDue loose p .entries → KeyDue loose (100 :: (u ++ p)) .value := fun p hp =>
    .dict (KeyDue.after_entries (hu.mono accepted_le_loose) hp rfl)
  have hhead : remaining.head? ≠ some 45 := by
    intro he
    obtain ⟨b, rfl⟩ := head?_eq_cons he
    exact hclean (100 :: (u ++ [])) b (by simp) (hreach [] .here)
  obtain ⟨b, t, hb, rfl, rfl⟩ := decodeString_sound hk hhead
  obtain ⟨hutf, rfl⟩ := getString_denoteString_eq_ok.mp hs
  rw [List.drop_left] at hv ⊢
  have hdrop : NoSignedKey t .value := by
    refine NoSignedKey.drop (u := 100 :: (u ++ encodedKey.value)) (by simpa using hclean) ?_
    intro p hp
    have := hreach _ (.inside (hb.mono accepted_le_loose) hp)
    simpa using this
  obtain ⟨x, t, hx, rfl, rfl⟩ := ih t (by simp; omega) encodedValue value hv hdrop
  have hone : Derives accepted (encodedKey.value ++ (encodedValue.value ++ []))
      (.entries [(keyString, x)]) := .entry hb hx .noEntries
  rw [List.append_nil] at hone
  refine ⟨u ++ (encodedKey.value ++ encodedValue.value), es ++ [(keyString, x)], by simp,
    hu.entries_append hone rfl, ?_, ?_⟩
  · intro k hk
    rw [List.map_append, List.mem_append] at hk
    rcases hk with hk | hk
    · exact hvalid k hk
    · obtain rfl : k = keyString := by simpa using hk
      exact hutf
  · simp [denoteEntries_eq_map, ofList, insertAll_append]

theorem list_sound {r : Bytes} (ih : ∀ s, s.length ≤ r.length → Sound s) {e : EncodedValue}
    {v : Json} (h : decodeBencodedList decodeBencodedValue (108 :: r) = .value (e, v))
    (hclean : NoSignedKey (108 :: r) .value) :
    ∃ x t, Derives accepted e.value (.value x) ∧ 108 :: r = e.value ++ t ∧ v = denote x := by
  obtain ⟨remaining, list, hl, hd⟩ := decodeBencodedList_eq_value h
  cases hd
  obtain ⟨⟨u, vs, hr, hu, rfl⟩, hend⟩ := listLoop_invariant (P := ItemsRead r)
    (fun _ _ _ _ hP _ hdec => hP.step ih hclean hdec) _ ⟨[], [], rfl, .noItems, rfl⟩ hl
  obtain ⟨t, rfl⟩ := head?_eq_cons hend
  have hw : 108 :: r = 108 :: (u ++ [101]) ++ t := by simp [hr, endSymbol]
  refine ⟨.list vs, t, ?_, ?_, rfl⟩
  · rw [hw, endSymbol, take_bracketed]
    exact .list hu
  · rw [hw, endSymbol, take_bracketed]

theorem dict_sound {r : Bytes} (ih : ∀ s, s.length ≤ r.length → Sound s) {e : EncodedValue}
    {v : Json} (h : decodeBencodedDict decodeBencodedValue (100 :: r) = .value (e, v))
    (hclean : NoSignedKey (100 :: r) .value) :
    ∃ x t, Derives accepted e.value (.value x) ∧ 100 :: r = e.value ++ t ∧ v = denote x := by
  obtain ⟨remaining, dict, hl, hd⟩ := decodeBencodedDict_eq_value h
  cases hd
  obtain ⟨⟨u, es, hr, hu, hvalid, rfl⟩, hend⟩ := dictLoop_invariant (P := EntriesRead r)
    (fun _ _ _ _ _ _ _ hP _ hk hv hs => hP.step ih hclean hk hv hs) _
    ⟨[], [], rfl, .noEntries, by simp, rfl⟩ hl
  obtain ⟨t, rfl⟩ := head?_eq_cons hend
  have hw : 100 :: r = 100 :: (u ++ [101]) ++ t := by simp [hr, endSymbol]
  refine ⟨.dict es, t, ?_, ?_, rfl⟩
  · rw [hw, endSymbol, take_bracketed]
    exact .dict hu ⟨trivial, hvalid⟩
  · rw [hw, endSymbol, take_bracketed]

theorem decode_sound (s : Bytes) : Sound s := by
  induction hn : s.length using Nat.strong_induction_on generalizing s with
  | _ n ih =>
    intro e v h hclean
    rcases decode_cases h with ⟨hi, h⟩ | ⟨hi, h⟩ | ⟨hi, h⟩ | ⟨hi, h⟩
    · obtain ⟨i, t, hd, hs, rfl⟩ := decodeInteger_sound h hi
      exact ⟨.int i, t, hd, hs, rfl⟩
    · obtain ⟨b, t, hd, hs, rfl⟩ := decodeString_sound h (digit_head_ne_minus hi)
      exact ⟨.str b, t, .str hd, hs, rfl⟩
    · obtain ⟨r, rfl⟩ := head?_eq_cons hi
      exact list_sound (fun s hs => ih s.length (by simp at hn; omega) s rfl) h hclean
    · obtain ⟨r, rfl⟩ := head?_eq_cons hi
      exact dict_sound (fun s hs => ih s.length (by simp at hn; omega) s rfl) h hclean

/-! ## Signed keys -/

/-- Strings announce their exact length, numbers fit `long long`, zeros may lead. -/
def grammar : Dialect := loose.restrict InInt64 (fun _ => True) (fun _ => True)

theorem accepted_le_grammar : accepted.Le grammar :=
  ⟨fun _ _ h => h, fun _ _ h => ⟨h.1, trivial⟩, fun _ h => ⟨h.1, fun _ _ => trivial⟩⟩

theorem NoSignedKey.of_loose {w t : Bytes} {x : Value} (h : Derives loose w (.value x)) :
    NoSignedKey (w ++ t) .value := by
  intro p b he hp
  rcases hp.next_byte (b := b) ⟨w, x, t, h, he.symm⟩ with hc | hc
  · exact absurd hc (by decide)
  · exact absurd hc (by decide)

theorem NoSignedKey.of_derives {w t : Bytes} {x : Value} (h : Derives grammar w (.value x)) :
    NoSignedKey (w ++ t) .value := .of_loose (h.mono (loose.restrict_le _ _ _))

/-- A text of the grammar is decoded exactly when it is within the decoder's limits. -/
theorem decodes_iff_accepted {w : Bytes} {x : Value} (h : Derives loose w (.value x)) (t : Bytes) :
    (∃ d, decodeBencodedValue (w ++ t) = .value d) ↔ Derives accepted w (.value x) := by
  constructor
  · intro hdec
    obtain ⟨⟨e, v⟩, hd⟩ := hdec
    obtain ⟨x', t', hx', hs, _⟩ := decode_sound _ e v hd (.of_loose h)
    obtain ⟨hw, hx, _⟩ := h.agrees _ _ _ _ (hx'.mono accepted_le_loose) hs
    rw [hw, hx]
    exact hx'
  · intro hx
    exact ⟨_, decode_complete hx t⟩

/-- A returned value is the meaning of the consumed text, as a text of the
grammar, exactly when no key begins with a minus sign: values are tried by
their first byte, keys are not. -/
theorem decode_denotes_iff {s : Bytes} {e : EncodedValue} {v : Json}
    (h : decodeBencodedValue s = .value (e, v)) :
    (∃ x t, Derives grammar e.value (.value x) ∧ s = e.value ++ t ∧ v = denote x) ↔
      NoSignedKey s .value := by
  constructor
  · rintro ⟨x, t, hx, hs, _⟩
    rw [hs]
    exact NoSignedKey.of_derives hx
  · intro hclean
    obtain ⟨x, t, hx, hs, hv⟩ := decode_sound s e v h hclean
    exact ⟨x, t, hx.mono accepted_le_grammar, hs, hv⟩

theorem decode_denotes_iff_dict :
    (∃ x t, Derives grammar (ascii "d1:a2:xye") (.value x) ∧
      ascii "d1:a2:xye" = ascii "d1:a2:xye" ++ t ∧
      Json.object [(ascii "a", .string (ascii "xy"))] = denote x) ↔
      NoSignedKey (ascii "d1:a2:xye") .value :=
  decode_denotes_iff (e := ⟨.dictionary, ascii "d1:a2:xye"⟩) rfl

/-- The key `abe`, of length -2, and the value `ab`. -/
theorem decode_signed_key :
    ¬ ∀ s e v, decodeBencodedValue s = .value (e, v) →
      ∃ x t, Derives grammar e.value (.value x) ∧ s = e.value ++ t ∧ v = denote x := by
  intro h
  obtain ⟨x, t, hx, hs, _⟩ := h (ascii "d-2:abe") ⟨.dictionary, ascii "d-2:abe"⟩
    (.object [(ascii "abe", .string (ascii "ab"))]) rfl
  have hclean := NoSignedKey.of_derives (t := t) hx
  rw [← hs] at hclean
  exact hclean [100] (ascii "2:abe") rfl (.dict .here)

end Bittorrent.Bencode
