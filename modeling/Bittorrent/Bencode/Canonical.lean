import Bittorrent.Bencode.Encoders
import Bittorrent.Bencode.Soundness

/-! Encoding and decoding against each other. The values bencode can carry
(`Bencodable`) encode to canonical text and are what that text denotes, so
decoding gives them back; and re-encoding what was decoded gives the consumed
text exactly when that text is canonical. -/

namespace Bittorrent.Bencode

open Lib Lib.Decimal Lib.OrderedMap Lib.Bencode

/-! ## The values bencode can carry -/

mutual

/-- Integers in range, text and binary told apart by UTF-8, dictionaries in
key order with text for keys, payload lengths that pass `fits`. -/
def Bencodable (fits : Nat → Prop) : Json → Prop
  | .null => False
  | .numberInteger i => InInt64 i
  | .string s => Utf8.Valid s ∧ fits s.length
  | .binary b => ¬ Utf8.Valid b ∧ fits b.length
  | .array list => BencodableItems fits list
  | .object dict => Sorted dict ∧ BencodableMembers fits dict
termination_by structural value => value

def BencodableItems (fits : Nat → Prop) : List Json → Prop
  | [] => True
  | value :: list => Bencodable fits value ∧ BencodableItems fits list
termination_by structural list => list

def BencodableMembers (fits : Nat → Prop) : List (Bytes × Json) → Prop
  | [] => True
  | member :: dict => BencodableMember fits member ∧ BencodableMembers fits dict
termination_by structural dict => dict

def BencodableMember (fits : Nat → Prop) : Bytes × Json → Prop
  | (key, value) => (Utf8.Valid key ∧ fits key.length) ∧ Bencodable fits value
termination_by structural member => member

end

mutual

/-- The syntax tree of a value: text and binary are both strings. -/
def toValue : Json → Value
  | .null => .list []
  | .numberInteger i => .int i
  | .string s => .str s
  | .binary b => .str b
  | .array list => .list (toItems list)
  | .object dict => .dict (toEntries dict)
termination_by structural value => value

def toItems : List Json → List Value
  | [] => []
  | value :: list => toValue value :: toItems list
termination_by structural list => list

def toEntries : List (Bytes × Json) → List (Bytes × Value)
  | [] => []
  | member :: dict => toEntry member :: toEntries dict
termination_by structural dict => dict

def toEntry : Bytes × Json → Bytes × Value
  | (key, value) => (key, toValue value)
termination_by structural member => member

end

theorem toEntries_keys (dict : List (Bytes × Json)) :
    (toEntries dict).map Prod.fst = dict.map Prod.fst := by
  induction dict with
  | nil => rfl
  | cons e dict ih =>
    obtain ⟨key, value⟩ := e
    simp [toEntries, toEntry, ih]

theorem sorted_iff_keys {α : Type} (m : List (Bytes × α)) :
    Sorted m ↔ (m.map Prod.fst).Pairwise (· < ·) := List.pairwise_map.symm

variable {fits : Nat → Prop}

theorem Bencodable.keys {dict : List (Bytes × Json)} (h : BencodableMembers fits dict) :
    ∀ k ∈ dict.map Prod.fst, Utf8.Valid k := by
  induction dict with
  | nil => simp
  | cons e dict ih =>
    obtain ⟨key, value⟩ := e
    intro k hk
    rcases List.mem_cons.mp hk with rfl | hk
    · exact h.1.1.1
    · exact ih h.2 k hk

mutual

theorem Bencodable.denote_toValue : ∀ {v : Json}, Bencodable fits v → denote (toValue v) = v
  | .numberInteger _, _ => rfl
  | .string _, h => if_pos h.1
  | .binary _, h => if_neg h.1
  | .array list, h => congrArg Json.array (Bencodable.denote_toItems (show BencodableItems _ list from h))
  | .object dict, h => by
    have he := Bencodable.denote_toEntries h.2
    rw [toValue, denote, he, ofList_of_sorted h.1]

theorem Bencodable.denote_toItems : ∀ {list : List Json}, BencodableItems fits list →
    denoteItems (toItems list) = list
  | [], _ => rfl
  | value :: list, h => by
    rw [toItems, denoteItems, Bencodable.denote_toValue h.1, Bencodable.denote_toItems h.2]

theorem Bencodable.denote_toEntries : ∀ {dict : List (Bytes × Json)}, BencodableMembers fits dict →
    denoteEntries (toEntries dict) = dict
  | [], _ => rfl
  | (key, value) :: dict, h => by
    rw [toEntries, denoteEntries, toEntry, denoteEntry, Bencodable.denote_toValue h.1.2,
      Bencodable.denote_toEntries h.2]

end

/-! ## What the encoder writes -/

/-- Canonical text within limits; `fits` bounds the payload lengths. -/
def canonicalWithin (fits : Nat → Prop) : Dialect := canonical.restrict InInt64 fits Utf8.Valid

theorem canonicalWithin_le (fits : Nat → Prop) : (canonicalWithin fits).Le canonical :=
  canonical.restrict_le _ _ _

theorem canonicalWithin_le_accepted : (canonicalWithin fun n => InInt64 n).Le accepted :=
  ⟨fun w i h => ⟨canonical_le_loose.int w i h.1, h.2⟩,
    fun l n h => ⟨canonical_le_loose.len l n h.1, h.2⟩, fun _ h => ⟨trivial, h.2⟩⟩

private theorem encodeString_within {s : Bytes} (h : fits s.length) :
    StringText (canonicalWithin fits) (encodeString s) s := by
  obtain ⟨l, hl, he⟩ := encodeString_text s
  exact ⟨l, ⟨hl, h⟩, he⟩

mutual

/-- Every value bencode can carry is encoded, to canonical text of its tree. -/
theorem Bencodable.encode_derives : ∀ {v : Json}, Bencodable fits v →
    ∃ w, encode v = some w ∧ Derives (canonicalWithin fits) w (.value (toValue v))
  | .numberInteger i, h => ⟨_, rfl, .int ⟨dumpInteger_canonical i, h⟩⟩
  | .string _, h => ⟨_, rfl, .str (encodeString_within h.2)⟩
  | .binary _, h => ⟨_, rfl, .str (encodeString_within h.2)⟩
  | .array list, h => by
    obtain ⟨w, hw, hd⟩ := Bencodable.encodeItems_derives (show BencodableItems _ list from h)
    exact ⟨_, by rw [encode, hw]; rfl, .list hd⟩
  | .object dict, h => by
    obtain ⟨w, hw, hd⟩ := Bencodable.encodeMembers_derives (show BencodableMembers _ dict from h.2)
    refine ⟨_, by rw [encode, hw]; rfl, .dict hd ?_⟩
    rw [toEntries_keys]
    exact ⟨(sorted_iff_keys dict).mp h.1, Bencodable.keys h.2⟩

theorem Bencodable.encodeItems_derives : ∀ {list : List Json}, BencodableItems fits list →
    ∃ w, encodeItems list = some w ∧ Derives (canonicalWithin fits) w (.items (toItems list))
  | [], _ => ⟨[], rfl, .noItems⟩
  | value :: list, h => by
    obtain ⟨w, hw, hd⟩ := Bencodable.encode_derives h.1
    obtain ⟨ws, hws, hds⟩ := Bencodable.encodeItems_derives h.2
    exact ⟨w ++ ws, by rw [encodeItems, hw, hws]; rfl, .item hd hds⟩

theorem Bencodable.encodeMembers_derives : ∀ {dict : List (Bytes × Json)},
    BencodableMembers fits dict →
    ∃ w, encodeMembers dict = some w ∧ Derives (canonicalWithin fits) w (.entries (toEntries dict))
  | [], _ => ⟨[], rfl, .noEntries⟩
  | (key, value) :: dict, h => by
    obtain ⟨w, hw, hd⟩ := Bencodable.encode_derives h.1.2
    obtain ⟨ws, hws, hds⟩ := Bencodable.encodeMembers_derives h.2
    refine ⟨encodeString key ++ (w ++ ws), ?_, .entry (encodeString_within h.1.1.2) hd hds⟩
    rw [encodeMembers, encodeMember, hw, hws]
    simp

end

/-! ## What the decoder returns -/

theorem bencodable_denoteString {b : Bytes} (h : fits b.length) :
    Bencodable fits (denoteString b) := by
  by_cases hb : Utf8.Valid b
  · simpa [denoteString, hb, Bencodable] using h
  · simpa [denoteString, hb, Bencodable] using h

theorem bencodableItems_append {list : List Json} {result : Json} (h : BencodableItems fits list)
    (hr : Bencodable fits result) : BencodableItems fits (list ++ [result]) := by
  induction list with
  | nil => exact ⟨hr, trivial⟩
  | cons value list ih => exact ⟨h.1, ih h.2⟩

theorem bencodableMembers_insert {dict : List (Bytes × Json)} {key : Bytes} {value : Json}
    (h : BencodableMembers fits dict) (hv : BencodableMember fits (key, value)) :
    BencodableMembers fits (insert key value dict) := by
  induction dict with
  | nil => exact ⟨hv, trivial⟩
  | cons e dict ih =>
    obtain ⟨key', value'⟩ := e
    rw [OrderedMap.insert]
    split_ifs
    · exact ⟨hv, h⟩
    · exact ⟨h.1, ih h.2⟩
    · exact h

theorem decodeString_bencodable {s : Bytes} {e : EncodedValue} {v : Json}
    (hfits : ∀ n, n ≤ s.length → fits n) (h : decodeString s = .value (e, v)) :
    ∃ b, v = denoteString b ∧ fits b.length := by
  obtain ⟨i, len, _, _, _, hd⟩ := decodeString_eq_value h
  cases hd
  refine ⟨_, rfl, hfits _ ?_⟩
  rw [List.length_take, List.length_drop]
  omega

/-- Whatever the decoder returns is a value bencode can carry. -/
theorem decode_bencodable {s : Bytes} {e : EncodedValue} {v : Json}
    (hfits : ∀ n, n ≤ s.length → fits n) (h : decodeBencodedValue s = .value (e, v)) :
    Bencodable fits v := by
  induction hn : s.length using Nat.strong_induction_on generalizing s e v with
  | _ n ih =>
    have hnested : ∀ {r e v}, r.length ≤ (s.drop 1).length → s ≠ [] →
        decodeBencodedValue r = .value (e, v) → Bencodable fits v := by
      intro r e v hr hs h
      have := List.length_pos_of_ne_nil hs
      rw [List.length_drop] at hr
      exact ih r.length (by omega) (fun n hn => hfits n (by omega)) h rfl
    rcases decode_cases h with ⟨_, h⟩ | ⟨_, h⟩ | ⟨hs, h⟩ | ⟨hs, h⟩
    · obtain ⟨_, i, _, hi, hd⟩ := decodeInteger_eq_value h
      cases hd
      obtain ⟨_, _, _, _, _, hin⟩ := toInteger_eq_some.mp hi
      exact hin
    · obtain ⟨b, rfl, hb⟩ := decodeString_bencodable hfits h
      exact bencodable_denoteString hb
    · have hne : s ≠ [] := by
        rintro rfl
        cases hs
      obtain ⟨remaining, list, hl, hd⟩ := decodeBencodedList_eq_value h
      cases hd
      have hnil : BencodableItems fits [] := trivial
      refine (listLoop_invariant (P := fun remaining list =>
        remaining.length ≤ (s.drop 1).length ∧ BencodableItems fits list) ?_ _
        ⟨Nat.le_refl _, hnil⟩ hl).1.2
      rintro remaining list encoded result ⟨hr, hlist⟩ _ hdec
      refine ⟨?_, bencodableItems_append hlist (hnested hr hne hdec)⟩
      rw [List.length_drop]
      omega
    · have hne : s ≠ [] := by
        rintro rfl
        cases hs
      obtain ⟨remaining, dict, hl, hd⟩ := decodeBencodedDict_eq_value h
      cases hd
      have hnil : BencodableMembers fits [] := trivial
      refine (dictLoop_invariant (P := fun remaining dict =>
        remaining.length ≤ (s.drop 1).length ∧ Sorted dict ∧ BencodableMembers fits dict) ?_ _
        ⟨Nat.le_refl _, List.Pairwise.nil, hnil⟩ hl).1.2
      rintro remaining dict encodedKey key keyString encodedValue value ⟨hr, hsort, hdict⟩ _ hk hv hg
      rw [List.length_drop] at hr
      obtain ⟨b, rfl, hb⟩ := decodeString_bencodable (fun n hn => hfits n (by omega)) hk
      obtain ⟨hutf, rfl⟩ := getString_denoteString_eq_ok.mp hg
      have hvalue : Bencodable fits value := by
        refine hnested ?_ hne hv
        simp only [List.length_drop]
        omega
      refine ⟨?_, sorted_insert hsort, bencodableMembers_insert hdict ⟨⟨hutf, hb⟩, hvalue⟩⟩
      simp only [List.length_drop]
      omega

/-! ## Decoding what was encoded -/

/-- A value bencode can carry, its strings no longer than `std::string` allows. -/
structure BencodeValue where
  json : Json
  bencodable : Bencodable (fun n => InInt64 n) json

theorem BencodeValue.decode_encode (v : BencodeValue) :
    ∃ w ty, encode v.json = some w ∧
      ∀ t, decodeBencodedValue (w ++ t) = .value (⟨ty, w⟩, v.json) := by
  obtain ⟨w, hw, hd⟩ := v.bencodable.encode_derives
  refine ⟨w, typeOf (toValue v.json), hw, fun t => ?_⟩
  have := hd.mono (canonicalWithin_le_accepted.trans accepted_le_graded)
  rw [(Derives.decodes this).total t, v.bencodable.denote_toValue]

theorem BencodeValue.encode_prefix_free {v v' : BencodeValue} {w w' t t' : Bytes}
    (h : encode v.json = some w) (h' : encode v'.json = some w') (he : w ++ t = w' ++ t') :
    w = w' ∧ v.json = v'.json := by
  obtain ⟨u, ty, hu, hdec⟩ := v.decode_encode
  obtain ⟨u', ty', hu', hdec'⟩ := v'.decode_encode
  obtain rfl := Option.some.inj (h.symm.trans hu)
  obtain rfl := Option.some.inj (h'.symm.trans hu')
  have heq := hdec t
  rw [he, hdec' t'] at heq
  obtain ⟨hw, hv⟩ := Prod.mk.inj (Outcome.value.inj heq)
  exact ⟨(congrArg EncodedValue.value hw).symm, hv.symm⟩

/-- Decoding gives back what was encoded, whatever follows it; hence no
encoding begins another, and what was decoded once is decoded again. -/
theorem decode_encode_append :
    (∀ (v : BencodeValue) (t : Bytes), ∃ w ty, encode v.json = some w ∧
      decodeBencodedValue (w ++ t) = .value (⟨ty, w⟩, v.json)) ∧
    (∀ (v v' : BencodeValue) (w w' t t' : Bytes), encode v.json = some w →
      encode v'.json = some w' → w ++ t = w' ++ t' → w = w' ∧ v.json = v'.json) ∧
    (∀ (s : Bytes) (e : EncodedValue) (v : Json) (t : Bytes), InInt64 s.length →
      decodeBencodedValue s = .value (e, v) → ∃ w ty, encode v = some w ∧
        decodeBencodedValue (w ++ t) = .value (⟨ty, w⟩, v)) := by
  refine ⟨?_, fun v v' w w' t t' => BencodeValue.encode_prefix_free, ?_⟩
  · intro v t
    obtain ⟨w, ty, hw, hdec⟩ := v.decode_encode
    exact ⟨w, ty, hw, hdec t⟩
  · intro s e v t hs h
    have hv : Bencodable (fun n => InInt64 n) v := by
      refine decode_bencodable (fun n hn => ?_) h
      simp only [InInt64] at hs ⊢
      omega
    obtain ⟨w, ty, hw, hdec⟩ := BencodeValue.decode_encode ⟨v, hv⟩
    exact ⟨w, ty, hw, hdec t⟩

/-- A list that holds a negative number and the bytes `e:`. -/
theorem decode_encode_append_list :
    (∃ w ty, encode (.array [.numberInteger (-7), .string (ascii "e:")]) = some w ∧
      decodeBencodedValue (w ++ ascii "e") =
        .value (⟨ty, w⟩, .array [.numberInteger (-7), .string (ascii "e:")])) ∧
    ascii "li-7e2:e:e" = ascii "li-7e2:e:e" ∧
    ∃ w ty, encode (.numberInteger 7) = some w ∧
      decodeBencodedValue (w ++ ascii "e") = .value (⟨ty, w⟩, .numberInteger 7) := by
  have hv : Bencodable (fun n => InInt64 n)
      (.array [.numberInteger (-7), .string (ascii "e:")]) :=
    ⟨(by decide : InInt64 (-7)), ⟨by decide, (by decide : InInt64 2)⟩, trivial⟩
  exact ⟨decode_encode_append.1 ⟨_, hv⟩ _,
    (decode_encode_append.2.1 ⟨_, hv⟩ ⟨_, hv⟩ (ascii "li-7e2:e:e") (ascii "li-7e2:e:e")
      (ascii "e") (ascii "e") rfl rfl rfl).1,
    decode_encode_append.2.2 (ascii "i07e") ⟨.integer, ascii "i07e"⟩ _ _ (by decide) rfl⟩

/-! ## Encoding what was decoded -/

/-- The text the encoder writes for the meaning of a syntax tree. -/
def Encodes (w : Bytes) : Node → Prop
  | .value x => encode (denote x) = some w
  | .items vs => encodeItems (denoteItems vs) = some w
  | .entries es => encodeMembers (denoteEntries es) = some w

theorem encode_denoteString (b : Bytes) : encode (denoteString b) = some (encodeString b) := by
  unfold denoteString
  split <;> rfl

/-- A canonical text is what the encoder writes for its meaning. -/
theorem Derives.encodes {w : Bytes} {n : Node} (h : Derives canonical w n) : Encodes w n := by
  induction h with
  | int hi => exact congrArg (fun w => some (105 :: (w ++ [101]))) (dumpInteger_of_canonical hi)
  | str hs =>
    rw [Encodes, denote, encode_denoteString, encodeString_of_text hs]
  | @list w vs _ ih =>
    have ih : encodeItems (denoteItems vs) = some w := ih
    rw [Encodes, denote, encode, ih]
    rfl
  | @dict w es _ hk ih =>
    have ih : encodeMembers (denoteEntries es) = some w := ih
    have hsort : Sorted (denoteEntries es) := by
      rw [sorted_iff_keys, denoteEntries_keys]
      exact hk
    rw [Encodes, denote, ofList_of_sorted hsort, encode, ih]
    rfl
  | noItems => rfl
  | @item w ws v vs _ _ ihv ihs =>
    have ihv : encode (denote v) = some w := ihv
    have ihs : encodeItems (denoteItems vs) = some ws := ihs
    rw [Encodes, denoteItems, encodeItems, ihv, ihs]
    rfl
  | noEntries => rfl
  | @entry k b w ws v es hk _ _ ihv ihs =>
    have ihv : encode (denote v) = some w := ihv
    have ihs : encodeMembers (denoteEntries es) = some ws := ihs
    rw [Encodes, denoteEntries, denoteEntry, encodeMembers, encodeMember, ihv, ihs,
      encodeString_of_text hk]
    simp

theorem encode_consumed {s : Bytes} {e : EncodedValue} {v : Json}
    (h : decodeBencodedValue s = .value (e, v)) :
    ∃ w, encode v = some w ∧ (w = e.value ↔ ∃ x, Derives canonical e.value (.value x)) := by
  have hv : Bencodable (fun _ => True) v := decode_bencodable (fun _ _ => trivial) h
  obtain ⟨w, hw, hd⟩ := Bencodable.encode_derives hv
  refine ⟨w, hw, ?_, ?_⟩
  · rintro rfl
    exact ⟨_, hd.mono (canonicalWithin_le _)⟩
  · intro hderives
    obtain ⟨x, hx⟩ := hderives
    obtain ⟨t, hs⟩ := decode_prefix h
    rw [hs] at h
    obtain ⟨_, hv⟩ := Prod.mk.inj (decode_of_derives (hx.mono canonical_le_loose) h)
    have hx' : encode (denote x) = some e.value := Derives.encodes hx
    rw [← hv, hw] at hx'
    exact Option.some.inj hx'

/-- Re-encoding always succeeds, and gives the consumed text back just when
that text is canonical. -/
theorem encode_eq_consumed_iff {s : Bytes} {e : EncodedValue} {v : Json}
    (h : decodeBencodedValue s = .value (e, v)) :
    (encode v).isSome = true ∧
      (encode v = some e.value ↔ ∃ x, Derives canonical e.value (.value x)) := by
  obtain ⟨w, hw, hiff⟩ := encode_consumed h
  rw [hw, Option.some_inj]
  exact ⟨rfl, hiff⟩

theorem encode_eq_consumed_iff_list :
    (encode (.array [.numberInteger 7])).isSome = true ∧
      (encode (.array [.numberInteger 7]) = some (ascii "li07ee") ↔
        ∃ x, Derives canonical (ascii "li07ee") (.value x)) :=
  encode_eq_consumed_iff (s := ascii "li07eei1e") (e := ⟨.list, ascii "li07ee"⟩) rfl

end Bittorrent.Bencode
