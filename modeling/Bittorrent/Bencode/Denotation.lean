import Bittorrent.Bencode.Decoders
import Bittorrent.Lib.Bencode

/-! What a bencoded text means as a Json value, and that the decoder reads it
so. `Derives.decodes` covers every text of the grammar at once: a text within
the decoder's limits (`accepted`) is decoded to its meaning, whatever follows
it, and a text outside them is decoded to its meaning or not at all. -/

namespace Bittorrent.Bencode

open Lib Lib.Decimal Lib.OrderedMap Lib.Bencode

instance (s : Bytes) : Decidable (Utf8.Valid s) :=
  decidable_of_iff (Json.dumpEscaped s = .ok ()) (Json.dumpEscaped_ok_iff s)

/-- The kind of Json string a byte string becomes. -/
def denoteString (b : Bytes) : Json := if Utf8.Valid b then .string b else .binary b

mutual

def denote : Value → Json
  | .int i => .numberInteger i
  | .str b => denoteString b
  | .list vs => .array (denoteItems vs)
  | .dict es => .object (ofList (denoteEntries es))
termination_by structural v => v

def denoteItems : List Value → List Json
  | [] => []
  | v :: vs => denote v :: denoteItems vs
termination_by structural vs => vs

def denoteEntries : List (Bytes × Value) → List (Bytes × Json)
  | [] => []
  | e :: es => denoteEntry e :: denoteEntries es
termination_by structural es => es

def denoteEntry : Bytes × Value → Bytes × Json
  | (k, v) => (k, denote v)
termination_by structural e => e

end

theorem denoteItems_eq_map (vs : List Value) : denoteItems vs = vs.map denote := by
  induction vs with
  | nil => rfl
  | cons v vs ih => rw [denoteItems, ih, List.map_cons]

theorem denoteEntries_eq_map (es : List (Bytes × Value)) :
    denoteEntries es = es.map fun e => (e.1, denote e.2) := by
  induction es with
  | nil => rfl
  | cons e es ih => rw [denoteEntries, ih, List.map_cons, denoteEntry]

def typeOf : Value → EncodedValueType
  | .int _ => .integer
  | .str _ => .string
  | .list _ => .list
  | .dict _ => .dictionary

theorem denoteEntries_keys (es : List (Bytes × Value)) :
    (denoteEntries es).map Prod.fst = es.map Prod.fst := by
  rw [denoteEntries_eq_map, List.map_map]
  rfl

/-! ## Within the decoder's limits -/

/-- The texts the decoder is to accept: numbers and lengths that fit
`long long`, keys that are text. -/
def accepted : Dialect := loose.restrict InInt64 (fun n => InInt64 n) Utf8.Valid

/-- All texts of the grammar when `total` is false, those of `accepted` when it is true. -/
def graded (total : Prop) : Dialect :=
  loose.restrict (fun i => total → InInt64 i) (fun n => total → InInt64 n)
    (fun k => total → Utf8.Valid k)

theorem accepted_le_graded : accepted.Le (graded True) :=
  ⟨fun _ _ h => ⟨h.1, fun _ => h.2⟩, fun _ _ h => ⟨h.1, fun _ => h.2⟩,
    fun _ h => ⟨h.1, fun k hk _ => h.2 k hk⟩⟩

theorem loose_le_graded : loose.Le (graded False) :=
  ⟨fun _ _ h => ⟨h, False.elim⟩, fun _ _ h => ⟨h, False.elim⟩, fun _ h => ⟨h, fun _ _ => False.elim⟩⟩

/-- The call returns `a`, or outside the limits it may return nothing or throw. -/
def Expected {α : Type} (total : Prop) (o : Outcome α) (a : α) : Prop :=
  o = .value a ∨ ¬ total ∧ (o = .nullopt ∨ ∃ id, o = .throws (.typeError id))

theorem Expected.bind {α β : Type} {total : Prop} {o : Outcome α} {a : α} {f : α → Outcome β}
    {b : β} (h : Expected total o a) (hf : Expected total (f a) b) :
    Expected total (o >>= f) b := by
  rcases h with rfl | ⟨ht, rfl | ⟨id, rfl⟩⟩
  · exact hf
  · exact Or.inr ⟨ht, Or.inl rfl⟩
  · exact Or.inr ⟨ht, Or.inr ⟨id, rfl⟩⟩

theorem idxOf?_append {c : UInt8} {p t : Bytes} (h : ∀ b ∈ p, b ≠ c) :
    (p ++ c :: t).idxOf? c = some p.length := by
  rw [List.idxOf?_eq_some_iff]
  refine ⟨by simp, by simp, ?_⟩
  intro j hj
  rw [List.getElem_append_left hj]
  exact h _ (List.getElem_mem hj)

theorem decodeString_text {total : Prop} {w b t : Bytes} (h : StringText (graded total) w b) :
    Expected total (decodeString (w ++ t)) (⟨.string, w⟩, denoteString b) := by
  obtain ⟨l, ⟨⟨hl, hlen⟩, hin⟩, rfl⟩ := h
  have hfind : (l ++ 58 :: b ++ t).idxOf? stringDelimiterSymbol = some l.length := by
    rw [List.append_assoc]
    exact idxOf?_append fun c hc => digit_ne_colon (hl.2 c hc)
  have htake : (l ++ 58 :: b ++ t).take l.length = l := by simp
  by_cases hfit : InInt64 b.length
  · left
    have hint : toInteger l = some (b.length : Int) :=
      toInteger_eq_some.mpr ⟨false, l, hl, rfl, by simp [signedValue, hlen], hfit⟩
    have hpos : sizeT (l.length + 1 + (b.length : Int)) = (l ++ 58 :: b).length := by
      have : (l.length : Int) + 1 + b.length = ((l ++ 58 :: b).length : Nat) := by
        simp only [List.length_append, List.length_cons]
        omega
      rw [this, sizeT_natCast]
    have hstr : ((l ++ 58 :: b ++ t).drop (l.length + 1)).take b.length = b := by
      have he : l ++ 58 :: b ++ t = (l ++ [58]) ++ (b ++ t) := by simp
      rw [he, List.drop_left' (by simp), List.take_left]
    unfold decodeString
    simp only [hfind, htake, hint, hpos, sizeT_natCast, hstr, List.take_left']
    rw [if_neg (by simp)]
    cases hd : Json.dumpEscaped b with
    | ok u => simp [denoteString, (Json.dumpEscaped_ok_iff b).mp hd]
    | error e =>
      have hv : ¬ Utf8.Valid b := by
        rw [← Json.dumpEscaped_ok_iff, hd]
        simp
      simp [denoteString, hv, Json.dumpEscaped_error hd]
  · right
    refine ⟨fun ht => hfit (hin ht), Or.inl ?_⟩
    have hint : toInteger l = none := by
      cases hi : toInteger l with
      | none => rfl
      | some i =>
        obtain ⟨neg, ds, hds, hl', rfl, hr⟩ := toInteger_eq_some.mp hi
        obtain ⟨rfl, rfl⟩ := signed_inj hl hds (show signed false l = signed neg ds from hl')
        exact absurd hr (by simpa [signedValue, hlen] using hfit)
    unfold decodeString
    simp only [hfind, htake, hint]

theorem decodeInteger_text {total : Prop} {w t : Bytes} {i : Int} (h : (graded total).int w i) :
    Expected total (decodeInteger (105 :: (w ++ [101]) ++ t))
      (⟨.integer, 105 :: (w ++ [101])⟩, .numberInteger i) := by
  obtain ⟨⟨neg, ds, hds, rfl, rfl⟩, hin⟩ := h
  have hfind : (105 :: (signed neg ds ++ [101]) ++ t).idxOf? endSymbol =
      some (signed neg ds).length.succ := by
    have := idxOf?_append (c := endSymbol) (p := 105 :: signed neg ds) (t := t) (by
      intro b hb
      rcases List.mem_cons.mp hb with rfl | hb
      · decide
      · exact signed_ne_end hds b hb)
    simpa [endSymbol] using this
  have htake : (105 :: (signed neg ds ++ [101]) ++ t).take ((signed neg ds).length.succ + 1) =
      105 :: (signed neg ds ++ [101]) := by simp [List.take_append]
  unfold decodeInteger
  simp only [hfind, htake]
  by_cases hfit : InInt64 (signedValue neg ds)
  · left
    have hint : toInteger (signed neg ds) = some (signedValue neg ds) :=
      toInteger_eq_some.mpr ⟨neg, ds, hds, rfl, rfl, hfit⟩
    simp [hint]
  · right
    refine ⟨fun ht => hfit (hin ht), Or.inl ?_⟩
    have hint : toInteger (signed neg ds) = none := by
      cases hi : toInteger (signed neg ds) with
      | none => rfl
      | some i =>
        obtain ⟨neg', ds', hds', hs, rfl, hr⟩ := toInteger_eq_some.mp hi
        obtain ⟨rfl, rfl⟩ := signed_inj hds hds' hs
        exact absurd hr hfit
    simp [hint]

/-! ## Every text of the grammar -/

theorem detect_digit {c : UInt8} {s : Bytes} (h : isDigit c = true) :
    detectBencodedValueType (c :: s) = .string := by
  have hi : c ≠ integerStartSymbol := by
    rintro rfl
    exact absurd h (by decide)
  simp [detectBencodedValueType, isEncodedIntegerAhead, isEncodedStringAhead, hi, h]

theorem decode_integer_ahead (s : Bytes) :
    decodeBencodedValue (105 :: s) = decodeInteger (105 :: s) := by
  rw [decodeBencodedValue_eq]
  rfl

theorem decode_list_ahead (s : Bytes) :
    decodeBencodedValue (108 :: s) = decodeBencodedList decodeBencodedValue (108 :: s) := by
  rw [decodeBencodedValue_eq]
  rfl

theorem decode_dict_ahead (s : Bytes) :
    decodeBencodedValue (100 :: s) = decodeBencodedDict decodeBencodedValue (100 :: s) := by
  rw [decodeBencodedValue_eq]
  rfl

theorem decode_string_ahead {c : UInt8} {s : Bytes} (h : isDigit c = true) :
    decodeBencodedValue (c :: s) = decodeString (c :: s) := by
  rw [decodeBencodedValue_eq, decodeStep, detect_digit h]

/-- The decoder on a text `w` of the grammar in front of any bytes. -/
def Decodes (total : Prop) (w : Bytes) : Node → Prop
  | .value v => ∀ t, Expected total (decodeBencodedValue (w ++ t)) (⟨typeOf v, w⟩, denote v)
  | .items vs => ∀ fuel list t, w.length < fuel →
      Expected total (listLoop decodeBencodedValue fuel (w ++ 101 :: t) list)
        (101 :: t, list ++ denoteItems vs)
  | .entries es => (total → ∀ k ∈ es.map Prod.fst, Utf8.Valid k) → ∀ fuel dict t, w.length < fuel →
      Expected total (dictLoop decodeBencodedValue fuel (w ++ 101 :: t) dict)
        (101 :: t, insertAll dict (denoteEntries es))

/-- What is left of a bracketed text once the loop inside has stopped at its end mark. -/
theorem take_bracketed (c : UInt8) (w t : Bytes) :
    (c :: (w ++ [101]) ++ t).take
      ((c :: (w ++ [101]) ++ t).length - ((101 :: t).drop 1).length) = c :: (w ++ [101]) := by
  have hl : (c :: (w ++ [101]) ++ t).length - ((101 :: t).drop 1).length =
      (c :: (w ++ [101])).length := by
    simp only [List.length_append, List.drop_succ_cons, List.drop_zero]
    omega
  rw [hl, List.take_left]

private theorem getString_denoteString {b : Bytes} {total : Prop} (h : total → Utf8.Valid b) :
    Expected total (Outcome.ofExcept (denoteString b).getString) b := by
  by_cases hb : Utf8.Valid b
  · left
    simp [denoteString, hb, Json.getString, Outcome.ofExcept]
  · right
    refine ⟨fun ht => hb (h ht), Or.inr ⟨302, ?_⟩⟩
    simp [denoteString, hb, Json.getString, Outcome.ofExcept]

theorem graded_le_loose (total : Prop) : (graded total).Le loose := loose.restrict_le _ _ _

theorem Derives.decodes {total : Prop} {w n} (h : Derives (graded total) w n) :
    Decodes total w n := by
  induction h with
  | int hi =>
    intro t
    rw [List.cons_append, decode_integer_ahead]
    exact decodeInteger_text hi
  | str hs =>
    intro t
    obtain ⟨c, u, rfl, hc⟩ := (hs.mono (graded_le_loose total)).head
    rw [List.cons_append, decode_string_ahead hc]
    exact decodeString_text hs
  | @list w vs _ ih =>
    intro t
    have hrest : (108 :: (w ++ [101]) ++ t).drop 1 = w ++ 101 :: t := by simp
    rw [List.cons_append, decode_list_ahead, ← List.cons_append]
    unfold decodeBencodedList
    rw [hrest]
    refine (ih _ [] t (by simp)).bind (Or.inl ?_)
    dsimp only
    rw [take_bracketed]
    rfl
  | @dict w es _ hk ih =>
    intro t
    have hrest : (100 :: (w ++ [101]) ++ t).drop 1 = w ++ 101 :: t := by simp
    rw [List.cons_append, decode_dict_ahead, ← List.cons_append]
    unfold decodeBencodedDict
    rw [hrest]
    refine (ih (fun ht k hm => hk.2 k hm ht) _ [] t (by simp)).bind (Or.inl ?_)
    dsimp only
    rw [take_bracketed]
    rfl
  | noItems =>
    intro fuel list t hf
    obtain ⟨fuel, rfl⟩ := Nat.exists_eq_add_one_of_ne_zero (Nat.ne_zero_of_lt hf)
    exact Or.inl (by simp [listLoop, endSymbol, denoteItems])
  | @item w ws v vs hv _ ihv ihs =>
    intro fuel list t hf
    obtain ⟨c, u, rfl, hc⟩ := (hv.mono (graded_le_loose total)).head
    obtain ⟨fuel, rfl⟩ := Nat.exists_eq_add_one_of_ne_zero (Nat.ne_zero_of_lt hf)
    rw [listLoop, if_neg (by simpa [endSymbol] using hc), List.append_assoc]
    refine (ihv _).bind ?_
    have := ihs fuel (list ++ [denote v]) t (by simp at hf; omega)
    simpa [denoteItems] using this
  | noEntries =>
    intro _ fuel dict t hf
    obtain ⟨fuel, rfl⟩ := Nat.exists_eq_add_one_of_ne_zero (Nat.ne_zero_of_lt hf)
    exact Or.inl (by simp [dictLoop, endSymbol, denoteEntries])
  | @entry k b w ws v es hk hv _ ihv ihs =>
    intro hvalid fuel dict t hf
    obtain ⟨c, u, rfl, hc⟩ := (hk.mono (graded_le_loose total)).head
    obtain ⟨fuel, rfl⟩ := Nat.exists_eq_add_one_of_ne_zero (Nat.ne_zero_of_lt hf)
    rw [dictLoop, if_neg (by simpa [endSymbol] using digit_ne_end hc), List.append_assoc]
    refine (decodeString_text hk).bind ?_
    simp only [List.drop_left, List.append_assoc]
    refine (ihv _).bind ?_
    simp only [List.drop_left]
    refine (getString_denoteString fun ht => hvalid ht b (by simp)).bind ?_
    have := ihs (fun ht k hm => hvalid ht k (by simp [hm])) fuel (insert b (denote v) dict) t
      (by simp at hf; omega)
    simpa [denoteEntries, denoteEntry] using this

/-- A text of the grammar, in front of any bytes, is read as what it means or not at all. -/
theorem decode_of_derives {w t : Bytes} {v : Value} {d : DecodedValue}
    (h : Derives loose w (.value v)) (hd : decodeBencodedValue (w ++ t) = .value d) :
    d = (⟨typeOf v, w⟩, denote v) := by
  rcases Derives.decodes (h.mono loose_le_graded) t with he | ⟨_, he | ⟨_, he⟩⟩
  · rw [hd] at he
    exact Outcome.value.inj he
  · rw [hd] at he
    cases he
  · rw [hd] at he
    cases he

theorem Decodes.total {w : Bytes} {v : Value} (h : Decodes True w (.value v)) (t : Bytes) :
    decodeBencodedValue (w ++ t) = .value (⟨typeOf v, w⟩, denote v) := by
  rcases h t with he | ⟨ht, _⟩
  · exact he
  · exact absurd trivial ht

/-- Every text within the limits is read, and as what it means. -/
theorem decode_complete {w : Bytes} {v : Value} (h : Derives accepted w (.value v)) (t : Bytes) :
    decodeBencodedValue (w ++ t) = .value (⟨typeOf v, w⟩, denote v) :=
  (Derives.decodes (h.mono accepted_le_graded)).total t

/-- A negative zero, a repeated key, a key out of order, a leading zero and a
string that is not text. -/
theorem decode_complete_dict :
    decodeBencodedValue (ascii "d1:bi-00e1:b1:x1:a01:" ++ [0xFF] ++ ascii "e" ++ ascii "1:ie") =
    .value (⟨.dictionary, ascii "d1:bi-00e1:b1:x1:a01:" ++ [0xFF] ++ ascii "e"⟩,
      .object [(ascii "a", .binary [0xFF]), (ascii "b", .numberInteger 0)]) := by
  have hlen : ∀ b : UInt8, StringText accepted [49, 58, b] [b] := fun b =>
    ⟨[49], ⟨⟨by decide, rfl⟩, (by decide : InInt64 1)⟩, rfl⟩
  have hlen' : StringText accepted [48, 49, 58, 0xFF] [0xFF] :=
    ⟨[48, 49], ⟨⟨by decide, rfl⟩, by decide⟩, rfl⟩
  have hint : Derives accepted [105, 45, 48, 48, 101] (.value (.int 0)) :=
    .int (w := [45, 48, 48]) ⟨⟨true, [48, 48], by decide, rfl, rfl⟩, by decide⟩
  have hdict : Derives accepted _ (.value (.dict [([98], .int 0), ([98], .str [120]),
      ([97], .str [0xFF])])) :=
    .dict (.entry (hlen 98) hint (.entry (hlen 98) (.str (hlen 120))
      (.entry (hlen 97) (.str hlen') .noEntries))) ⟨trivial, by decide⟩
  exact decode_complete hdict (ascii "1:ie")

end Bittorrent.Bencode
