import Bittorrent.Lib.Decimal

/-! The bencode grammar, as derivations over byte strings. A dialect fixes the
lexical part: which texts denote an integer, which texts announce a length,
and which key sequences a dictionary may have. `loose` takes every digit string
and every key sequence; `canonical` is the one text per value. A derivation is
monotone in its dialect, and whatever the dialect no text has two readings and
no text is a proper beginning of another. -/

namespace Lib.Bencode

open Lib.Decimal

inductive Value where
  | int (i : Int)
  | str (b : List UInt8)
  | list (vs : List Value)
  | dict (es : List (List UInt8 × Value))

structure Dialect where
  int : List UInt8 → Int → Prop
  len : List UInt8 → Nat → Prop
  keys : List (List UInt8) → Prop

/-- What a text may be read as: one value, or the inside of a list or dictionary. -/
inductive Node where
  | value (v : Value)
  | items (vs : List Value)
  | entries (es : List (List UInt8 × Value))

/-- A length, a colon and that many bytes. -/
def StringText (D : Dialect) (w b : List UInt8) : Prop :=
  ∃ l, D.len l b.length ∧ w = l ++ 58 :: b

inductive Derives (D : Dialect) : List UInt8 → Node → Prop where
  | int {w i} : D.int w i → Derives D (105 :: (w ++ [101])) (.value (.int i))
  | str {w b} : StringText D w b → Derives D w (.value (.str b))
  | list {w vs} : Derives D w (.items vs) → Derives D (108 :: (w ++ [101])) (.value (.list vs))
  | dict {w es} : Derives D w (.entries es) → D.keys (es.map Prod.fst) →
      Derives D (100 :: (w ++ [101])) (.value (.dict es))
  | noItems : Derives D [] (.items [])
  | item {w ws v vs} : Derives D w (.value v) → Derives D ws (.items vs) →
      Derives D (w ++ ws) (.items (v :: vs))
  | noEntries : Derives D [] (.entries [])
  | entry {k b w ws v es} : StringText D k b → Derives D w (.value v) →
      Derives D ws (.entries es) → Derives D (k ++ (w ++ ws)) (.entries ((b, v) :: es))

/-- Any digits, an optional minus sign, keys in any order and with repetitions. -/
def loose : Dialect where
  int w i := ∃ neg ds, Numeral ds ∧ w = signed neg ds ∧ i = signedValue neg ds
  len l n := Numeral l ∧ value l = n
  keys _ := True

/-- No redundant zero, no negative zero, keys strictly increasing in byte order. -/
def canonical : Dialect where
  int w i := ∃ neg ds, Minimal ds ∧ (neg = true → ds ≠ [48]) ∧ w = signed neg ds ∧
    i = signedValue neg ds
  len l n := Minimal l ∧ value l = n
  keys ks := ks.Pairwise (· < ·)

/-- The texts of `D` whose integers, lengths and keys pass the given tests. -/
def Dialect.restrict (D : Dialect) (int : Int → Prop) (len : Nat → Prop)
    (key : List UInt8 → Prop) : Dialect where
  int w i := D.int w i ∧ int i
  len l n := D.len l n ∧ len n
  keys ks := D.keys ks ∧ ∀ k ∈ ks, key k

structure Dialect.Le (D E : Dialect) : Prop where
  int : ∀ w i, D.int w i → E.int w i
  len : ∀ l n, D.len l n → E.len l n
  keys : ∀ ks, D.keys ks → E.keys ks

theorem Dialect.Le.trans {D E F : Dialect} (h : D.Le E) (h' : E.Le F) : D.Le F :=
  ⟨fun w i hi => h'.int w i (h.int w i hi), fun l n hl => h'.len l n (h.len l n hl),
    fun ks hk => h'.keys ks (h.keys ks hk)⟩

theorem Dialect.restrict_le (D : Dialect) (int len key) : (D.restrict int len key).Le D :=
  ⟨fun _ _ h => h.1, fun _ _ h => h.1, fun _ h => h.1⟩

theorem canonical_le_loose : canonical.Le loose where
  int := by
    intro w i h
    obtain ⟨neg, ds, hm, _, hw, hi⟩ := h
    exact ⟨neg, ds, hm.1, hw, hi⟩
  len := by
    intro l n h
    obtain ⟨hm, hn⟩ := h
    exact ⟨hm.1, hn⟩
  keys _ _ := trivial

theorem StringText.mono {D E : Dialect} (h : D.Le E) {w b} : StringText D w b → StringText E w b
  | ⟨l, hl, hw⟩ => ⟨l, h.len _ _ hl, hw⟩

theorem Derives.mono {D E : Dialect} (h : D.Le E) {w n} (hd : Derives D w n) : Derives E w n := by
  induction hd with
  | int hi => exact .int (h.int _ _ hi)
  | str hs => exact .str (hs.mono h)
  | list _ ih => exact .list ih
  | dict _ hk ih => exact .dict ih (h.keys _ hk)
  | noItems => exact .noItems
  | item _ _ ihv ihs => exact .item ihv ihs
  | noEntries => exact .noEntries
  | entry hk _ _ ihv ihs => exact .entry (hk.mono h) ihv ihs

/-! ## Lexical facts -/

theorem digit_ne_colon {b : UInt8} (h : isDigit b = true) : b ≠ 58 := by
  rintro rfl
  exact absurd h (by decide)

theorem digit_ne_end {b : UInt8} (h : isDigit b = true) : b ≠ 101 := by
  rintro rfl
  exact absurd h (by decide)

theorem signed_ne_end {neg : Bool} {ds : List UInt8} (h : Numeral ds) :
    ∀ b ∈ signed neg ds, b ≠ 101 := by
  intro b hb
  cases neg with
  | false => exact digit_ne_end (h.2 b hb)
  | true =>
    rcases List.mem_cons.mp hb with rfl | hb
    · decide
    · exact digit_ne_end (h.2 b hb)

/-- Two splits of one text at the first byte equal to `c` are the same split. -/
theorem split_unique {c : UInt8} {p q s t : List UInt8} (hp : ∀ b ∈ p, b ≠ c)
    (hq : ∀ b ∈ q, b ≠ c) (h : p ++ c :: s = q ++ c :: t) : p = q ∧ s = t := by
  induction p generalizing q with
  | nil =>
    cases q with
    | nil => exact ⟨rfl, (List.cons.inj h).2⟩
    | cons b q => exact absurd (List.cons.inj h).1.symm (hq b (by simp))
  | cons a p ih =>
    cases q with
    | nil => exact absurd (List.cons.inj h).1 (hp a (by simp))
    | cons b q =>
      obtain ⟨rfl, ht⟩ := List.cons.inj h
      obtain ⟨rfl, hs⟩ := ih (fun x hx => hp x (List.mem_cons_of_mem _ hx))
        (fun x hx => hq x (List.mem_cons_of_mem _ hx)) ht
      exact ⟨rfl, hs⟩

theorem StringText.head {w b : List UInt8} (h : StringText loose w b) :
    ∃ c t, w = c :: t ∧ isDigit c = true := by
  obtain ⟨l, ⟨hl, _⟩, rfl⟩ := h
  cases l with
  | nil => exact absurd rfl hl.1
  | cons c l => exact ⟨c, _, rfl, numeral_head hl⟩

theorem StringText.unique {w w' b b' t t' : List UInt8} (h : StringText loose w b)
    (h' : StringText loose w' b') (he : w ++ t = w' ++ t') : w = w' ∧ b = b' ∧ t = t' := by
  obtain ⟨l, ⟨hl, hn⟩, rfl⟩ := h
  obtain ⟨l', ⟨hl', hn'⟩, rfl⟩ := h'
  simp only [List.append_assoc, List.cons_append] at he
  obtain ⟨rfl, hb⟩ := split_unique (fun b hb => digit_ne_colon (hl.2 b hb))
    (fun b hb => digit_ne_colon (hl'.2 b hb)) he
  obtain ⟨rfl, ht⟩ := List.append_inj hb (hn.symm.trans hn')
  exact ⟨rfl, rfl, ht⟩

/-- No value begins with the end mark. -/
theorem Derives.head {w v} (h : Derives loose w (.value v)) : ∃ c t, w = c :: t ∧ c ≠ 101 := by
  cases h with
  | int => exact ⟨105, _, rfl, by decide⟩
  | str hs =>
    obtain ⟨c, t, rfl, hc⟩ := hs.head
    exact ⟨c, t, rfl, digit_ne_end hc⟩
  | list => exact ⟨108, _, rfl, by decide⟩
  | dict => exact ⟨100, _, rfl, by decide⟩

/-! ## One reading -/

/-- Agreement of two derivations whose texts begin one input; inside a list or
dictionary the text is taken up to the closing end mark. -/
def Agrees (w : List UInt8) : Node → Prop
  | .value v => ∀ w' v' t t', Derives loose w' (.value v') → w ++ t = w' ++ t' →
      w = w' ∧ v = v' ∧ t = t'
  | .items vs => ∀ w' vs' t t', Derives loose w' (.items vs') →
      w ++ 101 :: t = w' ++ 101 :: t' → w = w' ∧ vs = vs' ∧ t = t'
  | .entries es => ∀ w' es' t t', Derives loose w' (.entries es') →
      w ++ 101 :: t = w' ++ 101 :: t' → w = w' ∧ es = es' ∧ t = t'

private theorem digit_head_ne {w b : List UInt8} (hs : StringText loose w b) {c : UInt8}
    {t u : List UInt8} (hc : isDigit c = false) (he : w ++ t = c :: u) : False := by
  obtain ⟨d, w, rfl, hd⟩ := hs.head
  obtain ⟨rfl, _⟩ := List.cons.inj he
  rw [hc] at hd
  cases hd

theorem Derives.agrees {w n} (h : Derives loose w n) : Agrees w n := by
  induction h with
  | @int w i hi =>
    intro w' v' t t' h' he
    cases h' with
    | @int w' i' hi' =>
      obtain ⟨neg, ds, hds, rfl, rfl⟩ := hi
      obtain ⟨neg', ds', hds', rfl, rfl⟩ := hi'
      simp only [List.cons_append, List.append_assoc, List.cons.injEq, true_and,
        List.nil_append] at he
      obtain ⟨hw, ht⟩ := split_unique (signed_ne_end hds) (signed_ne_end hds') he
      obtain ⟨rfl, rfl⟩ := signed_inj hds hds' hw
      exact ⟨rfl, rfl, ht⟩
    | str hs => exact (digit_head_ne hs (by decide) he.symm).elim
    | list => simp at he
    | dict => simp at he
  | @str w b hs =>
    intro w' v' t t' h' he
    cases h' with
    | str hs' =>
      obtain ⟨hw, rfl, ht⟩ := hs.unique hs' he
      exact ⟨hw, rfl, ht⟩
    | int | list | dict => exact (digit_head_ne hs (by decide) he).elim
  | @list w vs _ ih =>
    intro w' v' t t' h' he
    cases h' with
    | str hs => exact (digit_head_ne hs (by decide) he.symm).elim
    | list h' =>
      simp only [List.cons_append, List.append_assoc, List.cons.injEq, true_and,
        List.nil_append] at he
      obtain ⟨rfl, rfl, ht⟩ := ih _ _ _ _ h' he
      exact ⟨rfl, rfl, ht⟩
    | int => simp at he
    | dict => simp at he
  | @dict w es _ _ ih =>
    intro w' v' t t' h' he
    cases h' with
    | str hs => exact (digit_head_ne hs (by decide) he.symm).elim
    | dict h' =>
      simp only [List.cons_append, List.append_assoc, List.cons.injEq, true_and,
        List.nil_append] at he
      obtain ⟨rfl, rfl, ht⟩ := ih _ _ _ _ h' he
      exact ⟨rfl, rfl, ht⟩
    | int => simp at he
    | list => simp at he
  | noItems =>
    intro w' vs' t t' h' he
    cases h' with
    | noItems => exact ⟨rfl, rfl, by simpa using he⟩
    | item hv _ =>
      obtain ⟨c, u, rfl, hc⟩ := hv.head
      exact absurd (List.cons.inj he).1.symm hc
  | item hv _ ihv ihs =>
    intro w' vs' t t' h' he
    cases h' with
    | noItems =>
      obtain ⟨c, u, rfl, hc⟩ := hv.head
      exact absurd (List.cons.inj he).1 hc
    | item hv' hs' =>
      rw [List.append_assoc, List.append_assoc] at he
      obtain ⟨rfl, rfl, he⟩ := ihv _ _ _ _ hv' he
      obtain ⟨rfl, rfl, ht⟩ := ihs _ _ _ _ hs' he
      exact ⟨rfl, rfl, ht⟩
  | noEntries =>
    intro w' es' t t' h' he
    cases h' with
    | noEntries => exact ⟨rfl, rfl, by simpa using he⟩
    | entry hk _ _ =>
      rw [List.append_assoc] at he
      exact (digit_head_ne hk (by decide) he.symm).elim
  | entry hk _ _ ihv ihs =>
    intro w' es' t t' h' he
    cases h' with
    | noEntries =>
      rw [List.append_assoc] at he
      exact (digit_head_ne hk (by decide) he).elim
    | entry hk' hv' hs' =>
      simp only [List.append_assoc] at he
      obtain ⟨rfl, rfl, he⟩ := hk.unique hk' he
      obtain ⟨rfl, rfl, he⟩ := ihv _ _ _ _ hv' he
      obtain ⟨rfl, rfl, ht⟩ := ihs _ _ _ _ hs' he
      exact ⟨rfl, rfl, ht⟩

/-! ## Where a key is due -/

inductive Place where
  | value
  | items
  | entries

/-- Beginnings of a text, up to a position where the key of a dictionary entry
is to come next (or the end mark of that dictionary). -/
inductive KeyDue (D : Dialect) : List UInt8 → Place → Prop where
  | list {p} : KeyDue D p .items → KeyDue D (108 :: p) .value
  | dict {p} : KeyDue D p .entries → KeyDue D (100 :: p) .value
  | first {p} : KeyDue D p .value → KeyDue D p .items
  | next {w v p} : Derives D w (.value v) → KeyDue D p .items → KeyDue D (w ++ p) .items
  | here : KeyDue D [] .entries
  | inside {k b p} : StringText D k b → KeyDue D p .value → KeyDue D (k ++ p) .entries
  | after {k b w v p} : StringText D k b → Derives D w (.value v) → KeyDue D p .entries →
      KeyDue D (k ++ (w ++ p)) .entries

theorem KeyDue.after_items {D : Dialect} {w p n} (h : Derives D w n) (hp : KeyDue D p .items) :
    ∀ {vs}, n = .items vs → KeyDue D (w ++ p) .items := by
  induction h with
  | noItems =>
    intro vs _
    exact hp
  | item hv _ _ ih =>
    intro vs _
    rw [List.append_assoc]
    exact .next hv (ih rfl)
  | _ => intro vs hn; cases hn

theorem KeyDue.after_entries {D : Dialect} {w p n} (h : Derives D w n) (hp : KeyDue D p .entries) :
    ∀ {es}, n = .entries es → KeyDue D (w ++ p) .entries := by
  induction h with
  | noEntries =>
    intro es _
    exact hp
  | entry hk hv _ _ ih =>
    intro es _
    rw [List.append_assoc, List.append_assoc]
    exact .after hk hv (ih rfl)
  | _ => intro es hn; cases hn

theorem Derives.items_append {D : Dialect} {w w' n vs'} (h : Derives D w n)
    (h' : Derives D w' (.items vs')) :
    ∀ {vs}, n = .items vs → Derives D (w ++ w') (.items (vs ++ vs')) := by
  induction h with
  | noItems =>
    intro vs hn
    cases hn
    exact h'
  | item hv _ _ ih =>
    intro vs hn
    cases hn
    rw [List.append_assoc]
    exact .item hv (ih rfl)
  | _ => intro vs hn; cases hn

theorem Derives.entries_append {D : Dialect} {w w' n es'} (h : Derives D w n)
    (h' : Derives D w' (.entries es')) :
    ∀ {es}, n = .entries es → Derives D (w ++ w') (.entries (es ++ es')) := by
  induction h with
  | noEntries =>
    intro es hn
    cases hn
    exact h'
  | entry hk hv _ _ ih =>
    intro es hn
    cases hn
    rw [List.append_assoc, List.append_assoc]
    exact .entry hk hv (ih rfl)
  | _ => intro es hn; cases hn

/-- A text that reaches the position, inside a list or dictionary with its end mark. -/
def Reaches (u : List UInt8) : Place → Prop
  | .value => ∃ w v t, Derives loose w (.value v) ∧ u = w ++ t
  | .items => ∃ w vs t, Derives loose w (.items vs) ∧ u = w ++ 101 :: t
  | .entries => ∃ w es t, Derives loose w (.entries es) ∧ u = w ++ 101 :: t

private theorem Reaches.entry {k b u} (hk : StringText loose k b) (h : Reaches (k ++ u) .entries) :
    ∃ w v ws es t, Derives loose w (.value v) ∧ Derives loose ws (.entries es) ∧
      u = w ++ (ws ++ 101 :: t) := by
  obtain ⟨w, es, t, hd, he⟩ := h
  cases hd with
  | noEntries => exact (digit_head_ne hk (by decide) he).elim
  | entry hk' hv hs =>
    simp only [List.append_assoc] at he
    obtain ⟨_, _, hu⟩ := hk.unique hk' he
    exact ⟨_, _, _, _, t, hv, hs, hu⟩

private theorem Reaches.item {c u} (hc : c ≠ 101) (h : Reaches (c :: u) .items) :
    ∃ w v ws vs t, Derives loose w (.value v) ∧ Derives loose ws (.items vs) ∧
      c :: u = w ++ (ws ++ 101 :: t) := by
  obtain ⟨w, vs, t, hd, he⟩ := h
  cases hd with
  | noItems => exact absurd (List.cons.inj he).1 hc
  | item hv hs => exact ⟨_, _, _, _, t, hv, hs, by rw [he, List.append_assoc]⟩

/-- In a text of the grammar only a digit or an end mark stands where a key is due. -/
theorem KeyDue.next_byte {p pl} (h : KeyDue loose p pl) {c : UInt8} {b : List UInt8}
    (hr : Reaches (p ++ c :: b) pl) : isDigit c = true ∨ c = 101 := by
  induction h with
  | list _ ih =>
    obtain ⟨w, v, t, hd, he⟩ := hr
    cases hd with
    | str hs => exact (digit_head_ne hs (by decide) he.symm).elim
    | list hs => exact ih ⟨_, _, t, hs, by simpa using he⟩
    | int | dict => simp at he
  | dict _ ih =>
    obtain ⟨w, v, t, hd, he⟩ := hr
    cases hd with
    | str hs => exact (digit_head_ne hs (by decide) he.symm).elim
    | dict hs => exact ih ⟨_, _, t, hs, by simpa using he⟩
    | int | list => simp at he
  | @first p hp ih =>
    have hhead : ∃ d q, p = d :: q ∧ d ≠ 101 := by
      cases hp with
      | list => exact ⟨108, _, rfl, by decide⟩
      | dict => exact ⟨100, _, rfl, by decide⟩
    obtain ⟨d, q, rfl, hd⟩ := hhead
    obtain ⟨w, v, ws, vs, t, hv, _, he⟩ := Reaches.item hd hr
    exact ih ⟨w, v, ws ++ 101 :: t, hv, he⟩
  | @next w _ p hw _ ih =>
    obtain ⟨d, u, rfl, hd⟩ := hw.head
    rw [List.append_assoc] at hr
    obtain ⟨w', v', ws, vs, t, hv, hs, he⟩ := Reaches.item hd hr
    obtain ⟨_, _, he⟩ := hw.agrees _ _ _ _ hv he
    exact ih ⟨ws, vs, t, hs, he⟩
  | here =>
    obtain ⟨w, es, t, hd, he⟩ := hr
    cases hd with
    | noEntries => exact Or.inr (List.cons.inj he).1
    | entry hk _ _ =>
      obtain ⟨d, u, rfl, hd⟩ := hk.head
      obtain ⟨rfl, _⟩ := List.cons.inj he
      exact Or.inl hd
  | inside hk _ ih =>
    rw [List.append_assoc] at hr
    obtain ⟨w, v, ws, es, t, hv, _, he⟩ := Reaches.entry hk hr
    exact ih ⟨w, v, ws ++ 101 :: t, hv, he⟩
  | after hk hw _ ih =>
    rw [List.append_assoc, List.append_assoc] at hr
    obtain ⟨w, v, ws, es, t, hv, hs, he⟩ := Reaches.entry hk hr
    obtain ⟨_, _, he⟩ := hw.agrees _ _ _ _ hv he
    exact ih ⟨ws, es, t, hs, he⟩

end Lib.Bencode
