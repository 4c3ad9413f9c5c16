import Bittorrent.Lib.Decimal

/-! JSON values as text on one line. The code for the bytes of a string is a
parameter: whenever it can be taken apart again and makes no quotation mark, no
text stands for two values, and none is the beginning of another in front of a
comma or a closing bracket (`text_unique`). -/

namespace Lib.JsonText

open Lib.Decimal

inductive Tree where
  | null
  | int (i : Int)
  | str (s : List UInt8)
  | arr (items : List Tree)
  | obj (members : List (List UInt8 × Tree))

/-- A code for the bytes between two quotation marks. -/
structure Escape where
  code : UInt8 → List UInt8
  head : ∀ b, ∃ c cs, code b = c :: cs ∧ c ≠ 34
  cut : ∀ b b' t t', code b ++ t = code b' ++ t' → b = b' ∧ t = t'

/-- Parts between brackets, with commas between them. -/
def bracketed (first last : UInt8) (parts : List (List UInt8)) : List UInt8 :=
  first :: [44].intercalate parts ++ [last]

section
variable (escape : Escape)

def quote (s : List UInt8) : List UInt8 := 34 :: s.flatMap escape.code ++ [34]

mutual

def text : Tree → List UInt8
  | .null => [110, 117, 108, 108]
  | .int i => printInt i
  | .str s => quote escape s
  | .arr items => bracketed 91 93 (texts items)
  | .obj members => bracketed 123 125 (memberTexts members)
termination_by structural tree => tree

def texts : List Tree → List (List UInt8)
  | [] => []
  | item :: items => text item :: texts items
termination_by structural items => items

def memberTexts : List (List UInt8 × Tree) → List (List UInt8)
  | [] => []
  | member :: members => memberText member :: memberTexts members
termination_by structural members => members

def memberText : List UInt8 × Tree → List UInt8
  | (key, value) => quote escape key ++ 58 :: text value
termination_by structural member => member

end

theorem texts_eq_map (items : List Tree) : texts escape items = items.map (text escape) := by
  induction items with
  | nil => rfl
  | cons item items ih => rw [texts, ih, List.map_cons]

theorem memberTexts_eq_map (members : List (List UInt8 × Tree)) :
    memberTexts escape members = members.map (memberText escape) := by
  induction members with
  | nil => rfl
  | cons member members ih => rw [memberTexts, ih, List.map_cons]

end

variable {escape : Escape}

/-! ## Numbers and strings -/

/-- No digit comes next. -/
def Delimited (t : List UInt8) : Prop := ∀ b ∈ t.head?, isDigit b = false

theorem print_unique {m n : Nat} {t u : List UInt8} (ht : Delimited t) (hu : Delimited u)
    (h : print m ++ t = print n ++ u) : m = n ∧ t = u := by
  have hdigits : print m = print n := by
    rw [← takeWhile_numeral (print_numeral m) ht, h, takeWhile_numeral (print_numeral n) hu]
  have hvalue : m = n := by rw [← value_print m, hdigits, value_print]
  subst hvalue
  exact ⟨rfl, List.append_cancel_left h⟩

theorem print_head (n : Nat) : ∃ c cs, print n = c :: cs ∧ isDigit c = true := by
  cases hn : print n with
  | nil => exact absurd hn (print_numeral n).1
  | cons c cs => exact ⟨c, cs, rfl, numeral_head (hn ▸ print_numeral n)⟩

/-- A sign is not the head of a number without one. -/
theorem sign_ne_print {n : Nat} {s t : List UInt8} : 45 :: s ≠ print n ++ t := by
  obtain ⟨c, cs, hn, hc⟩ := print_head n
  intro h
  rw [hn] at h
  rw [← (List.cons.inj h).1] at hc
  exact absurd hc (by decide)

theorem printInt_unique {i j : Int} {t u : List UInt8} (ht : Delimited t) (hu : Delimited u)
    (h : printInt i ++ t = printInt j ++ u) : i = j ∧ t = u := by
  unfold printInt at h
  by_cases hi : i < 0 <;> by_cases hj : j < 0
  · rw [if_pos hi, if_pos hj] at h
    obtain ⟨hn, htu⟩ := print_unique ht hu (List.cons.inj h).2
    exact ⟨by omega, htu⟩
  · rw [if_pos hi, if_neg hj] at h
    exact absurd h sign_ne_print
  · rw [if_neg hi, if_pos hj] at h
    exact absurd h.symm sign_ne_print
  · rw [if_neg hi, if_neg hj] at h
    obtain ⟨hn, htu⟩ := print_unique ht hu h
    exact ⟨by omega, htu⟩

/-- A string ends at the first quotation mark behind its own. -/
theorem quoted_unique {s : List UInt8} : ∀ {s' t u : List UInt8},
    s.flatMap escape.code ++ 34 :: t = s'.flatMap escape.code ++ 34 :: u → s = s' ∧ t = u := by
  have hmark : ∀ (b : UInt8) (rest v : List UInt8), 34 :: v ≠ escape.code b ++ rest := by
    intro b rest v h
    obtain ⟨c, cs, hb, hc⟩ := escape.head b
    rw [hb] at h
    exact hc (List.cons.inj h).1.symm
  induction s with
  | nil =>
    intro s' t u h
    cases s' with
    | nil => exact ⟨rfl, (List.cons.inj h).2⟩
    | cons b s' =>
      rw [List.flatMap_cons, List.append_assoc] at h
      exact absurd h (hmark b _ _)
  | cons a s ih =>
    intro s' t u h
    cases s' with
    | nil =>
      rw [List.flatMap_cons, List.append_assoc] at h
      exact absurd h.symm (hmark a _ _)
    | cons b s' =>
      rw [List.flatMap_cons, List.flatMap_cons, List.append_assoc, List.append_assoc] at h
      obtain ⟨rfl, hrest⟩ := escape.cut a b _ _ h
      obtain ⟨rfl, htu⟩ := ih hrest
      exact ⟨rfl, htu⟩

theorem quote_unique {s s' t u : List UInt8} (h : quote escape s ++ t = quote escape s' ++ u) :
    s = s' ∧ t = u := by
  simp only [quote, List.cons_append, List.append_assoc, List.nil_append] at h
  exact quoted_unique (List.cons.inj h).2

/-! ## Brackets -/

/-- What follows the first part. -/
def closing (last : UInt8) (t : List UInt8) : List (List UInt8) → List UInt8
  | [] => last :: t
  | p :: ps => 44 :: (p ++ closing last t ps)

theorem intercalate_cons (p : List UInt8) (ps : List (List UInt8)) (last : UInt8) (t : List UInt8) :
    [44].intercalate (p :: ps) ++ last :: t = p ++ closing last t ps := by
  induction ps generalizing p with
  | nil => simp [closing]
  | cons q ps ih =>
    rw [closing, ← ih q]
    simp

/-- Closing brackets. -/
def Closes (last : UInt8) : Prop := last = 93 ∨ last = 125

theorem closing_delimited {last : UInt8} (hlast : Closes last) (t : List UInt8)
    (ps : List (List UInt8)) : Delimited (closing last t ps) := by
  intro b hb
  cases ps with
  | nil =>
    cases hb
    rcases hlast with rfl | rfl <;> decide
  | cons p ps =>
    cases hb
    decide

section
variable {α : Type} {f : α → List UInt8}

/-- In front of a delimiter the text of `x` stands for `x` only. -/
def Unique (f : α → List UInt8) (x : α) : Prop :=
  ∀ y t u, Delimited t → Delimited u → f x ++ t = f y ++ u → x = y ∧ t = u

theorem closing_unique {last : UInt8} (hlast : Closes last) {xs : List α}
    (hxs : ∀ x ∈ xs, Unique f x) : ∀ {ys : List α} {t u : List UInt8},
    closing last t (xs.map f) = closing last u (ys.map f) → xs = ys ∧ t = u := by
  have hcomma : last ≠ 44 := by rcases hlast with rfl | rfl <;> decide
  induction xs with
  | nil =>
    intro ys t u h
    cases ys with
    | nil => exact ⟨rfl, (List.cons.inj h).2⟩
    | cons y ys => exact absurd (List.cons.inj h).1 hcomma
  | cons x xs ih =>
    intro ys t u h
    cases ys with
    | nil => exact absurd (List.cons.inj h).1.symm hcomma
    | cons y ys =>
      obtain ⟨rfl, hrest⟩ := hxs x (by simp) y _ _ (closing_delimited hlast _ _)
        (closing_delimited hlast _ _) (List.cons.inj h).2
      obtain ⟨rfl, htu⟩ := ih (fun x hx => hxs x (List.mem_cons_of_mem _ hx)) hrest
      exact ⟨rfl, htu⟩

theorem bracketed_unique {first last : UInt8} (hlast : Closes last)
    (hhead : ∀ x, ∃ c cs, f x = c :: cs ∧ ¬ Closes c) {xs ys : List α}
    (hxs : ∀ x ∈ xs, Unique f x) {t u : List UInt8}
    (h : bracketed first last (xs.map f) ++ t = bracketed first last (ys.map f) ++ u) :
    xs = ys ∧ t = u := by
  have hfull : ∀ (y : α) (v rest : List UInt8), last :: v ≠ f y ++ rest := by
    intro y v rest he
    obtain ⟨c, cs, hy, hc⟩ := hhead y
    rw [hy] at he
    exact hc ((List.cons.inj he).1 ▸ hlast)
  simp only [bracketed, List.cons_append, List.append_assoc, List.nil_append] at h
  replace h := (List.cons.inj h).2
  cases xs with
  | nil =>
    cases ys with
    | nil => exact ⟨rfl, (List.cons.inj h).2⟩
    | cons y ys =>
      rw [List.map_cons, intercalate_cons] at h
      exact absurd h (hfull y t _)
  | cons x xs =>
    cases ys with
    | nil =>
      rw [List.map_cons, intercalate_cons] at h
      exact absurd h.symm (hfull x u _)
    | cons y ys =>
      rw [List.map_cons, List.map_cons, intercalate_cons, intercalate_cons] at h
      obtain ⟨rfl, hrest⟩ := hxs x (by simp) y _ _ (closing_delimited hlast _ _)
        (closing_delimited hlast _ _) h
      obtain ⟨rfl, htu⟩ := closing_unique hlast (fun x hx => hxs x (List.mem_cons_of_mem _ hx)) hrest
      exact ⟨rfl, htu⟩

end

/-! ## Values -/

/-- The constructor of a value, which the first byte of its text gives away. -/
inductive Kind where
  | null | int | str | arr | obj
  deriving DecidableEq

def Tree.kind : Tree → Kind
  | .null => .null
  | .int _ => .int
  | .str _ => .str
  | .arr _ => .arr
  | .obj _ => .obj

def kindOf (c : UInt8) : Option Kind :=
  if c = 110 then some .null else if c = 34 then some .str else if c = 91 then some .arr
  else if c = 123 then some .obj else if c = 45 ∨ isDigit c = true then some .int else none

theorem kindOf_digit {c : UInt8} (h : isDigit c = true) : kindOf c = some .int := by
  have hc := isDigit_iff.mp h
  have hne : ∀ d : UInt8, 57 < d.toNat → c ≠ d := fun d hd he => by
    rw [he] at hc
    omega
  have hquote : c ≠ 34 := fun he => by
    rw [he] at hc
    exact absurd hc.1 (by decide)
  rw [kindOf, if_neg (hne 110 (by decide)), if_neg hquote, if_neg (hne 91 (by decide)),
    if_neg (hne 123 (by decide)), if_pos (Or.inr h)]

theorem text_kind (escape : Escape) (x : Tree) :
    ∃ c cs, text escape x = c :: cs ∧ kindOf c = some x.kind := by
  cases x with
  | null => exact ⟨_, _, rfl, rfl⟩
  | int i =>
    show ∃ c cs, printInt i = c :: cs ∧ _
    obtain ⟨c, cs, hn, hc⟩ := print_head i.natAbs
    unfold printInt
    split
    · exact ⟨_, _, rfl, rfl⟩
    · exact ⟨c, cs, hn, kindOf_digit hc⟩
  | str s => exact ⟨_, _, rfl, rfl⟩
  | arr items => exact ⟨_, _, rfl, rfl⟩
  | obj members => exact ⟨_, _, rfl, rfl⟩

theorem kind_eq {x y : Tree} {t u : List UInt8} (h : text escape x ++ t = text escape y ++ u) :
    x.kind = y.kind := by
  obtain ⟨c, cs, hx, hc⟩ := text_kind escape x
  obtain ⟨d, ds, hy, hd⟩ := text_kind escape y
  rw [hx, hy] at h
  rw [(List.cons.inj h).1, hd] at hc
  exact (Option.some.inj hc).symm

theorem text_head (x : Tree) : ∃ c cs, text escape x = c :: cs ∧ ¬ Closes c := by
  obtain ⟨c, cs, hx, hc⟩ := text_kind escape x
  refine ⟨c, cs, hx, ?_⟩
  rintro (rfl | rfl)
  · exact absurd hc nofun
  · exact absurd hc nofun

theorem memberText_head (m : List UInt8 × Tree) :
    ∃ c cs, memberText escape m = c :: cs ∧ ¬ Closes c := by
  obtain ⟨key, value⟩ := m
  exact ⟨34, _, rfl, nofun⟩

theorem Unique.member {m : List UInt8 × Tree} (h : Unique (text escape) m.2) :
    Unique (memberText escape) m := by
  obtain ⟨key, value⟩ := m
  rintro ⟨key', value'⟩ t u ht hu he
  simp only [memberText, List.append_assoc, List.cons_append] at he
  obtain ⟨rfl, hrest⟩ := quote_unique he
  obtain ⟨rfl, htu⟩ := h value' t u ht hu (List.cons.inj hrest).2
  exact ⟨rfl, htu⟩

mutual

theorem text_unique : ∀ x : Tree, Unique (text escape) x
  | .null => fun y t u _ _ h => by
    cases y with
    | null => exact ⟨rfl, List.append_cancel_left h⟩
    | _ => cases kind_eq h
  | .int i => fun y t u ht hu h => by
    cases y with
    | int j =>
      obtain ⟨rfl, htu⟩ := printInt_unique ht hu h
      exact ⟨rfl, htu⟩
    | _ => cases kind_eq h
  | .str s => fun y t u _ _ h => by
    cases y with
    | str s' =>
      obtain ⟨rfl, htu⟩ := quote_unique h
      exact ⟨rfl, htu⟩
    | _ => cases kind_eq h
  | .arr items => fun y t u _ _ h => by
    cases y with
    | arr items' =>
      simp only [text, texts_eq_map] at h
      obtain ⟨rfl, htu⟩ := bracketed_unique (Or.inl rfl) text_head (items_unique items) h
      exact ⟨rfl, htu⟩
    | _ => cases kind_eq h
  | .obj members => fun y t u _ _ h => by
    cases y with
    | obj members' =>
      simp only [text, memberTexts_eq_map] at h
      obtain ⟨rfl, htu⟩ := bracketed_unique (Or.inr rfl) memberText_head
        (members_unique members) h
      exact ⟨rfl, htu⟩
    | _ => cases kind_eq h
termination_by structural x => x

theorem items_unique : ∀ items : List Tree, ∀ x ∈ items, Unique (text escape) x
  | [] => nofun
  | item :: items => List.forall_mem_cons.mpr ⟨text_unique item, items_unique items⟩
termination_by structural items => items

theorem members_unique : ∀ members : List (List UInt8 × Tree), ∀ m ∈ members,
    Unique (memberText escape) m
  | [] => nofun
  | member :: members => List.forall_mem_cons.mpr ⟨member_unique member, members_unique members⟩
termination_by structural members => members

theorem member_unique : ∀ m : List UInt8 × Tree, Unique (memberText escape) m
  | (_, value) => .member (text_unique value)
termination_by structural m => m

end

theorem text_injective : Function.Injective (text escape) := fun x y h => by
  have hend : Delimited [] := nofun
  have hempty : text escape x ++ [] = text escape y ++ [] := by rw [h]
  exact (text_unique x y [] [] hend hend hempty).1

end Lib.JsonText
