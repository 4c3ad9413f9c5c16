import Mathlib.Order.Basic
import Mathlib.Order.Lattice
import Mathlib.Order.Defs.LinearOrder

/-! Ordered association lists with an insertion that never overwrites. A map
built from a list of entries keeps, for each key, the first entry given for
it, and lists the keys in increasing order; a list already in that order is
its own map. -/

namespace Lib.OrderedMap

variable {κ : Type} {α : Type} [LinearOrder κ]

/-- Strictly increasing, hence distinct, keys. -/
def Sorted (m : List (κ × α)) : Prop := m.Pairwise fun a b => a.1 < b.1

def lookup (k : κ) : List (κ × α) → Option α
  | [] => none
  | (k', v) :: m => if k = k' then some v else lookup k m

/-- Insertion at the ordered position; an entry already there stays. -/
def insert (k : κ) (v : α) : List (κ × α) → List (κ × α)
  | [] => [(k, v)]
  | (k', v') :: m =>
    if k < k' then (k, v) :: (k', v') :: m
    else if k' < k then (k', v') :: insert k v m
    else (k', v') :: m

/-- Insert the entries in the order of the list, into `m`. -/
def insertAll (m : List (κ × α)) (es : List (κ × α)) : List (κ × α) :=
  es.foldl (fun m e => insert e.1 e.2 m) m

def ofList (es : List (κ × α)) : List (κ × α) := insertAll [] es

@[simp] theorem lookup_nil (k : κ) : lookup k ([] : List (κ × α)) = none := rfl

theorem lookup_cons (k k' : κ) (v : α) (m : List (κ × α)) :
    lookup k ((k', v) :: m) = if k = k' then some v else lookup k m := rfl

@[simp] theorem insertAll_nil (m : List (κ × α)) : insertAll m [] = m := rfl

@[simp] theorem insertAll_cons (m es : List (κ × α)) (e : κ × α) :
    insertAll m (e :: es) = insertAll (insert e.1 e.2 m) es := rfl

theorem insertAll_append (m es es' : List (κ × α)) :
    insertAll m (es ++ es') = insertAll (insertAll m es) es' := List.foldl_append

theorem mem_insert {k : κ} {v : α} {m : List (κ × α)} {e : κ × α}
    (h : e ∈ insert k v m) : e = (k, v) ∨ e ∈ m := by
  induction m with
  | nil => simpa [insert] using h
  | cons hd m ih =>
    obtain ⟨k', v'⟩ := hd
    simp only [insert] at h
    split at h
    · simpa using h
    · split at h
      · rcases List.mem_cons.mp h with rfl | h
        · simp
        · rcases ih h with h | h
          · exact Or.inl h
          · exact Or.inr (List.mem_cons_of_mem _ h)
      · exact Or.inr h

theorem mem_of_lookup {k : κ} {v : α} {m : List (κ × α)} (h : lookup k m = some v) :
    (k, v) ∈ m := by
  induction m with
  | nil => cases h
  | cons hd m ih =>
    obtain ⟨k', v'⟩ := hd
    rw [lookup_cons] at h
    split at h
    · next he =>
      cases h
      rw [he]
      simp
    · exact List.mem_cons_of_mem _ (ih h)

theorem sorted_insert {k : κ} {v : α} {m : List (κ × α)} (h : Sorted m) :
    Sorted (insert k v m) := by
  induction m with
  | nil => simp [insert, Sorted]
  | cons hd m ih =>
    obtain ⟨k', v'⟩ := hd
    obtain ⟨hlt, hm⟩ := List.pairwise_cons.mp h
    simp only [insert]
    split
    · next hk =>
      refine List.pairwise_cons.mpr ⟨?_, h⟩
      intro e he
      rcases List.mem_cons.mp he with rfl | he
      · exact hk
      · exact lt_trans hk (hlt e he)
    · split
      · next hk =>
        refine List.pairwise_cons.mpr ⟨?_, ih hm⟩
        intro e he
        rcases mem_insert he with rfl | he
        · exact hk
        · exact hlt e he
      · exact h

private theorem lookup_none_of_lt {k : κ} {m : List (κ × α)} (h : ∀ e ∈ m, k < e.1) :
    lookup k m = none := by
  cases hl : lookup k m with
  | none => rfl
  | some v => exact absurd (h _ (mem_of_lookup hl)) (lt_irrefl k)

/-- Insertion answers for a key that was absent and changes no other answer. -/
theorem lookup_insert {k k' : κ} {v : α} {m : List (κ × α)} (h : Sorted m) :
    lookup k' (insert k v m) = (lookup k' m).or (if k' = k then some v else none) := by
  induction m with
  | nil => simp [insert, lookup_cons]
  | cons hd m ih =>
    obtain ⟨k0, v0⟩ := hd
    obtain ⟨hlt, hm⟩ := List.pairwise_cons.mp h
    simp only [insert]
    split
    · next hk =>
      by_cases he : k' = k
      · subst he
        have hn : lookup k' ((k0, v0) :: m) = none := lookup_none_of_lt (by
          intro e hm'
          rcases List.mem_cons.mp hm' with rfl | hm'
          · exact hk
          · exact lt_trans hk (hlt e hm'))
        rw [hn, lookup_cons, if_pos rfl]
        simp
      · simp [lookup_cons k' k, he]
    · split
      · simp only [lookup_cons, ih hm]
        split <;> simp
      · next hk hk' =>
        have he : k = k0 := le_antisymm (not_lt.mp hk') (not_lt.mp hk)
        subst he
        simp only [lookup_cons]
        split <;> simp

theorem lookup_insertAll {k : κ} {m es : List (κ × α)} (h : Sorted m) :
    lookup k (insertAll m es) = (lookup k m).or (lookup k es) := by
  induction es generalizing m with
  | nil => simp
  | cons e es ih =>
    obtain ⟨k', v⟩ := e
    rw [insertAll_cons, ih (sorted_insert h), lookup_insert h, lookup_cons, Option.or_assoc]
    by_cases he : k = k' <;> simp [he]

/-- The map of a list of entries answers with the first entry for a key. -/
theorem lookup_ofList (k : κ) (es : List (κ × α)) : lookup k (ofList es) = lookup k es := by
  rw [ofList, lookup_insertAll List.Pairwise.nil]
  simp

private theorem insert_last {k : κ} {v : α} {m : List (κ × α)} (h : ∀ e ∈ m, e.1 < k) :
    insert k v m = m ++ [(k, v)] := by
  induction m with
  | nil => rfl
  | cons hd m ih =>
    obtain ⟨k', v'⟩ := hd
    have hk : k' < k := h (k', v') (by simp)
    simp [insert, not_lt_of_gt hk, hk, ih fun e he => h e (List.mem_cons_of_mem _ he)]

private theorem insertAll_sorted {m es : List (κ × α)} (h : Sorted (m ++ es)) :
    insertAll m es = m ++ es := by
  induction es generalizing m with
  | nil => simp
  | cons e es ih =>
    have hl : ∀ a ∈ m, a.1 < e.1 := fun a ha =>
      (List.pairwise_append.mp h).2.2 a ha e (by simp)
    have ha : m ++ e :: es = (m ++ [e]) ++ es := by simp
    rw [insertAll_cons, insert_last hl, ih (ha ▸ h), ha]

/-- An ordered list of entries is its own map. -/
theorem ofList_of_sorted {es : List (κ × α)} (h : Sorted es) : ofList es = es := by
  simpa [ofList] using insertAll_sorted (m := []) (by simpa using h)

end Lib.OrderedMap
