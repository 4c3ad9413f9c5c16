import Mathlib.Algebra.Order.Group.Nat
import Mathlib.Data.List.Basic

/-! Cutting a list into parts of one length. Joining the parts gives the list
back, and a list that was joined from such parts is cut into the same ones. -/

namespace Lib.Chunks

variable {α : Type}

def chunkFrom (k : Nat) : Nat → List α → List (List α)
  | 0, _ => []
  | fuel + 1, xs => if xs = [] then [] else xs.take k :: chunkFrom k fuel (xs.drop k)

/-- Parts of length `k`; the last one may be shorter. -/
def chunk (k : Nat) (xs : List α) : List (List α) := chunkFrom k xs.length xs

theorem chunkFrom_enough {k : Nat} (hk : 0 < k) (fuel : Nat) : ∀ (fuel' : Nat) (xs : List α),
    xs.length ≤ fuel → xs.length ≤ fuel' → chunkFrom k fuel xs = chunkFrom k fuel' xs := by
  induction fuel with
  | zero =>
    intro fuel' xs h _
    obtain rfl := List.eq_nil_of_length_eq_zero (Nat.le_zero.mp h)
    cases fuel' with
    | zero => rfl
    | succ fuel' => rfl
  | succ fuel ih =>
    intro fuel' xs h h'
    cases fuel' with
    | zero =>
      obtain rfl := List.eq_nil_of_length_eq_zero (Nat.le_zero.mp h')
      rfl
    | succ fuel' =>
      rw [chunkFrom, chunkFrom]
      split
      · rfl
      · next hne =>
        have hpos := List.length_pos_iff.mpr hne
        rw [ih fuel' (xs.drop k) (by rw [List.length_drop]; omega) (by rw [List.length_drop]; omega)]

theorem chunk_of_ne_nil {k : Nat} (hk : 0 < k) {xs : List α} (h : xs ≠ []) :
    chunk k xs = xs.take k :: chunk k (xs.drop k) := by
  obtain ⟨n, hn⟩ := Nat.exists_eq_succ_of_ne_zero (mt List.eq_nil_of_length_eq_zero h)
  have hstep : chunk k xs = xs.take k :: chunkFrom k n (xs.drop k) := by
    rw [chunk, hn, chunkFrom, if_neg h]
  rw [hstep, chunk, chunkFrom_enough hk n (xs.drop k).length (xs.drop k)
    (by rw [List.length_drop]; omega) (Nat.le_refl _)]

/-- A part in front of the others. -/
theorem chunk_append {k : Nat} (hk : 0 < k) {c : List α} (hc : c.length = k) (xs : List α) :
    chunk k (c ++ xs) = c :: chunk k xs := by
  have hne : c ++ xs ≠ [] := by
    intro h
    rw [(List.append_eq_nil_iff.mp h).1] at hc
    exact absurd hc (Nat.ne_of_lt hk)
  rw [chunk_of_ne_nil hk hne, List.take_left' hc, List.drop_left' hc]

theorem chunk_flatten {k : Nat} (hk : 0 < k) {cs : List (List α)} (h : ∀ c ∈ cs, c.length = k) :
    chunk k cs.flatten = cs := by
  induction cs with
  | nil => rfl
  | cons c cs ih =>
    rw [List.flatten_cons, chunk_append hk (h c (by simp)),
      ih fun d hd => h d (List.mem_cons_of_mem _ hd)]

/-- A list whose length `k` divides is joined from parts of that length. -/
theorem exists_chunks {k : Nat} (n : Nat) : ∀ {xs : List α}, xs.length = k * n →
    ∃ cs : List (List α), cs.length = n ∧ (∀ c ∈ cs, c.length = k) ∧ cs.flatten = xs := by
  induction n with
  | zero =>
    intro xs h
    exact ⟨[], rfl, by simp, (List.eq_nil_of_length_eq_zero h).symm⟩
  | succ n ih =>
    intro xs h
    rw [Nat.mul_succ] at h
    have hlen : (xs.drop k).length = k * n := by
      rw [List.length_drop]
      omega
    obtain ⟨cs, hn, hcs, hflat⟩ := ih hlen
    refine ⟨xs.take k :: cs, by rw [List.length_cons, hn], ?_, ?_⟩
    · intro c hc
      rcases List.mem_cons.mp hc with rfl | hc
      · exact List.length_take_of_le (by omega)
      · exact hcs c hc
    · rw [List.flatten_cons, hflat, List.take_append_drop]

/-- Exact parts: as many as fit, all of the length, and together the list. -/
theorem chunk_exact {k n : Nat} (hk : 0 < k) {xs : List α} (h : xs.length = k * n) :
    (chunk k xs).length = n ∧ (∀ c ∈ chunk k xs, c.length = k) ∧ (chunk k xs).flatten = xs := by
  obtain ⟨cs, hn, hcs, rfl⟩ := exists_chunks n h
  rw [chunk_flatten hk hcs]
  exact ⟨hn, hcs, rfl⟩

theorem chunk_getElem? {k n : Nat} (hk : 0 < k) : ∀ {xs : List α}, xs.length = k * n →
    ∀ {i : Nat}, i < n → (chunk k xs)[i]? = some ((xs.drop (k * i)).take k) := by
  induction n with
  | zero =>
    intro xs _ i hi
    exact absurd hi (Nat.not_lt_zero i)
  | succ n ih =>
    intro xs h i hi
    rw [Nat.mul_succ] at h
    have hne : xs ≠ [] := by
      rintro rfl
      simp only [List.length_nil] at h
      omega
    rw [chunk_of_ne_nil hk hne]
    cases i with
    | zero => rw [Nat.mul_zero, List.drop_zero, List.getElem?_cons_zero]
    | succ i =>
      rw [List.getElem?_cons_succ, ih (by rw [List.length_drop]; omega) (Nat.lt_of_succ_lt_succ hi),
        List.drop_drop, Nat.mul_succ, Nat.add_comm]

end Lib.Chunks
