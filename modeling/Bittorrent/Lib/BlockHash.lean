import Bittorrent.Lib.Chunks

/-! Hashing block by block an input that arrives in parts of any length. What
does not fill a block yet is kept for the next part, so where the input was cut
makes no difference. -/

namespace Lib.BlockHash
open Lib.Chunks

variable {σ α : Type}

structure Absorbed (σ α : Type) where
  state : σ
  rest : List α
  /-- How many blocks went into the state. -/
  blocks : Nat

variable (n : Nat) (f : σ → List α → σ)

def absorbOne (a : Absorbed σ α) (x : α) : Absorbed σ α :=
  if a.rest.length + 1 = n then ⟨f a.state (a.rest ++ [x]), [], a.blocks + 1⟩
  else { a with rest := a.rest ++ [x] }

def absorb (a : Absorbed σ α) (xs : List α) : Absorbed σ α := xs.foldl (absorbOne n f) a

variable {n f}

@[simp] theorem absorb_nil (a : Absorbed σ α) : absorb n f a [] = a := rfl

theorem absorb_append (a : Absorbed σ α) (xs ys : List α) :
    absorb n f a (xs ++ ys) = absorb n f (absorb n f a xs) ys := List.foldl_append

/-- Too little for a block. -/
theorem absorb_short {xs : List α} {a : Absorbed σ α} (h : a.rest.length + xs.length < n) :
    absorb n f a xs = { a with rest := a.rest ++ xs } := by
  induction xs generalizing a with
  | nil => simp
  | cons x xs ih =>
    rw [List.length_cons] at h
    have hone : absorbOne n f a x = { a with rest := a.rest ++ [x] } := by
      rw [absorbOne, if_neg (by omega)]
    have hshort := ih (a := { a with rest := a.rest ++ [x] }) (by simp; omega)
    rw [absorb, List.foldl_cons, hone, ← absorb, hshort]
    simp

/-- Just what the block wants. -/
theorem absorb_full {xs : List α} {a : Absorbed σ α} (hlt : a.rest.length < n)
    (h : a.rest.length + xs.length = n) :
    absorb n f a xs = ⟨f a.state (a.rest ++ xs), [], a.blocks + 1⟩ := by
  have hne : xs ≠ [] := by
    rintro rfl
    simp only [List.length_nil] at h
    omega
  obtain ⟨ys, y, rfl⟩ := (List.eq_nil_or_concat xs).resolve_left hne
  rw [List.concat_eq_append, List.length_append, List.length_singleton] at *
  have hys : absorb n f a ys = { a with rest := a.rest ++ ys } := absorb_short (by omega)
  rw [absorb_append, hys]
  show absorbOne n f { a with rest := a.rest ++ ys } y = _
  rw [absorbOne, if_pos (by simp; omega)]
  simp

/-- Nothing is lost: what arrived is in the blocks and in the rest. -/
theorem absorb_length (a : Absorbed σ α) (xs : List α) :
    (absorb n f a xs).blocks * n + (absorb n f a xs).rest.length =
      a.blocks * n + a.rest.length + xs.length := by
  induction xs generalizing a with
  | nil => rfl
  | cons x xs ih =>
    have hone : (absorbOne n f a x).blocks * n + (absorbOne n f a x).rest.length =
        a.blocks * n + a.rest.length + 1 := by
      rw [absorbOne]
      split
      · next hn => simp [Nat.succ_mul]; omega
      · simp; omega
    have hxs := ih (absorbOne n f a x)
    rw [hone] at hxs
    rw [List.length_cons]
    exact hxs.trans (by omega)

/-- Whole blocks leave nothing over. -/
theorem absorb_blocks (hn : 0 < n) {k : Nat} (s : σ) (j : Nat) {xs : List α}
    (h : xs.length = n * k) :
    absorb n f ⟨s, [], j⟩ xs = ⟨(chunk n xs).foldl f s, [], j + k⟩ := by
  obtain ⟨cs, rfl, hcs, rfl⟩ := exists_chunks k h
  clear h
  rw [chunk_flatten hn hcs]
  induction cs generalizing s j with
  | nil => rfl
  | cons c cs ih =>
    have hc := hcs c (by simp)
    have hfull : absorb n f ⟨s, [], j⟩ c = ⟨f s c, [], j + 1⟩ :=
      absorb_full hn (by simpa using hc)
    rw [List.flatten_cons, absorb_append, hfull, ih _ _ fun d hd => hcs d (List.mem_cons_of_mem _ hd),
      List.foldl_cons, List.length_cons, Nat.add_assoc, Nat.add_comm 1]

end Lib.BlockHash
