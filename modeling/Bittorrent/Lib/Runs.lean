import Mathlib.Order.WellFounded

/-! Systems that take one step after another, each step an action that is or is
not possible. What every step keeps, every run keeps; `Inevitable` is what every
run comes to when it cannot go on, and that it comes to an end. -/

namespace Lib.Runs

variable {α σ : Type} {step : α → σ → Option σ} {actions : List α} {s s' : σ}

def run (step : α → σ → Option σ) : List α → σ → Option σ
  | [], s => some s
  | a :: actions, s => (step a s).bind (run step actions)

/-- Nothing is possible. -/
def Stuck (step : α → σ → Option σ) (s : σ) : Prop := ∀ a, step a s = none

theorem run_cons_eq_some {a : α} : run step (a :: actions) s = some s' ↔
    ∃ mid, step a s = some mid ∧ run step actions mid = some s' := Option.bind_eq_some_iff

theorem run_append (actions later : List α) (s : σ) :
    run step (actions ++ later) s = (run step actions s).bind (run step later) := by
  induction actions generalizing s with
  | nil => rfl
  | cons a actions ih =>
    rw [List.cons_append, run, run, Option.bind_assoc]
    exact congrArg ((step a s).bind ·) (funext ih)

/-- What each step keeps is kept by a run. -/
theorem run_invariant {I : σ → Prop} (hstep : ∀ a s s', I s → step a s = some s' → I s')
    (hs : I s) (h : run step actions s = some s') : I s' := by
  induction actions generalizing s with
  | nil =>
    cases h
    exact hs
  | cons a actions ih =>
    obtain ⟨mid, ha, h⟩ := run_cons_eq_some.mp h
    exact ih (hstep a s mid hs ha) h

/-- Some run leads from the one state to the other. -/
def Leads (step : α → σ → Option σ) (s s' : σ) : Prop := ∃ actions, run step actions s = some s'

theorem Leads.refl (step : α → σ → Option σ) (s : σ) : Leads step s s := ⟨[], rfl⟩

theorem Leads.single {a : α} (ha : step a s = some s') : Leads step s s' :=
  ⟨[a], run_cons_eq_some.mpr ⟨s', ha, rfl⟩⟩

theorem Leads.trans {s'' : σ} (h : Leads step s s') (h' : Leads step s' s'') : Leads step s s'' := by
  obtain ⟨actions, hrun⟩ := h
  obtain ⟨later, hrun'⟩ := h'
  refine ⟨actions ++ later, ?_⟩
  rw [run_append, hrun]
  exact hrun'

/-- Every run from here ends, and ends where `Q` holds. -/
inductive Inevitable (step : α → σ → Option σ) (Q : σ → Prop) : σ → Prop where
  | intro {s : σ} : (Stuck step s → Q s) →
      (∀ a s', step a s = some s' → Inevitable step Q s') → Inevitable step Q s

namespace Inevitable

variable {Q : σ → Prop}

theorem next (h : Inevitable step Q s) {a : α} (ha : step a s = some s') :
    Inevitable step Q s' := by
  cases h with
  | intro _ hstep => exact hstep a s' ha

theorem mono {Q' : σ → Prop} (h : Inevitable step Q s) (hQ : ∀ s, Q s → Q' s) :
    Inevitable step Q' s := by
  induction h with
  | intro hstuck _ ih => exact .intro (fun hs => hQ _ (hstuck hs)) ih

/-- By a measure that every step makes smaller, under an invariant. -/
theorem of_measure {I : σ → Prop} (measure : σ → Nat)
    (hstep : ∀ a s s', I s → step a s = some s' → I s' ∧ measure s' < measure s)
    (hstuck : ∀ s, I s → Stuck step s → Q s) (hs : I s) : Inevitable step Q s := by
  induction hn : measure s using Nat.strong_induction_on generalizing s with
  | _ n ih =>
    refine .intro (hstuck s hs) fun a s' ha => ?_
    obtain ⟨hs', hlt⟩ := hstep a s s' hs ha
    exact ih (measure s') (hn ▸ hlt) hs' rfl

/-- What some run can avoid is not inevitable: from each state in `B` one can go
on within `B`, or the run ends there without `Q`. -/
theorem avoided {B : σ → Prop}
    (hB : ∀ s, B s → (∃ a s', step a s = some s' ∧ B s') ∨ (Stuck step s ∧ ¬ Q s)) (hs : B s) :
    ¬ Inevitable step Q s := by
  intro h
  induction h with
  | @intro s hstuck _ ih =>
    rcases hB s hs with ⟨a, s', ha, hs'⟩ | ⟨hend, hQ⟩
    · exact ih a s' ha hs'
    · exact hQ (hstuck hend)

end Inevitable

end Lib.Runs
