import Mathlib.Order.WellFounded

/-! Reasoning about programs with a state and exceptions (`EStateM`): triples with
one postcondition for each way to end, and loops as the relation between the
states at their heads. -/

namespace Lib.Exec

variable {ε σ α β : Type}

/-- From a state with `P` the program returns in a state with `Q` or throws in
one with `E`. -/
def Triple (P : σ → Prop) (x : EStateM ε σ α) (Q : α → σ → Prop) (E : ε → σ → Prop) : Prop :=
  ∀ s, P s → match x s with
    | .ok a s' => Q a s'
    | .error e s' => E e s'

namespace Triple

variable {P P' : σ → Prop} {Q Q' : α → σ → Prop} {E E' : ε → σ → Prop}

theorem ok {x : EStateM ε σ α} (h : Triple P x Q E) {s s' : σ} {a : α} (hs : P s)
    (hx : x s = .ok a s') : Q a s' := by
  have := h s hs
  rwa [hx] at this

theorem error {x : EStateM ε σ α} (h : Triple P x Q E) {s s' : σ} {e : ε} (hs : P s)
    (hx : x s = .error e s') : E e s' := by
  have := h s hs
  rwa [hx] at this

theorem intro {x : EStateM ε σ α} (hok : ∀ s a s', P s → x s = .ok a s' → Q a s')
    (herr : ∀ s e s', P s → x s = .error e s' → E e s') : Triple P x Q E := by
  intro s hs
  cases hx : x s with
  | ok a s' => exact hok s a s' hs hx
  | error e s' => exact herr s e s' hs hx

theorem conseq {x : EStateM ε σ α} (h : Triple P x Q E) (hP : ∀ s, P' s → P s)
    (hQ : ∀ a s, Q a s → Q' a s) (hE : ∀ e s, E e s → E' e s) : Triple P' x Q' E' :=
  intro (fun _ _ _ hs hx => hQ _ _ (h.ok (hP _ hs) hx))
    (fun _ _ _ hs hx => hE _ _ (h.error (hP _ hs) hx))

theorem and {x : EStateM ε σ α} (h : Triple P x Q E) (h' : Triple P' x Q' E') :
    Triple (fun s => P s ∧ P' s) x (fun a s => Q a s ∧ Q' a s) (fun e s => E e s ∧ E' e s) :=
  intro (fun _ _ _ hs hx => ⟨h.ok hs.1 hx, h'.ok hs.2 hx⟩)
    (fun _ _ _ hs hx => ⟨h.error hs.1 hx, h'.error hs.2 hx⟩)

theorem pure (a : α) (h : ∀ s, P s → Q a s) : Triple P (pure a) Q E := h

theorem throw (e : ε) (h : ∀ s, P s → E e s) : Triple P (throw e : EStateM ε σ α) Q E := h

theorem modify {f : σ → σ} {Q : PUnit → σ → Prop} (h : ∀ s, P s → Q ⟨⟩ (f s)) :
    Triple P (modify f : EStateM ε σ PUnit) Q E := h

theorem bind {x : EStateM ε σ α} {f : α → EStateM ε σ β} {R : α → σ → Prop}
    {Q : β → σ → Prop} (hx : Triple P x R E) (hf : ∀ a, Triple (R a) (f a) Q E) :
    Triple P (x >>= f) Q E := by
  intro s hs
  have h := hx s hs
  show match EStateM.bind x f s with
    | .ok a s' => Q a s'
    | .error e s' => E e s'
  unfold EStateM.bind
  cases hxs : x s with
  | ok a s' =>
    rw [hxs] at h
    exact hf a s' h
  | error e s' =>
    rw [hxs] at h
    exact h

/-- The rest of a program may be verified for each state it can start in. -/
theorem reading {f : σ → EStateM ε σ β} {Q : β → σ → Prop}
    (h : ∀ s, P s → Triple P (f s) Q E) : Triple P (MonadState.get >>= f) Q E :=
  fun s hs => h s hs s hs

theorem ite {c : Prop} [Decidable c] {x y : EStateM ε σ α} (ht : c → Triple P x Q E)
    (hf : ¬ c → Triple P y Q E) : Triple P (if c then x else y) Q E := by
  by_cases h : c
  · rw [if_pos h]
    exact ht h
  · rw [if_neg h]
    exact hf h

end Triple

/-- The state a program leaves, in whichever way it ends. -/
def final (x : EStateM ε σ α) (s : σ) : σ :=
  match x s with
  | .ok _ s' => s'
  | .error _ s' => s'

theorem Triple.final {x : EStateM ε σ α} {P I : σ → Prop} (h : Triple P x (fun _ => I) fun _ => I)
    {s : σ} (hs : P s) : I (final x s) := by
  have := h s hs
  unfold Exec.final
  cases hx : x s with
  | ok a s' => rwa [hx] at this
  | error e s' => rwa [hx] at this

/-! ## Inversion -/

theorem bind_eq_ok {x : EStateM ε σ α} {f : α → EStateM ε σ β} {s s'' : σ} {b : β} :
    (x >>= f) s = .ok b s'' ↔ ∃ a s', x s = .ok a s' ∧ f a s' = .ok b s'' := by
  show EStateM.bind x f s = _ ↔ _
  unfold EStateM.bind
  cases x s <;> simp [and_assoc]

theorem bind_of_ok {x : EStateM ε σ α} {f : α → EStateM ε σ β} {s s' : σ} {a : α}
    (h : x s = .ok a s') : (x >>= f) s = f a s' := by
  show EStateM.bind x f s = _
  unfold EStateM.bind
  rw [h]

theorem bind_of_error {x : EStateM ε σ α} {f : α → EStateM ε σ β} {s s' : σ} {e : ε}
    (h : x s = .error e s') : (x >>= f) s = .error e s' := by
  show EStateM.bind x f s = _
  unfold EStateM.bind
  rw [h]

theorem map_of_ok {x : EStateM ε σ α} {s s' : σ} {a : α} (h : x s = .ok a s') (f : α → β) :
    (f <$> x) s = .ok (f a) s' := by
  rw [map_eq_pure_bind]
  exact bind_of_ok h

theorem map_of_error {x : EStateM ε σ α} {s s' : σ} {e : ε} (h : x s = .error e s') (f : α → β) :
    (f <$> x) s = .error e s' := by
  rw [map_eq_pure_bind]
  exact bind_of_error h

theorem get_bind (f : σ → EStateM ε σ β) (s : σ) : (MonadState.get >>= f) s = f s s := rfl

/-! ## Loops -/

/-- `k` passes of `while (cond) body` lead from one loop head to another. -/
inductive Iterates (cond : σ → Prop) (body : EStateM ε σ Unit) (s : σ) : Nat → σ → Prop where
  | zero : Iterates cond body s 0 s
  | succ {k s' s''} : Iterates cond body s k s' → cond s' → body s' = .ok () s'' →
      Iterates cond body s (k + 1) s''

variable {cond : σ → Prop} {body : EStateM ε σ Unit}

/-- What one pass leads to from one head to the next. -/
theorem Iterates.rule {I : Nat → σ → Prop} {s s' : σ} {k : Nat} (h : Iterates cond body s k s')
    (hs : I 0 s) (hstep : ∀ k t t', Iterates cond body s k t → I k t → cond t →
      body t = .ok () t' → I (k + 1) t') : I k s' := by
  induction h with
  | zero => exact hs
  | succ hi hc hb ih => exact hstep _ _ _ hi ih hc hb

/-- What one pass keeps holds at every head. -/
theorem Iterates.invariant {I : σ → Prop} {s s' : σ} {k : Nat} (h : Iterates cond body s k s')
    (hs : I s) (hstep : ∀ t t', I t → cond t → body t = .ok () t' → I t') : I s' :=
  h.rule (I := fun _ => I) hs fun _ t t' _ => hstep t t'

/-- A first pass in front of the others. -/
theorem Iterates.cons {s s' s'' : σ} {k : Nat} (hc : cond s) (hb : body s = .ok () s')
    (h : Iterates cond body s' k s'') : Iterates cond body s (k + 1) s'' := by
  induction h with
  | zero => exact .succ .zero hc hb
  | succ _ hc' hb' ih => exact .succ ih hc' hb'

theorem Iterates.uncons {s s'' : σ} {k : Nat} (h : Iterates cond body s (k + 1) s'') :
    cond s ∧ ∃ s', body s = .ok () s' ∧ Iterates cond body s' k s'' := by
  induction k generalizing s'' with
  | zero =>
    cases h with
    | succ h hc hb =>
      cases h
      exact ⟨hc, _, hb, .zero⟩
  | succ k ih =>
    cases h with
    | succ h hc hb =>
      obtain ⟨hcond, s', hbody, h'⟩ := ih h
      exact ⟨hcond, s', hbody, .succ h' hc hb⟩

/-- The head after `k` passes is determined. -/
theorem Iterates.unique {s s₁ s₂ : σ} {k : Nat} (h₁ : Iterates cond body s k s₁)
    (h₂ : Iterates cond body s k s₂) : s₁ = s₂ := by
  induction h₁ generalizing s₂ with
  | zero =>
    cases h₂
    rfl
  | succ _ _ hb ih =>
    cases h₂ with
    | succ h₂ _ hb₂ =>
      obtain rfl := ih h₂
      rw [hb] at hb₂
      cases hb₂
      rfl

/-- The loop went on at every head before the last. -/
theorem Iterates.earlier {s s' : σ} {j k : Nat} (h : Iterates cond body s j s') (hk : k < j) :
    ∃ t, Iterates cond body s k t ∧ cond t := by
  induction h with
  | zero => exact absurd hk (Nat.not_lt_zero k)
  | succ h hc _ ih =>
    rcases Nat.lt_or_eq_of_le (Nat.le_of_lt_succ hk) with hk | rfl
    · exact ih hk
    · exact ⟨_, h, hc⟩

/-- A run that ended has no further heads. -/
theorem Iterates.lt_of_running {s s₁ s₂ : σ} {k j : Nat} (h : Iterates cond body s k s₁)
    (hend : ¬ cond s₁) (h' : Iterates cond body s j s₂) (hrun : cond s₂) : j < k := by
  rcases Nat.lt_trichotomy j k with hlt | rfl | hgt
  · exact hlt
  · exact absurd (h'.unique h ▸ hrun) hend
  · obtain ⟨t, ht, hc⟩ := h'.earlier hgt
    exact absurd (ht.unique h ▸ hc) hend

/-- Before the last head every pass returned. -/
theorem Iterates.next {s s' t : σ} {j k : Nat} (h : Iterates cond body s j s') (hk : k < j)
    (ht : Iterates cond body s k t) : ∃ t', body t = .ok () t' := by
  induction h with
  | zero => exact absurd hk (Nat.not_lt_zero k)
  | succ h _ hb ih =>
    rcases Nat.lt_or_eq_of_le (Nat.le_of_lt_succ hk) with hk | rfl
    · exact ih hk
    · obtain rfl := ht.unique h
      exact ⟨_, hb⟩

/-- The loop, within a number of passes. -/
def whileLoop (cond : σ → Prop) [DecidablePred cond] (body : EStateM ε σ Unit) (exhausted : ε) :
    Nat → EStateM ε σ Unit
  | 0 => throw exhausted
  | fuel + 1 => fun s =>
    if cond s then (body >>= fun _ => whileLoop cond body exhausted fuel) s else .ok () s

theorem whileLoop_succ [DecidablePred cond] (exhausted : ε) (fuel : Nat) (s : σ) :
    whileLoop cond body exhausted (fuel + 1) s =
      if cond s then (body >>= fun _ => whileLoop cond body exhausted fuel) s else .ok () s := rfl

theorem whileLoop_ok [DecidablePred cond] {exhausted : ε} {fuel : Nat} : ∀ {s s' : σ},
    whileLoop cond body exhausted fuel s = .ok () s' →
    ∃ k, k < fuel ∧ Iterates cond body s k s' ∧ ¬ cond s' := by
  induction fuel with
  | zero => exact fun h => by cases h
  | succ fuel ih =>
    intro s s' h
    rw [whileLoop_succ] at h
    split at h
    · next hc =>
      obtain ⟨_, t, hb, hrest⟩ := bind_eq_ok.mp h
      obtain ⟨k, hk, hrun, hend⟩ := ih hrest
      exact ⟨k + 1, Nat.succ_lt_succ hk, hrun.cons hc hb, hend⟩
    · next hc =>
      cases h
      exact ⟨0, Nat.succ_pos fuel, .zero, hc⟩

/-- What every pass keeps holds however the loop ends. -/
theorem Triple.whileLoop [DecidablePred cond] {I : σ → Prop} (exhausted : ε)
    (hbody : Triple I body (fun _ => I) fun _ => I) (fuel : Nat) :
    Triple I (whileLoop cond body exhausted fuel) (fun _ => I) fun _ => I := by
  induction fuel with
  | zero => exact .throw _ fun _ hs => hs
  | succ fuel ih =>
    intro s hs
    rw [whileLoop_succ]
    by_cases hc : cond s
    · rw [if_pos hc]
      exact bind hbody (fun _ => ih) s hs
    · rw [if_neg hc]
      exact hs

theorem whileLoop_of_ended [DecidablePred cond] (exhausted : ε) {s' : σ} (hend : ¬ cond s') {k : Nat} :
    ∀ {s : σ} {fuel : Nat}, Iterates cond body s k s' → k < fuel →
    whileLoop cond body exhausted fuel s = .ok () s' := by
  induction k with
  | zero =>
    intro s fuel h hk
    cases h
    cases fuel with
    | zero => exact absurd hk (Nat.not_lt_zero 0)
    | succ fuel => rw [whileLoop_succ, if_neg hend]
  | succ k ih =>
    intro s fuel h hk
    obtain ⟨hc, t, hb, hrest⟩ := h.uncons
    cases fuel with
    | zero => exact absurd hk (Nat.not_lt_zero _)
    | succ fuel =>
      rw [whileLoop_succ, if_pos hc, bind_of_ok hb]
      exact ih hrest (Nat.lt_of_succ_lt_succ hk)

/-- A loop whose passes all return and never enlarge a number ends, or keeps the
number unchanged from some pass on. -/
theorem Iterates.ends_or_stalls (size : σ → Nat) {s : σ}
    (hbody : ∀ k t, Iterates cond body s k t → cond t → ∃ t', body t = .ok () t')
    (hsize : ∀ k t t', Iterates cond body s k t → cond t → body t = .ok () t' →
      size t' ≤ size t) :
    (∃ k t, Iterates cond body s k t ∧ ¬ cond t) ∨
      ∃ K, ∀ k, K ≤ k → ∃ t t', Iterates cond body s k t ∧ cond t ∧ body t = .ok () t' ∧
        size t' = size t := by
  by_cases hend : ∃ k t, Iterates cond body s k t ∧ ¬ cond t
  · exact Or.inl hend
  refine Or.inr ?_
  have hrun : ∀ k t, Iterates cond body s k t → cond t := fun k t ht =>
    Classical.not_not.mp fun hc => hend ⟨k, t, ht, hc⟩
  obtain ⟨t₀, ⟨K, ht₀⟩, hmin⟩ := WellFounded.has_min (measure size).wf
    {t | ∃ k, Iterates cond body s k t} ⟨s, 0, .zero⟩
  have hleast : ∀ k t, Iterates cond body s k t → size t₀ ≤ size t := fun k t ht =>
    Nat.le_of_not_lt (hmin t ⟨k, ht⟩)
  have hstays : ∀ k, K ≤ k → ∃ t, Iterates cond body s k t ∧ size t = size t₀ := by
    intro k hk
    induction k, hk using Nat.le_induction with
    | base => exact ⟨t₀, ht₀, rfl⟩
    | succ k _ ih =>
      obtain ⟨t, ht, hsame⟩ := ih
      obtain ⟨t', ht'⟩ := hbody k t ht (hrun k t ht)
      have hnext := Iterates.succ ht (hrun k t ht) ht'
      exact ⟨t', hnext, Nat.le_antisymm (hsame ▸ hsize k t t' ht (hrun k t ht) ht') (hleast _ _ hnext)⟩
  refine ⟨K, fun k hk => ?_⟩
  obtain ⟨t, ht, hsame⟩ := hstays k hk
  obtain ⟨t', ht'⟩ := hbody k t ht (hrun k t ht)
  have hnext := Iterates.succ ht (hrun k t ht) ht'
  exact ⟨t, t', ht, hrun k t ht, ht', Nat.le_antisymm (hsize k t t' ht (hrun k t ht) ht')
    (hsame ▸ hleast _ _ hnext)⟩

end Lib.Exec
