import Mathlib.Data.List.Basic

/-!
Finite runs of a machine given by a step function. A step is partial: `none`
stands for an action that cannot be taken in the given state, or for one
that never returns. Every choice of the environment is part of the action,
so that a run is a list of actions and nothing else.
-/

namespace GfpDrivers.Lib

variable {σ α : Type*}

/-- The state after a list of actions, if all of them can be taken. -/
def exec (step : σ → α → Option σ) : σ → List α → Option σ
  | s, [] => some s
  | s, a :: as => (step s a).bind fun t => exec step t as

/-- Along the run of `as` from `s`, every action is taken in a state in which
`G` allows it. This is where the obligations of the callers are stated, as
they depend on the state the call is made in. -/
def Along (step : σ → α → Option σ) (G : σ → α → Prop) : σ → List α → Prop
  | _, [] => True
  | s, a :: as => G s a ∧ ∀ t, step s a = some t → Along step G t as

variable {step : σ → α → Option σ} {G : σ → α → Prop} {I : σ → Prop}

@[simp] theorem exec_nil (s : σ) : exec step s [] = some s := rfl

theorem exec_cons (s : σ) (a : α) (as : List α) :
    exec step s (a :: as) = (step s a).bind fun t => exec step t as := rfl

/-- Whether a given run is allowed can be decided by making it. -/
instance Along.decidable [∀ s a, Decidable (G s a)] :
    ∀ (s : σ) (as : List α), Decidable (Along step G s as)
  | _, [] => isTrue trivial
  | s, a :: as =>
      match h : step s a with
      | none => decidable_of_iff (G s a) ⟨fun ha => ⟨ha, fun _ ht => nomatch h.symm.trans ht⟩, And.left⟩
      | some t =>
          have := Along.decidable t as
          decidable_of_iff (G s a ∧ Along step G t as)
            ⟨fun ⟨ha, has⟩ => ⟨ha, fun _ hu => Option.some.inj (h.symm.trans hu) ▸ has⟩,
              fun ⟨ha, has⟩ => ⟨ha, has t h⟩⟩

/-- Running an allowed action and then an allowed list of them. -/
theorem Along.cons {s t : σ} {a : α} {as : List α} (ha : G s a) (hstep : step s a = some t)
    (has : Along step G t as) : Along step G s (a :: as) := by
  refine ⟨ha, fun u hu => ?_⟩
  rw [hstep, Option.some.injEq] at hu
  exact hu ▸ has

/-- **The invariant rule.** What every allowed step preserves holds at the end
of every allowed run. -/
theorem exec_invariant_along (hstep : ∀ s a t, I s → G s a → step s a = some t → I t)
    {s t : σ} {as : List α} (hs : I s) (hG : Along step G s as)
    (h : exec step s as = some t) : I t := by
  induction as generalizing s with
  | nil =>
    simp only [exec_nil, Option.some.injEq] at h
    exact h ▸ hs
  | cons a as ih =>
    rw [exec_cons, Option.bind_eq_some_iff] at h
    obtain ⟨u, hu, h⟩ := h
    exact ih (hstep s a u hs hG.1 hu) (hG.2 u hu) h

/-- **The totality rule.** If an allowed step is always possible as long as some
measure is below a bound, and raises the measure by at most one, then every
allowed run that is short enough can be made. -/
theorem exec_total_along {J : ℕ → σ → Prop} (bound : ℕ)
    (hstep : ∀ n s a, n < bound → J n s → G s a → ∃ t, step s a = some t ∧ J (n + 1) t)
    {n : ℕ} {s : σ} {as : List α} (hs : J n s) (hbound : n + as.length ≤ bound)
    (hG : Along step G s as) : ∃ t, exec step s as = some t ∧ J (n + as.length) t := by
  induction as generalizing n s with
  | nil => exact ⟨s, rfl, hs⟩
  | cons a as ih =>
    rw [List.length_cons] at hbound ⊢
    obtain ⟨t, ht, hJ⟩ := hstep n s a (by omega) hs hG.1
    obtain ⟨u, hu, hJ'⟩ := ih hJ (by omega) (hG.2 t ht)
    rw [Nat.add_right_comm] at hJ'
    exact ⟨u, by rw [exec_cons, ht, Option.bind_some, hu], hJ'⟩

/-- The invariant rule for a condition on the actions alone. -/
theorem exec_invariant_of_forall {P : α → Prop}
    (hstep : ∀ s a t, I s → P a → step s a = some t → I t)
    {s t : σ} {as : List α} (hs : I s) (hP : ∀ a ∈ as, P a)
    (h : exec step s as = some t) : I t := by
  induction as generalizing s with
  | nil =>
    simp only [exec_nil, Option.some.injEq] at h
    exact h ▸ hs
  | cons a as ih =>
    rw [exec_cons, Option.bind_eq_some_iff] at h
    obtain ⟨u, hu, h⟩ := h
    exact ih (hstep s a u hs (hP a (by simp)) hu) (fun b hb => hP b (by simp [hb])) h

end GfpDrivers.Lib
