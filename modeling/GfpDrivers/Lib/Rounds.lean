import Mathlib.Data.List.Basic
import Mathlib.Logic.Relation

/-!
Loops that have no bound of their own. The body goes round again or leaves the loop; a
loop makes a given number of rounds at most, and returns `none` if it needs more. It
returns when each round pays from a measure (`rounds_of_measure`), and never returns
when the body can always go round again (`rounds_eq_none`).
-/

namespace GfpDrivers.Lib

inductive Turn (σ : Type*) where
  | again (s : σ)
  | done (s : σ)

variable {σ : Type*} {body : σ → Option (Turn σ)} {I : σ → Prop} {s t : σ}

def rounds (body : σ → Option (Turn σ)) : ℕ → σ → Option σ
  | 0, _ => none
  | n + 1, s =>
      (body s).bind fun
        | .again t => rounds body n t
        | .done t => some t

theorem rounds_again (n : ℕ) (ht : body s = some (.again t)) : rounds body (n + 1) s = rounds body n t := by
  rw [rounds, ht]
  rfl

theorem rounds_done (n : ℕ) (ht : body s = some (.done t)) : rounds body (n + 1) s = some t := by
  rw [rounds, ht]
  rfl

/-- `t` is the state at the beginning of a round, some rounds after `s`. -/
def Goes (body : σ → Option (Turn σ)) : σ → σ → Prop :=
  Relation.ReflTransGen fun s t => body s = some (.again t)

theorem Goes.invariant (hI : ∀ s t, I s → body s = some (.again t) → I t) (hs : I s)
    (hgoes : Goes body s t) : I t := by
  induction hgoes with
  | refl => exact hs
  | tail _ hturn ih => exact hI _ _ ih hturn

/-- The rule for a loop that returns. -/
theorem rounds_of_measure (μ : σ → ℕ)
    (hturn : ∀ s, I s → (∃ t, body s = some (.done t)) ∨ ∃ t, body s = some (.again t) ∧ I t ∧ μ t < μ s)
    (hs : I s) {n : ℕ} (hn : μ s < n) :
    ∃ s' t, rounds body n s = some t ∧ Goes body s s' ∧ I s' ∧ body s' = some (.done t) := by
  induction n generalizing s with
  | zero => omega
  | succ n ih =>
    rcases hturn s hs with ⟨t, ht⟩ | ⟨t, ht, hIt, hlt⟩
    · exact ⟨s, t, rounds_done n ht, .refl, hs, ht⟩
    · obtain ⟨s', u, hrun, hgoes, hI, hdone⟩ := ih hIt (by omega)
      exact ⟨s', u, (rounds_again n ht).trans hrun, .head ht hgoes, hI, hdone⟩

/-- The rule for a loop that does not. -/
theorem rounds_eq_none (hturn : ∀ s, I s → ∃ t, body s = some (.again t) ∧ I t) (hs : I s) (n : ℕ) :
    rounds body n s = none := by
  induction n generalizing s with
  | zero => rfl
  | succ n ih =>
    obtain ⟨t, ht, hIt⟩ := hturn s hs
    rw [rounds_again n ht]
    exact ih hIt

/-- A loop that has returned has gone to its last round. -/
theorem rounds_some {n : ℕ} (hrun : rounds body n s = some t) :
    ∃ s', Goes body s s' ∧ body s' = some (.done t) := by
  induction n generalizing s with
  | zero => cases hrun
  | succ n ih =>
    rw [rounds, Option.bind_eq_some_iff] at hrun
    obtain ⟨turn, hturn, hrun⟩ := hrun
    cases turn with
    | again u =>
      obtain ⟨s', hgoes, hdone⟩ := ih hrun
      exact ⟨s', .head hturn hgoes, hdone⟩
    | done u =>
      obtain rfl := Option.some.inj hrun
      exact ⟨s, .refl, hturn⟩

end GfpDrivers.Lib
