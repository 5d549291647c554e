import Mathlib.Data.List.Basic

/-!
Tokens that are put into cells and taken out again, with a record of both. A
cell is empty when it holds `default`. As long as no token is put in while
it is out of step (put in more often than taken out), every token in a cell
has been put in exactly once more often than taken out; and if nothing is
ever overwritten, every such token is in some cell.
-/

namespace GfpDrivers.Lib

open Function

variable {ι τ : Type*} [DecidableEq ι] [DecidableEq τ] [Inhabited τ]

/-- The tokens in the cells are those put in once more often than taken out,
each in one cell. -/
structure Ledger (cell : ι → τ) (accepted returned : List τ) : Prop where
  once : ∀ i, cell i ≠ default →
    accepted.count (cell i) = returned.count (cell i) + 1
  unique : ∀ i j, cell i ≠ default → cell i = cell j → i = j

/-- No token has been lost: one that was not taken out as often as put in is
in a cell. -/
def Kept (cell : ι → τ) (accepted returned : List τ) : Prop :=
  ∀ t, t ≠ default → accepted.count t = returned.count t ∨ ∃ i, cell i = t

variable {cell : ι → τ} {accepted returned : List τ} {t : τ}

omit [DecidableEq ι] in
theorem ledger_empty : Ledger (fun _ : ι => (default : τ)) [] [] :=
  ⟨fun _ h => absurd rfl h, fun _ _ h => absurd rfl h⟩

/-- Putting in a token that is in no cell. What the cell held is overwritten. -/
theorem Ledger.put (hl : Ledger cell accepted returned)
    (hnew : accepted.count t = returned.count t) (i : ι) :
    Ledger (update cell i t) (accepted ++ [t]) returned := by
  -- a cell that holds the token would be out of step
  have hfresh : ∀ j, cell j ≠ default → cell j ≠ t := by
    rintro j hj rfl
    have := hl.once j hj
    omega
  constructor
  · intro j hj
    by_cases hji : j = i
    · subst hji
      rw [update_self, List.count_append, List.count_singleton_self, hnew]
    · rw [update_of_ne hji] at hj ⊢
      have hne : (t == cell j) = false := by
        rw [beq_eq_false_iff_ne]
        exact (hfresh j hj).symm
      rw [List.count_append, List.count_singleton, hne, hl.once j hj]
      rfl
  · intro j k hj hjk
    by_cases hji : j = i
    · by_cases hki : k = i
      · rw [hji, hki]
      · subst hji
        rw [update_self] at hj
        rw [update_self, update_of_ne hki] at hjk
        exact absurd hjk.symm (hfresh k (by rwa [← hjk]))
    · rw [update_of_ne hji] at hj hjk
      by_cases hki : k = i
      · subst hki
        rw [update_self] at hjk
        exact absurd hjk (hfresh j hj)
      · rw [update_of_ne hki] at hjk
        exact hl.unique j k hj hjk

/-- Taking a token out of its cell. -/
theorem Ledger.take (hl : Ledger cell accepted returned) {i : ι} (hi : cell i = t)
    (ht : t ≠ default) :
    Ledger (update cell i default) accepted (returned ++ [t]) := by
  subst hi
  constructor
  · intro j hj
    by_cases hji : j = i
    · subst hji
      rw [update_self] at hj
      exact absurd rfl hj
    · rw [update_of_ne hji] at hj ⊢
      have hne : (cell i == cell j) = false := by
        rw [beq_eq_false_iff_ne]
        exact fun heq => hji (hl.unique i j ht heq).symm
      rw [List.count_append, List.count_singleton, hne, hl.once j hj]
      rfl
  · intro j k hj hjk
    by_cases hji : j = i
    · subst hji
      rw [update_self] at hj
      exact absurd rfl hj
    · rw [update_of_ne hji] at hj hjk
      by_cases hki : k = i
      · subst hki
        rw [update_self] at hjk
        exact absurd hjk hj
      · rw [update_of_ne hki] at hjk
        exact hl.unique j k hj hjk

omit [DecidableEq ι] in
theorem kept_empty : Kept (fun _ : ι => (default : τ)) [] [] := fun _ _ => .inl rfl

/-- Nothing is lost if the cell was empty. -/
theorem Kept.put (hk : Kept cell accepted returned) {i : ι} (hi : cell i = default) :
    Kept (update cell i t) (accepted ++ [t]) returned := by
  intro u hu
  by_cases hut : u = t
  · exact .inr ⟨i, by rw [update_self, hut]⟩
  · have hne : (t == u) = false := by
      rw [beq_eq_false_iff_ne]
      exact fun h => hut h.symm
    rw [List.count_append, List.count_singleton, hne]
    refine (hk u hu).imp id ?_
    rintro ⟨j, hj⟩
    have hji : j ≠ i := by
      rintro rfl
      exact hu (hj.symm.trans hi)
    exact ⟨j, by rw [update_of_ne hji, hj]⟩

theorem Kept.take (hk : Kept cell accepted returned) (hl : Ledger cell accepted returned) {i : ι}
    (hi : cell i = t) (ht : t ≠ default) :
    Kept (update cell i default) accepted (returned ++ [t]) := by
  intro u hu
  by_cases hut : u = t
  · subst hut
    subst hi
    left
    rw [List.count_append, List.count_singleton_self, hl.once i ht]
  · have hne : (t == u) = false := by
      rw [beq_eq_false_iff_ne]
      exact fun h => hut h.symm
    rw [List.count_append, List.count_singleton, hne]
    refine (hk u hu).imp id ?_
    rintro ⟨j, hj⟩
    have hji : j ≠ i := by
      rintro rfl
      exact hut (hj.symm.trans hi)
    exact ⟨j, by rw [update_of_ne hji, hj]⟩

end GfpDrivers.Lib
