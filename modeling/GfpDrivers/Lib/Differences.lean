import Mathlib.Data.Finset.Basic

/-!
A set that is followed through its changes. A sender looks at one set after another and
tells a receiver only what came and what went since the last one; the receiver applies that
to a set of its own.

A receiver that starts with a part of what the sender starts with never catches up on an
element that stays: what it misses at the start it misses as long as the element is in every
set the sender looks at, and no longer.
-/

namespace GfpDrivers.Lib

variable {α : Type*} [DecidableEq α]

/-- One change: `(x, true)` says that `x` came, `(x, false)` that it went. -/
def applyChange (s : Finset α) (change : α × Bool) : Finset α :=
  if change.2 then insert change.1 s else s.erase change.1

/-- Changes of which no two contradict each other have the same effect in any order. -/
theorem mem_foldl_applyChange {changes : List (α × Bool)}
    (hclear : ∀ x, (x, true) ∈ changes → (x, false) ∉ changes) (s : Finset α) (x : α) :
    x ∈ changes.foldl applyChange s ↔ (x, true) ∈ changes ∨ (x ∈ s ∧ (x, false) ∉ changes) := by
  induction changes generalizing s with
  | nil => simp
  | cons change rest ih =>
    have hrest : ∀ x, (x, true) ∈ rest → (x, false) ∉ rest := fun x h h' =>
      hclear x (List.mem_cons_of_mem _ h) (List.mem_cons_of_mem _ h')
    have hx := hclear x
    obtain ⟨y, came⟩ := change
    rw [List.foldl_cons, ih hrest]
    cases came with
    | true =>
      simp only [applyChange, if_true, Finset.mem_insert, List.mem_cons, Prod.mk.injEq, and_true, Bool.false_eq_true,
        and_false, false_or] at hx ⊢
      tauto
    | false =>
      simp only [applyChange, Bool.false_eq_true, if_false, Finset.mem_erase, List.mem_cons, Prod.mk.injEq, and_true,
        reduceCtorEq, and_false, false_or] at hx ⊢
      tauto

/-- What the receiver has after it was told the changes from `old` to `new`. -/
def follow (s old new : Finset α) : Finset α := s \ (old \ new) ∪ (new \ old)

variable {s old new : Finset α}

theorem follow_subset (h : s ⊆ old) : follow s old new ⊆ new := by
  intro x hx
  simp only [follow, Finset.mem_union, Finset.mem_sdiff, not_and, not_not] at hx
  obtain ⟨hs, hkeep⟩ | ⟨hnew, -⟩ := hx
  · exact hkeep (h hs)
  · exact hnew

/-- What the receiver misses afterwards is what it missed before and is still there. -/
theorem sdiff_follow : new \ follow s old new = new ∩ (old \ s) := by
  ext x
  simp only [follow, Finset.mem_sdiff, Finset.mem_union, Finset.mem_inter, not_or, not_and, not_not]
  tauto

/-- The receiver after the sender has looked at one set after another. -/
def followAll : Finset α → Finset α → List (Finset α) → Finset α
  | s, _, [] => s
  | s, old, new :: rest => followAll (follow s old new) new rest

theorem followAll_subset (h : s ⊆ old) (sets : List (Finset α)) :
    followAll s old sets ⊆ sets.getLast?.getD old := by
  induction sets generalizing s old with
  | nil => exact h
  | cons new rest ih =>
    rw [List.getLast?_cons, Option.getD_some]
    exact ih (follow_subset h)

/-- What the receiver misses in the end it missed at the start, and it was there all along. -/
theorem mem_sdiff_followAll (sets : List (Finset α)) (x : α) :
    x ∈ sets.getLast?.getD old \ followAll s old sets ↔ x ∈ old \ s ∧ ∀ new ∈ sets, x ∈ new := by
  induction sets generalizing s old with
  | nil => simp [followAll]
  | cons new rest ih =>
    rw [List.getLast?_cons, Option.getD_some, followAll, ih, sdiff_follow]
    simp only [Finset.mem_inter, List.forall_mem_cons]
    tauto

/-- The receiver has the last set once everything it missed was absent for one time. -/
theorem followAll_eq_iff (h : s ⊆ old) (sets : List (Finset α)) :
    followAll s old sets = sets.getLast?.getD old ↔ ∀ x ∈ old \ s, ∃ new ∈ sets, x ∉ new := by
  rw [Finset.Subset.antisymm_iff, ← Finset.sdiff_eq_empty_iff_subset (s := sets.getLast?.getD old),
    Finset.eq_empty_iff_forall_notMem]
  refine ⟨fun hall x hx => ?_, fun hall => ⟨followAll_subset h sets, fun x hx => ?_⟩⟩
  · have hmiss := hall.2 x
    rw [mem_sdiff_followAll] at hmiss
    by_contra hnone
    push Not at hnone
    exact hmiss ⟨hx, hnone⟩
  · rw [mem_sdiff_followAll] at hx
    obtain ⟨new, hnew, hnot⟩ := hall x hx.1
    exact hnot (hx.2 new hnew)

end GfpDrivers.Lib
