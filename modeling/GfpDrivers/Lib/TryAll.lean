import Mathlib.Data.List.Basic
import Mathlib.Algebra.Ring.Int.Defs

/-!
Loops of the kind "do this for every element; if it fails, undo what was done". The
first loop stops at the first operation with a nonzero result. The second one goes
back over the elements that were visited and does not look at results.
-/

namespace GfpDrivers.Lib

variable {σ α : Type*}

/-- Goes through a list until an operation fails. The elements visited, the one that
failed included, come with the last one first. -/
def tryAll (op : σ → α → σ × ℤ) : List α → List α → σ → σ × ℤ × List α
  | [], visited, s => (s, 0, visited)
  | r :: rs, visited, s =>
      if (op s r).2 ≠ 0 then ((op s r).1, (op s r).2, r :: visited) else tryAll op rs (r :: visited) (op s r).1

/-- The loop back over what was done. -/
def unwind (op : σ → α → σ × ℤ) (rs : List α) (s : σ) : σ := rs.foldl (fun s r => (op s r).1) s

variable {op : σ → α → σ × ℤ} {rs : List α} {s t : σ}

/-- All operations on a list succeed, from `s` to `t`. -/
def Steps (op : σ → α → σ × ℤ) : List α → σ → σ → Prop
  | [], s, t => s = t
  | r :: rs, s, t => (op s r).2 = 0 ∧ Steps op rs (op s r).1 t

theorem tryAll_cons (op : σ → α → σ × ℤ) (r : α) (rs visited : List α) (s : σ) : tryAll op (r :: rs) visited s =
    if (op s r).2 ≠ 0 then ((op s r).1, (op s r).2, r :: visited) else tryAll op rs (r :: visited) (op s r).1 := rfl

/-- The loop goes to the end, or up to an operation that fails. -/
theorem tryAll_cases (op : σ → α → σ × ℤ) (rs visited : List α) (s : σ) :
    (∃ t, Steps op rs s t ∧ tryAll op rs visited s = (t, 0, rs.reverse ++ visited)) ∨
      ∃ front r rest t, rs = front ++ r :: rest ∧ Steps op front s t ∧ (op t r).2 ≠ 0 ∧
        tryAll op rs visited s = ((op t r).1, (op t r).2, r :: (front.reverse ++ visited)) := by
  induction rs generalizing visited s with
  | nil => exact .inl ⟨s, rfl, rfl⟩
  | cons r rs ih =>
    rw [tryAll_cons]
    by_cases hfail : (op s r).2 ≠ 0
    · rw [if_pos hfail]
      exact .inr ⟨[], r, rs, s, rfl, rfl, hfail, rfl⟩
    · rw [if_neg hfail]
      obtain ⟨t, hsteps, heq⟩ | ⟨front, q, rest, t, rfl, hsteps, hq, heq⟩ := ih (r :: visited) (op s r).1
      · exact .inl ⟨t, ⟨not_not.mp hfail, hsteps⟩, by rw [heq]; simp⟩
      · exact .inr ⟨r :: front, q, rest, t, rfl, ⟨not_not.mp hfail, hsteps⟩, hq, by rw [heq]; simp⟩

/-- What no operation changes, the loop does not change. -/
theorem tryAll_keeps {β : Type*} (f : σ → β) (hop : ∀ s r, f (op s r).1 = f s) (rs visited : List α) (s : σ) :
    f (tryAll op rs visited s).1 = f s := by
  induction rs generalizing s visited with
  | nil => rfl
  | cons r rs ih =>
    rw [tryAll_cons]
    split
    · exact hop s r
    · exact (ih _ _).trans (hop s r)

/-- If no operation fails, neither does the loop. -/
theorem tryAll_ret (hop : ∀ s r, r ∈ rs → (op s r).2 = 0) (visited : List α) : (tryAll op rs visited s).2.1 = 0 := by
  induction rs generalizing s visited with
  | nil => rfl
  | cons r rs ih =>
    rw [tryAll_cons, if_neg (not_not_intro (hop s r (List.mem_cons_self ..)))]
    exact ih (fun s q hq => hop s q (List.mem_cons_of_mem _ hq)) _

/-- Going back over operations that each can be undone leads back to the start. What
`P` says of an element, only the operation on it may change. -/
theorem Steps.undo {undo : σ → α → σ} {P : α → σ → Prop} (hundo : ∀ s r, P r s → (op s r).2 = 0 → undo (op s r).1 r = s)
    (hkeep : ∀ s r q, r ≠ q → P q s → P q (op s r).1) (hrs : rs.Nodup) (hP : ∀ r ∈ rs, P r s) (h : Steps op rs s t) :
    rs.reverse.foldl undo t = s := by
  induction rs generalizing s with
  | nil => exact h.symm
  | cons r rs ih =>
    rw [List.nodup_cons] at hrs
    rw [List.forall_mem_cons] at hP
    have hrest : ∀ q ∈ rs, P q (op s r).1 := fun q hq => hkeep s r q (fun heq => hrs.1 (heq ▸ hq)) (hP.2 q hq)
    rw [List.reverse_cons, List.foldl_append, ih hrs.2 hrest h.2]
    exact hundo s r hP.1 h.1

/-- If the loop fails, going back over what was done leads back to the start. -/
theorem tryAll_undo {undo : σ → α → σ} {P : α → σ → Prop} {ret : ℤ} {visited : List α}
    (hundo : ∀ s r, P r s → (op s r).2 = 0 → undo (op s r).1 r = s) (hkeep : ∀ s r q, r ≠ q → P q s → P q (op s r).1)
    (hfail : ∀ s r, (op s r).2 ≠ 0 → (op s r).1 = s) (hrs : rs.Nodup) (hP : ∀ r ∈ rs, P r s)
    (h : tryAll op rs [] s = (t, ret, visited)) (hret : ret ≠ 0) : visited.tail.foldl undo t = s := by
  obtain ⟨u, -, heq⟩ | ⟨front, r, rest, u, rfl, hsteps, hr, heq⟩ := tryAll_cases op rs [] s
  · rw [h] at heq
    cases heq
    exact absurd rfl hret
  · rw [h] at heq
    cases heq
    rw [List.tail_cons, List.append_nil, hfail u r hr]
    exact hsteps.undo hundo hkeep (List.nodup_append.mp hrs).1 fun q hq => hP q (List.mem_append_left _ hq)

end GfpDrivers.Lib
