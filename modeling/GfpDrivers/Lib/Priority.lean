import Mathlib.Data.List.Sort

/-!
Lists that are kept in the order of a priority, the highest one first. A new element goes
before the first one of a lower priority, so that among elements of the same priority the
one that came first stays first.
-/

namespace GfpDrivers.Lib

variable {α β : Type*} [LinearOrder β]

/-- Insertion by priority. -/
def insertByPriority (priority : α → β) (x : α) (xs : List α) : List α :=
  xs.orderedInsert (fun a b => priority b < priority a) x

/-- `a` stands before `b`: it has the higher priority, or the same one and came earlier. -/
def Before (priority : α → β) (earlier : α → α → Prop) (a b : α) : Prop :=
  priority b < priority a ∨ priority a = priority b ∧ earlier a b

variable {priority : α → β} {earlier : α → α → Prop} {x : α} {xs ys : List α}

theorem Before.le {a b : α} (h : Before priority earlier a b) : priority b ≤ priority a := by
  obtain h | h := h
  · exact h.le
  · exact h.1.ge

theorem insertByPriority_perm : (insertByPriority priority x xs).Perm (x :: xs) :=
  List.perm_orderedInsert _ x xs

theorem pairwise_insertByPriority (hxs : xs.Pairwise (Before priority earlier)) (hx : ∀ y ∈ xs, earlier y x) :
    (insertByPriority priority x xs).Pairwise (Before priority earlier) := by
  induction xs with
  | nil => exact List.pairwise_singleton _ x
  | cons y ys ih =>
    obtain ⟨hy, hys⟩ := List.pairwise_cons.1 hxs
    unfold insertByPriority
    rw [List.orderedInsert_cons]
    split_ifs with hlt
    · refine List.pairwise_cons.2 ⟨fun z hz => .inl ?_, hxs⟩
      obtain rfl | hz := List.mem_cons.1 hz
      · exact hlt
      · exact (hy z hz).le.trans_lt hlt
    · refine List.pairwise_cons.2 ⟨fun z hz => ?_, ih hys fun z hz => hx z (List.mem_cons_of_mem y hz)⟩
      obtain rfl | hz := List.mem_cons.1 (insertByPriority_perm.mem_iff.1 hz)
      · obtain hlt' | heq := (not_lt.1 hlt).lt_or_eq
        · exact .inl hlt'
        · exact .inr ⟨heq.symm, hx y List.mem_cons_self⟩
      · exact hy z hz

/-- Inserting the elements of a list one after another. -/
theorem foldl_insertByPriority_perm :
    (xs.foldl (fun list x => insertByPriority priority x list) ys).Perm (ys ++ xs) := by
  induction xs generalizing ys with
  | nil => rw [List.append_nil]; exact List.Perm.refl ys
  | cons x xs ih =>
    refine ih.trans ((insertByPriority_perm.append_right xs).trans ?_)
    exact List.perm_middle.symm

/-- Elements that are inserted in their order keep it within each priority. -/
theorem pairwise_foldl_insertByPriority (hxs : xs.Pairwise earlier) :
    (xs.foldl (fun list x => insertByPriority priority x list) []).Pairwise (Before priority earlier) := by
  have hgen : ∀ ys : List α, ys.Pairwise (Before priority earlier) → (∀ y ∈ ys, ∀ x ∈ xs, earlier y x) →
      (xs.foldl (fun list x => insertByPriority priority x list) ys).Pairwise (Before priority earlier) := by
    induction xs with
    | nil => exact fun ys hys _ => hys
    | cons x xs ih =>
      intro ys hys hearlier
      obtain ⟨hx, hxs⟩ := List.pairwise_cons.1 hxs
      refine ih hxs _ (pairwise_insertByPriority hys fun y hy => hearlier y hy x List.mem_cons_self) ?_
      intro y hy z hz
      obtain rfl | hy := List.mem_cons.1 (insertByPriority_perm.mem_iff.1 hy)
      · exact hx z hz
      · exact hearlier y hy z (List.mem_cons_of_mem x hz)
  exact hgen [] List.Pairwise.nil fun y hy => absurd hy List.not_mem_nil

end GfpDrivers.Lib
