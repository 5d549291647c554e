import Mathlib.Data.List.Basic

/-!
A list cut into runs. An element continues a run or not, and what it has to be for that may
depend on all elements of the run. A partition into runs is maximal if no run is continued
by the first element of the next one; there is only one such partition, and it is found by
going through the list once.
-/

namespace GfpDrivers.Lib

variable {α : Type*} {continues : List α → α → Prop} {run xs : List α} {parts : List (List α)} {a : α}

/-- Each element but the first one continues the elements before it. -/
def IsRun (continues : List α → α → Prop) (run : List α) : Prop :=
  run ≠ [] ∧ ∀ xs a ys, run = xs ++ a :: ys → xs ≠ [] → continues xs a

structure MaximalRuns (continues : List α → α → Prop) (xs : List α) (parts : List (List α)) : Prop where
  flatten : parts.flatten = xs
  isRun : ∀ run ∈ parts, IsRun continues run
  maximal : parts.IsChain fun run next => ∀ a ∈ next.head?, ¬ continues run a

/-- The runs of a list whose first elements are already in `run`. -/
def runsFrom (continues : List α → α → Prop) [∀ run a, Decidable (continues run a)] : List α → List α → List (List α)
  | run, [] => [run]
  | run, a :: as =>
      if continues run a then runsFrom continues (run ++ [a]) as else run :: runsFrom continues [a] as

def maximalRuns (continues : List α → α → Prop) [∀ run a, Decidable (continues run a)] : List α → List (List α)
  | [] => []
  | a :: as => runsFrom continues [a] as

theorem isRun_singleton (a : α) : IsRun continues [a] := by
  refine ⟨by simp, fun xs b ys h hne => ?_⟩
  obtain ⟨x, xs, rfl⟩ := List.exists_cons_of_ne_nil hne
  simp at h

theorem IsRun.append (h : IsRun continues run) (ha : continues run a) : IsRun continues (run ++ [a]) := by
  refine ⟨by simp, fun xs b ys hsplit hne => ?_⟩
  obtain rfl | ⟨ys, c, rfl⟩ := List.eq_nil_or_concat ys
  · obtain ⟨rfl, hb⟩ := List.append_inj' hsplit rfl
    obtain rfl : a = b := by simpa using hb
    exact ha
  · have hsplit' : run ++ [a] = (xs ++ b :: ys) ++ [c] := by simpa using hsplit
    exact h.2 xs b ys (List.append_inj' hsplit' rfl).1 hne

section

variable [∀ run a, Decidable (continues run a)]

theorem runsFrom_nil (run : List α) : runsFrom continues run [] = [run] := rfl

theorem runsFrom_cons (run : List α) (a : α) (as : List α) : runsFrom continues run (a :: as) =
    if continues run a then runsFrom continues (run ++ [a]) as else run :: runsFrom continues [a] as := rfl

theorem runsFrom_flatten (run xs : List α) : (runsFrom continues run xs).flatten = run ++ xs := by
  induction xs generalizing run with
  | nil => simp [runsFrom_nil]
  | cons a as ih =>
    rw [runsFrom_cons]
    split_ifs
    · rw [ih, List.append_assoc, List.singleton_append]
    · rw [List.flatten_cons, ih, List.singleton_append]

/-- The first of the runs starts with what is already there. -/
theorem runsFrom_head (hrun : run ≠ []) (xs : List α) :
    ∃ first rest, runsFrom continues run xs = first :: rest ∧ first.head? = run.head? := by
  induction xs generalizing run with
  | nil => exact ⟨run, [], rfl, rfl⟩
  | cons a as ih =>
    rw [runsFrom_cons]
    split_ifs
    · obtain ⟨first, rest, hruns, hhead⟩ := @ih (run ++ [a]) (by simp)
      exact ⟨first, rest, hruns, by rw [hhead, List.head?_append_of_ne_nil _ hrun]⟩
    · exact ⟨run, _, rfl, rfl⟩

theorem maximalRuns_runsFrom (h : IsRun continues run) (xs : List α) :
    MaximalRuns continues (run ++ xs) (runsFrom continues run xs) := by
  refine ⟨runsFrom_flatten run xs, ?_, ?_⟩
  · induction xs generalizing run with
    | nil => exact fun r hr => List.mem_singleton.1 hr ▸ h
    | cons a as ih =>
      rw [runsFrom_cons]
      split_ifs with ha
      · exact ih (h.append ha)
      · intro r hr
        obtain rfl | hr := List.mem_cons.1 hr
        · exact h
        · exact ih (isRun_singleton a) r hr
  · induction xs generalizing run with
    | nil => exact List.IsChain.singleton _
    | cons a as ih =>
      rw [runsFrom_cons]
      split_ifs with ha
      · exact ih (h.append ha)
      · obtain ⟨first, rest, hruns, hhead⟩ : ∃ first rest, runsFrom continues [a] as = first :: rest ∧
            first.head? = [a].head? := runsFrom_head (List.cons_ne_nil a []) as
        have hchain := ih (isRun_singleton a)
        rw [hruns] at hchain ⊢
        refine List.isChain_cons_cons.2 ⟨fun b hb => ?_, hchain⟩
        rw [hhead] at hb
        obtain rfl : a = b := by simpa using hb
        exact ha

/-- Any maximal partition that starts with a given run is the one that is found. -/
theorem eq_runsFrom {rest : List α} (hrun : run ≠ []) (hisRun : ∀ r ∈ (run ++ rest) :: parts, IsRun continues r)
    (hmax : ((run ++ rest) :: parts).IsChain fun run next => ∀ a ∈ next.head?, ¬ continues run a)
    (hxs : rest ++ parts.flatten = xs) : (run ++ rest) :: parts = runsFrom continues run xs := by
  induction xs generalizing run rest parts with
  | nil =>
    obtain ⟨rfl, hparts⟩ := List.append_eq_nil_iff.1 hxs
    cases parts with
    | nil => rw [List.append_nil, runsFrom]
    | cons part parts =>
      have hne := (hisRun part (by simp)).1
      exact absurd (List.append_eq_nil_iff.1 hparts).1 hne
  | cons a as ih =>
    cases rest with
    | cons b rest =>
      obtain ⟨rfl, htail⟩ := List.cons.inj hxs
      have hcont : continues run b := (hisRun (run ++ b :: rest) List.mem_cons_self).2 run b rest rfl hrun
      rw [runsFrom_cons, if_pos hcont]
      have hassoc : run ++ b :: rest = run ++ [b] ++ rest := by simp
      rw [hassoc] at hisRun hmax ⊢
      exact ih (by simp) hisRun hmax htail
    | nil =>
      rw [List.append_nil] at hisRun hmax ⊢
      cases parts with
      | nil => simp at hxs
      | cons part parts =>
        obtain ⟨hbreak, hmax⟩ := List.isChain_cons_cons.1 hmax
        have hne := (hisRun part (by simp)).1
        obtain ⟨b, part, rfl⟩ := List.exists_cons_of_ne_nil hne
        obtain ⟨rfl, htail⟩ := List.cons.inj hxs
        rw [runsFrom_cons, if_neg (hbreak b rfl)]
        congr 1
        exact ih (List.cons_ne_nil b []) (fun r hr => hisRun r (List.mem_cons_of_mem run hr)) hmax htail

/-- The maximal partition of a list. -/
theorem maximalRuns_iff : MaximalRuns continues xs parts ↔ parts = maximalRuns continues xs := by
  constructor
  · intro h
    cases parts with
    | nil =>
      rw [← h.flatten]
      rfl
    | cons part parts =>
      obtain ⟨a, part, rfl⟩ := List.exists_cons_of_ne_nil (h.isRun part List.mem_cons_self).1
      rw [← h.flatten]
      exact eq_runsFrom (List.cons_ne_nil a []) h.isRun h.maximal rfl
  · rintro rfl
    cases xs with
    | nil => exact ⟨rfl, fun run hrun => absurd hrun List.not_mem_nil, List.IsChain.nil⟩
    | cons a as => exact maximalRuns_runsFrom (isRun_singleton a) as

end

/-! ### Two notions of continuing -/

section

variable {fine coarse : List α → α → Prop} [∀ run a, Decidable (fine run a)] [∀ run a, Decidable (coarse run a)]
  {run' : List α}

/-- If more elements continue a run in one sense than in another one, and what continues it
then depends on its last element only, then there are not more runs in that sense. -/
theorem length_runsFrom_le (hsub : ∀ run, ∀ a ∈ xs, fine run a → coarse run a)
    (hlast : ∀ run a b, coarse run a → (coarse (run ++ [a]) b ↔ coarse [a] b))
    (hsame : ∀ a, coarse run a ↔ coarse run' a) : (runsFrom coarse run xs).length ≤ (runsFrom fine run' xs).length := by
  induction xs generalizing run run' with
  | nil => exact Nat.le_refl 1
  | cons a as ih =>
    have hsub' : ∀ run, ∀ b ∈ as, fine run b → coarse run b := fun run b hb => hsub run b (List.mem_cons_of_mem a hb)
    rw [runsFrom_cons, runsFrom_cons]
    by_cases hfine : fine run' a
    · have hcoarse' : coarse run' a := hsub run' a List.mem_cons_self hfine
      have hcoarse : coarse run a := (hsame a).2 hcoarse'
      rw [if_pos hcoarse, if_pos hfine]
      exact ih hsub' fun b => (hlast run a b hcoarse).trans (hlast run' a b hcoarse').symm
    · rw [if_neg hfine, List.length_cons]
      by_cases hcoarse : coarse run a
      · rw [if_pos hcoarse]
        exact Nat.le_succ_of_le (ih hsub' fun b => hlast run a b hcoarse)
      · rw [if_neg hcoarse, List.length_cons]
        exact Nat.succ_le_succ (ih hsub' fun b => Iff.rfl)

/-- If there are not less runs either, they are the same ones. -/
theorem runsFrom_eq_of_length (hsub : ∀ run, ∀ a ∈ xs, fine run a → coarse run a)
    (hlast : ∀ run a b, coarse run a → (coarse (run ++ [a]) b ↔ coarse [a] b))
    (hlength : (runsFrom coarse run xs).length = (runsFrom fine run xs).length) :
    runsFrom coarse run xs = runsFrom fine run xs := by
  induction xs generalizing run with
  | nil => rfl
  | cons a as ih =>
    have hsub' : ∀ run, ∀ b ∈ as, fine run b → coarse run b := fun run b hb => hsub run b (List.mem_cons_of_mem a hb)
    rw [runsFrom_cons, runsFrom_cons] at hlength ⊢
    by_cases hfine : fine run a
    · rw [if_pos (hsub run a List.mem_cons_self hfine), if_pos hfine] at hlength ⊢
      exact ih hsub' hlength
    · rw [if_neg hfine, List.length_cons] at hlength
      rw [if_neg hfine]
      by_cases hcoarse : coarse run a
      · rw [if_pos hcoarse] at hlength
        have hle := length_runsFrom_le hsub' hlast fun b => hlast run a b hcoarse
        omega
      · rw [if_neg hcoarse, List.length_cons] at hlength
        rw [if_neg hcoarse, ih hsub' (Nat.succ.inj hlength)]

end

end GfpDrivers.Lib
