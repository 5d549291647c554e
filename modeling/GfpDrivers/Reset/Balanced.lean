import Mathlib.Data.List.Count
import GfpDrivers.Lib.Runs
import GfpDrivers.Reset.Control

/-!
Failing reset operations and the counts of shared lines. A failed callback leaves the
count of its control changed; only `reset_control_bulk_deassert` corrects this, as the
loop that undoes it starts with the control that failed. As long as no other callback
fails, the counts are balanced and no line is asserted that has users.
-/

namespace GfpDrivers.Reset

open Lib Function

variable {ν : Type} [DecidableEq ν] {c : Controller ν} {s t : ResetState ν} {r : Rstc ν} {x : ν} {out : ℤ}

/-! ### One control -/

/-- How often a line is listed. -/
def tally (rs : List (Rstc ν)) (x : ν) : ℕ := rs.count (.line x)

theorem tally_cons (r : Rstc ν) (rs : List (Rstc ν)) (x : ν) : tally (r :: rs) x = tally rs x + tally [r] x := by
  rw [tally, tally, tally, List.count_cons, List.count_cons, List.count_nil, Nat.zero_add]

theorem tally_line : tally [.line x] x = 1 := by simp [tally]

theorem tally_line_of_ne {y : ν} (h : y ≠ x) : tally [.line x] y = 0 := by simp [tally, Ne.symm h]

/-- All controls are shared, and none of them is used for reset pulses. -/
structure Shared (c : Controller ν) (s : ResetState ν) : Prop where
  shared : ∀ x, c.shared x = true
  untriggered : ∀ x, s.triggeredCount x = 0

/-- Asserting a line that has users takes one of them away. The line itself is
touched only if there are no others. -/
theorem assertRstc_line (out : ℤ) (h : Shared c s) (hcount : s.deassertCount x ≠ 0) : ∃ ln ret,
    assertRstc c out s (.line x) =
      ({ s with deassertCount := update s.deassertCount x (s.deassertCount x - 1), line := ln }, ret) ∧
    (∀ y, ln y ≠ s.line y → y = x ∧ s.deassertCount x = 1 ∧ c.hasAssert x = true) ∧ (out = 0 → ret = 0) := by
  rw [assertRstc, if_pos (h.shared x), if_neg (not_not.mpr (h.untriggered x)), if_neg hcount]
  dsimp only
  by_cases hlast : s.deassertCount x - 1 ≠ 0
  · rw [if_pos hlast]
    exact ⟨s.line, 0, rfl, fun y hy => absurd rfl hy, fun _ => rfl⟩
  · rw [if_neg hlast]
    by_cases hassert : c.hasAssert x = false
    · rw [if_pos hassert]
      exact ⟨s.line, 0, rfl, fun y hy => absurd rfl hy, fun _ => rfl⟩
    · rw [if_neg hassert, hwCall]
      refine ⟨if out = 0 then update s.line x (some .assert) else s.line, out, ?_, fun y hy => ?_, id⟩
      · split <;> rfl
      · refine ⟨?_, by omega, by simpa using hassert⟩
        by_contra hne
        split at hy
        · exact hy (update_of_ne hne _ _)
        · exact hy rfl

/-- Deasserting a line adds a user. If it fails the line was not used, and is left as
it is. -/
theorem deassertRstc_line (out : ℤ) (x : ν) (h : Shared c s) : ∃ ln ret,
    deassertRstc c out s (.line x) =
      ({ s with deassertCount := update s.deassertCount x (s.deassertCount x + 1), line := ln }, ret) ∧
    (∀ y, ln y ≠ s.line y → ln y = some .deassert) ∧
    (ret = 0 → s.deassertCount x = 0 → c.hasDeassert x = true → ln x = some .deassert) ∧
    (ret ≠ 0 → ln = s.line ∧ s.deassertCount x = 0) ∧ (out = 0 → ret = 0) := by
  have hshared := h.shared x
  rw [deassertRstc, if_neg (fun hne => hne.2 (h.untriggered x)), if_neg (by simp [hshared])]
  dsimp only
  by_cases hfirst : s.deassertCount x + 1 ≠ 1
  · rw [if_pos ⟨hshared, hfirst⟩]
    exact ⟨s.line, 0, rfl, fun y hy => absurd rfl hy, fun _ h0 => absurd h0 (by omega), fun hne => absurd rfl hne,
      fun _ => rfl⟩
  · rw [if_neg (fun hne => hfirst hne.2), if_pos hshared]
    by_cases hdeassert : c.hasDeassert x = false
    · rw [if_pos hdeassert]
      exact ⟨s.line, 0, rfl, fun y hy => absurd rfl hy, fun _ _ hd => absurd hd (by simp [hdeassert]),
        fun hne => absurd rfl hne, fun _ => rfl⟩
    · rw [if_neg hdeassert, hwCall]
      by_cases hout : out = 0
      · subst hout
        refine ⟨update s.line x (some .deassert), 0, rfl, fun y hy => ?_, fun _ _ _ => by simp,
          fun hne => absurd rfl hne, fun _ => rfl⟩
        by_cases hyx : y = x
        · subst hyx
          simp
        · rw [update_of_ne hyx] at hy
          exact absurd rfl hy
      · rw [if_neg hout]
        exact ⟨s.line, out, rfl, fun y hy => absurd rfl hy, fun h0 => absurd h0 hout,
          fun _ => ⟨rfl, by omega⟩, fun h0 => absurd h0 hout⟩

/-- No line is asserted that has users, or whose controller cannot assert it. -/
structure Sound (c : Controller ν) (s : ResetState ν) : Prop extends Shared c s where
  users : ∀ x, 0 < s.deassertCount x → s.line x ≠ some .assert
  unable : ∀ x, c.hasAssert x = false → s.line x ≠ some .assert

theorem Sound.assert (h : Sound c s) (out : ℤ) (r : Rstc ν) : Sound c (assertRstc c out s r).1 := by
  cases r with
  | null => exact h
  | invalid => exact h
  | line x =>
    by_cases hcount : s.deassertCount x = 0
    · rw [assertRstc, if_pos (h.shared x), if_neg (not_not.mpr (h.untriggered x)), if_pos hcount]
      exact h
    · obtain ⟨ln, ret, heq, hline, -⟩ := assertRstc_line out h.toShared hcount
      rw [heq]
      refine ⟨⟨h.shared, h.untriggered⟩, fun y hy => ?_, fun y hy => ?_⟩
      · dsimp only at hy ⊢
        by_cases hchange : ln y = s.line y
        · rw [hchange]
          refine h.users y ?_
          by_cases hyx : y = x
          · rw [hyx]
            omega
          · rwa [update_of_ne hyx] at hy
        · obtain ⟨rfl, hone, -⟩ := hline y hchange
          rw [update_self, hone] at hy
          omega
      · dsimp only
        by_cases hchange : ln y = s.line y
        · rw [hchange]
          exact h.unable y hy
        · obtain ⟨rfl, -, hassert⟩ := hline y hchange
          rw [hy] at hassert
          cases hassert

theorem Sound.deassert (h : Sound c s) (hok : (deassertRstc c out s r).2 = 0) : Sound c (deassertRstc c out s r).1 := by
  cases r with
  | null => exact h
  | invalid => exact h
  | line x =>
    obtain ⟨ln, ret, heq, hline, hfirst, -, -⟩ := deassertRstc_line out x h.toShared
    rw [heq] at hok ⊢
    refine ⟨⟨h.shared, h.untriggered⟩, fun y hy => ?_, fun y hy => ?_⟩
    · dsimp only at hy hok ⊢
      by_cases hchange : ln y = s.line y
      · by_cases hyx : y = x
        · subst hyx
          by_cases hcount : s.deassertCount y = 0
          · by_cases hassert : c.hasAssert y = true
            · rw [hfirst hok hcount (c.paired y hassert)]
              decide
            · rw [hchange]
              exact h.unable y (by simpa using hassert)
          · rw [hchange]
            exact h.users y (by omega)
        · rw [update_of_ne hyx] at hy
          rw [hchange]
          exact h.users y hy
      · rw [hline y hchange]
        decide
    · dsimp only
      by_cases hchange : ln y = s.line y
      · rw [hchange]
        exact h.unable y hy
      · rw [hline y hchange]
        decide

/-- A deassertion that fails is made good by an assertion. -/
theorem Sound.undo (h : Sound c s) (out' : ℤ) (hfail : (deassertRstc c out s r).2 ≠ 0) :
    Sound c (assertRstc c out' (deassertRstc c out s r).1 r).1 ∧
      (assertRstc c out' (deassertRstc c out s r).1 r).1.deassertCount = s.deassertCount := by
  cases r with
  | null => exact absurd rfl hfail
  | invalid => exact ⟨h, rfl⟩
  | line x =>
    obtain ⟨ln, ret, heq, -, -, hline, -⟩ := deassertRstc_line out x h.toShared
    rw [heq] at hfail ⊢
    obtain ⟨rfl, hcount⟩ := hline hfail
    let mid : ResetState ν :=
      { s with deassertCount := update s.deassertCount x (s.deassertCount x + 1), line := s.line }
    have hmid : mid.deassertCount x = s.deassertCount x + 1 := update_self ..
    obtain ⟨ln', ret', heq', hline', -⟩ :=
      assertRstc_line out' (show Shared c mid from ⟨h.shared, h.untriggered⟩) (x := x) (by omega)
    have hback : update mid.deassertCount x (mid.deassertCount x - 1) = s.deassertCount := by
      rw [hmid, Nat.add_sub_cancel]
      exact (update_idem ..).trans (update_eq_self ..)
    change Sound c (assertRstc c out' mid (.line x)).1 ∧ (assertRstc c out' mid (.line x)).1.deassertCount = _
    rw [heq', hback]
    refine ⟨⟨⟨h.shared, h.untriggered⟩, fun y hy => ?_, fun y hy => ?_⟩, rfl⟩
    · dsimp only at hy ⊢
      by_cases hchange : ln' y = s.line y
      · rw [hchange]
        exact h.users y hy
      · obtain ⟨rfl, -, -⟩ := hline' y hchange
        omega
    · dsimp only
      by_cases hchange : ln' y = s.line y
      · rw [hchange]
        exact h.unable y hy
      · obtain ⟨rfl, -, hassert⟩ := hline' y hchange
        rw [hy] at hassert
        cases hassert

/-! ### Counts -/

/-- An assertion that succeeds, or of a control that has users, takes one away. -/
theorem assertRstc_count (h : Shared c s) (out : ℤ) (r : Rstc ν)
    (hr : (assertRstc c out s r).2 = 0 ∨ ∀ x, tally [r] x ≤ s.deassertCount x) (x : ν) :
    (assertRstc c out s r).1.deassertCount x + tally [r] x = s.deassertCount x := by
  cases r with
  | null => rfl
  | invalid => rfl
  | line y =>
    have hcount : s.deassertCount y ≠ 0 := by
      intro h0
      cases hr with
      | inl hok =>
        rw [assertRstc, if_pos (h.shared y), if_neg (not_not.mpr (h.untriggered y)), if_pos h0] at hok
        cases hok
      | inr hle =>
        have hle := hle y
        rw [tally_line] at hle
        omega
    obtain ⟨ln, ret, heq, -, -⟩ := assertRstc_line out h hcount
    rw [heq]
    dsimp only
    by_cases hxy : x = y
    · subst hxy
      rw [update_self, tally_line]
      omega
    · rw [update_of_ne hxy, tally_line_of_ne hxy, Nat.add_zero]

theorem deassertRstc_count (h : Shared c s) (out : ℤ) (r : Rstc ν) (hok : (deassertRstc c out s r).2 = 0) (x : ν) :
    (deassertRstc c out s r).1.deassertCount x = s.deassertCount x + tally [r] x := by
  cases r with
  | null => rfl
  | invalid => cases hok
  | line y =>
    obtain ⟨ln, ret, heq, -⟩ := deassertRstc_line out y h
    rw [heq]
    dsimp only
    by_cases hxy : x = y
    · subst hxy
      rw [update_self, tally_line]
    · rw [update_of_ne hxy, tally_line_of_ne hxy, Nat.add_zero]

variable {results : ℕ → ℤ} {rs : List (Rstc ν × ℕ)}

def tallyOf (rs : List (Rstc ν × ℕ)) (x : ν) : ℕ := tally (rs.map Prod.fst) x

theorem tallyOf_cons (r : Rstc ν × ℕ) (rs : List (Rstc ν × ℕ)) (x : ν) :
    tallyOf (r :: rs) x = tallyOf rs x + tally [r.1] x :=
  tally_cons ..

theorem tallyOf_reverse (rs : List (Rstc ν × ℕ)) (x : ν) : tallyOf rs.reverse x = tallyOf rs x := by
  rw [tallyOf, tallyOf, tally, tally, List.map_reverse, List.count_reverse]

theorem tallyOf_zipIdx (rs : List (Rstc ν)) (x : ν) : tallyOf rs.zipIdx x = tally rs x := by
  rw [tallyOf, List.zipIdx_map_fst]

theorem steps_assert (h : Sound c s) (hsteps : Steps (assertWith c results) rs s t) :
    Sound c t ∧ ∀ x, t.deassertCount x + tallyOf rs x = s.deassertCount x := by
  induction rs generalizing s with
  | nil => exact hsteps ▸ ⟨h, fun _ => rfl⟩
  | cons r rs ih =>
    obtain ⟨hsound, hcount⟩ := ih (h.assert (results r.2) r.1) hsteps.2
    refine ⟨hsound, fun x => ?_⟩
    have hfirst := assertRstc_count h.toShared (results r.2) r.1 (.inl hsteps.1) x
    rw [tallyOf_cons, ← Nat.add_assoc, hcount x]
    exact hfirst

theorem steps_deassert (h : Sound c s) (hsteps : Steps (deassertWith c results) rs s t) :
    Sound c t ∧ ∀ x, t.deassertCount x = s.deassertCount x + tallyOf rs x := by
  induction rs generalizing s with
  | nil => exact hsteps ▸ ⟨h, fun _ => rfl⟩
  | cons r rs ih =>
    obtain ⟨hsound, hcount⟩ := ih (h.deassert hsteps.1) hsteps.2
    refine ⟨hsound, fun x => ?_⟩
    have hfirst := deassertRstc_count h.toShared (results r.2) r.1 hsteps.1 x
    rw [tallyOf_cons, hcount x, Nat.add_comm (tallyOf rs x), ← Nat.add_assoc]
    exact congrArg (· + _) hfirst

/-- Going back over controls that have users takes one away for each. -/
theorem unwind_assert (results : ℕ → ℤ) {rs : List (Rstc ν × ℕ)} (h : Sound c s) (hle : ∀ x, tallyOf rs x ≤ s.deassertCount x) :
    Sound c (unwind (assertWith c results) rs s) ∧
      ∀ x, (unwind (assertWith c results) rs s).deassertCount x + tallyOf rs x = s.deassertCount x := by
  induction rs generalizing s with
  | nil => exact ⟨h, fun _ => rfl⟩
  | cons r rs ih =>
    have hfirst := assertRstc_count h.toShared (results r.2) r.1 (.inr fun x => by
      have := hle x
      rw [tallyOf_cons] at this
      omega)
    obtain ⟨hsound, hcount⟩ := ih (h.assert (results r.2) r.1) fun x => by
      have := hle x
      have := hfirst x
      rw [tallyOf_cons] at *
      omega
    refine ⟨hsound, fun x => ?_⟩
    rw [tallyOf_cons, ← Nat.add_assoc]
    exact (congrArg (· + _) (hcount x)).trans (hfirst x)

/-! ### Calls -/

def ResetControl.controls : ResetControl ν → List (Rstc ν)
  | .single r => [r]
  | .array rs => rs

def Call.controls : Call ν → List (Rstc ν)
  | .assert r => r.controls
  | .deassert r => r.controls
  | .bulkAssert rs => rs
  | .bulkDeassert rs => rs

def Call.asserts : Call ν → Bool
  | .assert _ => true
  | .deassert _ => false
  | .bulkAssert _ => true
  | .bulkDeassert _ => false

/-- A call that fails leaves all counts as they were, and one that succeeds changes
them by one for each control listed. -/
def Balanced (s : ResetState ν) (a : Call ν) (res : ResetState ν × ℤ) : Prop :=
  (res.2 ≠ 0 → res.1.deassertCount = s.deassertCount) ∧
    (res.2 = 0 → ∀ x, if a.asserts then res.1.deassertCount x + tally a.controls x = s.deassertCount x
      else res.1.deassertCount x = s.deassertCount x + tally a.controls x)

/-- The controls were deasserted as often as they are listed. -/
def Held (s : ResetState ν) (rs : List (Rstc ν)) : Prop := .invalid ∉ rs ∧ ∀ x, tally rs x ≤ s.deassertCount x

/-- The callers assert only what they deasserted, and no callback fails on the way of
a call other than `reset_control_bulk_deassert`. -/
def Allowed (s : ResetState ν) (a : Call ν × Env) : Prop :=
  match a.1 with
  | .assert r => Held s r.controls ∧ ∀ i, a.2.main i = 0
  | .deassert _ => ∀ i, a.2.main i = 0
  | .bulkAssert rs => Held s rs ∧ ∀ i, a.2.main i = 0
  | .bulkDeassert _ => True

theorem assertRstc_succeeds (h : Shared c s) (hvalid : r ≠ .invalid) (hle : ∀ x, tally [r] x ≤ s.deassertCount x) :
    (assertRstc c 0 s r).2 = 0 := by
  cases r with
  | null => rfl
  | invalid => exact absurd rfl hvalid
  | line x =>
    have hle := hle x
    rw [tally_line] at hle
    obtain ⟨ln, ret, heq, -, hret⟩ := assertRstc_line 0 h (x := x) (by omega)
    rw [heq]
    exact hret rfl

theorem tryAll_assert (h : Sound c s) {rs : List (Rstc ν)} (hheld : Held s rs) (hresults : ∀ i, results i = 0) :
    ∃ t visited, tryAll (assertWith c results) rs.zipIdx [] s = (t, 0, visited) ∧ Sound c t ∧
      ∀ x, t.deassertCount x + tally rs x = s.deassertCount x := by
  obtain ⟨t, hsteps, heq⟩ | ⟨front, r, rest, t, hrs, hsteps, hfail, -⟩ :=
    tryAll_cases (assertWith c results) rs.zipIdx [] s
  · obtain ⟨hsound, hcount⟩ := steps_assert h hsteps
    exact ⟨t, _, heq, hsound, fun x => tallyOf_zipIdx rs x ▸ hcount x⟩
  · obtain ⟨hsound, hcount⟩ := steps_assert h hsteps
    refine absurd ?_ hfail
    have hmap : rs = front.map Prod.fst ++ r.1 :: rest.map Prod.fst := by
      rw [← List.zipIdx_map_fst 0 rs, hrs, List.map_append, List.map_cons]
    rw [assertWith, hresults]
    refine assertRstc_succeeds hsound.toShared (fun hinvalid => hheld.1 ?_) fun x => ?_
    · rw [hmap, hinvalid]
      simp
    · have hle := hheld.2 x
      have := hcount x
      rw [hmap, tally, List.count_append, ← tally, ← tally, tally_cons] at hle
      change _ + tally (front.map Prod.fst) x = _ at this
      omega

/-- Deasserting controls with callbacks that succeed fails at an invalid pointer only. -/
theorem tryAll_deassert (h : Sound c s) (rs : List (Rstc ν × ℕ)) (hresults : ∀ i, results i = 0) :
    (∃ t visited, tryAll (deassertWith c results) rs [] s = (t, 0, visited) ∧ Sound c t ∧
      ∀ x, t.deassertCount x = s.deassertCount x + tallyOf rs x) ∨
    ∃ t ret r front, tryAll (deassertWith c results) rs [] s = (t, ret, r :: front) ∧ ret ≠ 0 ∧ Sound c t ∧
      ∀ x, t.deassertCount x = s.deassertCount x + tallyOf front x := by
  obtain ⟨t, hsteps, heq⟩ | ⟨front, r, rest, t, -, hsteps, hfail, heq⟩ :=
    tryAll_cases (deassertWith c results) rs [] s
  · obtain ⟨hsound, hcount⟩ := steps_deassert h hsteps
    exact .inl ⟨t, _, heq, hsound, hcount⟩
  · obtain ⟨hsound, hcount⟩ := steps_deassert h hsteps
    have hsame : (deassertWith c results t r).1 = t := by
      rw [deassertWith, hresults] at hfail ⊢
      cases hr : r.1 with
      | null => rfl
      | invalid => rfl
      | line x =>
        obtain ⟨ln, ret, heq, -, -, -, hret⟩ := deassertRstc_line 0 x hsound.toShared
        rw [hr, heq] at hfail
        exact absurd (hret rfl) hfail
    rw [hsame] at heq
    refine .inr ⟨t, _, r, _, heq, hfail, hsound, fun x => ?_⟩
    rw [List.append_nil, tallyOf_reverse]
    exact hcount x

theorem arrayDeassert_balanced (h : Sound c s) (env : Env) (hmain : ∀ i, env.main i = 0) (rs : List (Rstc ν)) :
    Sound c (resetControlArrayDeassert c env rs s).1 ∧
      ((resetControlArrayDeassert c env rs s).2 ≠ 0 →
        (resetControlArrayDeassert c env rs s).1.deassertCount = s.deassertCount) ∧
      ((resetControlArrayDeassert c env rs s).2 = 0 → ∀ x,
        (resetControlArrayDeassert c env rs s).1.deassertCount x = s.deassertCount x + tally rs x) := by
  rw [resetControlArrayDeassert]
  obtain ⟨t, visited, heq, hsound, hcount⟩ | ⟨t, ret, r, front, heq, hret, hsound, hcount⟩ :=
    tryAll_deassert h rs.zipIdx hmain
  · rw [heq]
    dsimp only
    rw [if_neg (by simp)]
    exact ⟨hsound, fun hne => absurd rfl hne, fun _ x => tallyOf_zipIdx rs x ▸ hcount x⟩
  · rw [heq]
    dsimp only
    rw [if_pos hret, List.tail_cons]
    obtain ⟨hsound', hcount'⟩ := unwind_assert env.back hsound fun x => by
      have := hcount x
      show tallyOf front x ≤ _
      omega
    refine ⟨hsound', fun _ => funext fun x => ?_, fun h0 => absurd h0 hret⟩
    have hcount' := hcount' x
    rw [hcount x] at hcount'
    exact Nat.add_right_cancel hcount'

/-- The bulk form restores the counts whatever callback fails. -/
theorem bulkDeassert_balanced (h : Sound c s) (env : Env) (rs : List (Rstc ν)) :
    Sound c (resetControlBulkDeassert c env rs s).1 ∧
      ((resetControlBulkDeassert c env rs s).2 ≠ 0 →
        (resetControlBulkDeassert c env rs s).1.deassertCount = s.deassertCount) ∧
      ((resetControlBulkDeassert c env rs s).2 = 0 → ∀ x,
        (resetControlBulkDeassert c env rs s).1.deassertCount x = s.deassertCount x + tally rs x) := by
  rw [resetControlBulkDeassert]
  obtain ⟨t, hsteps, heq⟩ | ⟨front, r, rest, t, -, hsteps, hfail, heq⟩ :=
    tryAll_cases (deassertWith c env.main) rs.zipIdx.reverse [] s
  · obtain ⟨hsound, hcount⟩ := steps_deassert h hsteps
    rw [heq]
    dsimp only
    rw [if_neg (by simp)]
    refine ⟨hsound, fun hne => absurd rfl hne, fun _ x => ?_⟩
    rw [hcount x, tallyOf_reverse, tallyOf_zipIdx]
  · obtain ⟨hsound, hcount⟩ := steps_deassert h hsteps
    rw [heq]
    dsimp only
    rw [if_pos hfail, List.append_nil]
    -- the control that failed is asserted first
    obtain ⟨hundo, hback⟩ := hsound.undo (env.back r.2) hfail
    obtain ⟨hsound', hcount'⟩ := unwind_assert env.back hundo fun x => by
      have := hcount x
      show tallyOf front.reverse x ≤ _
      rw [tallyOf_reverse, hback]
      omega
    refine ⟨hsound', fun _ => funext fun x => ?_, fun h0 => absurd h0 hfail⟩
    have := hcount x
    have hcount' := hcount' x
    rw [tallyOf_reverse, hback, this] at hcount'
    exact Nat.add_right_cancel hcount'

theorem arrayAssert_balanced (h : Sound c s) (env : Env) (hmain : ∀ i, env.main i = 0) {rs : List (Rstc ν)}
    (hheld : Held s rs) :
    Sound c (resetControlArrayAssert c env rs s).1 ∧ (resetControlArrayAssert c env rs s).2 = 0 ∧
      ∀ x, (resetControlArrayAssert c env rs s).1.deassertCount x + tally rs x = s.deassertCount x := by
  rw [resetControlArrayAssert]
  obtain ⟨t, visited, heq, hsound, hcount⟩ := tryAll_assert h hheld hmain
  rw [heq]
  exact ⟨hsound, rfl, hcount⟩

theorem call_balanced (h : Sound c s) {a : Call ν × Env} (ha : Allowed s a) :
    Sound c (call c a.2 s a.1).1 ∧ Balanced s a.1 (call c a.2 s a.1) := by
  obtain ⟨a, env⟩ := a
  cases a with
  | assert r =>
    obtain ⟨hheld, hmain⟩ := ha
    cases r with
    | single r =>
      have hle : ∀ x, tally [r] x ≤ s.deassertCount x := hheld.2
      have hok : (assertRstc c (env.main 0) s r).2 = 0 := by
        rw [hmain 0]
        exact assertRstc_succeeds h.toShared (fun hr => hheld.1 (by simp [ResetControl.controls, hr])) hle
      exact ⟨h.assert (env.main 0) r, fun hne => absurd hok hne,
        fun _ x => assertRstc_count h.toShared (env.main 0) r (.inl hok) x⟩
    | array rs =>
      obtain ⟨hsound, hok, hcount⟩ := arrayAssert_balanced h env hmain hheld
      exact ⟨hsound, fun hne => absurd hok hne, fun _ x => hcount x⟩
  | deassert r =>
    cases r with
    | single r =>
      have hmain : env.main 0 = 0 := ha 0
      change Sound c (deassertRstc c (env.main 0) s r).1 ∧ Balanced s _ (deassertRstc c (env.main 0) s r)
      rw [hmain]
      cases r with
      | null => exact ⟨h, fun hne => absurd rfl hne, fun _ _ => rfl⟩
      | invalid => exact ⟨h, fun _ => rfl, fun h0 => absurd (show -EINVAL = 0 from h0) (by decide)⟩
      | line x =>
        have hok : (deassertRstc c 0 s (.line x)).2 = 0 := by
          obtain ⟨ln, ret, heq, -, -, -, hret⟩ := deassertRstc_line 0 x h.toShared
          rw [heq]
          exact hret rfl
        exact ⟨h.deassert hok, fun hne => absurd hok hne,
          fun _ y => deassertRstc_count h.toShared 0 (.line x) hok y⟩
    | array rs => exact arrayDeassert_balanced h env ha rs
  | bulkAssert rs =>
    obtain ⟨hsound, hok, hcount⟩ := arrayAssert_balanced h env ha.2 ha.1
    exact ⟨hsound, fun hne => absurd hok hne, fun _ x => hcount x⟩
  | bulkDeassert rs => exact bulkDeassert_balanced h env rs

/-- In every state of a run in which no callback fails, other than in the bulk form of
deasserting, all lines with users are deasserted and the next call is balanced. -/
theorem reset_counts_balanced (hshared : ∀ x, c.shared x = true) {as : List (Call ν × Env)}
    (hallowed : Along (step c) Allowed ResetState.initial as) (hrun : exec (step c) ResetState.initial as = some s) :
    (∀ x, 0 < s.deassertCount x → s.line x ≠ some .assert) ∧
      ∀ a, Allowed s a → Balanced s a.1 (call c a.2 s a.1) := by
  have hinitial : Sound c ResetState.initial :=
    ⟨⟨hshared, fun _ => rfl⟩, fun _ h => absurd h (Nat.lt_irrefl 0), fun _ _ => by simp [ResetState.initial]⟩
  have hsound : Sound c s := by
    refine exec_invariant_along (fun s a t hs ha ht => ?_) hinitial hallowed hrun
    cases ht
    exact (call_balanced hs ha).1
  exact ⟨hsound.users, fun a ha => (call_balanced hsound ha).2⟩

/-- Two shared lines with all callbacks. -/
def twoLines : Controller Bool where
  shared := fun _ => true
  hasAssert := fun _ => true
  hasDeassert := fun _ => true
  paired := fun _ _ => rfl

/-- All callbacks succeed. -/
def succeeding : Env := ⟨fun _ => 0, fun _ => 0⟩

/-- The callback for the first control fails. -/
def failingFirst : Env := ⟨fun i => if i = 0 then - EIO else 0, fun _ => 0⟩

theorem twoLines_balanced :
    let as : List (Call Bool × Env) := [(.bulkDeassert [.line false, .line true, .line true], succeeding),
      (.bulkDeassert [.line false], failingFirst), (.assert (.single (.line true)), succeeding)]
    ∃ s, exec (step twoLines) ResetState.initial as = some s ∧ s.deassertCount true = 1 ∧
      s.line true ≠ some .assert := by
  intro as
  have hallowed : Along (step twoLines) Allowed ResetState.initial as := by
    refine .cons trivial rfl (.cons trivial rfl (.cons ⟨⟨by decide, by decide⟩, fun _ => rfl⟩ rfl trivial))
  exact ⟨_, rfl, by decide, (reset_counts_balanced (fun _ => rfl) hallowed rfl).1 true (by decide)⟩

/-- A line is used and given back. A second user fails to deassert it: the count stays
up, with the line asserted. -/
theorem failed_deassert_counts :
    let as : List (Call Bool × Env) :=
      [(.deassert (.single (.line true)), succeeding), (.assert (.single (.line true)), succeeding)]
    ∃ s, exec (step twoLines) ResetState.initial as = some s ∧ s.deassertCount true = 0 ∧
      (call twoLines failingFirst s (.deassert (.single (.line true)))).2 = - EIO ∧
      (call twoLines failingFirst s (.deassert (.single (.line true)))).1.deassertCount true = 1 ∧
      (call twoLines failingFirst s (.deassert (.single (.line true)))).1.line true = some .assert ∧
      ¬Balanced s (.deassert (.single (.line true)))
        (call twoLines failingFirst s (.deassert (.single (.line true)))) := by
  refine ⟨_, rfl, by decide, by decide, by decide, by decide, fun h => ?_⟩
  have hcount := congrFun (h.1 (by decide)) true
  revert hcount
  decide

end GfpDrivers.Reset
