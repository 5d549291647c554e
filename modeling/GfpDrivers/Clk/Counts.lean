import GfpDrivers.Clk.Core
import GfpDrivers.Lib.RefCount

/-!
The counts of the clocks as reference counts. Protecting and unprotecting,
enabling and disabling, preparing and unpreparing take and give back one
reference; a call that fails leaves all counts as they were.
-/

namespace GfpDrivers.Clk

open Lib Function

variable {κ υ R : Type} [DecidableEq κ] {P : Platform κ υ R} {a : Answers κ R} {s s' : ClkTree κ υ R}
  {fuel : ℕ} {c : κ} {q : Option κ} {n m : κ → ℕ}

/-! ### Views -/

namespace ClkTree

def parent (s : ClkTree κ υ R) (c : κ) : Option κ := (s.core c).parent

def prepares (s : ClkTree κ υ R) (c : κ) : ℕ := (s.core c).prepareCount

def enables (s : ClkTree κ υ R) (c : κ) : ℕ := (s.core c).enableCount

def protects (s : ClkTree κ υ R) (c : κ) : ℕ := (s.core c).protectCount

/-- The clocks with other counts. -/
def withPrepares (s : ClkTree κ υ R) (n : κ → ℕ) : ClkTree κ υ R :=
  { s with core := fun c => { s.core c with prepareCount := n c } }

def withEnables (s : ClkTree κ υ R) (n : κ → ℕ) : ClkTree κ υ R :=
  { s with core := fun c => { s.core c with enableCount := n c } }

def withProtects (s : ClkTree κ υ R) (n : κ → ℕ) : ClkTree κ υ R :=
  { s with core := fun c => { s.core c with protectCount := n c } }

end ClkTree

section Views

omit [DecidableEq κ]

@[simp] theorem withPrepares_parent : (s.withPrepares n).parent = s.parent := rfl
@[simp] theorem withPrepares_prepares : (s.withPrepares n).prepares = n := rfl
@[simp] theorem withPrepares_enables : (s.withPrepares n).enables = s.enables := rfl
@[simp] theorem withPrepares_protects : (s.withPrepares n).protects = s.protects := rfl
@[simp] theorem withPrepares_self : s.withPrepares s.prepares = s := rfl
@[simp] theorem withPrepares_withPrepares :
    (s.withPrepares n).withPrepares m = s.withPrepares m := rfl

@[simp] theorem withEnables_parent : (s.withEnables n).parent = s.parent := rfl
@[simp] theorem withEnables_prepares : (s.withEnables n).prepares = s.prepares := rfl
@[simp] theorem withEnables_enables : (s.withEnables n).enables = n := rfl
@[simp] theorem withEnables_protects : (s.withEnables n).protects = s.protects := rfl
@[simp] theorem withEnables_self : s.withEnables s.enables = s := rfl
@[simp] theorem withEnables_withEnables : (s.withEnables n).withEnables m = s.withEnables m := rfl

@[simp] theorem withProtects_parent : (s.withProtects n).parent = s.parent := rfl
@[simp] theorem withProtects_prepares : (s.withProtects n).prepares = s.prepares := rfl
@[simp] theorem withProtects_enables : (s.withProtects n).enables = s.enables := rfl
@[simp] theorem withProtects_protects : (s.withProtects n).protects = n := rfl
@[simp] theorem withProtects_self : s.withProtects s.protects = s := rfl
@[simp] theorem withProtects_withProtects :
    (s.withProtects n).withProtects m = s.withProtects m := rfl

@[simp] theorem withProtects_withPrepares :
    (s.withProtects n).withPrepares m = (s.withPrepares m).withProtects n := rfl

@[simp] theorem tick_parent : s.tick.parent = s.parent := rfl
@[simp] theorem tick_prepares : s.tick.prepares = s.prepares := rfl
@[simp] theorem tick_enables : s.tick.enables = s.enables := rfl
@[simp] theorem tick_protects : s.tick.protects = s.protects := rfl

end Views

theorem setCore_prepareCount {k : ℕ} :
    s.setCore c { s.core c with prepareCount := k } =
      s.withPrepares (update s.prepares c k) := by
  simp only [ClkTree.setCore, ClkTree.withPrepares, ClkTree.mk.injEq, and_true]
  funext d
  by_cases hd : d = c
  · subst hd
    simp
  · simp only [update_of_ne hd, ClkTree.prepares]

theorem setCore_enableCount {k : ℕ} :
    s.setCore c { s.core c with enableCount := k } =
      s.withEnables (update s.enables c k) := by
  simp only [ClkTree.setCore, ClkTree.withEnables, ClkTree.mk.injEq, and_true]
  funext d
  by_cases hd : d = c
  · subst hd
    simp
  · simp only [update_of_ne hd, ClkTree.enables]

theorem setCore_protectCount {k : ℕ} :
    s.setCore c { s.core c with protectCount := k } =
      s.withProtects (update s.protects c k) := by
  simp only [ClkTree.setCore, ClkTree.withProtects, ClkTree.mk.injEq, and_true]
  funext d
  by_cases hd : d = c
  · subst hd
    simp
  · simp only [update_of_ne hd, ClkTree.protects]

/-! ### Protection -/

theorem clkCoreRateProtect_succ :
    clkCoreRateProtect (fuel + 1) s (some c) =
      (if s.protects c = 0 then clkCoreRateProtect fuel s (s.parent c) else some s).map fun s =>
        s.withProtects (update s.protects c (s.protects c + 1)) := by
  simp only [clkCoreRateProtect, setCore_protectCount]
  rfl

theorem clkCoreRateUnprotect_succ :
    clkCoreRateUnprotect (fuel + 1) s (some c) =
      if s.protects c = 0 then some s
      else if 1 < s.protects c then some (s.withProtects (update s.protects c (s.protects c - 1)))
      else clkCoreRateUnprotect fuel (s.withProtects (update s.protects c 0)) (s.parent c) := by
  simp only [clkCoreRateUnprotect, setCore_protectCount]
  change (if s.protects c = 0 then _ else
    if 0 < update s.protects c (s.protects c - 1) c then _ else _) = _
  rw [update_self]
  by_cases hzero : s.protects c = 0
  · simp only [if_pos hzero]
  · by_cases hone : 1 < s.protects c
    · rw [if_neg hzero, if_neg hzero, if_pos (by omega), if_pos hone]
      rfl
    · rw [if_neg hzero, if_neg hzero, if_neg (by omega), if_neg hone,
        ← show s.protects c - 1 = 0 by omega]
      rfl

theorem clkCoreRateProtect_eq :
    clkCoreRateProtect fuel s q = (acquire s.parent fuel s.protects q).map s.withProtects := by
  induction fuel generalizing q with
  | zero => cases q <;> rfl
  | succ fuel ih =>
    cases q with
    | none => rfl
    | some c =>
      rw [clkCoreRateProtect_succ, acquire_succ, ih]
      by_cases hc : s.protects c = 0
      · rw [if_pos hc, if_pos hc, Option.map_map, Option.map_map]
        rfl
      · rw [if_neg hc, if_neg hc]
        rfl

theorem clkCoreRateUnprotect_eq :
    clkCoreRateUnprotect fuel s q =
      (release s.parent (fun _ => false) fuel s.protects q).map s.withProtects := by
  induction fuel generalizing s q with
  | zero => cases q <;> rfl
  | succ fuel ih =>
    cases q with
    | none => rfl
    | some c =>
      rw [clkCoreRateUnprotect_succ, release_succ, ih]
      by_cases hzero : s.protects c = 0
      · simp [hzero]
      · by_cases hone : 1 < s.protects c
        · simp [hzero, hone]
        · simp only [if_neg hone, hzero, Bool.false_eq_true, and_false, or_false, if_false]
          rfl

/-! ### Enabling -/

/-- The clocks that are not to be unprepared or disabled. -/
def Platform.critical (P : Platform κ υ R) (c : κ) : Bool := (P.flags c).isCritical

theorem clkCoreDisable_succ :
    clkCoreDisable P (fuel + 1) s (some c) =
      if s.enables c = 0 ∨ s.enables c = 1 ∧ P.critical c then some s
      else if 1 < s.enables c then some (s.withEnables (update s.enables c (s.enables c - 1)))
      else clkCoreDisable P fuel (s.withEnables (update s.enables c 0)) (s.parent c) := by
  simp only [clkCoreDisable, setCore_enableCount]
  change (if s.enables c = 0 then some s else if s.enables c = 1 ∧ P.critical c then some s else
    if 0 < update s.enables c (s.enables c - 1) c then _ else _) = _
  rw [update_self]
  by_cases hzero : s.enables c = 0
  · rw [if_pos hzero, if_pos (.inl hzero)]
  · by_cases hcrit : s.enables c = 1 ∧ P.critical c
    · rw [if_neg hzero, if_pos hcrit, if_pos (.inr hcrit)]
    · rw [if_neg hzero, if_neg hcrit, if_neg (not_or.mpr ⟨hzero, hcrit⟩)]
      by_cases hone : 1 < s.enables c
      · rw [if_pos (by omega), if_pos hone]
        rfl
      · rw [if_neg (by omega), if_neg hone, ← show s.enables c - 1 = 0 by omega]
        rfl

theorem clkCoreEnable_succ :
    clkCoreEnable P a (fuel + 1) s (some c) =
      if s.prepares c = 0 then some (s, -ESHUTDOWN)
      else if s.enables c = 0 then
        (clkCoreEnable P a fuel s (s.parent c)).bind fun r =>
          if r.2 ≠ 0 then some r
          else if a.enable c ≠ 0 then (clkCoreDisable P fuel r.1 (r.1.parent c)).map (·, a.enable c)
          else some (r.1.withEnables (update r.1.enables c (r.1.enables c + 1)), 0)
      else some (s.withEnables (update s.enables c (s.enables c + 1)), 0) := by
  simp only [clkCoreEnable, countEnable, setCore_enableCount]
  rfl

theorem clkCoreDisable_eq :
    clkCoreDisable P fuel s q =
      (release s.parent P.critical fuel s.enables q).map s.withEnables := by
  induction fuel generalizing s q with
  | zero => cases q <;> rfl
  | succ fuel ih =>
    cases q with
    | none => rfl
    | some c =>
      rw [clkCoreDisable_succ, release_succ, ih]
      by_cases hstop : s.enables c = 0 ∨ s.enables c = 1 ∧ P.critical c
      · rw [if_pos hstop, if_pos hstop]
        rfl
      · rw [if_neg hstop, if_neg hstop]
        by_cases hone : 1 < s.enables c
        · rw [if_pos hone, if_pos hone]
          rfl
        · rw [if_neg hone, if_neg hone]
          rfl

/-- Enabling a clock takes a reference, or fails and leaves the counts alone. -/
theorem clkCoreEnable_cases (hacyc : Acyclic s.parent)
    (hcrit : ∀ c ∈ q, ∀ d, Under s.parent c d → P.critical d → 0 < s.enables d)
    (hreach : Reaches s.parent fuel q) :
    ∃ n ret, clkCoreEnable P a fuel s q = some (s.withEnables n, ret) ∧
      (ret ≠ 0 ∧ n = s.enables ∨ ret = 0 ∧ acquire s.parent fuel s.enables q = some n) := by
  induction fuel generalizing q with
  | zero =>
    cases q with
    | none => exact ⟨s.enables, 0, rfl, .inr ⟨rfl, rfl⟩⟩
    | some c => exact hreach.elim
  | succ fuel ih =>
    cases q with
    | none => exact ⟨s.enables, 0, rfl, .inr ⟨rfl, rfl⟩⟩
    | some c =>
      rw [clkCoreEnable_succ, acquire_succ]
      by_cases hprep : s.prepares c = 0
      · exact ⟨s.enables, -ESHUTDOWN, by rw [if_pos hprep]; rfl, .inl ⟨by decide, rfl⟩⟩
      · by_cases hen : s.enables c = 0
        · obtain ⟨n, ret, hrun, hcase⟩ := ih
            (fun p hp d hd => hcrit c rfl d (.head hp hd)) hreach
          simp only [if_neg hprep, if_pos hen, hrun, Option.bind_some]
          rcases hcase with ⟨hret, rfl⟩ | ⟨rfl, hn⟩
          · exact ⟨s.enables, ret, if_pos hret, .inl ⟨hret, rfl⟩⟩
          · by_cases hop : a.enable c = 0
            · exact ⟨update n c (n c + 1), 0, by simp [hop], .inr ⟨rfl, by rw [hn]; rfl⟩⟩
            · -- the parent is disabled again
              refine ⟨s.enables, a.enable c, ?_, .inl ⟨hop, rfl⟩⟩
              have hback := release_acquire hacyc hn (by
                rintro d ⟨p, hp, hd⟩
                exact hcrit c rfl d (.head' hp hd))
              simp [hop, clkCoreDisable_eq, hback]
        · exact ⟨_, 0, by rw [if_neg hprep, if_neg hen], .inr ⟨rfl, by rw [if_neg hen]; rfl⟩⟩

theorem clkCoreEnable_ok (hreach : Reaches s.parent fuel q)
    (hok : ∀ d, Above s.parent q d → 0 < s.prepares d ∧ a.enable d = 0) :
    ∃ n, clkCoreEnable P a fuel s q = some (s.withEnables n, 0) := by
  induction fuel generalizing q with
  | zero =>
    cases q with
    | none => exact ⟨s.enables, rfl⟩
    | some c => exact hreach.elim
  | succ fuel ih =>
    cases q with
    | none => exact ⟨s.enables, rfl⟩
    | some c =>
      obtain ⟨hprep, hop⟩ := hok c above_self
      obtain ⟨n, hrun⟩ := ih hreach fun d hd => hok d hd.of_parent
      rw [clkCoreEnable_succ, if_neg (by omega)]
      by_cases hen : s.enables c = 0
      · simp [hen, hrun, hop]
      · exact ⟨_, by rw [if_neg hen]⟩

/-! ### Preparing -/

/-- The clocks that protect themselves while they are prepared. -/
def Platform.gated (P : Platform κ υ R) (c : κ) : Bool := (P.flags c).setRateGate

/-- The protection that a clock takes when it is prepared. -/
def protectGated (P : Platform κ υ R) (fuel : ℕ) (s : ClkTree κ υ R) (c : κ) : Option (ClkTree κ υ R) :=
  if P.gated c then clkCoreRateProtect fuel s (some c) else some s

/-- The protection that a clock gives back when it is unprepared. -/
def unprotectGated (P : Platform κ υ R) (fuel : ℕ) (s : ClkTree κ υ R) (c : κ) : Option (ClkTree κ υ R) :=
  if P.gated c then clkCoreRateUnprotect fuel s (some c) else some s

theorem countPrepare_eq :
    countPrepare P fuel s c = (protectGated P fuel
      (s.withPrepares (update s.prepares c (s.prepares c + 1))) c).map (·, 0) := by
  simp only [countPrepare, setCore_prepareCount]
  rfl

theorem clkCorePrepare_succ :
    clkCorePrepare P a (fuel + 1) s (some c) =
      if s.prepares c = 0 then
        if a.runtimeGet c ≠ 0 then some (s, a.runtimeGet c)
        else
          (clkCorePrepare P a fuel s (s.parent c)).bind fun r =>
            if r.2 ≠ 0 then some r
            else if a.prepare c ≠ 0 then (clkCoreUnprepare P fuel r.1 (r.1.parent c)).map (·, a.prepare c)
            else countPrepare P (fuel + 1) r.1 c
      else countPrepare P (fuel + 1) s c := rfl

theorem clkCoreUnprepare_succ :
    clkCoreUnprepare P (fuel + 1) s (some c) =
      if s.prepares c = 0 ∨ s.prepares c = 1 ∧ P.critical c then some s
      else
        (unprotectGated P (fuel + 1) s c).bind fun s =>
          if 1 < s.prepares c then some (s.withPrepares (update s.prepares c (s.prepares c - 1)))
          else clkCoreUnprepare P fuel (s.withPrepares (update s.prepares c 0)) (s.parent c) := by
  simp only [clkCoreUnprepare, setCore_prepareCount]
  by_cases hzero : s.prepares c = 0
  · exact (if_pos hzero).trans (if_pos (.inl hzero)).symm
  · by_cases hcrit : s.prepares c = 1 ∧ P.critical c
    · exact (if_neg hzero).trans ((if_pos hcrit).trans (if_pos (.inr hcrit)).symm)
    · refine (if_neg hzero).trans ((if_neg hcrit).trans ?_)
      rw [if_neg (not_or.mpr ⟨hzero, hcrit⟩)]
      refine congrArg (Option.bind (unprotectGated P (fuel + 1) s c)) (funext fun s => ?_)
      change (if 0 < update s.prepares c (s.prepares c - 1) c then _ else _) = _
      rw [update_self]
      by_cases hone : 1 < s.prepares c
      · rw [if_pos (by omega), if_pos hone]
        rfl
      · rw [if_neg (by omega), if_neg hone, ← show s.prepares c - 1 = 0 by omega]
        rfl

theorem exists_protectGated (hreach : Reaches s.parent fuel (some c)) :
    ∃ m, protectGated P fuel s c = some (s.withProtects m) ∧
      ∀ d, ¬Above s.parent (some c) d → m d = s.protects d := by
  unfold protectGated
  split
  · obtain ⟨m, hm⟩ := exists_acquire s.protects hreach
    exact ⟨m, by rw [clkCoreRateProtect_eq, hm]; rfl, fun d hd => acquire_frame hm hd⟩
  · exact ⟨s.protects, rfl, fun _ _ => rfl⟩

theorem exists_unprotectGated (hreach : Reaches s.parent fuel (some c)) :
    ∃ m, unprotectGated P fuel s c = some (s.withProtects m) := by
  unfold unprotectGated
  split
  · obtain ⟨m, hm⟩ := exists_release (fun _ => false) s.protects hreach
    exact ⟨m, by rw [clkCoreRateUnprotect_eq, hm]; rfl⟩
  · exact ⟨s.protects, rfl⟩

theorem clkCoreUnprepare_eq (hreach : Reaches s.parent fuel q) :
    ∃ n m, clkCoreUnprepare P fuel s q = some ((s.withPrepares n).withProtects m) ∧
      release s.parent P.critical fuel s.prepares q = some n := by
  induction fuel generalizing s q with
  | zero =>
    cases q with
    | none => exact ⟨s.prepares, s.protects, rfl, rfl⟩
    | some c => exact hreach.elim
  | succ fuel ih =>
    cases q with
    | none => exact ⟨s.prepares, s.protects, rfl, rfl⟩
    | some c =>
      rw [clkCoreUnprepare_succ, release_succ]
      by_cases hstop : s.prepares c = 0 ∨ s.prepares c = 1 ∧ P.critical c
      · exact ⟨s.prepares, s.protects, by rw [if_pos hstop]; rfl, by rw [if_pos hstop]⟩
      · obtain ⟨m, hm⟩ := exists_unprotectGated (P := P) hreach
        rw [if_neg hstop, if_neg hstop, hm, Option.bind_some]
        by_cases hone : 1 < s.prepares c
        · exact ⟨update s.prepares c (s.prepares c - 1), m, if_pos hone, if_pos hone⟩
        · obtain ⟨n, m', hrun, hn⟩ := ih (s := (s.withProtects m).withPrepares
            (update s.prepares c 0)) hreach
          exact ⟨n, m', by rw [if_neg (by simpa using hone)]; exact hrun, by rw [if_neg hone]; exact hn⟩

theorem unprotectGated_protectGated (hacyc : Acyclic s.parent) (h : protectGated P fuel s c = some s') :
    unprotectGated P fuel s' c = some s := by
  by_cases hgate : P.gated c
  · rw [protectGated, if_pos hgate, clkCoreRateProtect_eq] at h
    obtain ⟨m, hm, rfl⟩ := Option.map_eq_some_iff.mp h
    have hback : release s.parent (fun _ => false) fuel m (some c) = some s.protects :=
      release_acquire hacyc hm (by simp)
    rw [unprotectGated, if_pos hgate, clkCoreRateUnprotect_eq, withProtects_parent,
      withProtects_protects, hback]
    rfl
  · rw [protectGated, if_neg hgate] at h
    rw [unprotectGated, if_neg hgate, h]

theorem countPrepare_cases (hacyc : Acyclic s.parent) (hreach : Reaches s.parent fuel (some c)) :
    ∃ m, countPrepare P fuel s c = some ((s.withPrepares
        (update s.prepares c (s.prepares c + 1))).withProtects m, 0) ∧
      unprotectGated P fuel ((s.withPrepares
        (update s.prepares c (s.prepares c + 1))).withProtects m) c =
        some (s.withPrepares (update s.prepares c (s.prepares c + 1))) ∧
      ∀ d, ¬Above s.parent (some c) d → m d = s.protects d := by
  obtain ⟨m, hm, hframe⟩ := exists_protectGated (P := P)
    (s := s.withPrepares (update s.prepares c (s.prepares c + 1))) hreach
  refine ⟨m, ?_, unprotectGated_protectGated hacyc hm, hframe⟩
  rw [countPrepare_eq, hm]
  rfl

theorem clkCoreUnprepare_counted (hcrit : s.prepares c = 0 → ¬P.critical c)
    (h : unprotectGated P (fuel + 1) s' c =
      some (s.withPrepares (update s.prepares c (s.prepares c + 1))))
    (hs' : s'.prepares c = s.prepares c + 1) :
    clkCoreUnprepare P (fuel + 1) s' (some c) =
      if s.prepares c = 0 then clkCoreUnprepare P fuel s (s.parent c) else some s := by
  have hstop : ¬(s'.prepares c = 0 ∨ s'.prepares c = 1 ∧ P.critical c) := by
    rintro (hzero | ⟨hone, hc⟩)
    · omega
    · exact hcrit (by omega) hc
  have hidem : ∀ k, k = s.prepares c → (s.withPrepares (update s.prepares c
      (s.prepares c + 1))).withPrepares (update (update s.prepares c
      (s.prepares c + 1)) c k) = s := fun k hk => by
    rw [update_idem, hk, update_eq_self]
    rfl
  rw [clkCoreUnprepare_succ, if_neg hstop, h, Option.bind_some, withPrepares_prepares,
    update_self, withPrepares_parent]
  by_cases hzero : s.prepares c = 0
  · rw [if_neg (by omega), if_pos hzero, hidem 0 hzero.symm]
  · rw [if_pos (by omega), if_neg hzero, Nat.add_sub_cancel, hidem _ rfl]

/-- Preparing a clock takes a reference, and unpreparing it leads back, unless
it is the last one on a critical clock. Or it fails and leaves the tree alone. -/
theorem clkCorePrepare_cases (hacyc : Acyclic s.parent)
    (hcrit : ∀ c ∈ q, ∀ d, Under s.parent c d → P.critical d → 0 < s.prepares d)
    (hreach : Reaches s.parent fuel q) :
    ∃ s' ret, clkCorePrepare P a fuel s q = some (s', ret) ∧
      (ret ≠ 0 ∧ s' = s ∨ ret = 0 ∧ (∃ n m, s' = (s.withPrepares n).withProtects m ∧
        acquire s.parent fuel s.prepares q = some n ∧
        ∀ d, ¬Above s.parent q d → m d = s.protects d) ∧
        ((∀ c ∈ q, P.critical c → 0 < s.prepares c) → clkCoreUnprepare P fuel s' q = some s)) := by
  induction fuel generalizing q with
  | zero =>
    cases q with
    | none => exact ⟨s, 0, rfl, .inr ⟨rfl, ⟨s.prepares, s.protects, rfl, rfl, fun _ _ => rfl⟩, fun _ => rfl⟩⟩
    | some c => exact hreach.elim
  | succ fuel ih =>
    cases q with
    | none => exact ⟨s, 0, rfl, .inr ⟨rfl, ⟨s.prepares, s.protects, rfl, rfl, fun _ _ => rfl⟩, fun _ => rfl⟩⟩
    | some c =>
      rw [clkCorePrepare_succ, acquire_succ]
      by_cases hprep : s.prepares c = 0
      · rw [if_pos hprep, if_pos hprep]
        by_cases hget : a.runtimeGet c = 0
        · obtain ⟨s₁, ret, hrun, hcase⟩ := ih
            (fun p hp d hd => hcrit c rfl d (.head hp hd)) hreach
          rw [if_neg (not_not.mpr hget), hrun, Option.bind_some]
          rcases hcase with ⟨hret, rfl⟩ | ⟨rfl, ⟨n, m, rfl, hn, hm⟩, hback⟩
          · exact ⟨_, ret, if_pos hret, .inl ⟨hret, rfl⟩⟩
          · replace hback := hback fun p hp => hcrit c rfl p (under_of_parent hp)
            by_cases hop : a.prepare c = 0
            · -- the clock is counted after its parent
              have hnc : n c = 0 := (acquire_frame hn hacyc.not_above_parent).trans hprep
              obtain ⟨m', hcount, hunprot, hm'⟩ := countPrepare_cases (P := P)
                (s := (s.withPrepares n).withProtects m) hacyc hreach
              refine ⟨_, 0, by simpa [hop] using hcount, .inr ⟨rfl,
                ⟨update n c (n c + 1), m', rfl, by rw [hn]; rfl, fun d hd => ?_⟩,
                fun hself => ?_⟩⟩
              · exact (hm' d hd).trans (hm d fun hab => hd hab.of_parent)
              have hnot : ¬P.critical c := fun hc => by
                have := hself c rfl hc
                omega
              exact (clkCoreUnprepare_counted (fun _ => hnot) hunprot
                (update_self ..)).trans ((if_pos hnc).trans hback)
            · refine ⟨s, a.prepare c, ?_, .inl ⟨hop, rfl⟩⟩
              simp only [ne_eq, not_true_eq_false, if_false, hop, not_false_eq_true, if_true]
              rw [withProtects_parent, withPrepares_parent, hback]
              rfl
        · exact ⟨s, a.runtimeGet c, if_pos hget, .inl ⟨hget, rfl⟩⟩
      · obtain ⟨m, hcount, hunprot, hm⟩ := countPrepare_cases (P := P) hacyc hreach
        rw [if_neg hprep, if_neg hprep]
        refine ⟨_, 0, hcount, .inr ⟨rfl, ⟨_, m, rfl, rfl, hm⟩, fun _ => ?_⟩⟩
        rw [clkCoreUnprepare_counted (fun hzero => absurd hzero hprep) hunprot
          (update_self ..), if_neg hprep]

theorem countPrepare_ret {ret : ℤ} (h : countPrepare P fuel s c = some (s', ret)) : ret = 0 := by
  rw [countPrepare_eq] at h
  obtain ⟨t, -, ht⟩ := Option.map_eq_some_iff.mp h
  exact (Prod.mk.inj ht).2.symm

/-- The clocks from `q` on up to the first one with a count can be prepared. -/
def CanPrepare (a : Answers κ R) (parent : κ → Option κ) (n : κ → ℕ) : ℕ → Option κ → Prop
  | _, none => True
  | 0, some _ => False
  | fuel + 1, some c =>
      n c = 0 → a.runtimeGet c = 0 ∧ CanPrepare a parent n fuel (parent c) ∧ a.prepare c = 0

theorem clkCorePrepare_ret {ret : ℤ} (h : clkCorePrepare P a fuel s q = some (s', ret)) :
    ret = 0 ↔ CanPrepare a s.parent s.prepares fuel q := by
  induction fuel generalizing s' q ret with
  | zero =>
    cases q with
    | none => exact ⟨fun _ => trivial, fun _ => (Prod.mk.inj (Option.some.inj h)).2.symm⟩
    | some c => simp [clkCorePrepare] at h
  | succ fuel ih =>
    cases q with
    | none => exact ⟨fun _ => trivial, fun _ => (Prod.mk.inj (Option.some.inj h)).2.symm⟩
    | some c =>
      rw [clkCorePrepare_succ] at h
      rw [CanPrepare]
      by_cases hprep : s.prepares c = 0
      · rw [if_pos hprep] at h
        by_cases hget : a.runtimeGet c = 0
        · rw [if_neg (not_not.mpr hget)] at h
          obtain ⟨⟨s₁, ret₁⟩, hrun, hrest⟩ := Option.bind_eq_some_iff.mp h
          rw [← ih hrun]
          by_cases hret₁ : ret₁ = 0
          · rw [if_neg (not_not.mpr hret₁)] at hrest
            by_cases hop : a.prepare c = 0
            · rw [if_neg (not_not.mpr hop)] at hrest
              simp [countPrepare_ret hrest, hget, hret₁, hop]
            · rw [if_pos hop] at hrest
              obtain ⟨t, -, ht⟩ := Option.map_eq_some_iff.mp hrest
              simp [← (Prod.mk.inj ht).2, hop, hprep]
          · rw [if_pos hret₁] at hrest
            simp [← (Prod.mk.inj (Option.some.inj hrest)).2, hret₁, hprep]
        · rw [if_pos hget] at h
          simp [← (Prod.mk.inj (Option.some.inj h)).2, hget, hprep]
      · rw [if_neg hprep] at h
        simp [countPrepare_ret h, hprep]

end GfpDrivers.Clk
