import GfpDrivers.Clk.Rate

/-!
What the walks leave alone. Preparing, enabling and protecting only change
counts; calculating new rates only changes the plan. The change of one clock is,
apart from the counts, a new state of its registers, a new rate, and the move to
its new parent where it has one.
-/

namespace GfpDrivers.Clk

open Lib

variable {κ υ R : Type}

namespace ClkTree

/-- The tree without its counts and its time. -/
def bare (s : ClkTree κ υ R) : ClkTree κ υ R :=
  { s with
    core := fun c => { s.core c with enableCount := 0, prepareCount := 0, protectCount := 0 }
    time := 0 }

/-- The tree without its plan and its time. -/
def unplanned (s : ClkTree κ υ R) : ClkTree κ υ R :=
  { s with
    core := fun c => { s.core c with newRate := 0, newParent := none, newParentIndex := 0, newChild := none }
    time := 0 }

end ClkTree

variable {s s' s₁ : ClkTree κ υ R} {n : κ → ℕ} {c : κ}

@[simp] theorem bare_tick : s.tick.bare = s.bare := rfl
@[simp] theorem bare_withPrepares : (s.withPrepares n).bare = s.bare := rfl
@[simp] theorem bare_withEnables : (s.withEnables n).bare = s.bare := rfl
@[simp] theorem bare_withProtects : (s.withProtects n).bare = s.bare := rfl
@[simp] theorem bare_list : s.bare.list = s.list := rfl
@[simp] theorem bare_user : s.bare.user = s.user := rfl
@[simp] theorem bare_parent : s.bare.parent = s.parent := rfl

@[simp] theorem unplanned_tick : s.tick.unplanned = s.unplanned := rfl
@[simp] theorem unplanned_list : s.unplanned.list = s.list := rfl
@[simp] theorem unplanned_user : s.unplanned.user = s.user := rfl
@[simp] theorem unplanned_parent : s.unplanned.parent = s.parent := rfl

theorem bare_field {β : Type*} (h : s'.bare = s.bare) (f : ClkCore κ R → β)
    (hf : ∀ v : ClkCore κ R, f { v with enableCount := 0, prepareCount := 0, protectCount := 0 } = f v) :
    f (s'.core c) = f (s.core c) := by
  rw [← hf (s'.core c), ← hf (s.core c)]
  exact congrArg (fun t : ClkTree κ υ R => f (t.core c)) h

theorem list_of_bare (h : s'.bare = s.bare) : s'.list = s.list := by
  rw [← bare_list (s := s'), h, bare_list]

theorem user_of_bare (h : s'.bare = s.bare) : s'.user = s.user := by
  rw [← bare_user (s := s'), h, bare_user]

theorem parent_of_bare (h : s'.bare = s.bare) : s'.parent = s.parent := by
  rw [← bare_parent (s := s'), h, bare_parent]

theorem unplanned_field {β : Type*} (h : s'.unplanned = s.unplanned) (f : ClkCore κ R → β)
    (hf : ∀ v : ClkCore κ R,
      f { v with newRate := 0, newParent := none, newParentIndex := 0, newChild := none } = f v) :
    f (s'.core c) = f (s.core c) := by
  rw [← hf (s'.core c), ← hf (s.core c)]
  exact congrArg (fun t : ClkTree κ υ R => f (t.core c)) h

theorem list_of_unplanned (h : s'.unplanned = s.unplanned) : s'.list = s.list := by
  rw [← unplanned_list (s := s'), h, unplanned_list]

theorem user_of_unplanned (h : s'.unplanned = s.unplanned) : s'.user = s.user := by
  rw [← unplanned_user (s := s'), h, unplanned_user]

theorem parent_of_unplanned (h : s'.unplanned = s.unplanned) : s'.parent = s.parent := by
  rw [← unplanned_parent (s := s'), h, unplanned_parent]

variable [DecidableEq κ] {P : Platform κ υ R} {a : Answers κ R} {fuel : ℕ} {q : Option κ} {ret : ℤ}

theorem bare_setCore {v : ClkCore κ R} :
    (s.setCore c v).bare =
      s.bare.setCore c { v with enableCount := 0, prepareCount := 0, protectCount := 0 } := by
  simp only [ClkTree.bare, ClkTree.setCore, ClkTree.mk.injEq, and_true]
  funext d
  by_cases hd : d = c
  · subst hd
    simp
  · simp [hd]

theorem unplanned_setCore {v : ClkCore κ R} :
    (s.setCore c v).unplanned =
      s.unplanned.setCore c
        { v with newRate := 0, newParent := none, newParentIndex := 0, newChild := none } := by
  simp only [ClkTree.unplanned, ClkTree.setCore, ClkTree.mk.injEq, and_true]
  funext d
  by_cases hd : d = c
  · subst hd
    simp
  · simp [hd]

theorem setCore_self : s.setCore c (s.core c) = s := by
  simp [ClkTree.setCore]

/-! ### Counts -/

theorem clkCoreRateProtect_bare (h : clkCoreRateProtect fuel s q = some s') : s'.bare = s.bare := by
  rw [clkCoreRateProtect_eq] at h
  obtain ⟨n, -, rfl⟩ := Option.map_eq_some_iff.mp h
  rfl

theorem clkCoreRateUnprotect_bare (h : clkCoreRateUnprotect fuel s q = some s') : s'.bare = s.bare := by
  rw [clkCoreRateUnprotect_eq] at h
  obtain ⟨n, -, rfl⟩ := Option.map_eq_some_iff.mp h
  rfl

theorem clkCoreDisable_bare (h : clkCoreDisable P fuel s q = some s') : s'.bare = s.bare := by
  rw [clkCoreDisable_eq] at h
  obtain ⟨n, -, rfl⟩ := Option.map_eq_some_iff.mp h
  rfl

theorem clkCoreEnable_bare (h : clkCoreEnable P a fuel s q = some (s', ret)) : s'.bare = s.bare := by
  induction fuel generalizing s' q ret with
  | zero =>
    cases q with
    | none => rw [← (Prod.mk.inj (Option.some.inj h)).1]
    | some c => simp [clkCoreEnable] at h
  | succ fuel ih =>
    cases q with
    | none => rw [← (Prod.mk.inj (Option.some.inj h)).1]
    | some c =>
      rw [clkCoreEnable_succ] at h
      split at h
      · rw [← (Prod.mk.inj (Option.some.inj h)).1]
      · split at h
        · obtain ⟨⟨s₁, ret₁⟩, hrun, hrest⟩ := Option.bind_eq_some_iff.mp h
          rw [← ih hrun]
          split at hrest
          · rw [← (Prod.mk.inj (Option.some.inj hrest)).1]
          · split at hrest
            · obtain ⟨t, ht, heq⟩ := Option.map_eq_some_iff.mp hrest
              rw [← (Prod.mk.inj heq).1, clkCoreDisable_bare ht]
            · rw [← (Prod.mk.inj (Option.some.inj hrest)).1, bare_withEnables]
        · rw [← (Prod.mk.inj (Option.some.inj h)).1, bare_withEnables]

theorem unprotectGated_bare (h : unprotectGated P fuel s c = some s') : s'.bare = s.bare := by
  unfold unprotectGated at h
  split at h
  · exact clkCoreRateUnprotect_bare h
  · rw [Option.some.inj h]

theorem clkCoreUnprepare_bare (h : clkCoreUnprepare P fuel s q = some s') : s'.bare = s.bare := by
  induction fuel generalizing s q with
  | zero =>
    cases q with
    | none => rw [Option.some.inj h]
    | some c => simp [clkCoreUnprepare] at h
  | succ fuel ih =>
    cases q with
    | none => rw [Option.some.inj h]
    | some c =>
      rw [clkCoreUnprepare_succ] at h
      split at h
      · rw [Option.some.inj h]
      · obtain ⟨s₁, hs₁, hrest⟩ := Option.bind_eq_some_iff.mp h
        rw [← unprotectGated_bare hs₁]
        split at hrest
        · rw [← Option.some.inj hrest, bare_withPrepares]
        · rw [ih hrest, bare_withPrepares]

theorem countPrepare_bare (h : countPrepare P fuel s c = some (s', ret)) : s'.bare = s.bare := by
  rw [countPrepare_eq] at h
  obtain ⟨t, ht, heq⟩ := Option.map_eq_some_iff.mp h
  rw [← (Prod.mk.inj heq).1]
  unfold protectGated at ht
  split at ht
  · rw [clkCoreRateProtect_bare ht, bare_withPrepares]
  · rw [← Option.some.inj ht, bare_withPrepares]

theorem clkCorePrepare_bare (h : clkCorePrepare P a fuel s q = some (s', ret)) : s'.bare = s.bare := by
  induction fuel generalizing s' q ret with
  | zero =>
    cases q with
    | none => rw [← (Prod.mk.inj (Option.some.inj h)).1]
    | some c => simp [clkCorePrepare] at h
  | succ fuel ih =>
    cases q with
    | none => rw [← (Prod.mk.inj (Option.some.inj h)).1]
    | some c =>
      rw [clkCorePrepare_succ] at h
      split at h
      · split at h
        · rw [← (Prod.mk.inj (Option.some.inj h)).1]
        · obtain ⟨⟨s₁, ret₁⟩, hrun, hrest⟩ := Option.bind_eq_some_iff.mp h
          rw [← ih hrun]
          split at hrest
          · rw [← (Prod.mk.inj (Option.some.inj hrest)).1]
          · split at hrest
            · obtain ⟨t, ht, heq⟩ := Option.map_eq_some_iff.mp hrest
              rw [← (Prod.mk.inj heq).1, clkCoreUnprepare_bare ht]
            · exact countPrepare_bare hrest
      · exact countPrepare_bare h

theorem clkCorePrepareLock_bare (h : clkCorePrepareLock P fuel s q = some (s', ret)) : s'.bare = s.bare :=
  (clkCorePrepare_bare h).trans bare_tick

theorem clkCoreEnableLock_bare (h : clkCoreEnableLock P fuel s q = some (s', ret)) : s'.bare = s.bare :=
  (clkCoreEnable_bare h).trans bare_tick

theorem clkCorePrepareEnable_bare (h : clkCorePrepareEnable P fuel s q = some (s', ret)) :
    s'.bare = s.bare := by
  obtain ⟨⟨s₁, ret₁⟩, hs₁, hrest⟩ := Option.bind_eq_some_iff.mp h
  rw [← clkCorePrepareLock_bare hs₁]
  dsimp only at hrest
  split at hrest
  · rw [← (Prod.mk.inj (Option.some.inj hrest)).1]
  · obtain ⟨⟨s₂, ret₂⟩, hs₂, hrest⟩ := Option.bind_eq_some_iff.mp hrest
    rw [← clkCoreEnableLock_bare hs₂]
    dsimp only at hrest
    split at hrest
    · obtain ⟨t, ht, heq⟩ := Option.map_eq_some_iff.mp hrest
      rw [← (Prod.mk.inj heq).1, clkCoreUnprepare_bare ht]
    · rw [← (Prod.mk.inj (Option.some.inj hrest)).1]

theorem clkCoreDisableUnprepare_bare (h : clkCoreDisableUnprepare P fuel s q = some s') :
    s'.bare = s.bare := by
  obtain ⟨s₁, hs₁, hrest⟩ := Option.bind_eq_some_iff.mp h
  rw [clkCoreUnprepare_bare hrest, clkCoreDisable_bare hs₁]

/-! ### Changing the parent -/

theorem reparent_core (d : κ) :
    (clkReparent s c q).core d =
      { s.core d with
        parent := if d = c then q else (s.core d).parent
        newChild :=
          if q = some d ∧ (s.core d).newChild = some c then none else (s.core d).newChild } := by
  cases q with
  | none =>
    by_cases hd : d = c
    · subst hd
      simp [clkReparent, ClkTree.setCore]
    · simp [clkReparent, ClkTree.setCore, hd]
  | some p =>
    by_cases hchild : (s.core p).newChild = some c
    · by_cases hd : d = c
      · subst hd
        by_cases hp : p = d
        · subst hp
          simp [clkReparent, ClkTree.setCore, hchild]
        · simp [clkReparent, ClkTree.setCore, hchild, hp, Ne.symm hp]
      · by_cases hp : p = d
        · subst hp
          simp [clkReparent, ClkTree.setCore, hchild, hd]
        · simp [clkReparent, ClkTree.setCore, hchild, hd, hp, Ne.symm hp]
    · by_cases hd : d = c
      · subst hd
        by_cases hp : p = d
        · subst hp
          simp [clkReparent, ClkTree.setCore, hchild]
        · simp [clkReparent, ClkTree.setCore, hchild, hp]
      · by_cases hp : p = d
        · subst hp
          simp [clkReparent, ClkTree.setCore, hchild, hd]
        · simp [clkReparent, ClkTree.setCore, hchild, hd, hp]

/-- The list that a clock goes to. -/
def newHome : Option κ → Home κ
  | some p => .children p
  | none => .orphans

@[simp] theorem reparent_list :
    (clkReparent s c q).list = hlistAddHead (hlistDel s.list c) c (newHome q) := by
  cases q with
  | none => rfl
  | some p =>
    simp only [clkReparent]
    split <;> rfl

@[simp] theorem reparent_user : (clkReparent s c q).user = s.user := by
  cases q with
  | none => rfl
  | some p =>
    simp only [clkReparent]
    split <;> rfl

@[simp] theorem reparent_hwCore : (clkReparent s c q).hwCore = s.hwCore := by
  cases q with
  | none => rfl
  | some p =>
    simp only [clkReparent]
    split <;> rfl

@[simp] theorem reparent_time : (clkReparent s c q).time = s.time := by
  cases q with
  | none => rfl
  | some p =>
    simp only [clkReparent]
    split <;> rfl

omit [DecidableEq κ] in
theorem tree_ext {t : ClkTree κ υ R} (hcore : ∀ d, t.core d = s.core d) (hhw : t.hwCore = s.hwCore)
    (hlist : t.list = s.list) (huser : t.user = s.user) (htime : t.time = s.time) : t = s := by
  cases t
  cases s
  simp only at hcore hhw hlist huser htime
  simp only [ClkTree.mk.injEq]
  exact ⟨funext hcore, hhw, hlist, huser, htime⟩

theorem bare_reparent : (clkReparent s c q).bare = clkReparent s.bare c q := by
  refine tree_ext (fun d => ?_) ?_ ?_ ?_ ?_
  · rw [reparent_core]
    simp only [ClkTree.bare, reparent_core]
    rfl
  · rw [reparent_hwCore]
    exact reparent_hwCore
  · rw [reparent_list]
    exact reparent_list
  · rw [reparent_user]
    exact reparent_user
  · rw [reparent_time]
    rfl

/-- The first part of `__clk_set_parent_before`: both parents are forced on. -/
def forceParents (P : Platform κ υ R) (fuel : ℕ) (s : ClkTree κ υ R) (c : κ) (oldParent parent : Option κ) :
    Option (ClkTree κ υ R) :=
  if (P.flags c).opsParentEnable then
    (clkCorePrepareEnable P fuel s oldParent).bind fun r =>
      (clkCorePrepareEnable P fuel r.1 parent).map Prod.fst
  else some s

/-- The second part: the prepared state is brought to the new parent. -/
def migratePrepare (P : Platform κ υ R) (fuel : ℕ) (s : ClkTree κ υ R) (c : κ) (parent : Option κ) :
    Option (ClkTree κ υ R) :=
  if 0 < (s.core c).prepareCount then
    (clkCorePrepareEnable P fuel s parent).bind fun r => (clkCoreEnableLock P fuel r.1 (some c)).map Prod.fst
  else some s

theorem clkSetParentBefore_eq :
    clkSetParentBefore P fuel s c q =
      (forceParents P fuel s c (s.parent c) q).bind fun s₁ =>
        (migratePrepare P fuel s₁ c q).map fun s₂ => (clkReparent s₂ c q, s.parent c) := by
  -- the rest after the parents were forced on
  have hmigrate (s₁ : ClkTree κ υ R) :
      (if 0 < (s₁.core c).prepareCount then
        (clkCorePrepareEnable P fuel s₁ q).bind fun r =>
          (clkCoreEnableLock P fuel r.1 (some c)).bind fun r => some (clkReparent r.1 c q, s.parent c)
      else some (clkReparent s₁ c q, s.parent c)) =
      (migratePrepare P fuel s₁ c q).map fun s₂ => (clkReparent s₂ c q, s.parent c) := by
    unfold migratePrepare
    by_cases hprep : 0 < (s₁.core c).prepareCount
    · simp only [if_pos hprep, Option.map_bind]
      refine congrArg _ (funext fun r => ?_)
      rw [Function.comp_apply, Option.map_map, Option.map_eq_bind]
      rfl
    · simp only [if_neg hprep, Option.map_some]
  unfold forceParents
  by_cases hflag : (P.flags c).opsParentEnable
  · rw [if_pos hflag, Option.bind_assoc]
    simp only [Option.bind_map, ← hmigrate]
    unfold clkSetParentBefore
    rw [if_pos hflag]
    rfl
  · rw [if_neg hflag, Option.bind_some, ← hmigrate]
    unfold clkSetParentBefore
    rw [if_neg hflag]
    rfl

theorem forceParents_bare {q' : Option κ} (h : forceParents P fuel s c q q' = some s') :
    s'.bare = s.bare := by
  unfold forceParents at h
  split at h
  · obtain ⟨r, hr, hrest⟩ := Option.bind_eq_some_iff.mp h
    obtain ⟨r', hr', rfl⟩ := Option.map_eq_some_iff.mp hrest
    rw [clkCorePrepareEnable_bare hr', clkCorePrepareEnable_bare hr]
  · rw [Option.some.inj h]

theorem migratePrepare_bare (h : migratePrepare P fuel s c q = some s') : s'.bare = s.bare := by
  unfold migratePrepare at h
  split at h
  · obtain ⟨r, hr, hrest⟩ := Option.bind_eq_some_iff.mp h
    obtain ⟨r', hr', rfl⟩ := Option.map_eq_some_iff.mp hrest
    rw [clkCoreEnableLock_bare hr', clkCorePrepareEnable_bare hr]
  · rw [Option.some.inj h]

theorem clkSetParentBefore_bare {old : Option κ} (h : clkSetParentBefore P fuel s c q = some (s', old)) :
    s'.bare = clkReparent s.bare c q ∧ old = s.parent c := by
  rw [clkSetParentBefore_eq] at h
  obtain ⟨s₁, hs₁, hrest⟩ := Option.bind_eq_some_iff.mp h
  obtain ⟨s₂, hs₂, heq⟩ := Option.map_eq_some_iff.mp hrest
  obtain ⟨rfl, rfl⟩ := Prod.mk.inj heq
  rw [bare_reparent, migratePrepare_bare hs₂, forceParents_bare hs₁]
  exact ⟨rfl, rfl⟩

/-- The first part of `__clk_set_parent_after`: what was prepared for the old
parent is undone. -/
def finishMigration (P : Platform κ υ R) (fuel : ℕ) (s : ClkTree κ υ R) (c : κ) (oldParent : Option κ) :
    Option (ClkTree κ υ R) :=
  if 0 < (s.core c).prepareCount then
    (clkCoreDisable P fuel s (some c)).bind fun s => clkCoreDisableUnprepare P fuel s oldParent
  else some s

/-- The second part: the parents are no longer forced on. -/
def unforceParents (P : Platform κ υ R) (fuel : ℕ) (s : ClkTree κ υ R) (c : κ) (parent oldParent : Option κ) :
    Option (ClkTree κ υ R) :=
  if (P.flags c).opsParentEnable then
    (clkCoreDisableUnprepare P fuel s parent).bind fun s => clkCoreDisableUnprepare P fuel s oldParent
  else some s

theorem clkSetParentAfter_eq {parent old : Option κ} :
    clkSetParentAfter P fuel s c parent old =
      (finishMigration P fuel s c old).bind fun s => unforceParents P fuel s c parent old := by
  unfold clkSetParentAfter finishMigration
  by_cases hprep : 0 < (s.core c).prepareCount
  · rw [if_pos hprep, if_pos hprep, Option.bind_assoc]
    rfl
  · rw [if_neg hprep, if_neg hprep]
    rfl

theorem clkSetParentAfter_bare {parent old : Option κ} (h : clkSetParentAfter P fuel s c parent old = some s') :
    s'.bare = s.bare := by
  rw [clkSetParentAfter_eq] at h
  obtain ⟨s₁, hs₁, hrest⟩ := Option.bind_eq_some_iff.mp h
  have hmigrated : s₁.bare = s.bare := by
    unfold finishMigration at hs₁
    split at hs₁
    · obtain ⟨s₂, hs₂, hs₁⟩ := Option.bind_eq_some_iff.mp hs₁
      rw [clkCoreDisableUnprepare_bare hs₁, clkCoreDisable_bare hs₂]
    · rw [Option.some.inj hs₁]
  rw [← hmigrated]
  unfold unforceParents at hrest
  split at hrest
  · obtain ⟨s₂, hs₂, hrest⟩ := Option.bind_eq_some_iff.mp hrest
    rw [clkCoreDisableUnprepare_bare hrest, clkCoreDisableUnprepare_bare hs₂]
  · rw [Option.some.inj hrest]

/-! ### Changing a clock -/

section Change

variable {Q : RatePlatform κ υ R} {bestParentRate : ℕ} {skip : Bool}

/-- The plan gives the clock another parent. -/
def Moves (s : ClkTree κ υ R) (c : κ) : Prop :=
  (s.core c).newParent.isSome ∧ (s.core c).newParent ≠ (s.core c).parent

instance : Decidable (Moves s c) := inferInstanceAs (Decidable (_ ∧ _))

/-- The tree with a clock at its new place. -/
def moved (s : ClkTree κ υ R) (c : κ) : ClkTree κ υ R :=
  if Moves s c then clkReparent s c (s.core c).newParent else s

/-- The tree with a clock that is changed according to the plan. -/
def changed (s : ClkTree κ υ R) (c : κ) (reg : R) (rate : ℕ) : ClkTree κ υ R :=
  (moved s c).setCore c { (moved s c).core c with reg := reg, rate := rate }

omit [DecidableEq κ] in
theorem moves_of_bare (h : s'.bare = s.bare) : Moves s' c ↔ Moves s c := by
  unfold Moves
  rw [bare_field h (·.newParent) fun _ => rfl, bare_field h (·.parent) fun _ => rfl]

theorem bare_moved : (moved s c).bare = moved s.bare c := by
  by_cases hmoves : Moves s c
  · have hmoves' : Moves s.bare c := hmoves
    unfold moved
    rw [if_pos hmoves, if_pos hmoves', bare_reparent]
    rfl
  · have hmoves' : ¬Moves s.bare c := hmoves
    unfold moved
    rw [if_neg hmoves, if_neg hmoves']

theorem moved_congr (h : s'.bare = s.bare) : (moved s' c).bare = (moved s c).bare := by
  rw [bare_moved, bare_moved, h]

theorem bare_setReg {reg : R} : (s.setReg c reg).bare = s.bare.setCore c { s.bare.core c with reg := reg } :=
  bare_setCore

theorem setCore_setCore {v w : ClkCore κ R} : (s.setCore c v).setCore c w = s.setCore c w := by
  simp [ClkTree.setCore]

@[simp] theorem setCore_core_self {v : ClkCore κ R} : (s.setCore c v).core c = v := Function.update_self ..

theorem setCore_core_of_ne {v : ClkCore κ R} {d : κ} (hd : d ≠ c) : (s.setCore c v).core d = s.core d :=
  Function.update_of_ne hd ..

theorem changeParent_bare (h : changeParent Q fuel s c bestParentRate = some (s', skip)) :
    (∃ reg, s'.bare = (moved s c).bare.setCore c { (moved s c).bare.core c with reg := reg }) ∧
      (¬Moves s c → s' = s ∧ skip = false) := by
  unfold changeParent at h
  dsimp only at h
  by_cases hmoves : (s.core c).newParent.isSome = true ∧ (s.core c).newParent ≠ (s.core c).parent
  · refine ⟨?_, fun hnot => absurd hmoves hnot⟩
    rw [if_pos hmoves] at h
    obtain ⟨⟨s₁, old⟩, hs₁, hrest⟩ := Option.bind_eq_some_iff.mp h
    obtain ⟨s₂, hs₂, heq⟩ := Option.map_eq_some_iff.mp hrest
    obtain ⟨rfl, -⟩ := Prod.mk.inj heq
    have hbefore : s₁.bare = (moved s c).bare := by
      rw [(clkSetParentBefore_bare hs₁).1, bare_moved]
      exact (if_pos hmoves).symm
    rw [clkSetParentAfter_bare hs₂, ← hbefore]
    dsimp only
    split
    · exact ⟨_, bare_setReg⟩
    · split
      · exact ⟨_, bare_setReg⟩
      · exact ⟨_, setCore_self.symm⟩
  · rw [if_neg hmoves] at h
    obtain ⟨rfl, rfl⟩ := Prod.mk.inj (Option.some.inj h)
    have hmoved : moved s c = s := if_neg hmoves
    rw [hmoved]
    exact ⟨⟨_, setCore_self.symm⟩, fun _ => ⟨rfl, rfl⟩⟩

/-- The rate that is read from a clock at some time. -/
def readRate (Q : RatePlatform κ υ R) (t : ℕ) (c : κ) (reg : R) (parentRate : ℕ) : ℕ :=
  if (Q.answers t).runtimeGet c = 0 then Q.recalcRate c reg parentRate else parentRate

/-- The state of the registers after `set_rate`. -/
def writeRate (Q : RatePlatform κ υ R) (t : ℕ) (c : κ) (newRate parentRate : ℕ) (reg : R) : R :=
  if (Q.ops c).setRate then (Q.rateAnswers t).setRate c newRate parentRate reg else reg

omit [DecidableEq κ] in
theorem clkRecalc_eq {t parentRate : ℕ} :
    clkRecalc Q.toPlatform (Q.answers t) s c parentRate = readRate Q t c (s.core c).reg parentRate := rfl

theorem changeRate_bare (Q : RatePlatform κ υ R) (s : ClkTree κ υ R) (c : κ) (bestParentRate : ℕ)
    (skip : Bool) :
    ∃ t t' reg, (changeRate Q s c bestParentRate skip).bare = s.bare.setCore c
        { s.bare.core c with reg := reg, rate := readRate Q t c reg bestParentRate } ∧
      (skip = false → reg = writeRate Q t' c (s.core c).newRate bestParentRate (s.core c).reg) := by
  unfold changeRate
  by_cases hset : (!skip && (Q.ops c).setRate) = true
  · rw [if_pos hset]
    rw [Bool.and_eq_true] at hset
    refine ⟨s.time + 1, s.time, (Q.rateAnswers s.time).setRate c (s.core c).newRate bestParentRate (s.core c).reg, ?_,
      fun _ => (if_pos hset.2).symm⟩
    rw [bare_setCore, bare_tick, bare_setReg, setCore_setCore]
    simp only [clkRecalc_eq, ClkTree.setReg, setCore_core_self]
    rfl
  · rw [if_neg hset]
    refine ⟨s.time, 0, (s.core c).reg, ?_, fun hskip => ?_⟩
    · rw [bare_setCore, bare_tick]
      rfl
    · rw [hskip] at hset
      exact (if_neg hset).symm

theorem changeUngate_bare (h : changeUngate Q fuel s c = some s') : s'.bare = s.bare := by
  unfold changeUngate at h
  split at h
  · obtain ⟨⟨s₁, ret⟩, hs₁, hrest⟩ := Option.bind_eq_some_iff.mp h
    obtain ⟨⟨s₂, ret'⟩, hs₂, rfl⟩ := Option.map_eq_some_iff.mp hrest
    rw [clkCoreEnableLock_bare hs₂, clkCorePrepareLock_bare hs₁]
  · rw [Option.some.inj h]

theorem changeGate_bare (h : changeGate Q fuel s c = some s') : s'.bare = s.bare := by
  unfold changeGate at h
  split at h
  · obtain ⟨s₁, hs₁, hrest⟩ := Option.bind_eq_some_iff.mp h
    rw [clkCoreUnprepare_bare hrest, clkCoreDisable_bare hs₁]
  · rw [Option.some.inj h]

/-- The rate of the parent that the plan has for a clock. -/
def plannedParentRate (s : ClkTree κ υ R) (c : κ) : ℕ :=
  ((s.core c).newParent.or (s.core c).parent).elim 0 fun p => (s.core p).rate

/-- A clock is changed according to the plan. Unless it moves, its registers are
written by `set_rate` only. -/
theorem changeClock_bare (h : changeClock Q fuel s c = some s') :
    ∃ t t' reg, s'.bare = (changed s c reg (readRate Q t c reg (plannedParentRate s c))).bare ∧
      (¬Moves s c → reg = writeRate Q t' c (s.core c).newRate (plannedParentRate s c) (s.core c).reg) := by
  obtain ⟨s₁, hs₁, hrest⟩ := Option.bind_eq_some_iff.mp h
  obtain ⟨⟨s₂, skip⟩, hs₂, hrest⟩ := Option.bind_eq_some_iff.mp hrest
  obtain ⟨s₃, hs₃, hrest⟩ := Option.bind_eq_some_iff.mp hrest
  obtain ⟨s₄, hs₄, hrest⟩ := Option.bind_eq_some_iff.mp hrest
  have hungate := changeUngate_bare hs₁
  obtain ⟨⟨reg₂, hparent⟩, hstay⟩ := changeParent_bare hs₂
  have hforce : s₃.bare = s₂.bare := by
    split at hs₃
    · obtain ⟨⟨s₅, ret⟩, hs₅, rfl⟩ := Option.map_eq_some_iff.mp hs₃
      exact clkCorePrepareEnable_bare hs₅
    · rw [Option.some.inj hs₃]
  have hunforce : s'.bare = s₄.bare := by
    split at hrest
    · exact clkCoreDisableUnprepare_bare hrest
    · rw [Option.some.inj hrest]
  obtain ⟨t, t', reg, hrate, hreg⟩ := changeRate_bare Q s₃ c (plannedParentRate s c) skip
  have hgate : s₄.bare = (changeRate Q s₃ c (plannedParentRate s c) skip).bare := changeGate_bare hs₄
  refine ⟨t, t', reg, ?_, fun hmoves => ?_⟩
  · unfold changed
    rw [hunforce, hgate, hrate, hforce, hparent, moved_congr hungate, bare_setCore, setCore_setCore,
      setCore_core_self]
    rfl
  · obtain ⟨rfl, rfl⟩ := hstay ((moves_of_bare hungate).not.mpr hmoves)
    have h₃ := hforce.trans hungate
    rw [hreg rfl, bare_field h₃ (·.newRate) fun _ => rfl, bare_field h₃ (·.reg) fun _ => rfl]

end Change

/-! ### Planning -/

section Plan

variable {Q : RatePlatform κ υ R} {newRate pIndex : ℕ}

theorem planClock_unplanned : (planClock s c newRate q pIndex).unplanned = s.unplanned := by
  have hself {t : ClkTree κ υ R} {d : κ} {v : ClkCore κ R} (hv : { v with
      newRate := 0, newParent := none, newParentIndex := 0, newChild := none } = t.unplanned.core d) :
      (t.setCore d v).unplanned = t.unplanned := by
    rw [unplanned_setCore, hv, setCore_self]
  unfold planClock
  cases q with
  | none => exact hself rfl
  | some p =>
    dsimp only
    split
    · refine Eq.trans (hself ?_) (hself ?_) <;> rfl
    · exact hself rfl

omit [DecidableEq κ] in
theorem foldlM_unplanned {f : ClkTree κ υ R → κ → Option (ClkTree κ υ R)} {l : List κ}
    (hf : ∀ t t' d, f t d = some t' → t'.unplanned = t.unplanned) (h : l.foldlM f s = some s') :
    s'.unplanned = s.unplanned := by
  induction l generalizing s with
  | nil => rw [Option.some.inj h]
  | cons d l ih =>
    obtain ⟨s₁, hs₁, hrest⟩ := Option.bind_eq_some_iff.mp h
    rw [ih hrest, hf _ _ _ hs₁]

theorem clkCalcSubtree_unplanned (h : clkCalcSubtree Q a fuel s c newRate q pIndex = some s') :
    s'.unplanned = s.unplanned := by
  induction fuel generalizing s s' c newRate q pIndex with
  | zero => cases h
  | succ fuel ih => rw [foldlM_unplanned (fun _ _ _ ht => ih ht) h, planClock_unplanned]

theorem planSubtree_unplanned {top top' : Option κ}
    (h : planSubtree Q fuel s c newRate q pIndex top = some (s', top')) :
    s'.unplanned = s.unplanned ∧ top' = top := by
  obtain ⟨t, ht, heq⟩ := Option.map_eq_some_iff.mp h
  obtain ⟨rfl, rfl⟩ := Prod.mk.inj heq
  exact ⟨(clkCalcSubtree_unplanned ht).trans unplanned_tick, rfl⟩

/-- The request as the clock rounds it in `clk_calc_new_rates`. -/
def roundedRequest (Q : RatePlatform κ υ R) (s : ClkTree κ υ R) (c : κ) (rate : ℕ) : RateRequest κ :=
  (clkCoreDetermineRoundNolock Q s c (clkCoreInitRateReq s c
    ⟨rate, (clkCoreGetBoundaries Q s c).1, (clkCoreGetBoundaries Q s c).2, 0, none⟩)).1

/-- What `clk_calc_new_rates` does: it fails, or it plans the subtree of the
clock, after the one of the parent where the rate of the parent has to change. -/
theorem clkCalcNewRates_cases {k rate : ℕ} {top : Option κ}
    (h : clkCalcNewRates Q fuel (k + 1) s c rate = some (s', top)) :
    (top = none ∧ (s' = s.tick ∨ s' = s.setCore c { s.core c with newRate := (s.core c).rate })) ∨
      (∃ pIndex, clkCoreCanRound Q c ∧ planSubtree Q fuel s.tick c (roundedRequest Q s c rate).rate
        (roundedRequest Q s c rate).bestParent pIndex (some c) = some (s', top)) ∨
      (∃ p pIndex s₁ top₁, clkCoreCanRound Q c ∧ (roundedRequest Q s c rate).bestParent = some p ∧
        (roundedRequest Q s c rate).bestParentRate ≠ (s.core p).rate ∧
        clkCalcNewRates Q fuel k s.tick p (roundedRequest Q s c rate).bestParentRate = some (s₁, top₁) ∧
        planSubtree Q fuel s₁ c (roundedRequest Q s c rate).rate (some p) pIndex top₁ = some (s', top)) ∨
      (∃ p s₁ top₁, clkCoreCanRound Q c = false ∧ (Q.flags c).setRateParent ∧ s.parent c = some p ∧
        clkCalcNewRates Q fuel k s p rate = some (s₁, top₁) ∧
        planSubtree Q fuel s₁ c (s₁.core p).newRate (some p) 0 top₁ = some (s', top)) := by
  rw [clkCalcNewRates] at h
  dsimp only at h
  by_cases hround : clkCoreCanRound Q c
  · rw [if_pos hround] at h
    split at h
    · obtain ⟨rfl, rfl⟩ := Prod.mk.inj (Option.some.inj h)
      exact .inl ⟨rfl, .inl rfl⟩
    · split at h
      · obtain ⟨rfl, rfl⟩ := Prod.mk.inj (Option.some.inj h)
        exact .inl ⟨rfl, .inl rfl⟩
      · split at h
        · obtain ⟨rfl, rfl⟩ := Prod.mk.inj (Option.some.inj h)
          exact .inl ⟨rfl, .inl rfl⟩
        · cases hindex : planIndex Q c (roundedRequest Q s c rate).bestParent with
          | none =>
            unfold roundedRequest at hindex
            rw [hindex] at h
            obtain ⟨rfl, rfl⟩ := Prod.mk.inj (Option.some.inj h)
            exact .inl ⟨rfl, .inl rfl⟩
          | some pIndex =>
            have hindex' := hindex
            unfold roundedRequest at hindex'
            rw [hindex', Option.elim_some] at h
            cases hparent : (roundedRequest Q s c rate).bestParent with
            | none =>
              have hparent' := hparent
              unfold roundedRequest at hparent'
              rw [hparent'] at h
              exact .inr (.inl ⟨pIndex, hround, h⟩)
            | some p =>
              have hparent' := hparent
              unfold roundedRequest at hparent'
              rw [hparent'] at h
              dsimp only at h
              split at h
              · next hup =>
                  obtain ⟨⟨s₁, top₁⟩, hs₁, hplan⟩ := Option.bind_eq_some_iff.mp h
                  exact .inr (.inr (.inl ⟨p, pIndex, s₁, top₁, hround, rfl, hup.2, hs₁, hplan⟩))
              · exact .inr (.inl ⟨pIndex, hround, h⟩)
  · rw [if_neg hround] at h
    split at h
    · obtain ⟨rfl, rfl⟩ := Prod.mk.inj (Option.some.inj h)
      exact .inl ⟨rfl, .inr rfl⟩
    · next p hparent =>
        split at h
        · next hflag =>
            obtain ⟨⟨s₁, top₁⟩, hs₁, hplan⟩ := Option.bind_eq_some_iff.mp h
            exact .inr (.inr (.inr ⟨p, s₁, top₁, by simpa using hround, hflag, hparent, hs₁, hplan⟩))
        · obtain ⟨rfl, rfl⟩ := Prod.mk.inj (Option.some.inj h)
          exact .inl ⟨rfl, .inr rfl⟩

theorem clkCalcNewRates_unplanned {k rate : ℕ} {top : Option κ}
    (h : clkCalcNewRates Q fuel k s c rate = some (s', top)) : s'.unplanned = s.unplanned := by
  induction k generalizing s s' c rate top with
  | zero => cases h
  | succ k ih =>
    rcases clkCalcNewRates_cases h with ⟨-, rfl | rfl⟩ | ⟨_, -, hplan⟩ | ⟨_, _, _, _, -, -, -, hup, hplan⟩ |
      ⟨_, _, _, -, -, -, hup, hplan⟩
    · rfl
    · rw [unplanned_setCore]
      exact setCore_self
    · rw [(planSubtree_unplanned hplan).1, unplanned_tick]
    · rw [(planSubtree_unplanned hplan).1, ih hup, unplanned_tick]
    · rw [(planSubtree_unplanned hplan).1, ih hup]

end Plan

end GfpDrivers.Clk
