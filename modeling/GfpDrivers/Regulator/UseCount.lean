import Mathlib.Data.Fintype.BigOperators
import GfpDrivers.Basic
import GfpDrivers.Lib.RefCount

/-!
Enabling and disabling regulators (`regulator/core.c`). Each consumer counts how
often it has enabled its regulator, and each regulator counts its uses. A
regulator with a supply is itself a consumer of the supply, and enables it with
its first use.

During one call an operation of a regulator is called at most once in each
place, so that one function from regulators to results stands for all answers.
An operation answers with an error number, or 0.

When an update of the load fails, or when a supply cannot be disabled, the
counts that were changed before are left as they are, although the call returns
an error.
-/

namespace GfpDrivers.Regulator

open Lib Function

/-- A consumer (`struct regulator`): a handle that a driver got, or the supply
handle of a regulator. -/
inductive Consumer (ι υ : Type) where
  | user (u : υ)
  | supplyOf (r : ι)
deriving DecidableEq

/-- The regulators with their supplies and their users. `hasLoad` says whether a
consumer has a load, and `changeStatus` whether `REGULATOR_CHANGE_STATUS` is a
valid operation. -/
structure SupplyTree (ι υ : Type) where
  supply : ι → Option ι
  rdev : υ → ι
  alwaysOn : ι → Bool
  changeStatus : ι → Bool
  hasLoad : Consumer ι υ → Bool

/-- How the operations of the regulators answer during one call. The load is
updated when a consumer is enabled, when this is undone, and when a consumer is
disabled. -/
structure Answers (ι : Type) where
  isEnabled : ι → ℤ
  enable : ι → ℕ
  disable : ι → ℕ
  vetoes : ι → Bool
  loadUp : ι → ℕ
  loadUndo : ι → ℕ
  loadDown : ι → ℕ

structure Counts (ι υ : Type) where
  useCount : ι → ℕ
  enableCount : Consumer ι υ → ℕ

section Model

variable {ι υ : Type} [DecidableEq ι] [DecidableEq υ] (T : SupplyTree ι υ) (a : Answers ι)

def Counts.setUse (s : Counts ι υ) (r : ι) (n : ℕ) : Counts ι υ :=
  { s with useCount := Function.update s.useCount r n }

def Counts.setEnable (s : Counts ι υ) (x : Consumer ι υ) (n : ℕ) : Counts ι υ :=
  { s with enableCount := Function.update s.enableCount x n }

/-- `_regulator_handle_consumer_enable`, where `drms_uA_update` answers with
`load`. -/
def regulatorHandleConsumerEnable (load : ℕ) (s : Counts ι υ) (x : Consumer ι υ) : Counts ι υ × ℤ :=
  (s.setEnable x (s.enableCount x + 1), if T.hasLoad x ∧ s.enableCount x + 1 = 1 then -load else 0)

/-- `_regulator_handle_consumer_disable` -/
def regulatorHandleConsumerDisable (load : ℕ) (s : Counts ι υ) (x : Consumer ι υ) : Counts ι υ × ℤ :=
  if s.enableCount x = 0 then (s, -EINVAL)
  else (s.setEnable x (s.enableCount x - 1), if T.hasLoad x ∧ s.enableCount x - 1 = 0 then -load else 0)

/-- The first part of `_regulator_disable`, up to the use count. -/
def dropUse (s : Counts ι υ) (r : ι) : Counts ι υ × ℤ :=
  if s.useCount r = 1 ∧ T.alwaysOn r = false then
    if T.changeStatus r then
      if a.vetoes r then (s, -EINVAL)
      else if a.disable r ≠ 0 then (s, -a.disable r)
      else (s.setUse r 0, 0)
    else (s.setUse r 0, 0)
  else if 1 < s.useCount r then (s.setUse r (s.useCount r - 1), 0)
  else (s, 0)

/-- `_regulator_disable` for a consumer `x` of the regulator `r`. -/
def regulatorDisable : ℕ → Counts ι υ → Consumer ι υ → ι → Option (Counts ι υ × ℤ)
  | 0, _, _, _ => none
  | fuel + 1, s, x, r =>
      if s.useCount r = 0 then some (s, - EIO)
      else
        let res := dropUse T a s r
        if res.2 < 0 then some res
        else
          let res := regulatorHandleConsumerDisable T (a.loadDown r) res.1 x
          match T.supply r with
          | some p =>
              if res.2 = 0 ∧ res.1.useCount r = 0 then regulatorDisable fuel res.1 (.supplyOf r) p
              else some res
          | none => some res

/-- The label `err_disable_supply` of `_regulator_enable`. -/
def errDisableSupply (fuel : ℕ) (s : Counts ι υ) (r : ι) (ret : ℤ) : Option (Counts ι υ × ℤ) :=
  match T.supply r with
  | some p =>
      if s.useCount r = 0 then (regulatorDisable T a fuel s (.supplyOf r) p).map fun res => (res.1, ret)
      else some (s, ret)
  | none => some (s, ret)

/-- The part of `_regulator_enable` that switches a regulator on with its first
use. -/
def switchOn (s : Counts ι υ) (r : ι) : ℤ :=
  if s.useCount r = 0 then
    if a.isEnabled r = -EINVAL ∨ a.isEnabled r = 0 then
      if T.changeStatus r = false then -EPERM else -a.enable r
    else if a.isEnabled r < 0 then a.isEnabled r
    else 0
  else 0

/-- `_regulator_enable` for a consumer `x` of the regulator `r`. -/
def regulatorEnable : ℕ → Counts ι υ → Consumer ι υ → ι → Option (Counts ι υ × ℤ)
  | 0, _, _, _ => none
  | fuel + 1, s, x, r =>
      let supplied :=
        match T.supply r with
        | some p => if s.useCount r = 0 then regulatorEnable fuel s (.supplyOf r) p else some (s, 0)
        | none => some (s, 0)
      supplied.bind fun res =>
        if res.2 < 0 then some res
        else
          let res := regulatorHandleConsumerEnable T (a.loadUp r) res.1 x
          if res.2 < 0 then errDisableSupply T a fuel res.1 r res.2
          else
            let ret := switchOn T a res.1 r
            if ret < 0 then
              errDisableSupply T a fuel (regulatorHandleConsumerDisable T (a.loadUndo r) res.1 x).1 r ret
            else some (res.1.setUse r (res.1.useCount r + 1), 0)

end Model

/-! ### The counts -/

variable {ι υ : Type} [DecidableEq ι] {T : SupplyTree ι υ} {a : Answers ι} {s s' : Counts ι υ}
  {x : Consumer ι υ} {r : ι} {fuel : ℕ}

@[simp] theorem setUse_useCount_self (n : ℕ) : (s.setUse r n).useCount r = n := update_self ..

theorem setUse_useCount_of_ne {d : ι} (h : d ≠ r) (n : ℕ) : (s.setUse r n).useCount d = s.useCount d :=
  update_of_ne h ..

@[simp] theorem setUse_enableCount (n : ℕ) : (s.setUse r n).enableCount = s.enableCount := rfl

/-- A supply can be disabled without a failure. -/
structure Answers.Releases (a : Answers ι) (r : ι) : Prop where
  agrees : a.vetoes r = false
  disables : a.disable r = 0
  loads : a.loadDown r = 0

/-- A use is dropped, or the call fails and nothing has changed. -/
theorem dropUse_cases (hpos : 0 < s.useCount r) (halways : T.alwaysOn r = true → 1 < s.useCount r) :
    (∃ err < 0, dropUse T a s r = (s, err)) ∨
      dropUse T a s r = (s.setUse r (s.useCount r - 1), 0) := by
  unfold dropUse
  by_cases hlast : s.useCount r = 1 ∧ T.alwaysOn r = false
  · rw [if_pos hlast, hlast.1]
    split_ifs with _ _ herr
    · exact .inl ⟨-EINVAL, by decide, rfl⟩
    · exact .inl ⟨-a.disable r, by omega, rfl⟩
    · exact .inr rfl
    · exact .inr rfl
  · have hmore : 1 < s.useCount r := by
      rcases Nat.lt_or_eq_of_le hpos with hmore | hone
      · exact hmore
      · cases halw : T.alwaysOn r with
        | false => exact absurd ⟨hone.symm, halw⟩ hlast
        | true => exact halways halw
    rw [if_neg hlast, if_pos hmore]
    exact .inr rfl

theorem Answers.Releases.dropUse_ret (h : a.Releases r) : (dropUse T a s r).2 = 0 := by
  unfold dropUse
  split_ifs with _ _ hveto herr
  · rw [h.agrees] at hveto
    cases hveto
  · exact absurd h.disables herr
  all_goals rfl

section

variable [DecidableEq υ]

@[simp] theorem setEnable_useCount (n : ℕ) : (s.setEnable x n).useCount = s.useCount := rfl

@[simp] theorem setEnable_enableCount_self (n : ℕ) : (s.setEnable x n).enableCount x = n :=
  update_self ..

theorem setEnable_enableCount_of_ne {y : Consumer ι υ} (h : y ≠ x) (n : ℕ) :
    (s.setEnable x n).enableCount y = s.enableCount y := update_of_ne h ..

end

variable [Fintype ι] [Fintype υ]

/-- The regulator of a consumer. -/
def SupplyTree.rdevOf (T : SupplyTree ι υ) : Consumer ι υ → Option ι
  | .user u => some (T.rdev u)
  | .supplyOf r => T.supply r

/-- The sum of the counts of the consumers of a regulator. -/
def consumerCount (T : SupplyTree ι υ) (s : Counts ι υ) (r : ι) : ℕ :=
  (∑ u with T.rdev u = r, s.enableCount (.user u)) +
    ∑ d with T.supply d = some r, s.enableCount (.supplyOf d)

/-- Each regulator counts what its consumers count, and its reference if it is
always on. A supply is enabled once by each regulator in use, except for a
consumer that is about to be changed. -/
structure Counted (T : SupplyTree ι υ) (except : Option (Consumer ι υ)) (s : Counts ι υ) : Prop where
  uses : ∀ r, s.useCount r = consumerCount T s r + if T.alwaysOn r then 1 else 0
  supplies : ∀ r, some (.supplyOf r) ≠ except →
    s.enableCount (.supplyOf r) = if (T.supply r).isSome ∧ 0 < s.useCount r then 1 else 0

section

variable [DecidableEq υ]

theorem consumerCount_setEnable (n : ℕ) (d : ι) :
    consumerCount T (s.setEnable x n) d + (if T.rdevOf x = some d then s.enableCount x else 0) =
      consumerCount T s d + if T.rdevOf x = some d then n else 0 := by
  unfold consumerCount Counts.setEnable
  cases x with
  | user u =>
    have hsum := sum_update (fun v => T.rdev v = d) (fun v => s.enableCount (.user v)) u n
    have hupd : ∀ v, update s.enableCount (.user u) n (.user v) =
        update (fun v => s.enableCount (.user v)) u n v := by
      intro v
      by_cases hv : v = u
      · subst hv
        simp
      · rw [update_of_ne hv, update_of_ne (by simpa using hv)]
    simp only [hupd, SupplyTree.rdevOf, Option.some.injEq, update_of_ne (by simp : Consumer.supplyOf _ ≠ Consumer.user u)]
    omega
  | supplyOf r =>
    have hsum := sum_update (fun v => T.supply v = some d) (fun v => s.enableCount (.supplyOf v)) r n
    have hupd : ∀ v, update s.enableCount (.supplyOf r) n (.supplyOf v) =
        update (fun v => s.enableCount (.supplyOf v)) r n v := by
      intro v
      by_cases hv : v = r
      · subst hv
        simp
      · rw [update_of_ne hv, update_of_ne (by simpa using hv)]
    simp only [hupd, update_of_ne (by simp : Consumer.user _ ≠ Consumer.supplyOf r)]
    by_cases hd : T.supply r = some d
    · have hd' : T.rdevOf (.supplyOf r) = some d := hd
      rw [if_pos hd, if_pos hd] at hsum
      rw [if_pos hd', if_pos hd']
      omega
    · have hd' : T.rdevOf (.supplyOf r) ≠ some d := hd
      rw [if_neg hd, if_neg hd] at hsum
      rw [if_neg hd', if_neg hd']
      omega

theorem consumerCount_pos (hx : T.rdevOf x = some r) (hpos : 0 < s.enableCount x) :
    0 < consumerCount T s r := by
  have h := consumerCount_setEnable (T := T) (s := s) (x := x) 0 r
  rw [if_pos hx, if_pos hx] at h
  omega

end

theorem Counted.unique (hacyc : Acyclic T.supply) (hs : Counted T none s) (hs' : Counted T none s')
    (husers : ∀ u, s'.enableCount (.user u) = s.enableCount (.user u)) : s' = s := by
  have hbalanced : ∀ {s : Counts ι υ}, Counted T none s →
      Balanced T.supply (fun r => (∑ u with T.rdev u = r, s.enableCount (.user u)) +
        if T.alwaysOn r then 1 else 0) s.useCount := by
    intro s hs r
    have hrefs : ∑ d with T.supply d = some r, s.enableCount (.supplyOf d) = refs T.supply s.useCount r := by
      rw [refs, Finset.card_filter, Finset.sum_filter]
      refine Finset.sum_congr rfl fun d _ => ?_
      rw [hs.supplies d (by simp)]
      by_cases hd : T.supply d = some r <;> simp [hd]
    have := hs.uses r
    unfold consumerCount at this
    beta_reduce
    omega
  have huse : s'.useCount = s.useCount := by
    refine Balanced.unique hacyc (hbalanced hs) ?_
    have := hbalanced hs'
    simpa only [husers] using this
  have henable : s'.enableCount = s.enableCount := by
    funext y
    cases y with
    | user u => exact husers u
    | supplyOf d => rw [hs.supplies d (by simp), hs'.supplies d (by simp), huse]
  cases s
  cases s'
  simp only at huse henable
  rw [huse, henable]

@[simp] theorem consumerCount_setUse (n : ℕ) (d : ι) :
    consumerCount T (s.setUse r n) d = consumerCount T s d := rfl

/-! ### Disabling -/

variable [DecidableEq υ]

/-- A use and the count of a consumer change together. -/
theorem uses_change {except : Option (Consumer ι υ)} {n m : ℕ} (hs : Counted T except s)
    (hx : T.rdevOf x = some r) (h : s.useCount r + m = s.enableCount x + n) (d : ι) :
    ((s.setUse r n).setEnable x m).useCount d =
      consumerCount T ((s.setUse r n).setEnable x m) d + if T.alwaysOn d then 1 else 0 := by
  have hcount := consumerCount_setEnable (T := T) (s := s.setUse r n) (x := x) m d
  have huse := hs.uses d
  simp only [consumerCount_setUse, setUse_enableCount, hx, Option.some.injEq] at hcount
  rw [setEnable_useCount]
  by_cases hd : d = r
  · subst hd
    simp only [if_true] at hcount
    rw [setUse_useCount_self]
    omega
  · simp only [Ne.symm hd, if_false] at hcount
    rw [setUse_useCount_of_ne hd]
    omega

omit [DecidableEq υ] in
theorem Counted.supplies_of_ne (hs : Counted T (some x) s) {d : ι} (hd : .supplyOf d ≠ x) :
    s.enableCount (.supplyOf d) = if (T.supply d).isSome ∧ 0 < s.useCount d then 1 else 0 :=
  hs.supplies d fun h => hd (Option.some.inj h)

/-- What a call that succeeded has done: it changed the count of its consumer to
`n`, and no use below its regulator. -/
structure Effect (T : SupplyTree ι υ) (s : Counts ι υ) (x : Consumer ι υ) (r : ι) (n : ℕ)
    (s' : Counts ι υ) : Prop where
  counted : Counted T (some x) s'
  count : s'.enableCount x = n
  users : ∀ u, .user u ≠ x → s'.enableCount (.user u) = s.enableCount (.user u)
  uses : ∀ d, ¬Above T.supply (some r) d → s'.useCount d = s.useCount d

/-- The counts after the use of `r` and the count of `x` went down, where the
supply of `r` is not yet disabled. -/
theorem counted_drop (hx : T.rdevOf x = some r) (hs : Counted T (some x) s)
    (hpos : 0 < s.enableCount x) (huse : 0 < s.useCount r)
    (hmid : ∀ d, x = .supplyOf d → s.enableCount x = 1 ∧ s.useCount d = 0) :
    Counted T (some (.supplyOf r))
      ((s.setUse r (s.useCount r - 1)).setEnable x (s.enableCount x - 1)) := by
  refine ⟨uses_change hs hx (by omega), fun d hd => ?_⟩
  have hdr : d ≠ r := fun h => hd (by rw [h])
  rw [setEnable_useCount, setUse_useCount_of_ne hdr]
  by_cases hdx : .supplyOf d = x
  · subst hdx
    obtain ⟨h1, h0⟩ := hmid d rfl
    rw [setEnable_enableCount_self, h1, h0]
    simp
  · rw [setEnable_enableCount_of_ne hdx, setUse_enableCount]
    exact hs.supplies_of_ne hdx

/-- Disabling, when the regulator itself agrees and all regulators above it can
be disabled. -/
theorem regulatorDisable_ok (hacyc : Acyclic T.supply) (hfuel : Reaches T.supply fuel (some r))
    (hx : T.rdevOf x = some r) (hs : Counted T (some x) s) (hpos : 0 < s.enableCount x)
    (hmid : ∀ d, x = .supplyOf d → s.enableCount x = 1 ∧ s.useCount d = 0)
    (hdrop : (dropUse T a s r).2 = 0) (hload : a.loadDown r = 0)
    (hrel : ∀ d, Above T.supply (T.supply r) d → a.Releases d) :
    ∃ s', regulatorDisable T a fuel s x r = some (s', 0) ∧ Effect T s x r (s.enableCount x - 1) s' := by
  induction fuel generalizing s x r with
  | zero => exact hfuel.elim
  | succ fuel ih =>
    have hcount := consumerCount_pos hx hpos
    have huses := hs.uses r
    have huse : 0 < s.useCount r := by omega
    have halways : T.alwaysOn r = true → 1 < s.useCount r := by
      intro h
      rw [if_pos h] at huses
      omega
    have hdropped : dropUse T a s r = (s.setUse r (s.useCount r - 1), 0) := by
      obtain ⟨err, hneg, herr⟩ | h := dropUse_cases (T := T) (a := a) huse halways
      · rw [herr] at hdrop
        exact absurd hdrop (ne_of_lt hneg)
      · exact h
    have hxr : x ≠ .supplyOf r := by
      rintro rfl
      exact hacyc r (under_of_parent hx)
    have hcounted := counted_drop hx hs hpos huse hmid
    have hhandle : regulatorHandleConsumerDisable T (a.loadDown r) (s.setUse r (s.useCount r - 1)) x =
        ((s.setUse r (s.useCount r - 1)).setEnable x (s.enableCount x - 1), 0) := by
      unfold regulatorHandleConsumerDisable
      rw [setUse_enableCount, if_neg (by omega), hload]
      simp
    generalize hs₁ : (s.setUse r (s.useCount r - 1)).setEnable x (s.enableCount x - 1) = s₁ at *
    have huse₁ : ∀ d, d ≠ r → s₁.useCount d = s.useCount d := by
      intro d hd
      rw [← hs₁, setEnable_useCount, setUse_useCount_of_ne hd]
    have huser₁ : s₁.useCount r = s.useCount r - 1 := by
      rw [← hs₁, setEnable_useCount, setUse_useCount_self]
    have hcount₁ : s₁.enableCount x = s.enableCount x - 1 := by
      rw [← hs₁, setEnable_enableCount_self]
    have hother₁ : ∀ y, y ≠ x → s₁.enableCount y = s.enableCount y := by
      intro y hy
      rw [← hs₁, setEnable_enableCount_of_ne hy, setUse_enableCount]
    have hsupply := hs.supplies_of_ne hxr.symm
    rw [regulatorDisable, if_neg (by omega), hdropped]
    simp only [lt_irrefl, if_false, hhandle, true_and]
    -- without a supply to disable, the count of the supply handle is right already
    have hstop : ((T.supply r).isSome = true → s₁.useCount r ≠ 0) →
        Effect T s x r (s.enableCount x - 1) s₁ := by
      intro hstop
      refine ⟨⟨hcounted.uses, fun d hd => ?_⟩, hcount₁, fun u hu => hother₁ _ hu, fun d hd => huse₁ d ?_⟩
      · by_cases hdr : d = r
        · subst hdr
          rw [hother₁ _ hxr.symm, hsupply]
          congr 1
          simp only [eq_iff_iff, and_congr_right_iff]
          intro hsome
          have := hstop hsome
          omega
        · exact hcounted.supplies_of_ne (by simpa using hdr)
      · rintro rfl
        exact hd above_self
    cases hp : T.supply r with
    | none => exact ⟨s₁, rfl, hstop (by simp [hp])⟩
    | some p =>
      by_cases hlast : s₁.useCount r = 0
      · simp only [if_pos hlast]
        have hone : s₁.enableCount (.supplyOf r) = 1 := by
          rw [hother₁ _ hxr.symm, hsupply, hp, if_pos ⟨rfl, huse⟩]
        have hrel_p : a.Releases p := hrel p ⟨p, hp, .refl⟩
        obtain ⟨s', hrun, heff⟩ := ih (x := .supplyOf r) (by rwa [Reaches, hp] at hfuel) hp hcounted
          (by omega) (fun d hd => by cases hd; exact ⟨hone, hlast⟩) hrel_p.dropUse_ret hrel_p.loads
          (fun d hd => hrel d (by rw [hp]; exact hd.of_parent))
        have hnot : ∀ d, ¬Above T.supply (some r) d → ¬Above T.supply (some p) d := by
          intro d hd habove
          exact hd (Above.of_parent (hp ▸ habove))
        have hr : ¬Above T.supply (some p) r := hp ▸ hacyc.not_above_parent
        have hzero : s'.enableCount (.supplyOf r) = 0 := by
          rw [heff.count, hone]
        refine ⟨s', hrun, ⟨heff.counted.uses, fun d hd => ?_⟩, ?_, ?_, ?_⟩
        · by_cases hdr : d = r
          · subst hdr
            rw [hzero, heff.uses d hr, hlast]
            simp
          · exact heff.counted.supplies_of_ne (by simpa using hdr)
        · cases x with
          | user u => rw [heff.users u (by simp), hcount₁]
          | supplyOf d =>
            obtain ⟨h1, h0⟩ := hmid d rfl
            have hdr : d ≠ r := by simpa using hxr
            have hd : ¬Above T.supply (some p) d := by
              rintro ⟨c, hc, hreach⟩
              cases hc
              exact hacyc d (.head hx (.head' hp hreach))
            rw [heff.counted.supplies_of_ne (by simpa using hdr), heff.uses d hd, huse₁ d hdr, h0, h1]
            simp
        · intro u hu
          rw [heff.users u (by simp), hother₁ _ hu]
        · intro d hd
          have hdr : d ≠ r := by
            rintro rfl
            exact hd above_self
          rw [heff.uses d (hnot d hd), huse₁ d hdr]
      · simp only [if_neg hlast]
        exact ⟨s₁, rfl, hstop fun _ => hlast⟩

/-! ### Enabling -/

/-- The counts are right, except that the supply of `r` is enabled for the use
that is about to come. -/
structure Supplied (T : SupplyTree ι υ) (s : Counts ι υ) (r : ι) (s₁ : Counts ι υ) : Prop where
  counted : Counted T (some (.supplyOf r)) s₁
  count : s₁.enableCount (.supplyOf r) = if (T.supply r).isSome then 1 else 0
  users : ∀ u, s₁.enableCount (.user u) = s.enableCount (.user u)
  uses : ∀ d, ¬Above T.supply (T.supply r) d → s₁.useCount d = s.useCount d

omit [DecidableEq υ] in
theorem supplied_self (hs : Counted T none s) (h : (T.supply r).isSome = true → 0 < s.useCount r) :
    Supplied T s r s := by
  refine ⟨⟨hs.uses, fun d _ => hs.supplies d (by simp)⟩, ?_, fun _ => rfl, fun _ _ => rfl⟩
  rw [hs.supplies r (by simp)]
  by_cases hsome : (T.supply r).isSome = true
  · rw [if_pos ⟨hsome, h hsome⟩, if_pos hsome]
  · rw [if_neg fun h => hsome h.1, if_neg hsome]

theorem Supplied.errDisableSupply (hacyc : Acyclic T.supply) (hfuel : Reaches T.supply (fuel + 1) (some r))
    (hs : Counted T none s) {s₁ : Counts ι υ} (h : Supplied T s r s₁)
    (hsame : ((T.supply r).isSome = true → 0 < s.useCount r) → s₁ = s)
    (hrel : ∀ d, Above T.supply (T.supply r) d → a.Releases d) (ret : ℤ) :
    errDisableSupply T a fuel s₁ r ret = some (s, ret) := by
  have hr : s₁.useCount r = s.useCount r := h.uses r hacyc.not_above_parent
  unfold Regulator.errDisableSupply
  cases hp : T.supply r with
  | none => rw [hsame (by simp [hp])]
  | some p =>
    by_cases huse : s₁.useCount r = 0
    · have hone : s₁.enableCount (.supplyOf r) = 1 := by
        rw [h.count, hp]
        rfl
      have hrel_p : a.Releases p := hrel p ⟨p, hp, .refl⟩
      obtain ⟨s', hrun, heff⟩ := regulatorDisable_ok (a := a) (x := .supplyOf r) hacyc
        (by rwa [Reaches, hp] at hfuel) hp h.counted (by omega)
        (fun d hd => by cases hd; exact ⟨hone, huse⟩) hrel_p.dropUse_ret hrel_p.loads
        (fun d hd => hrel d (by rw [hp]; exact hd.of_parent))
      have hcounted : Counted T none s' := by
        refine ⟨heff.counted.uses, fun d _ => ?_⟩
        by_cases hdr : d = r
        · subst hdr
          rw [heff.count, hone, heff.uses d (hp ▸ hacyc.not_above_parent), huse]
          simp
        · exact heff.counted.supplies_of_ne (by simpa using hdr)
      have hback : s' = s := hs.unique hacyc hcounted fun u => by
        rw [heff.users u (by simp), h.users u]
      simp only [if_pos huse, hrun, Option.map_some, hback]
    · simp only [if_neg huse]
      rw [hsame fun _ => by omega]

/-- Enabling fails and leaves the counts alone, or it takes a use. -/
theorem regulatorEnable_cases (hacyc : Acyclic T.supply) (hfuel : Reaches T.supply fuel (some r))
    (hx : T.rdevOf x = some r) (hs : Counted T none s)
    (hmid : ∀ d, x = .supplyOf d → s.useCount d = 0)
    (hload : ∀ d, Above T.supply (some r) d → a.loadUp d = 0)
    (hrel : ∀ d, Above T.supply (T.supply r) d → a.Releases d) :
    ∃ s' ret, regulatorEnable T a fuel s x r = some (s', ret) ∧
      (ret < 0 ∧ s' = s ∨ ret = 0 ∧ Effect T s x r (s.enableCount x + 1) s') := by
  induction fuel generalizing x r with
  | zero => exact hfuel.elim
  | succ fuel ih =>
    have hxr : x ≠ .supplyOf r := by
      rintro rfl
      exact hacyc r (under_of_parent hx)
    rw [regulatorEnable]
    -- first the supply
    have hsupplied : (∃ err < 0, (match T.supply r with
        | some p => if s.useCount r = 0 then regulatorEnable T a fuel s (.supplyOf r) p else some (s, 0)
        | none => some (s, 0)) = some (s, err)) ∨
        ∃ s₁, (match T.supply r with
        | some p => if s.useCount r = 0 then regulatorEnable T a fuel s (.supplyOf r) p else some (s, 0)
        | none => some (s, 0)) = some (s₁, 0) ∧ Supplied T s r s₁ ∧
          (((T.supply r).isSome = true → 0 < s.useCount r) → s₁ = s) := by
      cases hp : T.supply r with
      | none => exact .inr ⟨s, rfl, supplied_self hs (by simp [hp]), fun _ => rfl⟩
      | some p =>
        by_cases huse : s.useCount r = 0
        · simp only [if_pos huse]
          obtain ⟨s₁, ret, hrun, ⟨hneg, rfl⟩ | ⟨rfl, heff⟩⟩ := ih (x := .supplyOf r)
            (by rwa [Reaches, hp] at hfuel) hp (fun d hd => by cases hd; exact huse)
            (fun d hd => hload d (Above.of_parent (hp ▸ hd)))
            (fun d hd => hrel d (by rw [hp]; exact hd.of_parent))
          · exact .inl ⟨ret, hneg, hrun⟩
          · refine .inr ⟨s₁, hrun, ⟨heff.counted, ?_, fun u => heff.users u (by simp), ?_⟩,
              fun h => absurd (h rfl) (by omega)⟩
            · rw [heff.count, hs.supplies r (by simp), huse, hp]
              simp
            · rw [hp]
              exact heff.uses
        · simp only [if_neg huse]
          exact .inr ⟨s, rfl, supplied_self hs fun _ => by omega, fun _ => rfl⟩
    obtain ⟨err, hneg, hsup⟩ | ⟨s₁, hsup, h₁, hsame⟩ := hsupplied
    · rw [hsup]
      exact ⟨s, err, if_pos hneg, .inl ⟨hneg, rfl⟩⟩
    · rw [hsup]
      simp only [Option.bind_some, lt_irrefl, if_false, regulatorHandleConsumerEnable,
        hload r above_self, Nat.cast_zero, neg_zero, ite_self]
      have hr : s₁.useCount r = s.useCount r := h₁.uses r hacyc.not_above_parent
      by_cases hon : switchOn T a (s₁.setEnable x (s₁.enableCount x + 1)) r < 0
      · -- the consumer and the supply are given up again
        have hundo : (regulatorHandleConsumerDisable T (a.loadUndo r)
            (s₁.setEnable x (s₁.enableCount x + 1)) x).1 = s₁ := by
          unfold regulatorHandleConsumerDisable
          rw [setEnable_enableCount_self, if_neg (by omega)]
          simp [Counts.setEnable]
        rw [if_pos hon, hundo, h₁.errDisableSupply hacyc hfuel hs hsame hrel]
        exact ⟨s, _, rfl, .inl ⟨hon, rfl⟩⟩
      · rw [if_neg hon]
        refine ⟨_, 0, rfl, .inr ⟨rfl, ?_⟩⟩
        have hcount : s₁.enableCount x = s.enableCount x := by
          cases x with
          | user u => exact h₁.users u
          | supplyOf d =>
            have hdr : d ≠ r := by simpa using hxr
            have hd : ¬Above T.supply (T.supply r) d := by
              rintro ⟨c, hc, hreach⟩
              exact hacyc d (.head hx (.head' hc hreach))
            rw [h₁.counted.supplies_of_ne (by simpa using hdr), hs.supplies d (by simp), h₁.uses d hd]
        have hswap : (s₁.setEnable x (s₁.enableCount x + 1)).setUse r
            ((s₁.setEnable x (s₁.enableCount x + 1)).useCount r + 1) =
            (s₁.setUse r (s₁.useCount r + 1)).setEnable x (s₁.enableCount x + 1) := rfl
        rw [hswap]
        refine ⟨⟨uses_change h₁.counted hx (by omega), fun d hd => ?_⟩, ?_, ?_, ?_⟩
        · have hdx : .supplyOf d ≠ x := fun h => hd (by rw [h])
          rw [setEnable_enableCount_of_ne hdx, setUse_enableCount, setEnable_useCount]
          by_cases hdr : d = r
          · subst hdr
            rw [h₁.count, setUse_useCount_self]
            simp
          · rw [setUse_useCount_of_ne hdr]
            exact h₁.counted.supplies_of_ne (by simpa using hdr)
        · rw [setEnable_enableCount_self, hcount]
        · intro u hu
          rw [setEnable_enableCount_of_ne hu, setUse_enableCount, h₁.users u]
        · intro d hd
          have hdr : d ≠ r := by
            rintro rfl
            exact hd above_self
          rw [setEnable_useCount, setUse_useCount_of_ne hdr, h₁.uses d fun h => hd h.of_parent]

/-! ### Runs -/

/-- The calls of the users, with the answers that they get. -/
inductive Call (ι υ : Type) where
  | enable (u : υ) (a : Answers ι)
  | disable (u : υ) (a : Answers ι)

/-- `regulator_enable` and `regulator_disable` -/
def Call.run (T : SupplyTree ι υ) (fuel : ℕ) (s : Counts ι υ) : Call ι υ → Option (Counts ι υ × ℤ)
  | .enable u a => regulatorEnable T a fuel s (.user u) (T.rdev u)
  | .disable u a => regulatorDisable T a fuel s (.user u) (T.rdev u)

/-- A user disables only what it has enabled. -/
def Call.Balanced (s : Counts ι υ) : Call ι υ → Prop
  | .enable _ _ => True
  | .disable u _ => 0 < s.enableCount (.user u)

/-- No update of a load fails where a consumer was counted, and the regulators
above can be disabled. -/
def Call.Settles (T : SupplyTree ι υ) : Call ι υ → Prop
  | .enable u a => (∀ r, Above T.supply (some (T.rdev u)) r → a.loadUp r = 0) ∧
      ∀ r, Above T.supply (T.supply (T.rdev u)) r → a.Releases r
  | .disable u a => a.loadDown (T.rdev u) = 0 ∧
      ∀ r, Above T.supply (T.supply (T.rdev u)) r → a.Releases r

omit [DecidableEq υ] in
theorem Counted.of_user {u : υ} (h : Counted T (some (.user u)) s) : Counted T none s :=
  ⟨h.uses, fun d _ => h.supplies d (by simp)⟩

/-- One call keeps the counts right, and changes nothing if it fails. -/
theorem Call.run_counted (hacyc : Acyclic T.supply) (hfuel : Fintype.card ι ≤ fuel) {c : Call ι υ}
    (hs : Counted T none s) (hbal : c.Balanced s) (hsettles : c.Settles T) :
    ∃ s' ret, c.run T fuel s = some (s', ret) ∧ Counted T none s' ∧ (ret ≠ 0 → s' = s) := by
  have hreach : ∀ r, Reaches T.supply fuel (some r) := fun r => hacyc.reaches hfuel
  cases c with
  | enable u a =>
    obtain ⟨s', ret, hrun, hcases⟩ := regulatorEnable_cases (a := a) (x := .user u) hacyc
      (hreach (T.rdev u)) rfl hs (by simp) hsettles.1 hsettles.2
    obtain ⟨hneg, rfl⟩ | ⟨rfl, heff⟩ := hcases
    · exact ⟨s', ret, hrun, hs, fun _ => rfl⟩
    · exact ⟨s', 0, hrun, heff.counted.of_user, fun h => absurd rfl h⟩
  | disable u a =>
    have hs' : Counted T (some (.user u)) s := ⟨hs.uses, fun d _ => hs.supplies d (by simp)⟩
    have hpos : 0 < s.useCount (T.rdev u) := by
      rw [hs.uses]
      have := consumerCount_pos (T := T) (x := .user u) rfl hbal
      omega
    by_cases hdrop : (dropUse T a s (T.rdev u)).2 = 0
    · obtain ⟨s', hrun, heff⟩ := regulatorDisable_ok (a := a) (x := .user u) hacyc (hreach (T.rdev u))
        rfl hs' hbal (by simp) hdrop hsettles.1 hsettles.2
      exact ⟨s', 0, hrun, heff.counted.of_user, fun h => absurd rfl h⟩
    · -- the regulator itself could not be disabled
      have halways : T.alwaysOn (T.rdev u) = true → 1 < s.useCount (T.rdev u) := by
        intro h
        have hcount := consumerCount_pos (T := T) (x := .user u) rfl hbal
        have huses := hs.uses (T.rdev u)
        rw [if_pos h] at huses
        omega
      obtain ⟨err, hneg, herr⟩ | h := dropUse_cases (T := T) (a := a) hpos halways
      · refine ⟨s, err, ?_, hs, fun _ => rfl⟩
        cases fuel with
        | zero => exact (hreach (T.rdev u)).elim
        | succ fuel =>
          rw [Call.run, regulatorDisable, if_neg (by omega), herr]
          exact if_pos hneg
      · rw [h] at hdrop
        exact absurd rfl hdrop

/-- The states that balanced calls lead to, if all of them settle. At the start
only the regulators that are always on are in use. -/
inductive Used (T : SupplyTree ι υ) (fuel : ℕ) : Counts ι υ → Prop
  | start {s : Counts ι υ} (hs : Counted T none s) (hunused : ∀ u, s.enableCount (.user u) = 0) :
      Used T fuel s
  | call {s s' : Counts ι υ} {c : Call ι υ} {ret : ℤ} (hs : Used T fuel s) (hbal : c.Balanced s)
      (hsettles : c.Settles T) (hrun : c.run T fuel s = some (s', ret)) : Used T fuel s'

theorem Used.counted (hacyc : Acyclic T.supply) (hfuel : Fintype.card ι ≤ fuel) (h : Used T fuel s) :
    Counted T none s := by
  induction h with
  | start hs _ => exact hs
  | call _ hbal hsettles hrun ih =>
    obtain ⟨s'', ret', hrun', hcounted, -⟩ := Call.run_counted hacyc hfuel ih hbal hsettles
    rw [hrun] at hrun'
    cases hrun'
    exact hcounted

theorem use_counts_kept (hacyc : Acyclic T.supply) (hfuel : Fintype.card ι ≤ fuel) (hs : Used T fuel s)
    {c : Call ι υ} (hbal : c.Balanced s) (hsettles : c.Settles T) :
    ∃ s' ret, c.run T fuel s = some (s', ret) ∧
      (∀ r, s'.useCount r = consumerCount T s' r + if T.alwaysOn r then 1 else 0) ∧
      (∀ r, (T.supply r).isSome → s'.enableCount (.supplyOf r) = if 0 < s'.useCount r then 1 else 0) ∧
      (ret ≠ 0 → s' = s) := by
  obtain ⟨s', ret, hrun, hcounted, hret⟩ :=
    Call.run_counted hacyc hfuel (hs.counted hacyc hfuel) hbal hsettles
  refine ⟨s', ret, hrun, hcounted.uses, fun r hr => ?_, hret⟩
  rw [hcounted.supplies r (by simp)]
  simp [hr]

/-! ### A load that cannot be updated -/

/-- A regulator and its supply, with one user that has a load. -/
def chain : SupplyTree (Fin 2) Unit where
  supply r := if r = 1 then some 0 else none
  rdev _ := 1
  alwaysOn _ := false
  changeStatus _ := true
  hasLoad x := x = .user ()

def chainOff : Counts (Fin 2) Unit := ⟨fun _ => 0, fun _ => 0⟩

/-- All operations succeed, but for the update of the load of the user. -/
def loadAnswers (load : ℕ) : Answers (Fin 2) := ⟨fun _ => 0, fun _ => 0, fun _ => 0, fun _ => false, fun _ => load,
  fun _ => 0, fun _ => 0⟩

theorem chain_acyclic : Acyclic chain.supply := acyclic_of_lt Fin.val (by unfold chain; decide)

theorem chainOff_counted : Counted chain none chainOff :=
  ⟨fun _ => by simp [chainOff, consumerCount, chain], fun _ _ => by simp [chainOff]⟩

/-- The call returns an error, and the user is counted all the same. -/
theorem load_failure_leaves_count :
    Used chain 2 chainOff ∧
      ∃ s', (Call.enable () (loadAnswers 5)).run chain 2 chainOff = some (s', -5) ∧
        s'.enableCount (.user ()) = 1 ∧ chainOff.enableCount (.user ()) = 0 ∧ s'.useCount 1 = 0 := by
  refine ⟨.start chainOff_counted fun _ => rfl, _, rfl, ?_, ?_, ?_⟩
  all_goals rfl

theorem use_counts_kept_enable :
    ∃ s' ret, (Call.enable () (loadAnswers 0)).run chain 2 chainOff = some (s', ret) ∧
      (∀ r, s'.useCount r = consumerCount chain s' r + if chain.alwaysOn r then 1 else 0) ∧
      (∀ r, (chain.supply r).isSome →
        s'.enableCount (.supplyOf r) = if 0 < s'.useCount r then 1 else 0) ∧
      (ret ≠ 0 → s' = chainOff) :=
  use_counts_kept chain_acyclic (by simp) (.start chainOff_counted fun _ => rfl) trivial
    ⟨fun _ _ => rfl, fun _ _ => ⟨rfl, rfl, rfl⟩⟩

end GfpDrivers.Regulator
