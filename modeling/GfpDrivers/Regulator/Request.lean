import GfpDrivers.Regulator.Change

/-!
Requests of the consumers of one regulator that is not coupled. A request that
returns an error leaves the recorded ranges as they were, and the recorded
ranges always have a common voltage. A request that succeeds need not reach its
range: the step limit is applied to the target, but for a single regulator the
loop ends after the first step. And when the hardware fails in the middle of a
change, it can be left at another voltage, which a repeated request then takes
for the one that was asked for.
-/

namespace GfpDrivers.Regulator

open Function

variable {ι υ : Type} [DecidableEq ι] {B : Board ι υ} {s s' : State ι υ} {r : ι}

/-- The voltage that the hardware puts out. -/
def output (B : Board ι υ) (s : State ι υ) (r : ι) : Option ℤ := (B.desc r).voltages[s.sel r]?

/-- The voltage is within the constraints and all recorded ranges. -/
structure Allowed (B : Board ι υ) (s : State ι υ) (r : ι) (v : ℤ) : Prop where
  min_le : (B.constraints r).minUv ≤ v
  le_max : v ≤ (B.constraints r).maxUv
  permits : ∀ u ∈ B.consumers r, Permits (s.voltage u) v

/-! ### When a request is honoured -/

/-- The step limit does not stop the change at a voltage below `lo`, and where
there is one, the current voltage is known. -/
def StepReaches (B : Board ι υ) (s : State ι υ) (r : ι) (lo : ℤ) : Prop :=
  (B.constraints r).maxUvStep ≠ 0 → s.enabled r = true →
    ((B.desc r).getVoltageSel = true ∨ s.sel r = 0) ∧
      ∀ v ∈ (B.desc r).voltages,
        regulatorGetVoltageRdev B s r + (B.constraints r).maxUvStep ≤ v → lo ≤ v

/-- The answers to the operations of a change with `n` selectors on the way,
from the time `t` on: once the hardware has moved, an operation on the way only
fails if the next one, which reverts it, succeeds, and the last one does not
fail. -/
def Settles (B : Board ι υ) (r : ι) : Bool → ℕ → ℕ → Prop
  | moved, 0, t => moved = true → B.vetoes t r = false ∧ B.setVoltageSel t r = 0
  | moved, n + 1, t =>
      if B.setVoltageSel t r = 0 then Settles B r true n (t + 1)
      else moved = true → B.setVoltageSel (t + 1) r = 0

section Requests

variable [DecidableEq υ]

/-- The range that is left for a request, if it is not refused. -/
def desiredRange (B : Board ι υ) (s : State ι υ) (r : ι) (u : υ) (minUv maxUv : ℤ) :
    Except ℤ (ℤ × ℤ) := do
  let (minUv, maxUv) ← regulatorCheckVoltage (B.constraints r) minUv maxUv
  regulatorCheckConsumers (Function.update s.voltage u ⟨minUv, maxUv⟩) (B.consumers r)
    (B.constraints r).minUv (B.constraints r).maxUv

/-- A request reaches its range if it repeats the last one, or if it is refused,
or if no step limit stops it on the way and the hardware is not left on the way
to the selector for the range. -/
def Reaches (B : Board ι υ) (s : State ι υ) (r : ι) (u : υ) (minUv maxUv : ℤ) : Prop :=
  s.voltage u ≠ ⟨minUv, maxUv⟩ → ∀ lo hi, desiredRange B s r u minUv maxUv = .ok (lo, hi) →
    StepReaches B s r lo ∧
      ∀ atOnce current lim k, regulatorLimitVoltageStep B s r lo = .ok (atOnce, current, lim) →
        regulatorMapVoltage (B.desc r).voltages lim hi = .ok k → s.enabled r = true →
          (B.desc r).vselStep ≠ 0 →
            Settles B r false (selectorsBetween (s.sel r) k (B.desc r).vselStep).length s.time

end Requests

/-! ### Changes that fail -/

theorem setVoltageSel_sel_of_neg {k : ℕ} (h : (setVoltageSel B s r k).2 < 0) :
    (setVoltageSel B s r k).1.sel = s.sel := by
  unfold setVoltageSel at h ⊢
  split at h
  · exact absurd h (lt_irrefl _)
  · next h0 => rw [if_neg h0]

theorem regulatorCallSetVoltageSel_sel_of_neg {k : ℕ} (h : (regulatorCallSetVoltageSel B s r k).2 < 0) :
    (regulatorCallSetVoltageSel B s r k).1.sel = s.sel := by
  unfold regulatorCallSetVoltageSel at h ⊢
  split at h
  · next hveto => rw [if_pos hveto]
  · next hveto =>
      rw [if_neg hveto]
      exact setVoltageSel_sel_of_neg h

/-- The end of a change over some selectors, from a state in which the hardware
may have moved from `old` already. -/
theorem settles_sel {old new : ℕ} {moved : Bool} (sels : List ℕ)
    (hold : moved = false → s.sel r = old) (h : Settles B r moved sels.length s.time) :
    let res := stepSelectors B r sels s
    let res' := if res.2 ≠ 0 then ((setVoltageSel B res.1 r old).1, res.2)
      else regulatorCallSetVoltageSel B res.1 r new
    res'.2 < 0 → res'.1.sel r = old := by
  induction sels generalizing s moved with
  | nil =>
    intro res res' hneg
    have hres' : res' = regulatorCallSetVoltageSel B s r new := if_neg (by simp [res, stepSelectors])
    rw [hres'] at hneg ⊢
    rw [regulatorCallSetVoltageSel_sel_of_neg hneg]
    cases moved with
    | false => exact hold rfl
    | true =>
      obtain ⟨hveto, h0⟩ := h rfl
      simp [regulatorCallSetVoltageSel, setVoltageSel, hveto, h0] at hneg
  | cons k rest ih =>
    intro res res' hneg
    rw [List.length_cons, Settles] at h
    by_cases h0 : B.setVoltageSel s.time r = 0
    · have hres : res = stepSelectors B r rest (setVoltageSel B s r k).1 := by
        simp [res, stepSelectors, setVoltageSel, h0]
      have htime : (setVoltageSel B s r k).1.time = s.time + 1 := by simp [setVoltageSel, h0]
      rw [if_pos h0, ← htime] at h
      simp only [res', hres] at hneg ⊢
      exact ih (by simp) h hneg
    · have hret : (setVoltageSel B s r k).2 ≠ 0 := by simp [setVoltageSel, h0]
      have hres : res = ({ s with time := s.time + 1 }, -(B.setVoltageSel s.time r : ℤ)) := by
        simp [res, stepSelectors, setVoltageSel, h0]
      have hres' : res'.1 = (setVoltageSel B { s with time := s.time + 1 } r old).1 := by
        simp only [res', hres]
        rw [if_pos (by simpa using h0)]
      rw [if_neg h0] at h
      rw [hres']
      by_cases h1 : B.setVoltageSel (s.time + 1) r = 0
      · simp [setVoltageSel, h1]
      · cases moved with
        | false => simpa [setVoltageSel, h1] using hold rfl
        | true => exact absurd (h rfl) h1

theorem regulatorSetVoltageSelStep_sel_of_neg {k : ℕ}
    (hsettles : s.enabled r = true →
      Settles B r false (selectorsBetween (s.sel r) k (B.desc r).vselStep).length s.time)
    (hneg : (regulatorSetVoltageSelStep B s r k).2 < 0) :
    (regulatorSetVoltageSelStep B s r k).1.sel r = s.sel r := by
  unfold regulatorSetVoltageSelStep at hneg ⊢
  split at hneg
  · next hoff => rw [if_pos hoff, regulatorCallSetVoltageSel_sel_of_neg hneg]
  · next hon =>
      rw [if_neg hon]
      split
      · rfl
      · next hget =>
          rw [if_neg hget] at hneg
          simp only at hneg ⊢
          split
          · rfl
          · next hne =>
              rw [if_neg hne] at hneg
              exact settles_sel _ (fun _ => rfl) (hsettles (by simpa using hon)) hneg

/-- A change that fails leaves the selector as it was, if it settles. -/
theorem regulatorDoSetVoltage_sel_of_neg {lo hi : ℤ} (hoffset : (B.constraints r).uvOffset = 0)
    (hsettles : ∀ k, regulatorMapVoltage (B.desc r).voltages lo hi = .ok k → s.enabled r = true →
      (B.desc r).vselStep ≠ 0 →
        Settles B r false (selectorsBetween (s.sel r) k (B.desc r).vselStep).length s.time)
    (hneg : (regulatorDoSetVoltage B s r lo hi).2 < 0) :
    (regulatorDoSetVoltage B s r lo hi).1.sel r = s.sel r := by
  unfold regulatorDoSetVoltage at hneg ⊢
  simp only [hoffset, add_zero] at hneg ⊢
  split
  · rfl
  · next k hmap =>
      simp only [hmap] at hneg
      split at hneg
      · next hin =>
          rw [if_pos hin]
          by_cases heq : (if s.enabled r ∧ (B.desc r).setVoltageTimeSel ∧ (B.desc r).getVoltageSel
              then some (s.sel r) else none) = some k
          · rw [if_pos heq]
          · rw [if_neg heq] at hneg ⊢
            by_cases hstep : (B.desc r).vselStep = 0
            · rw [if_neg (not_not.2 hstep)] at hneg ⊢
              rw [regulatorCallSetVoltageSel_sel_of_neg hneg]
            · rw [if_pos hstep] at hneg ⊢
              exact regulatorSetVoltageSelStep_sel_of_neg (fun hon => hsettles k hmap hon hstep) hneg
      · next hout => rw [if_neg hout]

/-! ### Balancing a single regulator -/

/-- What balancing comes down to without coupled regulators. -/
inductive Single (B : Board ι υ) (s : State ι υ) (r : ι) : State ι υ × ℤ → Prop
  | refused {err : ℤ} (hneg : err < 0) : Single B s r (s, err)
  | there {lo hi lim : ℤ} {atOnce : Bool} {current : Option ℤ}
      (hcheck : regulatorCheckConsumers s.voltage (B.consumers r) (B.constraints r).minUv
        (B.constraints r).maxUv = .ok (lo, hi))
      (hlimit : regulatorLimitVoltageStep B s r lo = .ok (atOnce, current, lim))
      (heq : lim = current.getD (-1)) : Single B s r (s, 0)
  | change {lo hi lim : ℤ} {atOnce : Bool} {current : Option ℤ}
      (hcheck : regulatorCheckConsumers s.voltage (B.consumers r) (B.constraints r).minUv
        (B.constraints r).maxUv = .ok (lo, hi))
      (hlimit : regulatorLimitVoltageStep B s r lo = .ok (atOnce, current, lim)) :
      Single B s r (regulatorDoSetVoltage B s r lim hi)

theorem regulatorCheckConsumers_error {voltage : υ → VoltageRange} {us : List υ} {lo hi err : ℤ}
    (h : regulatorCheckConsumers voltage us lo hi = .error err) : err < 0 := by
  unfold regulatorCheckConsumers at h
  simp only at h
  split_ifs at h
  cases h
  decide

omit [DecidableEq ι] in
theorem regulatorLimitVoltageStep_error {lo err : ℤ}
    (h : regulatorLimitVoltageStep B s r lo = .error err) : err < 0 := by
  unfold regulatorLimitVoltageStep at h
  simp only at h
  split_ifs at h with _ hneg
  cases h
  exact hneg

omit [DecidableEq ι] in
theorem regulatorGetOptimalVoltage_single :
    (∃ err < 0, regulatorGetOptimalVoltage B s r 1 = .error err) ∨
      ∃ lo hi lim atOnce current,
        regulatorCheckConsumers s.voltage (B.consumers r) (B.constraints r).minUv
          (B.constraints r).maxUv = .ok (lo, hi) ∧
        regulatorLimitVoltageStep B s r lo = .ok (atOnce, current, lim) ∧
        regulatorGetOptimalVoltage B s r 1 = .ok ⟨atOnce, current.getD (-1), lim, hi⟩ := by
  unfold regulatorGetOptimalVoltage possibleVoltage
  simp only [if_true]
  cases hcheck : regulatorCheckConsumers s.voltage (B.consumers r) (B.constraints r).minUv
      (B.constraints r).maxUv with
  | error err => exact .inl ⟨err, regulatorCheckConsumers_error hcheck, rfl⟩
  | ok range =>
    obtain ⟨lo, hi⟩ := range
    simp only [bind, Except.bind, Bool.true_and]
    cases hlimit : regulatorLimitVoltageStep B s r lo with
    | error err => exact .inl ⟨err, regulatorLimitVoltageStep_error hlimit, rfl⟩
    | ok limit =>
      obtain ⟨atOnce, current, lim⟩ := limit
      refine .inr ⟨lo, hi, lim, atOnce, current, rfl, hlimit, ?_⟩
      cases current with
      | none => simp
      | some current => rfl

theorem balance_single (fuel : ℕ) :
    ∃ res, regulatorDoBalanceVoltage B (fuel + 1) s [r] (fun _ => false) = some res ∧ Single B s r res := by
  rw [regulatorDoBalanceVoltage, balanceRound]
  simp only [findBest, List.length_singleton, Bool.false_eq_true, if_false]
  obtain ⟨err, hneg, hopt⟩ | ⟨lo, hi, lim, atOnce, current, hcheck, hlimit, hopt⟩ :=
    regulatorGetOptimalVoltage_single (B := B) (s := s) (r := r)
  · exact ⟨(s, err), by rw [hopt]; rfl, .refused hneg⟩
  · rw [hopt]
    by_cases hdelta : (lim - current.getD (-1)).natAbs = 0
    · exact ⟨(s, 0), by simp [bind, Except.bind, hdelta], .there hcheck hlimit (by omega)⟩
    · exact ⟨_, by simp [bind, Except.bind, hdelta], .change hcheck hlimit⟩

/-! ### One request -/

omit [DecidableEq ι] in
/-- The step limit keeps the target, or it looks up the current voltage and
limits the target to one step from it. -/
theorem regulatorLimitVoltageStep_ok {lo lim : ℤ} {atOnce : Bool} {current : Option ℤ}
    (h : regulatorLimitVoltageStep B s r lo = .ok (atOnce, current, lim)) :
    (current = none ∧ lim = lo) ∨
      (B.constraints r).maxUvStep ≠ 0 ∧ s.enabled r = true ∧
        current = some (regulatorGetVoltageRdev B s r) ∧
        (lo ≤ lim ∨ lim = regulatorGetVoltageRdev B s r + (B.constraints r).maxUvStep) ∧
        (lim = regulatorGetVoltageRdev B s r → lim = lo) := by
  unfold regulatorLimitVoltageStep at h
  simp only at h
  split_ifs at h with hnone hneg hnear hbelow
  · cases h
    exact .inl ⟨rfl, rfl⟩
  all_goals
    obtain ⟨hstep, hon⟩ := not_or.1 hnone
    have hon : s.enabled r = true := by simpa using hon
    cases h
    exact .inr ⟨hstep, hon, rfl, by omega, by omega⟩

omit [DecidableEq ι] in
/-- The voltage that is read is the one that is put out, if the selector can be
read. -/
theorem output_of_get {v : ℤ} (hoffset : (B.constraints r).uvOffset = 0)
    (hread : (B.desc r).getVoltageSel = true ∨ s.sel r = 0)
    (hv : regulatorGetVoltageRdev B s r = v) (h0 : 0 ≤ v) : output B s r = some v := by
  have hlist : (if (B.desc r).getVoltageSel then (B.desc r).voltages[s.sel r]?
      else (B.desc r).voltages[0]?) = output B s r := by
    split
    · rfl
    · next hget => rw [output, hread.resolve_left hget]
  rw [regulatorGetVoltageRdev] at hv
  simp only [hlist, hoffset, sub_zero, ite_self] at hv
  cases hout : output B s r with
  | none =>
    rw [hout] at hv
    rw [← hv] at h0
    exact absurd h0 (by decide)
  | some w =>
    rw [hout] at hv
    rw [← hv]
    rfl

theorem Single.voltage {res : State ι υ × ℤ} (h : Single B s r res) : res.1.voltage = s.voltage := by
  cases h with
  | refused => rfl
  | there => rfl
  | change => exact (regulatorDoSetVoltage_spec _ _).voltage

theorem Single.ret_le {res : State ι υ × ℤ} (h : Single B s r res) : res.2 ≤ 0 := by
  cases h with
  | refused hneg => exact le_of_lt hneg
  | there => exact le_rfl
  | change => exact (regulatorDoSetVoltage_spec _ _).ret_le

theorem Single.check {res : State ι υ × ℤ} (h : Single B s r res) (hret : res.2 = 0) :
    ∃ lo hi, regulatorCheckConsumers s.voltage (B.consumers r) (B.constraints r).minUv
      (B.constraints r).maxUv = .ok (lo, hi) := by
  cases h with
  | refused hneg => exact absurd hret (ne_of_lt hneg)
  | there hcheck => exact ⟨_, _, hcheck⟩
  | change hcheck => exact ⟨_, _, hcheck⟩

theorem Single.sel_of_neg {res : State ι υ × ℤ} (h : Single B s r res)
    (hoffset : (B.constraints r).uvOffset = 0)
    (hsettles : ∀ lo hi, regulatorCheckConsumers s.voltage (B.consumers r) (B.constraints r).minUv
      (B.constraints r).maxUv = .ok (lo, hi) →
      ∀ atOnce current lim k, regulatorLimitVoltageStep B s r lo = .ok (atOnce, current, lim) →
        regulatorMapVoltage (B.desc r).voltages lim hi = .ok k → s.enabled r = true →
          (B.desc r).vselStep ≠ 0 →
            Settles B r false (selectorsBetween (s.sel r) k (B.desc r).vselStep).length s.time)
    (hneg : res.2 < 0) : res.1.sel r = s.sel r := by
  cases h with
  | refused => rfl
  | there => rfl
  | change hcheck hlimit =>
    exact regulatorDoSetVoltage_sel_of_neg hoffset
      (fun k => hsettles _ _ hcheck _ _ _ k hlimit) hneg

theorem Single.output_mem {res : State ι υ × ℤ} (h : Single B s r res)
    (hoffset : (B.constraints r).uvOffset = 0)
    (hreach : ∀ lo hi, regulatorCheckConsumers s.voltage (B.consumers r) (B.constraints r).minUv
      (B.constraints r).maxUv = .ok (lo, hi) → 0 ≤ lo ∧ StepReaches B s r lo)
    (hret : res.2 = 0) :
    ∃ v, output B res.1 r = some v ∧ ∃ lo hi,
      regulatorCheckConsumers s.voltage (B.consumers r) (B.constraints r).minUv
        (B.constraints r).maxUv = .ok (lo, hi) ∧ lo ≤ v ∧ v ≤ hi := by
  cases h with
  | refused hneg => exact absurd hret (ne_of_lt hneg)
  | @there lo hi lim _ current hcheck hlimit heq =>
    obtain ⟨h0, hstep⟩ := hreach lo hi hcheck
    have hle := (regulatorCheckConsumers_ok hcheck).1
    obtain ⟨rfl, rfl⟩ | ⟨hne, hon, rfl, -, hlim⟩ := regulatorLimitVoltageStep_ok hlimit
    · rw [heq] at h0
      exact absurd h0 (by decide)
    · have hget : regulatorGetVoltageRdev B s r = lo := heq.symm.trans (hlim heq)
      exact ⟨lo, output_of_get hoffset (hstep hne hon).1 hget h0, lo, hi, hcheck, le_rfl, hle⟩
  | @change lo hi lim _ current hcheck hlimit =>
    obtain ⟨h0, hstep⟩ := hreach lo hi hcheck
    have hspec := regulatorDoSetVoltage_spec (B := B) (s := s) (r := r) lim hi
    rw [hoffset, add_zero, add_zero] at hspec
    generalize regulatorDoSetVoltage B s r lim hi = res at hspec hret
    cases hspec with
    | unlisted => simp [EINVAL] at hret
    | moved k hmap _ _ hsel =>
      obtain ⟨v, hv, hlow, hhigh, -⟩ := regulatorMapVoltage_ok hmap
      refine ⟨v, by rw [output, hsel hret, hv], lo, hi, hcheck, ?_, hhigh⟩
      obtain ⟨-, rfl⟩ | ⟨hne, hon, -, hlim | hlim, -⟩ := regulatorLimitVoltageStep_ok hlimit
      · exact hlow
      · exact le_trans hlim hlow
      · exact (hstep hne hon).2 v (List.mem_of_getElem? hv) (hlim ▸ hlow)

section Requests

variable [DecidableEq υ] {u : υ} {minUv maxUv : ℤ}

/-- What a request does, with the range that it records in between. -/
inductive Request (B : Board ι υ) (s : State ι υ) (r : ι) (u : υ) (minUv maxUv : ℤ) :
    State ι υ × ℤ → Prop
  | repeated (hsame : s.voltage u = ⟨minUv, maxUv⟩) : Request B s r u minUv maxUv (s, 0)
  | refused {err : ℤ} (hneg : err < 0) : Request B s r u minUv maxUv (s, err)
  | failed {lo hi : ℤ} {res : State ι υ × ℤ}
      (hnew : s.voltage u ≠ ⟨minUv, maxUv⟩)
      (hcheck : regulatorCheckVoltage (B.constraints r) minUv maxUv = .ok (lo, hi))
      (hsingle : Single B { s with voltage := Function.update s.voltage u ⟨lo, hi⟩ } r res)
      (hneg : res.2 < 0) :
      Request B s r u minUv maxUv ({ res.1 with voltage := s.voltage }, res.2)
  | set {lo hi : ℤ} {res : State ι υ × ℤ}
      (hnew : s.voltage u ≠ ⟨minUv, maxUv⟩)
      (hcheck : regulatorCheckVoltage (B.constraints r) minUv maxUv = .ok (lo, hi))
      (hsingle : Single B { s with voltage := Function.update s.voltage u ⟨lo, hi⟩ } r res)
      (hret : res.2 = 0) : Request B s r u minUv maxUv res

theorem regulatorCheckVoltage_error {c : Constraints} {lo hi err : ℤ}
    (h : regulatorCheckVoltage c lo hi = .error err) : err < 0 := by
  unfold regulatorCheckVoltage at h
  simp only at h
  split_ifs at h <;> cases h <;> decide

theorem regulatorSetVoltageUnlocked_spec (hcoupled : B.coupled r = [r])
    (hchange : (B.constraints r).changeVoltage = true) (s : State ι υ) (u : υ) (minUv maxUv : ℤ)
    (fuel : ℕ) :
    ∃ res, regulatorSetVoltageUnlocked B (fuel + 1) s r u minUv maxUv = some res ∧
      Request B s r u minUv maxUv res := by
  unfold regulatorSetVoltageUnlocked
  simp only [hchange, Bool.true_eq_false, false_and, if_false, hcoupled]
  by_cases hsame : s.voltage u = ⟨minUv, maxUv⟩
  · exact ⟨_, if_pos hsame, .repeated hsame⟩
  · simp only [if_neg hsame]
    cases hcheck : regulatorCheckVoltage (B.constraints r) minUv maxUv with
    | error err => exact ⟨_, rfl, .refused (regulatorCheckVoltage_error hcheck)⟩
    | ok range =>
      obtain ⟨lo, hi⟩ := range
      obtain ⟨res, hres, hsingle⟩ := balance_single (B := B) (r := r)
        (s := { s with voltage := update s.voltage u ⟨lo, hi⟩ }) fuel
      simp only [hres, Option.map_some]
      by_cases hneg : res.2 < 0
      · refine ⟨_, rfl, ?_⟩
        rw [if_pos hneg, hsingle.voltage, update_idem, update_eq_self]
        exact .failed hsame hcheck hsingle hneg
      · refine ⟨_, rfl, ?_⟩
        rw [if_neg hneg]
        exact .set hsame hcheck hsingle (le_antisymm hsingle.ret_le (not_lt.1 hneg))

theorem Request.voltage_of_neg {res : State ι υ × ℤ} (h : Request B s r u minUv maxUv res)
    (hneg : res.2 < 0) : res.1.voltage = s.voltage := by
  cases h with
  | repeated => rfl
  | refused => rfl
  | failed => rfl
  | set _ _ _ hret => exact absurd hneg (by omega)

theorem Request.common {res : State ι υ × ℤ} (h : Request B s r u minUv maxUv res)
    (hs : ∃ v, ∀ u ∈ B.consumers r, Permits (s.voltage u) v) :
    ∃ v, ∀ u ∈ B.consumers r, Permits (res.1.voltage u) v := by
  cases h with
  | repeated => exact hs
  | refused => exact hs
  | failed => exact hs
  | set _ _ hsingle hret =>
    obtain ⟨lo, hi, hcheck⟩ := hsingle.check hret
    obtain ⟨hle, hmem⟩ := regulatorCheckConsumers_ok hcheck
    rw [hsingle.voltage]
    exact ⟨lo, ((hmem lo).1 ⟨le_rfl, hle⟩).2⟩

theorem Request.ret_le {res : State ι υ × ℤ} (h : Request B s r u minUv maxUv res) : res.2 ≤ 0 := by
  cases h with
  | repeated => exact le_rfl
  | refused hneg => exact le_of_lt hneg
  | failed _ _ _ hneg => exact le_of_lt hneg
  | set _ _ _ hret => exact le_of_eq hret

omit [DecidableEq ι] in
theorem desiredRange_eq {lo hi : ℤ}
    (hcheck : regulatorCheckVoltage (B.constraints r) minUv maxUv = .ok (lo, hi)) :
    desiredRange B s r u minUv maxUv =
      regulatorCheckConsumers (update s.voltage u ⟨lo, hi⟩) (B.consumers r)
        (B.constraints r).minUv (B.constraints r).maxUv := by
  unfold desiredRange
  rw [hcheck]
  rfl

theorem Request.sel_of_neg {res : State ι υ × ℤ} (h : Request B s r u minUv maxUv res)
    (hoffset : (B.constraints r).uvOffset = 0) (hreach : Reaches B s r u minUv maxUv)
    (hneg : res.2 < 0) : res.1.sel r = s.sel r := by
  cases h with
  | repeated => rfl
  | refused => rfl
  | failed hnew hcheck hsingle hneg =>
    refine hsingle.sel_of_neg hoffset (fun lo hi hrange => ?_) hneg
    rw [← desiredRange_eq hcheck] at hrange
    exact (hreach hnew lo hi hrange).2
  | set _ _ _ hret => exact absurd hneg (by omega)

/-! ### Runs -/

/-- As soon as a range is recorded, the output is within the constraints and all
recorded ranges. -/
def Honoured (B : Board ι υ) (s : State ι υ) (r : ι) : Prop :=
  (∀ u ∈ B.consumers r, s.voltage u = ⟨0, 0⟩) ∨ ∃ v, output B s r = some v ∧ Allowed B s r v

theorem Permits.of_pos {range : VoltageRange} {v : ℤ} (h : Permits range v) (hpos : 0 < range.minUv) :
    range.minUv ≤ v ∧ v ≤ range.maxUv := by
  obtain ⟨h0, -⟩ | hv := h
  · omega
  · exact hv

theorem Request.output_of_zero {res : State ι υ × ℤ} (h : Request B s r u minUv maxUv res)
    (hoffset : (B.constraints r).uvOffset = 0) (hu : u ∈ B.consumers r) (hpos : 0 < minUv)
    (hreach : Reaches B s r u minUv maxUv) (hs : Honoured B s r) (hret : res.2 = 0) :
    ∃ v, output B res.1 r = some v ∧ Allowed B res.1 r v ∧ minUv ≤ v ∧ v ≤ maxUv := by
  cases h with
  | repeated hsame =>
    obtain hunset | ⟨v, hv, hall⟩ := hs
    · rw [hunset u hu, VoltageRange.mk.injEq] at hsame
      omega
    · have hin := hall.permits u hu
      rw [hsame] at hin
      exact ⟨v, hv, hall, hin.of_pos hpos⟩
  | refused hneg => exact absurd hret (ne_of_lt hneg)
  | failed _ _ _ hneg => exact absurd hret (ne_of_lt hneg)
  | @set lo hi _ hnew hcheck hsingle _ =>
    obtain ⟨-, hlo, hhi, -⟩ := regulatorCheckVoltage_ok hcheck
    -- the range of the caller itself is among the ranges that are checked
    have hcaller : ∀ lo' hi' v, desiredRange B s r u minUv maxUv = .ok (lo', hi') →
        lo' ≤ v → v ≤ hi' → lo ≤ v ∧ v ≤ hi := by
      intro lo' hi' v hrange hv hv'
      rw [desiredRange_eq hcheck] at hrange
      have hin := (((regulatorCheckConsumers_ok hrange).2 v).1 ⟨hv, hv'⟩).2 u hu
      rw [update_self] at hin
      exact hin.of_pos (show 0 < lo by omega)
    obtain ⟨v, hv, lo', hi', hrange, hv', hv''⟩ := hsingle.output_mem hoffset (fun lo' hi' hrange => by
      have hle := (regulatorCheckConsumers_ok hrange).1
      rw [← desiredRange_eq hcheck] at hrange
      have hlo' := (hcaller lo' hi' lo' hrange le_rfl hle).1
      exact ⟨by omega, (hreach hnew lo' hi' hrange).1⟩) hret
    obtain ⟨⟨hmin, hmax⟩, hpermits⟩ := ((regulatorCheckConsumers_ok hrange).2 v).1 ⟨hv', hv''⟩
    rw [← desiredRange_eq hcheck] at hrange
    obtain ⟨h1, h2⟩ := hcaller lo' hi' v hrange hv' hv''
    refine ⟨v, hv, ⟨hmin, hmax, ?_⟩, by omega, by omega⟩
    rw [hsingle.voltage]
    exact hpermits

theorem Request.honoured {res : State ι υ × ℤ} (h : Request B s r u minUv maxUv res)
    (hoffset : (B.constraints r).uvOffset = 0) (hu : u ∈ B.consumers r) (hpos : 0 < minUv)
    (hreach : Reaches B s r u minUv maxUv) (hs : Honoured B s r) : Honoured B res.1 r := by
  rcases lt_or_eq_of_le h.ret_le with hneg | hret
  · have hvoltage := h.voltage_of_neg hneg
    have hsel := h.sel_of_neg hoffset hreach hneg
    obtain hunset | ⟨v, hv, hall⟩ := hs
    · exact .inl (by rwa [hvoltage])
    · exact .inr ⟨v, by rwa [output, hsel], hall.min_le, hall.le_max, by rw [hvoltage]; exact hall.permits⟩
  · obtain ⟨v, hv, hall, -⟩ := h.output_of_zero hoffset hu hpos hreach hs hret
    exact .inr ⟨v, hv, hall⟩

/-- The states that requests lead to, if all of them reach their range. At the
start no consumer has asked for anything. -/
inductive Requested (B : Board ι υ) (r : ι) : State ι υ → Prop
  | start {s : State ι υ} (hunset : ∀ u ∈ B.consumers r, s.voltage u = ⟨0, 0⟩) : Requested B r s
  | request {s s' : State ι υ} {u : υ} {minUv maxUv ret : ℤ} {fuel : ℕ} (hs : Requested B r s)
      (hu : u ∈ B.consumers r) (hpos : 0 < minUv) (hle : minUv ≤ maxUv)
      (hreach : Reaches B s r u minUv maxUv)
      (hcall : regulatorSetVoltageUnlocked B (fuel + 1) s r u minUv maxUv = some (s', ret)) :
      Requested B r s'

theorem Requested.honoured (hcoupled : B.coupled r = [r]) (hoffset : (B.constraints r).uvOffset = 0)
    (hchange : (B.constraints r).changeVoltage = true) (h : Requested B r s) :
    Honoured B s r ∧ ∃ v, ∀ u ∈ B.consumers r, Permits (s.voltage u) v := by
  induction h with
  | start hunset => exact ⟨.inl hunset, 0, fun u hu => .inl (by simp [hunset u hu])⟩
  | @request s s' u minUv maxUv ret fuel hs hu hpos hle hreach hcall ih =>
    obtain ⟨res, hres, hreq⟩ := regulatorSetVoltageUnlocked_spec hcoupled hchange s u minUv maxUv fuel
    rw [hcall] at hres
    cases hres
    exact ⟨hreq.honoured hoffset hu hpos hreach ih.1, hreq.common ih.2⟩

theorem request_honoured (hcoupled : B.coupled r = [r]) (hoffset : (B.constraints r).uvOffset = 0)
    (hchange : (B.constraints r).changeVoltage = true) (hs : Requested B r s) (hu : u ∈ B.consumers r)
    (hpos : 0 < minUv) (_ : minUv ≤ maxUv) (hreach : Reaches B s r u minUv maxUv) (fuel : ℕ) :
    ∃ s' ret, regulatorSetVoltageUnlocked B (fuel + 1) s r u minUv maxUv = some (s', ret) ∧
      (ret = 0 → ∃ v, output B s' r = some v ∧ Allowed B s' r v ∧ minUv ≤ v ∧ v ≤ maxUv) ∧
      (ret ≠ 0 → s'.voltage = s.voltage) ∧
      ∃ v, ∀ u ∈ B.consumers r, Permits (s'.voltage u) v := by
  obtain ⟨hhonoured, hcommon⟩ := hs.honoured hcoupled hoffset hchange
  obtain ⟨⟨s', ret⟩, hres, hreq⟩ := regulatorSetVoltageUnlocked_spec hcoupled hchange s u minUv maxUv fuel
  refine ⟨s', ret, hres, hreq.output_of_zero hoffset hu hpos hreach hhonoured, ?_, hreq.common hcommon⟩
  intro hret
  exact hreq.voltage_of_neg (lt_of_le_of_ne hreq.ret_le hret)

end Requests

/-! ### A regulator with a step limit -/

/-- A regulator for 1 to 5 µV that may move by `step` at once. -/
def fiveVolts (step : ℤ) : Board Unit Unit where
  constraints _ := ⟨1, 5, 0, step, 0, true⟩
  desc _ := ⟨[1, 2, 3, 4, 5], 0, true, false⟩
  consumers _ := [()]
  coupled _ := [()]
  setVoltageSel _ _ := 0
  vetoes _ _ := false

/-- It is on, at the lowest voltage, and nobody has asked for anything. -/
def atOneVolt : State Unit Unit := ⟨fun _ => 0, [], fun _ => true, fun _ => ⟨0, 0⟩, 0⟩

/-- The request for 5 µV returns 0 after one step, to 2 µV. -/
theorem step_limit_stops_request :
    ∃ s', regulatorSetVoltageUnlocked (fiveVolts 1) 1 atOneVolt () () 5 5 = some (s', 0) ∧
      Requested (fiveVolts 1) () atOneVolt ∧ s'.voltage () = ⟨5, 5⟩ ∧ output (fiveVolts 1) s' () = some 2 :=
  ⟨_, rfl, .start fun _ _ => rfl, rfl, rfl⟩

theorem request_honoured_large_step :
    ∃ s' ret, regulatorSetVoltageUnlocked (fiveVolts 4) 1 atOneVolt () () 5 5 = some (s', ret) ∧
      (ret = 0 → ∃ v, output (fiveVolts 4) s' () = some v ∧ Allowed (fiveVolts 4) s' () v ∧ 5 ≤ v ∧ v ≤ 5) ∧
      (ret ≠ 0 → s'.voltage = atOneVolt.voltage) ∧
      ∃ v, ∀ u ∈ (fiveVolts 4).consumers (), Permits (s'.voltage u) v := by
  refine request_honoured (r := ()) rfl rfl rfl (.start fun _ _ => rfl) (List.mem_singleton.2 rfl)
    (by decide) (by decide) ?_ 0
  intro _ lo hi hrange
  cases hrange
  refine ⟨fun _ _ => ⟨.inl rfl, by decide⟩, ?_⟩
  intro _ _ _ _ _ _ _ hstep
  exact absurd rfl hstep

end GfpDrivers.Regulator
