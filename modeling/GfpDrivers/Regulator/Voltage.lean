import Mathlib.Data.Int.Order.Basic
import GfpDrivers.Basic

/-!
Voltages of regulators (`regulator/core.c`). Each consumer of a regulator
records the range it asks for. A request is checked against the constraints of
the board and the ranges of the other consumers, and the voltage is then set
through a selector into the list of voltages of the regulator. Regulators that
are coupled are moved in turns, so that their voltages stay close together.

The regulators here are set by `set_voltage_sel`, and none has a supply. Times
and delays are left out.
-/

namespace GfpDrivers.Regulator

/-- `INT_MAX` -/
def intMax : ℤ := 2 ^ 31 - 1

/-- `struct regulation_constraints`. The flag says whether
`REGULATOR_CHANGE_VOLTAGE` is a valid operation. -/
structure Constraints where
  minUv : ℤ
  maxUv : ℤ
  uvOffset : ℤ
  maxUvStep : ℤ
  maxSpread : ℤ
  changeVoltage : Bool

/-- `struct regulator_desc`, with the voltages that `list_voltage` gives. The
flags say which operations there are. -/
structure RegulatorDesc where
  voltages : List ℤ
  vselStep : ℕ
  getVoltageSel : Bool
  setVoltageTimeSel : Bool

/-- The regulators `ι` of a board with their consumers `υ`, and what the
operations and the notifiers answer at a time. The operation `set_voltage_sel`
answers with an error number, or 0. -/
structure Board (ι υ : Type) where
  constraints : ι → Constraints
  desc : ι → RegulatorDesc
  consumers : ι → List υ
  /-- `coupled_rdevs`, the regulator itself first. -/
  coupled : ι → List ι
  setVoltageSel : ℕ → ι → ℕ
  vetoes : ℕ → ι → Bool

/-- The range of a consumer. -/
structure VoltageRange where
  minUv : ℤ
  maxUv : ℤ
deriving DecidableEq

/-- What changes: the selectors in the hardware with all that were set before,
the last ones first, whether the regulators are on, and the ranges that the
consumers asked for. -/
structure State (ι υ : Type) where
  sel : ι → ℕ
  history : List (ι → ℕ)
  enabled : ι → Bool
  voltage : υ → VoltageRange
  time : ℕ

variable {ι υ : Type} [DecidableEq ι] [DecidableEq υ]

/-! ### Checks -/

/-- `regulator_check_voltage` -/
def regulatorCheckVoltage (c : Constraints) (minUv maxUv : ℤ) : Except ℤ (ℤ × ℤ) :=
  if c.changeVoltage = false then .error (-EPERM)
  else
    let maxUv := if c.maxUv < maxUv then c.maxUv else maxUv
    let minUv := if minUv < c.minUv then c.minUv else minUv
    if maxUv < minUv then .error (-EINVAL) else .ok (minUv, maxUv)

/-- The loop of `regulator_check_consumers`. -/
def limitToConsumers (voltage : υ → VoltageRange) : List υ → ℤ × ℤ → ℤ × ℤ
  | [], range => range
  | u :: rest, (minUv, maxUv) =>
      let v := voltage u
      if v.minUv = 0 ∧ v.maxUv = 0 then limitToConsumers voltage rest (minUv, maxUv)
      else
        limitToConsumers voltage rest
          (if minUv < v.minUv then v.minUv else minUv, if v.maxUv < maxUv then v.maxUv else maxUv)

/-- `regulator_check_consumers` -/
def regulatorCheckConsumers (voltage : υ → VoltageRange) (consumers : List υ) (minUv maxUv : ℤ) :
    Except ℤ (ℤ × ℤ) :=
  let (minUv, maxUv) := limitToConsumers voltage consumers (minUv, maxUv)
  if maxUv < minUv then .error (-EINVAL) else .ok (minUv, maxUv)

/-! ### The hardware -/

/-- The loop of `regulator_map_voltage_iterate` over the selectors from `i` on,
with the best voltage so far and its selector. -/
def mapVoltageLoop (minUv maxUv : ℤ) : List ℤ → ℕ → ℤ → ℕ → ℤ × ℕ
  | [], _, bestVal, selector => (bestVal, selector)
  | v :: rest, i, bestVal, selector =>
      if v < 0 then mapVoltageLoop minUv maxUv rest (i + 1) bestVal selector
      else if v < bestVal ∧ minUv ≤ v ∧ v ≤ maxUv then mapVoltageLoop minUv maxUv rest (i + 1) v i
      else mapVoltageLoop minUv maxUv rest (i + 1) bestVal selector

/-- `regulator_map_voltage_iterate` -/
def regulatorMapVoltage (voltages : List ℤ) (minUv maxUv : ℤ) : Except ℤ ℕ :=
  let (bestVal, selector) := mapVoltageLoop minUv maxUv voltages 0 intMax 0
  if bestVal = intMax then .error (-EINVAL) else .ok selector

section Hardware

variable (B : Board ι υ)

/-- `regulator_get_voltage_rdev` -/
def regulatorGetVoltageRdev (s : State ι υ) (r : ι) : ℤ :=
  let d := B.desc r
  let ret := (if d.getVoltageSel then d.voltages[s.sel r]? else d.voltages[0]?).getD (-EINVAL)
  if ret < 0 then ret else ret - (B.constraints r).uvOffset

/-- The operation `set_voltage_sel`. One that fails leaves the hardware alone. -/
def setVoltageSel (s : State ι υ) (r : ι) (selector : ℕ) : State ι υ × ℤ :=
  if B.setVoltageSel s.time r = 0 then
    let sel := Function.update s.sel r selector
    ({ s with sel := sel, history := sel :: s.history, time := s.time + 1 }, 0)
  else ({ s with time := s.time + 1 }, -B.setVoltageSel s.time r)

/-- `_regulator_call_set_voltage_sel` -/
def regulatorCallSetVoltageSel (s : State ι υ) (r : ι) (selector : ℕ) : State ι υ × ℤ :=
  if B.vetoes s.time r then ({ s with time := s.time + 1 }, -EINVAL) else setVoltageSel B s r selector

/-- The selectors on the way from `old` to `new`. -/
def selectorsBetween (old new step : ℕ) : List ℕ :=
  if old < new then
    ((List.range (new - old)).map fun k => old + step * (k + 1)).takeWhile fun sel => sel < new
  else
    (((List.range (old - new)).map fun (k : ℕ) => (old : ℤ) - step * (k + 1)).takeWhile
      fun sel => (new : ℤ) < sel).map Int.toNat

/-- The loops of `_regulator_set_voltage_sel_step`. -/
def stepSelectors (r : ι) : List ℕ → State ι υ → State ι υ × ℤ
  | [], s => (s, 0)
  | sel :: rest, s =>
      let res := setVoltageSel B s r sel
      if res.2 ≠ 0 then res else stepSelectors r rest res.1

/-- `_regulator_set_voltage_sel_step` -/
def regulatorSetVoltageSelStep (s : State ι υ) (r : ι) (newSelector : ℕ) : State ι υ × ℤ :=
  if s.enabled r = false then regulatorCallSetVoltageSel B s r newSelector
  else if (B.desc r).getVoltageSel = false then (s, -EINVAL)
  else
    let oldSel := s.sel r
    if newSelector = oldSel then (s, 0)
    else
      let res := stepSelectors B r (selectorsBetween oldSel newSelector (B.desc r).vselStep) s
      if res.2 ≠ 0 then ((setVoltageSel B res.1 r oldSel).1, res.2)
      else regulatorCallSetVoltageSel B res.1 r newSelector

/-- `_regulator_do_set_voltage`, which `regulator_set_voltage_rdev` comes down
to without a supply. -/
def regulatorDoSetVoltage (s : State ι υ) (r : ι) (minUv maxUv : ℤ) : State ι υ × ℤ :=
  let d := B.desc r
  let minUv := minUv + (B.constraints r).uvOffset
  let maxUv := maxUv + (B.constraints r).uvOffset
  let oldSelector := if s.enabled r ∧ d.setVoltageTimeSel ∧ d.getVoltageSel then some (s.sel r) else none
  match regulatorMapVoltage d.voltages minUv maxUv with
  | .error err => (s, err)
  | .ok selector =>
      let bestVal := (d.voltages[selector]?).getD (-EINVAL)
      if minUv ≤ bestVal ∧ bestVal ≤ maxUv then
        if oldSelector = some selector then (s, 0)
        else if d.vselStep ≠ 0 then regulatorSetVoltageSelStep B s r selector
        else regulatorCallSetVoltageSel B s r selector
      else (s, -EINVAL)

/-! ### Balancing -/

/-- `regulator_limit_voltage_step`: whether the target is reached at once, the
current voltage if it was looked up, and the limited target. -/
def regulatorLimitVoltageStep (s : State ι υ) (r : ι) (minUv : ℤ) : Except ℤ (Bool × Option ℤ × ℤ) :=
  let step := (B.constraints r).maxUvStep
  if step = 0 ∨ s.enabled r = false then .ok (true, none, minUv)
  else
    let currentUv := regulatorGetVoltageRdev B s r
    if currentUv < 0 then .error currentUv
    else if (currentUv - minUv).natAbs ≤ step then .ok (true, some currentUv, minUv)
    else if currentUv < minUv then .ok (false, some currentUv, min (currentUv + step) minUv)
    else .ok (false, some currentUv, max (currentUv - step) minUv)

/-- The first loop of `regulator_get_optimal_voltage`: the highest demanded
minimum and the demands of the first regulator. -/
def highestDemand (s : State ι υ) : List ι → Except ℤ (ℤ × Option (ℤ × ℤ))
  | [] => .ok (0, none)
  | r :: rest => do
      let (tmpMin, tmpMax) ← regulatorCheckConsumers s.voltage (B.consumers r) 0 intMax
      let (tmpMin, tmpMax) ← regulatorCheckVoltage (B.constraints r) tmpMin tmpMax
      let (highestMin, _) ← highestDemand s rest
      .ok (max highestMin tmpMin, some (tmpMin, tmpMax))

/-- The second loop of `regulator_get_optimal_voltage`: the lowest and the
highest voltage of the regulators that are on. -/
def currentBounds (s : State ι υ) : List ι → ℤ × ℤ → Except ℤ (ℤ × ℤ)
  | [], bounds => .ok bounds
  | r :: rest, (minCurrent, maxCurrent) =>
      if s.enabled r = false then currentBounds s rest (minCurrent, maxCurrent)
      else
        let tmpAct := regulatorGetVoltageRdev B s r
        if tmpAct < 0 then .error tmpAct
        else currentBounds s rest (min tmpAct minCurrent, max tmpAct maxCurrent)

/-- What `regulator_get_optimal_voltage` finds. -/
structure Optimal where
  done : Bool
  currentUv : ℤ
  minUv : ℤ
  maxUv : ℤ

/-- The part of `regulator_get_optimal_voltage` before the label `finish`: the
possible voltage, whether it is the target, and the highest one. -/
def possibleVoltage (s : State ι υ) (r : ι) (nCoupled : ℕ) : Except ℤ (ℤ × Bool × ℤ) :=
  let c := B.constraints r
  if nCoupled = 1 then do
    let (desiredMin, desiredMax) ← regulatorCheckConsumers s.voltage (B.consumers r) c.minUv c.maxUv
    .ok (desiredMin, true, desiredMax)
  else do
    let (highestMin, demand) ← highestDemand B s ((B.coupled r).take nCoupled)
    let (desiredMin, desiredMax) := demand.getD (0, intMax)
    let target := max desiredMin (highestMin - c.maxSpread)
    let (minCurrent, maxCurrent) ← currentBounds B s ((B.coupled r).take nCoupled).tail (intMax, 0)
    let possible :=
      if maxCurrent = 0 then target
      else min (max target (maxCurrent - c.maxSpread)) ((minCurrent + c.maxSpread).bmod (2 ^ 32))
    if desiredMax < possible then .error (-EINVAL) else .ok (possible, possible = target, desiredMax)

/-- `regulator_get_optimal_voltage` in the state `PM_SUSPEND_ON`. -/
def regulatorGetOptimalVoltage (s : State ι υ) (r : ι) (nCoupled : ℕ) : Except ℤ Optimal := do
  let (desiredMin, done, desiredMax) ← possibleVoltage B s r nCoupled
  let (atOnce, currentUv, limitedMin) ← regulatorLimitVoltageStep B s r desiredMin
  let done := done && atOnce
  match currentUv with
  | some currentUv => .ok ⟨done, currentUv, limitedMin, desiredMax⟩
  | none =>
      if 1 < nCoupled then
        if s.enabled r then
          let ret := regulatorGetVoltageRdev B s r
          if ret < 0 then .error ret else .ok ⟨done, ret, limitedMin, desiredMax⟩
        else .ok ⟨done, limitedMin, limitedMin, desiredMax⟩
      else .ok ⟨done, -1, limitedMin, desiredMax⟩

/-- The best change so far in a round of `regulator_do_balance_voltage`. -/
structure Best (ι : Type) where
  rdev : ι
  done : Bool
  delta : ℕ
  minUv : ℤ
  maxUv : ℤ

/-- The inner loop of `regulator_do_balance_voltage`. -/
def findBest (s : State ι υ) (nCoupled : ℕ) (rdevDone : ι → Bool) :
    List ι → Option (Best ι) → Except ℤ (Option (Best ι))
  | [], best => .ok best
  | r :: rest, best =>
      if rdevDone r then findBest s nCoupled rdevDone rest best
      else do
        let o ← regulatorGetOptimalVoltage B s r nCoupled
        let delta := (o.minUv - o.currentUv).natAbs
        if delta ≠ 0 ∧ (best.elim 0 Best.delta) ≤ delta then
          findBest s nCoupled rdevDone rest (some ⟨r, o.done, delta, o.minUv, o.maxUv⟩)
        else findBest s nCoupled rdevDone rest best

/-- A round of `regulator_do_balance_voltage` ends the function with a result,
or changes a voltage. -/
inductive Round (ι υ : Type) where
  | finished (s : State ι υ) (ret : ℤ)
  | changed (s : State ι υ) (rdevDone : ι → Bool)

def balanceRound (s : State ι υ) (rdevs : List ι) (rdevDone : ι → Bool) : Round ι υ :=
  match findBest B s rdevs.length rdevDone rdevs none with
  | .error err => .finished s err
  | .ok none => .finished s 0
  | .ok (some best) =>
      let res := regulatorDoSetVoltage B s best.rdev best.minUv best.maxUv
      if res.2 < 0 then .finished res.1 res.2
      else
        let rdevDone := if best.done then Function.update rdevDone best.rdev true else rdevDone
        if 1 < rdevs.length then .changed res.1 rdevDone else .finished res.1 res.2

/-- `regulator_do_balance_voltage` for all coupled regulators, with a bound for
the number of rounds. -/
def regulatorDoBalanceVoltage : ℕ → State ι υ → List ι → (ι → Bool) → Option (State ι υ × ℤ)
  | 0, _, _, _ => none
  | fuel + 1, s, rdevs, rdevDone =>
      match balanceRound B s rdevs rdevDone with
      | .finished s ret => some (s, ret)
      | .changed s rdevDone => regulatorDoBalanceVoltage fuel s rdevs rdevDone

/-! ### Requests -/

/-- `regulator_set_voltage_unlocked` in the state `PM_SUSPEND_ON`, for a
consumer of the regulator `r`. -/
def regulatorSetVoltageUnlocked (fuel : ℕ) (s : State ι υ) (r : ι) (u : υ) (minUv maxUv : ℤ) :
    Option (State ι υ × ℤ) :=
  let c := B.constraints r
  if s.voltage u = ⟨minUv, maxUv⟩ then some (s, 0)
  else
    let currentUv := regulatorGetVoltageRdev B s r
    if c.changeVoltage = false ∧ minUv ≤ currentUv ∧ currentUv ≤ maxUv then
      some ({ s with voltage := Function.update s.voltage u ⟨minUv, maxUv⟩ }, 0)
    else
      match regulatorCheckVoltage c minUv maxUv with
      | .error err => some (s, err)
      | .ok (minUv, maxUv) =>
          let old := s.voltage u
          let s := { s with voltage := Function.update s.voltage u ⟨minUv, maxUv⟩ }
          (regulatorDoBalanceVoltage B fuel s (B.coupled r) fun _ => false).map fun (s, ret) =>
            if ret < 0 then ({ s with voltage := Function.update s.voltage u old }, ret) else (s, ret)

end Hardware

end GfpDrivers.Regulator
