import GfpDrivers.Clk.Register

/-!
Setting the rate of a clock (`clk_set_rate`). A request is rounded first. Then
the new rates are calculated, on a way up from the clock as far as the clocks
ask for other rates of their parents, and down again through everything below;
they are kept in the clocks as a plan. The walk of `clk_change_rate` from the
topmost clock carries out the plan.

The walk goes through lists that it changes: a clock with a new parent is moved
to the children of that parent. The iteration over a list has its next clock
saved, and goes on from where this clock is then.

Each call of an operation is answered at a time of its own, so that the answers
of a provider need not agree with each other.
-/

namespace GfpDrivers.Clk

/-- `struct clk_rate_request` -/
structure RateRequest (κ : Type) where
  rate : ℕ
  minRate : ℕ
  maxRate : ℕ
  bestParentRate : ℕ
  bestParent : Option κ

/-- How the operations that deal with rates answer at one time. -/
structure RateAnswers (κ R : Type) where
  determineRate : κ → RateRequest κ → RateRequest κ × ℤ
  roundRate : κ → ℕ → ℕ → ℤ × ℕ
  setRate : κ → ℕ → ℕ → R → R
  setRateAndParent : κ → ℕ → ℕ → ℕ → R → R

/-- The notifications of a rate change. -/
inductive Event where
  | preRateChange
  | postRateChange
  | abortRateChange
deriving DecidableEq

/-- A call of the notifiers of a clock. -/
structure Notice (κ : Type) where
  core : κ
  event : Event
  oldRate : ℕ
  newRate : ℕ

/-- What the providers fix and answer where rates are set. The list `clks` gives
the consumers of a clock, and `notifier` says whether a clock has notifiers. -/
structure RatePlatform (κ υ R : Type) extends Platform κ υ R where
  minRate : κ → ℕ
  maxRate : κ → ℕ
  clks : κ → List υ
  notifier : κ → Bool
  recalcNewRates : κ → Bool
  rateAnswers : ℕ → RateAnswers κ R

/-- The clocks together with the notifications so far. -/
structure RateTree (κ υ R : Type) extends ClkTree κ υ R where
  notices : List (Notice κ)

variable {κ υ R : Type} [DecidableEq κ]

def RateTree.setTree (s : RateTree κ υ R) (t : ClkTree κ υ R) : RateTree κ υ R := { s with toClkTree := t }

def RateTree.setCore (s : RateTree κ υ R) (c : κ) (v : ClkCore κ R) : RateTree κ υ R :=
  s.setTree (s.toClkTree.setCore c v)

def RateTree.tick (s : RateTree κ υ R) : RateTree κ υ R := s.setTree s.toClkTree.tick

def RateTree.notify (s : RateTree κ υ R) (notices : List (Notice κ)) : RateTree κ υ R :=
  { s with notices := s.notices ++ notices }

section Model

variable (P : RatePlatform κ υ R) (fuel : ℕ)

/-! ### Boundaries -/

/-- `clk_core_get_boundaries` -/
def clkCoreGetBoundaries (s : ClkTree κ υ R) (c : κ) : ℕ × ℕ :=
  ((P.clks c).foldl (fun minRate u => max minRate (s.user u).minRate) (P.minRate c),
    (P.clks c).foldl (fun maxRate u => min maxRate (s.user u).maxRate) (P.maxRate c))

/-- `clk_core_check_boundaries` -/
def clkCoreCheckBoundaries (s : ClkTree κ υ R) (c : κ) (minRate maxRate : ℕ) : Bool :=
  !(decide (P.maxRate c < minRate) || decide (maxRate < P.minRate c)) &&
    (P.clks c).all fun u =>
      !(decide ((s.user u).maxRate < minRate) || decide (maxRate < (s.user u).minRate))

/-- `clamp` -/
def clamp (rate minRate maxRate : ℕ) : ℕ := min (max rate minRate) maxRate

/-! ### Rounding -/

/-- `clk_core_can_round` -/
def clkCoreCanRound (c : κ) : Bool := (P.ops c).determineRate || (P.ops c).roundRate

/-- `clk_core_init_rate_req` -/
def clkCoreInitRateReq (s : ClkTree κ υ R) (c : κ) (req : RateRequest κ) : RateRequest κ :=
  { req with bestParent := (s.core c).parent, bestParentRate := s.parentRate c }

/-- `clk_core_determine_round_nolock` -/
def clkCoreDetermineRoundNolock (s : ClkTree κ υ R) (c : κ) (req : RateRequest κ) : RateRequest κ × ℤ :=
  let req := { req with rate := clamp req.rate req.minRate req.maxRate }
  if 0 < (s.core c).protectCount then ({ req with rate := (s.core c).rate }, 0)
  else if (P.ops c).determineRate then (P.rateAnswers s.time).determineRate c req
  else if (P.ops c).roundRate then
    let answer := (P.rateAnswers s.time).roundRate c req.rate req.bestParentRate
    let req := { req with bestParentRate := answer.2 }
    if answer.1 < 0 then (req, answer.1) else ({ req with rate := answer.1.toNat }, 0)
  else (req, -EINVAL)

/-- `clk_core_round_rate_nolock` -/
def clkCoreRoundRateNolock (s : ClkTree κ υ R) :
    ℕ → Option κ → RateRequest κ → Option (RateRequest κ × ℤ)
  | _, none, req => some ({ req with rate := 0 }, 0)
  | 0, some _, _ => none
  | fuel + 1, some c, req =>
      let req := clkCoreInitRateReq s c req
      if clkCoreCanRound P c then some (clkCoreDetermineRoundNolock P s c req)
      else if (P.flags c).setRateParent then clkCoreRoundRateNolock s fuel (s.core c).parent req
      else some ({ req with rate := (s.core c).rate }, 0)

/-- `clk_core_rate_nuke_protect`, which returns the count that there was. -/
def clkCoreRateNukeProtect (s : ClkTree κ υ R) (c : κ) : Option (ClkTree κ υ R × ℕ) :=
  let cnt := (s.core c).protectCount
  if cnt = 0 then some (s, 0)
  else
    (clkCoreRateUnprotect fuel (s.setCore c { s.core c with protectCount := 1 }) (some c)).map (·, cnt)

/-- `clk_core_rate_restore_protect` -/
def clkCoreRateRestoreProtect (s : ClkTree κ υ R) (c : κ) (cnt : ℕ) : Option (ClkTree κ υ R) :=
  if cnt = 0 then some s
  else
    (clkCoreRateProtect fuel s (some c)).map fun s =>
      s.setCore c { s.core c with protectCount := cnt }

/-- `clk_core_req_round_rate_nolock` -/
def clkCoreReqRoundRateNolock (s : ClkTree κ υ R) (c : κ) (reqRate : ℕ) : Option (ClkTree κ υ R × ℕ) :=
  (clkCoreRateNukeProtect fuel s c).bind fun (s, cnt) =>
    let boundaries := clkCoreGetBoundaries P s c
    (clkCoreRoundRateNolock P s fuel (some c) ⟨reqRate, boundaries.1, boundaries.2, 0, none⟩).bind
      fun (req, ret) =>
        (clkCoreRateRestoreProtect fuel s.tick c cnt).map (·, if ret ≠ 0 then 0 else req.rate)

/-! ### The plan -/

/-- The plan of one clock, as `clk_calc_subtree` writes it. -/
def planClock (s : ClkTree κ υ R) (c : κ) (newRate : ℕ) (newParent : Option κ) (pIndex : ℕ) :
    ClkTree κ υ R :=
  let s := s.setCore c { s.core c with
    newRate := newRate, newParent := newParent, newParentIndex := pIndex, newChild := none }
  match newParent with
  | some p =>
      if some p ≠ (s.core c).parent then s.setCore p { s.core p with newChild := some c } else s
  | none => s

/-- `clk_calc_subtree` -/
def clkCalcSubtree (a : Answers κ R) :
    ℕ → ClkTree κ υ R → κ → ℕ → Option κ → ℕ → Option (ClkTree κ υ R)
  | 0, _, _, _, _, _ => none
  | fuel + 1, s, c, newRate, newParent, pIndex =>
      let s := planClock s c newRate newParent pIndex
      (s.list (.children c)).foldlM (fun s child =>
        clkCalcSubtree a fuel s child (clkRecalc P.toPlatform a s child newRate) none 0) s

/-- The index that `clk_calc_new_rates` finds for the parent. -/
def planIndex (c : κ) (parent : Option κ) : Option ℕ :=
  match parent with
  | some p => if 1 < (P.parents c).length then (P.parents c).idxOf? p else some 0
  | none => some 0

/-- The end of `clk_calc_new_rates`. -/
def planSubtree (s : ClkTree κ υ R) (c : κ) (newRate : ℕ) (newParent : Option κ) (pIndex : ℕ)
    (top : Option κ) : Option (ClkTree κ υ R × Option κ) :=
  (clkCalcSubtree P (P.answers s.time) fuel s.tick c newRate newParent pIndex).map (·, top)

/-- `clk_calc_new_rates`, which returns the topmost clock that has to be changed. -/
def clkCalcNewRates : ℕ → ClkTree κ υ R → κ → ℕ → Option (ClkTree κ υ R × Option κ)
  | 0, _, _, _ => none
  | n + 1, s, c, rate =>
      let oldParent := (s.core c).parent
      let boundaries := clkCoreGetBoundaries P s c
      if clkCoreCanRound P c then
        let answer := clkCoreDetermineRoundNolock P s c
          (clkCoreInitRateReq s c ⟨rate, boundaries.1, boundaries.2, 0, none⟩)
        let req := answer.1
        let s := s.tick
        if answer.2 < 0 then some (s, none)
        else if req.rate < boundaries.1 ∨ boundaries.2 < req.rate then some (s, none)
        else if req.bestParent ≠ oldParent ∧ (P.flags c).setParentGate ∧ 0 < (s.core c).prepareCount then
          some (s, none)
        else
          (planIndex P c req.bestParent).elim (some (s, none)) fun pIndex =>
            match req.bestParent with
            | none => planSubtree P fuel s c req.rate none pIndex (some c)
            | some p =>
                if (P.flags c).setRateParent ∧ req.bestParentRate ≠ (s.core p).rate then
                  (clkCalcNewRates n s p req.bestParentRate).bind fun (s, top) =>
                    planSubtree P fuel s c req.rate (some p) pIndex top
                else planSubtree P fuel s c req.rate (some p) pIndex (some c)
      else
        match oldParent with
        | none => some (s.setCore c { s.core c with newRate := (s.core c).rate }, none)
        | some p =>
            if (P.flags c).setRateParent then
              (clkCalcNewRates n s p rate).bind fun (s, top) =>
                planSubtree P fuel s c (s.core p).newRate (some p) 0 top
            else some (s.setCore c { s.core c with newRate := (s.core c).rate }, none)

/-! ### Notifying -/

/-- A child is skipped when it goes to another parent. -/
def leaves (s : ClkTree κ υ R) (c child : κ) : Bool :=
  (s.core child).newParent.isSome && (s.core child).newParent != some c

/-- The loop of `clk_propagate_rate_change` over the children: the notifications
and the last clock that fails. -/
def propagateEach (f : κ → Option (List (Notice κ) × Option κ)) :
    List κ → List (Notice κ) × Option κ → Option (List (Notice κ) × Option κ)
  | [], res => some res
  | child :: rest, res =>
      (f child).bind fun ret => propagateEach f rest (res.1 ++ ret.1, ret.2.or res.2)

/-- `clk_propagate_rate_change` -/
def clkPropagateRateChange (a : Answers κ R) (s : ClkTree κ υ R) (event : Event) :
    ℕ → κ → Option (List (Notice κ) × Option κ)
  | 0, _ => none
  | fuel + 1, c =>
      if (s.core c).rate = (s.core c).newRate then some ([], none)
      else
        let own := if P.notifier c then [⟨c, event, (s.core c).rate, (s.core c).newRate⟩] else []
        let failed := if P.notifier c ∧ notifyStop (a.notify c) then some c else none
        let children := (s.list (.children c)).filter fun child => !leaves s c child
        propagateEach (clkPropagateRateChange a s event fuel)
          (children ++ (s.core c).newChild.toList) (own, failed)

/-! ### Changing -/

/-- The clock that comes after `c` on the list that `c` is on. -/
def nextClock (s : ClkTree κ υ R) (c : κ) : Option κ :=
  let list :=
    match (s.core c).parent with
    | some p => s.list (.children p)
    | none => if c ∈ s.list .roots then s.list .roots else s.list .orphans
  list[list.idxOf c + 1]?

/-- The registers of a clock get another state. -/
def ClkTree.setReg (s : ClkTree κ υ R) (c : κ) (reg : R) : ClkTree κ υ R :=
  s.tick.setCore c { s.core c with reg := reg }

/-- The part of `clk_change_rate` that changes the parent of the clock. -/
def changeParent (s : ClkTree κ υ R) (c : κ) (bestParentRate : ℕ) : Option (ClkTree κ υ R × Bool) :=
  let newParent := (s.core c).newParent
  let pIndex := (s.core c).newParentIndex
  if newParent.isSome ∧ newParent ≠ (s.core c).parent then
    (clkSetParentBefore P.toPlatform fuel s c newParent).bind fun (s, oldParent) =>
      let reg := (s.core c).reg
      let s :=
        if (P.ops c).setRateAndParent then
          s.setReg c ((P.rateAnswers s.time).setRateAndParent c (s.core c).newRate bestParentRate pIndex reg)
        else if (P.ops c).setParent then s.setReg c ((P.answers s.time).setParent c pIndex reg).1
        else s
      (clkSetParentAfter P.toPlatform fuel s c newParent oldParent).map (·, (P.ops c).setRateAndParent)
  else some (s, false)

/-- The part of `clk_change_rate` that changes the rate of the clock. -/
def changeRate (s : ClkTree κ υ R) (c : κ) (bestParentRate : ℕ) (skipSetRate : Bool) : ClkTree κ υ R :=
  let s :=
    if !skipSetRate && (P.ops c).setRate then
      s.setReg c ((P.rateAnswers s.time).setRate c (s.core c).newRate bestParentRate (s.core c).reg)
    else s
  s.tick.setCore c { s.core c with rate := clkRecalc P.toPlatform (P.answers s.time) s c bestParentRate }

/-- The clock is forced on before it is changed. -/
def changeUngate (s : ClkTree κ υ R) (c : κ) : Option (ClkTree κ υ R) :=
  if (P.flags c).setRateUngate then
    (clkCorePrepareLock P.toPlatform fuel s (some c)).bind fun (s, _) =>
      (clkCoreEnableLock P.toPlatform fuel s (some c)).map Prod.fst
  else some s

/-- The clock is no longer forced on. -/
def changeGate (s : ClkTree κ υ R) (c : κ) : Option (ClkTree κ υ R) :=
  if (P.flags c).setRateUngate then
    (clkCoreDisable P.toPlatform fuel s (some c)).bind fun s => clkCoreUnprepare P.toPlatform fuel s (some c)
  else some s

/-- `clk_change_rate` up to the notification: the clock itself is changed. -/
def changeClock (s : ClkTree κ υ R) (c : κ) : Option (ClkTree κ υ R) :=
  let parent := (s.core c).newParent.or (s.core c).parent
  let bestParentRate := parent.elim 0 fun p => (s.core p).rate
  (changeUngate P fuel s c).bind fun s =>
    (changeParent P fuel s c bestParentRate).bind fun (s, skipSetRate) =>
      (if (P.flags c).opsParentEnable then (clkCorePrepareEnable P.toPlatform fuel s parent).map Prod.fst
        else some s).bind fun s =>
        (changeGate P fuel (changeRate P s c bestParentRate skipSetRate) c).bind fun s =>
          if (P.flags c).opsParentEnable then clkCoreDisableUnprepare P.toPlatform fuel s parent else some s

/-- The loop of `clk_change_rate` over the children of `c`, with at most so many
rounds. -/
def changeEach (f : RateTree κ υ R → κ → Option (RateTree κ υ R)) (c : κ) :
    ℕ → RateTree κ υ R → Option κ → Option (RateTree κ υ R)
  | _, s, none => some s
  | 0, _, some _ => none
  | n + 1, s, some child =>
      let next := nextClock s.toClkTree child
      (if leaves s.toClkTree c child then some s else f s child).bind fun s => changeEach f c n s next

/-- The notification that ends the change of a clock. -/
def changeNotice (s : ClkTree κ υ R) (c : κ) (oldRate : ℕ) : List (Notice κ) :=
  if P.notifier c ∧ oldRate ≠ (s.core c).rate then
    [⟨c, .postRateChange, oldRate, (s.core c).rate⟩]
  else []

/-- A clock whose operations change the plan has it calculated again. -/
def changePlan (s : ClkTree κ υ R) (c : κ) : Option (ClkTree κ υ R) :=
  if P.recalcNewRates c then (clkCalcNewRates P fuel fuel s c (s.core c).newRate).map Prod.fst else some s

/-- `clk_change_rate` -/
def clkChangeRate : ℕ → RateTree κ υ R → κ → Option (RateTree κ υ R)
  | 0, _, _ => none
  | n + 1, s, c =>
      let oldRate := (s.core c).rate
      if (P.answers s.time).runtimeGet c ≠ 0 then some s.tick
      else
        (changeClock P fuel s.toClkTree.tick c).bind fun t =>
          (changePlan P fuel t c).bind fun t' =>
            let s := (s.setTree t').notify (changeNotice P t c oldRate)
            (changeEach (clkChangeRate n) c fuel s (s.list (.children c)).head?).bind fun s =>
              match (s.core c).newChild with
              | some child => clkChangeRate n s child
              | none => some s

/-! ### Setting a rate -/

/-- `clk_core_set_rate_nolock`, once the new rates are planned. -/
def clkCoreDoSetRate (s : RateTree κ υ R) (c top : κ) (reqRate : ℕ) : Option (RateTree κ υ R × ℤ) :=
  let ret := (P.answers s.time).runtimeGet c
  let s := s.tick
  if ret ≠ 0 then some (s, ret)
  else
    (clkPropagateRateChange P (P.answers s.time) s.toClkTree .preRateChange fuel top).bind fun (pre, failed) =>
      let s := s.tick.notify pre
      if failed.isSome then
        (clkPropagateRateChange P (P.answers s.time) s.toClkTree .abortRateChange fuel top).map
          fun (abort, _) => (s.tick.notify abort, -EBUSY)
      else
        (clkChangeRate P fuel fuel s top).map fun s =>
          (s.setCore c { s.core c with reqRate := reqRate }, 0)

/-- `clk_core_set_rate_nolock` -/
def clkCoreSetRateNolock (s : RateTree κ υ R) (c : κ) (reqRate : ℕ) : Option (RateTree κ υ R × ℤ) :=
  (clkCoreReqRoundRateNolock P fuel s.toClkTree c reqRate).bind fun (t, rate) =>
    let s := s.setTree t
    if rate = clkCoreGetRateNolock P.toPlatform t (some c) then some (s, 0)
    else if 0 < (s.core c).protectCount then some (s, -EBUSY)
    else
      (clkCalcNewRates P fuel fuel t c reqRate).bind fun (t, top) =>
        match top with
        | none => some (s.setTree t, -EINVAL)
        | some top => clkCoreDoSetRate P fuel (s.setTree t) c top reqRate

/-- The consumer's own protection is taken away around `f`. -/
def rateWithoutProtection (s : RateTree κ υ R) (u : υ)
    (f : RateTree κ υ R → Option (RateTree κ υ R × ℤ)) : Option (RateTree κ υ R × ℤ) :=
  (if 0 < (s.user u).exclusiveCount then clkCoreRateUnprotect fuel s.toClkTree (some (P.coreOf u))
    else some s.toClkTree).bind fun t =>
    (f (s.setTree t)).bind fun (s, ret) =>
      (if 0 < (s.user u).exclusiveCount then clkCoreRateProtect fuel s.toClkTree (some (P.coreOf u))
        else some s.toClkTree).map fun t => (s.setTree t, ret)

/-- `clk_set_rate` -/
def clkSetRate (s : RateTree κ υ R) (u : υ) (rate : ℕ) : Option (RateTree κ υ R × ℤ) :=
  rateWithoutProtection P fuel s u fun s => clkCoreSetRateNolock P fuel s (P.coreOf u) rate

section Users

variable [DecidableEq υ]

def ClkTree.setUser (s : ClkTree κ υ R) (u : υ) (v : ClkUser) : ClkTree κ υ R :=
  { s with user := Function.update s.user u v }

def RateTree.setUser (s : RateTree κ υ R) (u : υ) (v : ClkUser) : RateTree κ υ R :=
  s.setTree (s.toClkTree.setUser u v)

/-- `clk_rate_exclusive_get` -/
def clkRateExclusiveGet (s : ClkTree κ υ R) (u : υ) : Option (ClkTree κ υ R) :=
  (clkCoreRateProtect fuel s (some (P.coreOf u))).map fun s =>
    s.setUser u { s.user u with exclusiveCount := (s.user u).exclusiveCount + 1 }

/-- `clk_rate_exclusive_put` -/
def clkRateExclusivePut (s : ClkTree κ υ R) (u : υ) : Option (ClkTree κ υ R) :=
  if (s.user u).exclusiveCount = 0 then some s
  else
    (clkCoreRateUnprotect fuel s (some (P.coreOf u))).map fun s =>
      s.setUser u { s.user u with exclusiveCount := (s.user u).exclusiveCount - 1 }

/-- `clk_set_rate_exclusive` -/
def clkSetRateExclusive (s : RateTree κ υ R) (u : υ) (rate : ℕ) : Option (RateTree κ υ R × ℤ) :=
  (clkCoreSetRateNolock P fuel s (P.coreOf u) rate).bind fun (s, ret) =>
    if ret ≠ 0 then some (s, ret)
    else (clkRateExclusiveGet P fuel s.toClkTree u).map fun t => (s.setTree t, ret)

/-- The part of `clk_set_rate_range` that is done without the consumer's own
protection. -/
def clkTryRange (s : RateTree κ υ R) (u : υ) (minRate maxRate : ℕ) : Option (RateTree κ υ R × ℤ) :=
  let old := s.user u
  let s := s.setUser u { old with minRate := minRate, maxRate := maxRate }
  if clkCoreCheckBoundaries P s.toClkTree (P.coreOf u) minRate maxRate = false then some (s, -EINVAL)
  else
    let rate := clamp (s.core (P.coreOf u)).reqRate minRate maxRate
    (clkCoreSetRateNolock P fuel s (P.coreOf u) rate).map fun (s, ret) =>
      if ret ≠ 0 then
        (s.setUser u { s.user u with minRate := old.minRate, maxRate := old.maxRate }, ret)
      else (s, ret)

/-- `clk_set_rate_range` -/
def clkSetRateRange (s : RateTree κ υ R) (u : υ) (minRate maxRate : ℕ) : Option (RateTree κ υ R × ℤ) :=
  if maxRate < minRate then some (s, -EINVAL)
  else rateWithoutProtection P fuel s u fun s => clkTryRange P fuel s u minRate maxRate

/-- `clk_set_min_rate` -/
def clkSetMinRate (s : RateTree κ υ R) (u : υ) (rate : ℕ) : Option (RateTree κ υ R × ℤ) :=
  clkSetRateRange P fuel s u rate (s.user u).maxRate

/-- `clk_set_max_rate` -/
def clkSetMaxRate (s : RateTree κ υ R) (u : υ) (rate : ℕ) : Option (RateTree κ υ R × ℤ) :=
  clkSetRateRange P fuel s u (s.user u).minRate rate

end Users

end Model

end GfpDrivers.Clk
