import GfpDrivers.Basic

/-!
The common clock framework (`clk.c`): the clocks, their reference counts and
the change of a parent.

The hardware and the drivers answer as they like. While the framework walks up
the tree it calls an operation of a clock at most once, so that one function
from clocks to results, `Answers`, stands for all answers during a walk;
`time` counts the walks. An operation that a clock does not have answers 0.

The recursions along the tree have no bound of their own. Each function takes
the number of steps it may make; `none` stands for a recursion that goes
deeper. Orphan marks, accuracies, phases and duty cycles are kept by nothing
that is said about the tree and are left out.
-/

namespace GfpDrivers.Clk

/-- The flags of a clock. -/
structure Flags where
  setRateGate : Bool
  setParentGate : Bool
  setRateParent : Bool
  isCritical : Bool
  setRateUngate : Bool
  opsParentEnable : Bool
deriving DecidableEq

/-- `struct clk_core`, with the state `reg` of the clock's own registers. -/
structure ClkCore (κ R : Type) where
  parent : Option κ
  rate : ℕ
  reqRate : ℕ
  newRate : ℕ
  newParent : Option κ
  newParentIndex : ℕ
  newChild : Option κ
  enableCount : ℕ
  prepareCount : ℕ
  protectCount : ℕ
  reg : R

/-- `struct clk`, the handle of a consumer. -/
structure ClkUser where
  minRate : ℕ
  maxRate : ℕ
  exclusiveCount : ℕ

/-- The lists that clocks are on: the children of a clock, `clk_root_list` and
`clk_orphan_list`. -/
inductive Home (κ : Type) where
  | children (c : κ)
  | roots
  | orphans
deriving DecidableEq

/-- How the operations of the clocks answer during one walk. -/
structure Answers (κ R : Type) where
  runtimeGet : κ → ℤ
  prepare : κ → ℤ
  enable : κ → ℤ
  setParent : κ → ℕ → R → R × ℤ
  notify : κ → ℤ
  init : κ → ℤ
  getPhase : κ → ℤ
  getParent : κ → ℕ

/-- The operations that a clock has, as far as the framework asks for them. -/
structure ClkOps where
  recalcRate : Bool
  roundRate : Bool
  determineRate : Bool
  setParent : Bool
  getParent : Bool
  setRate : Bool
  setRateAndParent : Bool

/-- What the providers fix for each clock and each consumer, and what they
answer. The list `parents` gives the clocks that a clock can have as parent. -/
structure Platform (κ υ R : Type) where
  name : κ → String
  flags : κ → Flags
  ops : κ → ClkOps
  parents : κ → List κ
  recalcRate : κ → R → ℕ → ℕ
  coreOf : υ → κ
  answers : ℕ → Answers κ R

/-- All clocks and consumers; `hwCore` says for which clocks `hw->core` is set. -/
structure ClkTree (κ υ R : Type) where
  core : κ → ClkCore κ R
  hwCore : κ → Bool
  list : Home κ → List κ
  user : υ → ClkUser
  time : ℕ

variable {κ υ R : Type} [DecidableEq κ]

def ClkTree.setCore (s : ClkTree κ υ R) (c : κ) (v : ClkCore κ R) : ClkTree κ υ R :=
  { s with core := Function.update s.core c v }

/-- The next walk begins. -/
def ClkTree.tick (s : ClkTree κ υ R) : ClkTree κ υ R := { s with time := s.time + 1 }

/-! ### Rate protection -/

/-- `clk_core_rate_unprotect` -/
def clkCoreRateUnprotect : ℕ → ClkTree κ υ R → Option κ → Option (ClkTree κ υ R)
  | _, s, none => some s
  | 0, _, some _ => none
  | fuel + 1, s, some c =>
      if (s.core c).protectCount = 0 then some s
      else
        let s := s.setCore c { s.core c with protectCount := (s.core c).protectCount - 1 }
        if 0 < (s.core c).protectCount then some s
        else clkCoreRateUnprotect fuel s (s.core c).parent

/-- `clk_core_rate_protect` -/
def clkCoreRateProtect : ℕ → ClkTree κ υ R → Option κ → Option (ClkTree κ υ R)
  | _, s, none => some s
  | 0, _, some _ => none
  | fuel + 1, s, some c =>
      (if (s.core c).protectCount = 0 then clkCoreRateProtect fuel s (s.core c).parent
        else some s).map fun s =>
        s.setCore c { s.core c with protectCount := (s.core c).protectCount + 1 }

/-! ### Prepare and enable -/

section Counts

variable (P : Platform κ υ R) (a : Answers κ R)

/-- `clk_core_unprepare` -/
def clkCoreUnprepare : ℕ → ClkTree κ υ R → Option κ → Option (ClkTree κ υ R)
  | _, s, none => some s
  | 0, _, some _ => none
  | fuel + 1, s, some c =>
      if (s.core c).prepareCount = 0 then some s
      else if (s.core c).prepareCount = 1 ∧ (P.flags c).isCritical then some s
      else
        (if (P.flags c).setRateGate then clkCoreRateUnprotect (fuel + 1) s (some c)
          else some s).bind fun s =>
          let s := s.setCore c { s.core c with prepareCount := (s.core c).prepareCount - 1 }
          if 0 < (s.core c).prepareCount then some s
          else clkCoreUnprepare fuel s (s.core c).parent

/-- The end of `clk_core_prepare`: the clock itself is counted. -/
def countPrepare (fuel : ℕ) (s : ClkTree κ υ R) (c : κ) : Option (ClkTree κ υ R × ℤ) :=
  let s := s.setCore c { s.core c with prepareCount := (s.core c).prepareCount + 1 }
  (if (P.flags c).setRateGate then clkCoreRateProtect fuel s (some c) else some s).map (·, 0)

/-- `clk_core_prepare` -/
def clkCorePrepare : ℕ → ClkTree κ υ R → Option κ → Option (ClkTree κ υ R × ℤ)
  | _, s, none => some (s, 0)
  | 0, _, some _ => none
  | fuel + 1, s, some c =>
      if (s.core c).prepareCount = 0 then
        if a.runtimeGet c ≠ 0 then some (s, a.runtimeGet c)
        else
          (clkCorePrepare fuel s (s.core c).parent).bind fun (s, ret) =>
            if ret ≠ 0 then some (s, ret)
            else if a.prepare c ≠ 0 then
              (clkCoreUnprepare P fuel s (s.core c).parent).map (·, a.prepare c)
            else countPrepare P (fuel + 1) s c
      else countPrepare P (fuel + 1) s c

/-- `clk_core_disable` -/
def clkCoreDisable : ℕ → ClkTree κ υ R → Option κ → Option (ClkTree κ υ R)
  | _, s, none => some s
  | 0, _, some _ => none
  | fuel + 1, s, some c =>
      if (s.core c).enableCount = 0 then some s
      else if (s.core c).enableCount = 1 ∧ (P.flags c).isCritical then some s
      else
        let s := s.setCore c { s.core c with enableCount := (s.core c).enableCount - 1 }
        if 0 < (s.core c).enableCount then some s
        else clkCoreDisable fuel s (s.core c).parent

/-- The end of `clk_core_enable`: the clock itself is counted. -/
def countEnable (s : ClkTree κ υ R) (c : κ) : ClkTree κ υ R × ℤ :=
  (s.setCore c { s.core c with enableCount := (s.core c).enableCount + 1 }, 0)

/-- `clk_core_enable` -/
def clkCoreEnable : ℕ → ClkTree κ υ R → Option κ → Option (ClkTree κ υ R × ℤ)
  | _, s, none => some (s, 0)
  | 0, _, some _ => none
  | fuel + 1, s, some c =>
      if (s.core c).prepareCount = 0 then some (s, -ESHUTDOWN)
      else if (s.core c).enableCount = 0 then
        (clkCoreEnable fuel s (s.core c).parent).bind fun (s, ret) =>
          if ret ≠ 0 then some (s, ret)
          else if a.enable c ≠ 0 then
            (clkCoreDisable P fuel s (s.core c).parent).map (·, a.enable c)
          else some (countEnable s c)
      else some (countEnable s c)

end Counts

section Api

variable (P : Platform κ υ R) (fuel : ℕ)

/-- `clk_core_prepare_lock` -/
def clkCorePrepareLock (s : ClkTree κ υ R) (c : Option κ) : Option (ClkTree κ υ R × ℤ) :=
  clkCorePrepare P (P.answers s.time) fuel s.tick c

/-- `clk_core_enable_lock` -/
def clkCoreEnableLock (s : ClkTree κ υ R) (c : Option κ) : Option (ClkTree κ υ R × ℤ) :=
  clkCoreEnable P (P.answers s.time) fuel s.tick c

/-- `clk_core_prepare_enable` -/
def clkCorePrepareEnable (s : ClkTree κ υ R) (c : Option κ) : Option (ClkTree κ υ R × ℤ) :=
  (clkCorePrepareLock P fuel s c).bind fun (s, ret) =>
    if ret ≠ 0 then some (s, ret)
    else
      (clkCoreEnableLock P fuel s c).bind fun (s, ret) =>
        if ret ≠ 0 then (clkCoreUnprepare P fuel s c).map (·, ret) else some (s, ret)

/-- `clk_core_disable_unprepare` -/
def clkCoreDisableUnprepare (s : ClkTree κ υ R) (c : Option κ) : Option (ClkTree κ υ R) :=
  (clkCoreDisable P fuel s c).bind fun s => clkCoreUnprepare P fuel s c

/-! ### Changing the parent -/

/-- `hlist_del`: a clock is on one list only. -/
def hlistDel (list : Home κ → List κ) (c : κ) : Home κ → List κ := fun h => (list h).erase c

/-- `hlist_add_head` -/
def hlistAddHead (list : Home κ → List κ) (c : κ) (h : Home κ) : Home κ → List κ :=
  Function.update list h (c :: list h)

/-- `clk_reparent` -/
def clkReparent (s : ClkTree κ υ R) (c : κ) (newParent : Option κ) : ClkTree κ υ R :=
  let s := { s with list := hlistDel s.list c }
  let s :=
    match newParent with
    | some p =>
        let s :=
          if (s.core p).newChild = some c then s.setCore p { s.core p with newChild := none } else s
        { s with list := hlistAddHead s.list c (.children p) }
    | none => { s with list := hlistAddHead s.list c .orphans }
  s.setCore c { s.core c with parent := newParent }

/-- `__clk_set_parent_before`. The results of the calls are not looked at. -/
def clkSetParentBefore (s : ClkTree κ υ R) (c : κ) (parent : Option κ) :
    Option (ClkTree κ υ R × Option κ) := do
  let oldParent := (s.core c).parent
  let s ←
    if (P.flags c).opsParentEnable then do
      let (s, _) ← clkCorePrepareEnable P fuel s oldParent
      let (s, _) ← clkCorePrepareEnable P fuel s parent
      pure s
    else pure s
  let s ←
    if 0 < (s.core c).prepareCount then do
      let (s, _) ← clkCorePrepareEnable P fuel s parent
      let (s, _) ← clkCoreEnableLock P fuel s (some c)
      pure s
    else pure s
  pure (clkReparent s c parent, oldParent)

/-- `__clk_set_parent_after` -/
def clkSetParentAfter (s : ClkTree κ υ R) (c : κ) (parent oldParent : Option κ) :
    Option (ClkTree κ υ R) := do
  let s ←
    if 0 < (s.core c).prepareCount then do
      let s ← clkCoreDisable P fuel s (some c)
      clkCoreDisableUnprepare P fuel s oldParent
    else pure s
  if (P.flags c).opsParentEnable then do
    let s ← clkCoreDisableUnprepare P fuel s parent
    clkCoreDisableUnprepare P fuel s oldParent
  else pure s

/-- `__clk_set_parent` -/
def clkSetParentRaw (s : ClkTree κ υ R) (c : κ) (parent : Option κ) (pIndex : ℕ) :
    Option (ClkTree κ υ R × ℤ) := do
  let (s, oldParent) ← clkSetParentBefore P fuel s c parent
  let answer :=
    if parent.isSome then (P.answers s.time).setParent c pIndex (s.core c).reg
    else ((s.core c).reg, 0)
  let s := s.tick.setCore c { s.core c with reg := answer.1 }
  if answer.2 ≠ 0 then do
    let s := clkReparent s c oldParent
    let s ← clkSetParentAfter P fuel s c oldParent parent
    pure (s, answer.2)
  else do
    let s ← clkSetParentAfter P fuel s c parent oldParent
    pure (s, 0)

/-! ### Rates below a clock -/

/-- `clk_recalc` -/
def clkRecalc (a : Answers κ R) (s : ClkTree κ υ R) (c : κ) (parentRate : ℕ) : ℕ :=
  if a.runtimeGet c = 0 then P.recalcRate c (s.core c).reg parentRate else parentRate

/-- The rate that a clock sees from its parent. -/
def ClkTree.parentRate (s : ClkTree κ υ R) (c : κ) : ℕ :=
  match (s.core c).parent with
  | none => 0
  | some p => (s.core p).rate

/-- `ret & NOTIFY_STOP_MASK` -/
def notifyStop (ret : ℤ) : Bool := ret.toNat.testBit 15

/-- The loop of `__clk_speculate_rates` over the children. -/
def speculateEach (f : κ → Option ℤ) : List κ → ℤ → Option ℤ
  | [], ret => some ret
  | child :: rest, _ =>
      (f child).bind fun ret => if notifyStop ret then some ret else speculateEach f rest ret

/-- `__clk_speculate_rates` -/
def clkSpeculateRates (a : Answers κ R) (s : ClkTree κ υ R) : ℕ → κ → ℕ → Option ℤ
  | 0, _, _ => none
  | fuel + 1, c, parentRate =>
      let newRate := clkRecalc P a s c parentRate
      if notifyStop (a.notify c) then some (a.notify c)
      else
        speculateEach (fun child => clkSpeculateRates a s fuel child newRate) (s.list (.children c))
          (a.notify c)

/-- `__clk_recalc_rates` -/
def clkRecalcRates (a : Answers κ R) : ℕ → ClkTree κ υ R → κ → Option (ClkTree κ υ R)
  | 0, _, _ => none
  | fuel + 1, s, c =>
      let s := s.setCore c { s.core c with rate := clkRecalc P a s c (s.parentRate c) }
      (s.list (.children c)).foldlM (clkRecalcRates a fuel) s

/-- `clk_core_set_parent_nolock`, once the index of the new parent is known. -/
def clkCoreDoSetParent (s : ClkTree κ υ R) (c : κ) (parent : Option κ) (pIndex : ℕ) :
    Option (ClkTree κ υ R × ℤ) := do
  let a := P.answers s.time
  let s := s.tick
  if a.runtimeGet c ≠ 0 then pure (s, a.runtimeGet c)
  else
    let pRate :=
      match parent with
      | none => 0
      | some p => (s.core p).rate
    let ret ← clkSpeculateRates P a s fuel c pRate
    if notifyStop ret then pure (s, ret)
    else
      let (s, ret) ← clkSetParentRaw P fuel s c parent pIndex
      let s ← clkRecalcRates P (P.answers s.time) fuel s.tick c
      pure (s, ret)

/-- `clk_core_set_parent_nolock` -/
def clkCoreSetParentNolock (s : ClkTree κ υ R) (c : κ) (parent : Option κ) :
    Option (ClkTree κ υ R × ℤ) :=
  if (s.core c).parent = parent then some (s, 0)
  else if 1 < (P.parents c).length ∧ (P.ops c).setParent = false then some (s, -EPERM)
  else if (P.flags c).setParentGate ∧ 0 < (s.core c).prepareCount then some (s, -EBUSY)
  else if 0 < (s.core c).protectCount then some (s, -EBUSY)
  else
    match parent with
    | none => clkCoreDoSetParent P fuel s c none 0
    | some p =>
        match (P.parents c).idxOf? p with
        | none => some (s, -EINVAL)
        | some pIndex => clkCoreDoSetParent P fuel s c (some p) pIndex

/-- The consumer's own protection is taken away around `f`. -/
def withoutProtection (s : ClkTree κ υ R) (u : υ)
    (f : ClkTree κ υ R → Option (ClkTree κ υ R × ℤ)) : Option (ClkTree κ υ R × ℤ) := do
  let s ← if 0 < (s.user u).exclusiveCount then clkCoreRateUnprotect fuel s (some (P.coreOf u)) else pure s
  let (s, ret) ← f s
  let s ← if 0 < (s.user u).exclusiveCount then clkCoreRateProtect fuel s (some (P.coreOf u)) else pure s
  pure (s, ret)

/-- `clk_set_parent` -/
def clkSetParent (s : ClkTree κ υ R) (u : υ) (parent : Option υ) : Option (ClkTree κ υ R × ℤ) :=
  withoutProtection P fuel s u fun s =>
    clkCoreSetParentNolock P fuel s (P.coreOf u) (parent.map P.coreOf)

/-- `clk_prepare` -/
def clkPrepare (s : ClkTree κ υ R) (u : υ) : Option (ClkTree κ υ R × ℤ) :=
  clkCorePrepareLock P fuel s (some (P.coreOf u))

/-- `clk_unprepare` -/
def clkUnprepare (s : ClkTree κ υ R) (u : υ) : Option (ClkTree κ υ R) :=
  clkCoreUnprepare P fuel s (some (P.coreOf u))

/-- `clk_enable` -/
def clkEnable (s : ClkTree κ υ R) (u : υ) : Option (ClkTree κ υ R × ℤ) :=
  clkCoreEnableLock P fuel s (some (P.coreOf u))

/-- `clk_disable` -/
def clkDisable (s : ClkTree κ υ R) (u : υ) : Option (ClkTree κ υ R) :=
  clkCoreDisable P fuel s (some (P.coreOf u))

end Api

end GfpDrivers.Clk
