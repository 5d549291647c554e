import GfpDrivers.Basic

/-!
Components and aggregate devices (`component.c`). Both are kept by their
addresses; `component_list` and `aggregate_devices` are the lists of those
that are registered. The results of the drivers' `bind` functions and of
`devres_open_group` are given from outside for each call.
-/

namespace GfpDrivers.Aggregate

/-- `struct component_match_array` -/
structure ComponentMatchArray where
  data : ℕ
  compare : Option (ℕ → ℕ → Bool)
  compareTyped : Option (ℕ → ℤ → ℕ → Bool)
  component : Option ℕ
  duplicate : Bool

/-- `struct aggregate_device` -/
structure AggregateDevice where
  bound : Bool
  ops : ℕ
  parent : ℕ
  compare : List ComponentMatchArray

/-- `struct component` -/
structure Component where
  adev : Option ℕ
  ops : ℕ
  subcomponent : ℤ
  dev : ℕ

structure State where
  component : ℕ → Component
  aggregate : ℕ → AggregateDevice
  componentList : List ℕ
  aggregateDevices : List ℕ

/-- What is answered from outside during one call. -/
structure Outcome where
  /-- `adev->ops->bind` -/
  bind : ℕ → ℤ
  /-- `devres_open_group` succeeds -/
  openGroup : ℕ → Bool

namespace State

def setAdev (s : State) (c : ℕ) (adev : Option ℕ) : State :=
  { s with component := Function.update s.component c { s.component c with adev := adev } }

def setCompare (s : State) (adev : ℕ) (compare : List ComponentMatchArray) : State :=
  { s with
    aggregate := Function.update s.aggregate adev { s.aggregate adev with compare := compare } }

def setBound (s : State) (adev : ℕ) (bound : Bool) : State :=
  { s with aggregate := Function.update s.aggregate adev { s.aggregate adev with bound := bound } }

end State

/-- `component_match_add_release` and `component_match_add_typed`: the entry
that is appended to the match list. `duplicate` is not initialised. -/
def componentMatchAdd (compare : Option (ℕ → ℕ → Bool)) (compareTyped : Option (ℕ → ℤ → ℕ → Bool))
    (data : ℕ) (duplicate : Bool) : ComponentMatchArray where
  data := data
  compare := compare
  compareTyped := compareTyped
  component := none
  duplicate := duplicate

/-- `__aggregate_find` with an `ops` argument. -/
def aggregateFind (s : State) (parent ops : ℕ) : Option ℕ :=
  s.aggregateDevices.find? fun m => (s.aggregate m).parent = parent ∧ (s.aggregate m).ops = ops

/-- Whether an entry of the match list accepts a component. -/
def ComponentMatchArray.accepts (mc : ComponentMatchArray) (c : Component) : Bool :=
  (match mc.compare with
    | some compare => compare c.dev mc.data
    | none => false) ||
  (match mc.compareTyped with
    | some compareTyped => compareTyped c.dev c.subcomponent mc.data
    | none => false)

/-- `find_component` -/
def findComponent (s : State) (adev : ℕ) (mc : ComponentMatchArray) : Option ℕ :=
  s.componentList.find? fun c =>
    ((s.component c).adev = none ∨ (s.component c).adev = some adev) ∧ mc.accepts (s.component c)

/-- The component `c` is attached to the entry `i` of the match list. -/
def attachComponent (s : State) (adev i : ℕ) (mc : ComponentMatchArray) (c : ℕ) : State :=
  let s' := s.setCompare adev ((s.aggregate adev).compare.set i
    { mc with duplicate := (s.component c).adev.isSome, component := some c })
  s'.setAdev c (some adev)

/-- The loop of `find_components`, with `left` entries to come from `i` on. -/
def findComponentsLoop (adev : ℕ) : ℕ → ℕ → State → State × ℤ
  | 0, _, s => (s, 0)
  | left + 1, i, s =>
      match (s.aggregate adev).compare[i]? with
      | none => (s, 0)
      | some mc =>
          if mc.component.isSome then findComponentsLoop adev left (i + 1) s
          else
            match findComponent s adev mc with
            | none => (s, - ENXIO)
            | some c => findComponentsLoop adev left (i + 1) (attachComponent s adev i mc c)

/-- `find_components` -/
def findComponents (s : State) (adev : ℕ) : State × ℤ :=
  findComponentsLoop adev (s.aggregate adev).compare.length 0 s

/-- `remove_component` -/
def removeComponent (s : State) (adev c : ℕ) : State :=
  s.setCompare adev ((s.aggregate adev).compare.map fun mc =>
    if mc.component = some c then { mc with component := none } else mc)

/-- `try_to_bring_up_aggregate_device` -/
def tryToBringUpAggregateDevice (out : Outcome) (s : State) (adev : ℕ) (component : Option ℕ) :
    State × ℤ :=
  let (s, ret) := findComponents s adev
  if ret ≠ 0 then (s, 0)
  else if component.any fun c => (s.component c).adev ≠ some adev then (s, 0)
  else if out.openGroup adev = false then (s, -ENOMEM)
  else if out.bind adev < 0 then (s, out.bind adev)
  else (s.setBound adev true, 1)

/-- The loop of `try_to_bring_up_masters`. -/
def tryToBringUpMasters (out : Outcome) (component : ℕ) : State → List ℕ → State × ℤ
  | s, [] => (s, 0)
  | s, adev :: adevs =>
      if (s.aggregate adev).bound then tryToBringUpMasters out component s adevs
      else
        let (s, ret) := tryToBringUpAggregateDevice out s adev (some component)
        if ret ≠ 0 then (s, ret) else tryToBringUpMasters out component s adevs

/-- `take_down_aggregate_device` -/
def takeDownAggregateDevice (s : State) (adev : ℕ) : State :=
  if (s.aggregate adev).bound then s.setBound adev false else s

/-- The loop of `free_aggregate_device`. -/
def releaseComponents : State → List ComponentMatchArray → State
  | s, [] => s
  | s, mc :: mcs =>
      match mc.component with
      | some c => releaseComponents (s.setAdev c none) mcs
      | none => releaseComponents s mcs

/-- `free_aggregate_device` -/
def freeAggregateDevice (s : State) (adev : ℕ) : State :=
  releaseComponents { s with aggregateDevices := s.aggregateDevices.erase adev }
    (s.aggregate adev).compare

/-- `component_master_add_with_match`, where `adev` is the address of the new
device and `none` stands for a failed allocation. -/
def componentMasterAddWithMatch (out : Outcome) (s : State) (adev : Option ℕ) (parent ops : ℕ)
    (compare : List ComponentMatchArray) : State × ℤ :=
  match adev with
  | none => (s, -ENOMEM)
  | some adev =>
      let s :=
        { s with
          aggregate := Function.update s.aggregate adev ⟨false, ops, parent, compare⟩
          aggregateDevices := adev :: s.aggregateDevices }
      let (s, ret) := tryToBringUpAggregateDevice out s adev none
      if ret < 0 then (freeAggregateDevice s adev, ret) else (s, 0)

/-- `component_master_del` -/
def componentMasterDel (s : State) (parent ops : ℕ) : State :=
  match aggregateFind s parent ops with
  | none => s
  | some adev => freeAggregateDevice (takeDownAggregateDevice s adev) adev

/-- `__component_add`, where `c` is the address of the new component and
`none` stands for a failed allocation. -/
def componentAdd (out : Outcome) (s : State) (c : Option ℕ) (dev ops : ℕ) (subcomponent : ℤ) :
    State × ℤ :=
  match c with
  | none => (s, -ENOMEM)
  | some c =>
      let s :=
        { s with
          component := Function.update s.component c ⟨none, ops, subcomponent, dev⟩
          componentList := s.componentList ++ [c] }
      let (s, ret) := tryToBringUpMasters out c s s.aggregateDevices
      if ret < 0 then
        let s :=
          match (s.component c).adev with
          | some adev => removeComponent s adev c
          | none => s
        ({ s with componentList := s.componentList.erase c }, ret)
      else (s, 0)

/-- `component_del` -/
def componentDel (s : State) (dev ops : ℕ) : State :=
  match s.componentList.find? fun c => (s.component c).dev = dev ∧ (s.component c).ops = ops with
  | none => s
  | some c =>
      let s := { s with componentList := s.componentList.erase c }
      match (s.component c).adev with
      | some adev => removeComponent (takeDownAggregateDevice s adev) adev c
      | none => s

/-! ### Runs -/

/-- One call. A new structure gets an address that is not in use. -/
inductive Step : State → State → Prop
  | componentAdd {s : State} (out : Outcome) (c : Option ℕ) (dev ops : ℕ) (subcomponent : ℤ) :
      (∀ c' ∈ c, c' ∉ s.componentList) →
      Step s (componentAdd out s c dev ops subcomponent).1
  | componentDel {s : State} (dev ops : ℕ) : Step s (componentDel s dev ops)
  | componentMasterAdd {s : State} (out : Outcome) (adev : Option ℕ) (parent ops : ℕ)
      (compare : List ComponentMatchArray) :
      (∀ adev' ∈ adev, adev' ∉ s.aggregateDevices) →
      (∀ mc ∈ compare, ∃ f g data duplicate, mc = componentMatchAdd f g data duplicate) →
      Step s (componentMasterAddWithMatch out s adev parent ops compare).1
  | componentMasterDel {s : State} (parent ops : ℕ) : Step s (componentMasterDel s parent ops)

/-- The states that calls lead to, starting with empty lists. -/
inductive Reachable : State → Prop
  | init {s : State} : s.componentList = [] → s.aggregateDevices = [] → Reachable s
  | step {s s' : State} : Reachable s → Step s s' → Reachable s'

end GfpDrivers.Aggregate
