import GfpDrivers.Basic

/-!
The resource tree (`resource.c`). Resources are kept by their addresses, with
the links that the source gives them: a parent, the next sibling and the
first child. A pointer to a link, which the loops carry along, is a `Slot`.

The loops have no bound of their own. Each function takes the number of
rounds its loops may make; `none` stands for a loop that makes more rounds,
or for an access through a null pointer.
-/

namespace GfpDrivers.ResourceTree

/-- `struct resource`, without its name. -/
structure Resource where
  start : ℕ
  end_ : ℕ
  flags : ℕ
  desc : ℕ
  parent : Option ℕ
  sibling : Option ℕ
  child : Option ℕ
deriving DecidableEq

abbrev Heap := ℕ → Resource

def IORESOURCE_TYPE_BITS : ℕ := 0x00001f00
def IORESOURCE_MUXED : ℕ := 0x00400000
def IORESOURCE_EXT_TYPE_BITS : ℕ := 0x01000000
def IORESOURCE_BUSY : ℕ := 0x80000000

/-- `resource_type` -/
def resourceType (res : Resource) : ℕ := res.flags &&& IORESOURCE_TYPE_BITS

/-- `resource_ext_type` -/
def resourceExtType (res : Resource) : ℕ := res.flags &&& IORESOURCE_EXT_TYPE_BITS

/-- The address of a link: `&a->child` or `&a->sibling`. -/
inductive Slot where
  | child (a : ℕ)
  | sibling (a : ℕ)

def Slot.read (h : Heap) : Slot → Option ℕ
  | .child a => (h a).child
  | .sibling a => (h a).sibling

def Slot.write (h : Heap) (v : Option ℕ) : Slot → Heap
  | .child a => Function.update h a { h a with child := v }
  | .sibling a => Function.update h a { h a with sibling := v }

def setParent (h : Heap) (a : ℕ) (v : Option ℕ) : Heap :=
  Function.update h a { h a with parent := v }

/-! ### Requesting -/

/-- The writes of `__request_resource` that put `new` in front of `*p`. -/
def linkNew (h : Heap) (p : Slot) (root new : ℕ) : Heap :=
  let tmp := p.read h
  let h := Slot.write h tmp (.sibling new)
  let h := Slot.write h (some new) p
  setParent h new (some root)

/-- The loop of `__request_resource`. -/
def requestLoop (h : Heap) (root new : ℕ) : ℕ → Slot → Option (Heap × Option ℕ)
  | 0, _ => none
  | fuel + 1, p =>
      match p.read h with
      | none => some (linkNew h p root new, none)
      | some tmp =>
          if (h new).end_ < (h tmp).start then some (linkNew h p root new, none)
          else if (h tmp).end_ < (h new).start then requestLoop h root new fuel (.sibling tmp)
          else some (h, some tmp)

/-- `__request_resource`, and so `request_resource_conflict`. -/
def requestResourceConflict (fuel : ℕ) (h : Heap) (root new : ℕ) : Option (Heap × Option ℕ) :=
  if (h new).end_ < (h new).start then some (h, some root)
  else if (h new).start < (h root).start then some (h, some root)
  else if (h root).end_ < (h new).end_ then some (h, some root)
  else requestLoop h root new fuel (.child root)

/-- `request_resource` -/
def requestResource (fuel : ℕ) (h : Heap) (root new : ℕ) : Option (Heap × ℤ) :=
  (requestResourceConflict fuel h root new).map fun
    | (h, some _) => (h, -EBUSY)
    | (h, none) => (h, 0)

/-! ### Releasing -/

/-- The loop of `__release_resource` that hands the children, from `chd` on, to
`parent`. It returns the last child. -/
def hoistChildren (parent : Option ℕ) : ℕ → Heap → ℕ → Option (Heap × ℕ)
  | 0, _, _ => none
  | fuel + 1, h, chd =>
      let h := setParent h chd parent
      match (h chd).sibling with
      | none => some (h, chd)
      | some next => hoistChildren parent fuel h next

/-- What `__release_resource` does at the link `p` that leads to `old`. -/
def releaseAt (fuel : ℕ) (h : Heap) (p : Slot) (old : ℕ) (releaseChild : Bool) : Option Heap :=
  let unlinked :=
    match (h old).child with
    | none => some (p.write h (h old).sibling)
    | some child =>
        if releaseChild then some (p.write h (h old).sibling)
        else
          (hoistChildren (h old).parent fuel h child).map fun (h, chd) =>
            let h := p.write h (h old).child
            Slot.write h (h old).sibling (.sibling chd)
  unlinked.map fun h => setParent h old none

/-- The loop of `__release_resource`. -/
def releaseLoop (h : Heap) (old : ℕ) (releaseChild : Bool) : ℕ → Slot → Option (Heap × ℤ)
  | 0, _ => none
  | fuel + 1, p =>
      match p.read h with
      | none => some (h, -EINVAL)
      | some tmp =>
          if tmp = old then (releaseAt fuel h p old releaseChild).map (·, 0)
          else releaseLoop h old releaseChild fuel (.sibling tmp)

/-- `__release_resource` -/
def doReleaseResource (fuel : ℕ) (h : Heap) (old : ℕ) (releaseChild : Bool) : Option (Heap × ℤ) :=
  (h old).parent.bind fun parent => releaseLoop h old releaseChild fuel (.child parent)

/-- `release_resource` -/
def releaseResource (fuel : ℕ) (h : Heap) (old : ℕ) : Option (Heap × ℤ) :=
  doReleaseResource fuel h old true

/-- `remove_resource` -/
def removeResource (fuel : ℕ) (h : Heap) (old : ℕ) : Option (Heap × ℤ) :=
  doReleaseResource fuel h old false

/-! ### Inserting -/

/-- How the first loop of `__insert_resource` ends: with its result, or with the
resource `first` below `parent` at which `new` has to take over. -/
inductive Descent where
  | done (h : Heap) (conflict : Option ℕ)
  | takeOver (h : Heap) (parent first : ℕ)

/-- The first loop of `__insert_resource`. -/
def insertDescend (new : ℕ) : ℕ → Heap → ℕ → Option Descent
  | 0, _, _ => none
  | fuel + 1, h, parent =>
      (requestResourceConflict fuel h parent new).bind fun
        | (h, none) => some (.done h none)
        | (h, some first) =>
            if first = parent then some (.done h (some first))
            else if first = new then some (.done h (some first))
            else if (h new).start < (h first).start ∨ (h first).end_ < (h new).end_ then
              some (.takeOver h parent first)
            else if (h first).start = (h new).start ∧ (h first).end_ = (h new).end_ then
              some (.takeOver h parent first)
            else insertDescend new fuel h first

/-- The second loop of `__insert_resource`, from `next` on: the first resource
that overlaps `new` partially, or else the last one that `new` covers. -/
def insertScan (h : Heap) (new : ℕ) : ℕ → ℕ → Option (ℕ ⊕ ℕ)
  | 0, _ => none
  | fuel + 1, next =>
      if (h next).start < (h new).start ∨ (h new).end_ < (h next).end_ then some (.inl next)
      else
        match (h next).sibling with
        | none => some (.inr next)
        | some sibling =>
            if (h new).end_ < (h sibling).start then some (.inr next)
            else insertScan h new fuel sibling

/-- The loop of `__insert_resource` that hands the covered resources to `new`. -/
def adoptChildren (new : ℕ) : ℕ → Heap → Option ℕ → Option Heap
  | 0, _, _ => none
  | _ + 1, h, none => some h
  | fuel + 1, h, some next =>
      let h := setParent h next (some new)
      adoptChildren new fuel h (h next).sibling

/-- The last loop of `__insert_resource`: the resource before `first`. -/
def siblingBefore (h : Heap) (first : ℕ) : ℕ → ℕ → Option ℕ
  | 0, _ => none
  | fuel + 1, next =>
      (h next).sibling.bind fun sibling =>
        if sibling = first then some next else siblingBefore h first fuel sibling

/-- The writes of `__insert_resource`: `new` takes the place of the resources
from `first` to `last`, which become its children. -/
def insertAbove (fuel : ℕ) (h : Heap) (parent new first last : ℕ) : Option Heap :=
  let h := setParent h new (some parent)
  let h := Slot.write h (h last).sibling (.sibling new)
  let h := Slot.write h (some first) (.child new)
  let h := Slot.write h none (.sibling last)
  (adoptChildren new fuel h (some first)).bind fun h =>
    if (h parent).child = some first then some (Slot.write h (some new) (.child parent))
    else
      (h parent).child.bind fun next =>
        (siblingBefore h first fuel next).map fun next =>
          Slot.write h (some new) (.sibling next)

/-- `__insert_resource`, and so `insert_resource_conflict`. -/
def insertResourceConflict (fuel : ℕ) (h : Heap) (parent new : ℕ) : Option (Heap × Option ℕ) :=
  (insertDescend new fuel h parent).bind fun
    | .done h conflict => some (h, conflict)
    | .takeOver h parent first =>
        (insertScan h new fuel first).bind fun
          | .inl next => some (h, some next)
          | .inr last => (insertAbove fuel h parent new first last).map (·, none)

/-- `insert_resource` -/
def insertResource (fuel : ℕ) (h : Heap) (parent new : ℕ) : Option (Heap × ℤ) :=
  (insertResourceConflict fuel h parent new).map fun
    | (h, some _) => (h, -EBUSY)
    | (h, none) => (h, 0)

/-! ### Regions -/

/-- `start + n - 1` in `resource_size_t`. -/
def regionEnd (start n : ℕ) : ℕ := (start + n + (2 ^ 64 - 1)) % 2 ^ 64

/-- What `kzalloc` returns. -/
def Resource.zero : Resource := ⟨0, 0, 0, 0, none, none, none⟩

/-- The loop of `__request_region_locked`. Waiting for a muxed region comes down
to trying again. -/
def requestRegionLoop (res flags : ℕ) : ℕ → Heap → ℕ → Option (Heap × ℤ)
  | 0, _, _ => none
  | fuel + 1, h, parent =>
      let h := Function.update h res
        { h res with
          flags := resourceType (h parent) ||| resourceExtType (h parent) ||| IORESOURCE_BUSY |||
            flags
          desc := (h parent).desc }
      (requestResourceConflict fuel h parent res).bind fun
        | (h, none) => some (h, 0)
        | (h, some conflict) =>
            if conflict ≠ parent ∧ (h conflict).flags &&& IORESOURCE_BUSY = 0 then
              requestRegionLoop res flags fuel h conflict
            else if (h conflict).flags &&& flags &&& IORESOURCE_MUXED ≠ 0 then
              requestRegionLoop res flags fuel h parent
            else some (h, -EBUSY)

/-- `__request_region_locked` -/
def requestRegionLocked (fuel : ℕ) (h : Heap) (res parent start n flags : ℕ) : Option (Heap × ℤ) :=
  let h := Function.update h res { h res with start := start, end_ := regionEnd start n }
  requestRegionLoop res flags fuel h parent

/-- `__request_region`, where `res` is what `alloc_resource` returns. -/
def requestRegion (fuel : ℕ) (h : Heap) (parent start n flags : ℕ) (res : Option ℕ) :
    Option (Heap × Option ℕ) :=
  match res with
  | none => some (h, none)
  | some res =>
      let h := Function.update h res Resource.zero
      (requestRegionLocked fuel h res parent start n flags).map fun (h, ret) =>
        if ret ≠ 0 then (h, none) else (h, some res)

/-- The loop of `__release_region`. -/
def releaseRegionLoop (h : Heap) (start end_ : ℕ) : ℕ → Slot → Option Heap
  | 0, _ => none
  | fuel + 1, p =>
      match p.read h with
      | none => some h
      | some res =>
          if (h res).start ≤ start ∧ end_ ≤ (h res).end_ then
            if (h res).flags &&& IORESOURCE_BUSY = 0 then
              releaseRegionLoop h start end_ fuel (.child res)
            else if (h res).start ≠ start ∨ (h res).end_ ≠ end_ then some h
            else some (p.write h (h res).sibling)
          else releaseRegionLoop h start end_ fuel (.sibling res)

/-- `__release_region` -/
def releaseRegion (fuel : ℕ) (h : Heap) (parent start n : ℕ) : Option Heap :=
  releaseRegionLoop h start (regionEnd start n) fuel (.child parent)

end GfpDrivers.ResourceTree
