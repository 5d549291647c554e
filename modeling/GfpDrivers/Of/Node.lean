import GfpDrivers.Basic
import GfpDrivers.Lib.Chain

/-!
The live device tree (`of.h`, `base.c`, `dynamic.c`). Nodes and properties are
kept by their addresses, with the links that the source gives them. The
properties of a node and those that were removed from it are two lists that
share the `next` link of the properties; a pointer to a link of such a list,
which the loops carry along, is a `PropSlot`.

The loops have no bound of their own. Each function takes the number of
rounds its loops may make; `none` stands for a loop that makes more rounds,
or for an access through a null pointer.
-/

namespace GfpDrivers.Of

/-- The bytes from a pointer on. -/
abbrev Bytes := ℕ → UInt8

/-- `be32_to_cpup` -/
def be32ToCpup (b : Bytes) : ℕ :=
  (b 0).toNat * 2 ^ 24 + (b 1).toNat * 2 ^ 16 + (b 2).toNat * 2 ^ 8 + (b 3).toNat

/-- The bytes of a string constant, which ends with a zero byte. -/
def cstring (s : String) : Bytes := fun i => (s.toUTF8.toList).getD i 0

/-- `struct property` -/
structure Property where
  name : String
  length : ℕ
  value : Bytes
  next : Option ℕ

/-- `struct device_node`, as far as the tree is concerned. The flags
`OF_DETACHED` and `OF_OVERLAY` are kept apart from each other. -/
structure DeviceNode where
  name : Bytes
  phandle : ℕ
  fullName : String
  properties : Option ℕ
  deadprops : Option ℕ
  parent : Option ℕ
  child : Option ℕ
  sibling : Option ℕ
  detached : Bool
  overlay : Bool

/-- All nodes and properties, `of_root` and `phandle_cache`. -/
structure DevTree where
  node : ℕ → DeviceNode
  prop : ℕ → Property
  root : Option ℕ
  phandleCache : ℕ → Option ℕ

namespace DevTree

def setNode (s : DevTree) (n : ℕ) (v : DeviceNode) : DevTree :=
  { s with node := Function.update s.node n v }

def setNext (s : DevTree) (p : ℕ) (v : Option ℕ) : DevTree :=
  { s with prop := Function.update s.prop p { s.prop p with next := v } }

end DevTree

/-! ### Properties -/

/-- The address of a link between properties: `&np->properties`,
`&np->deadprops` or `&pp->next`. -/
inductive PropSlot where
  | properties (np : ℕ)
  | deadprops (np : ℕ)
  | next (pp : ℕ)
deriving DecidableEq

def PropSlot.read (s : DevTree) : PropSlot → Option ℕ
  | .properties np => (s.node np).properties
  | .deadprops np => (s.node np).deadprops
  | .next pp => (s.prop pp).next

def PropSlot.write (s : DevTree) (v : Option ℕ) : PropSlot → DevTree
  | .properties np => s.setNode np { s.node np with properties := v }
  | .deadprops np => s.setNode np { s.node np with deadprops := v }
  | .next pp => s.setNext pp v

/-- The links between properties. -/
def DevTree.link (s : DevTree) (slot : PropSlot) : Option ℕ := slot.read s

/-- The loops over a list of properties. They stop at the link to the first
property that is looked for, or at the end of the list. -/
def walkProps (s : DevTree) (stop : ℕ → Bool) (fuel : ℕ) (slot : PropSlot) : Option PropSlot :=
  Lib.walk .next s.link stop fuel slot

/-- `__of_find_property` -/
def ofFindProperty (fuel : ℕ) (s : DevTree) (np : ℕ) (name : String) : Option (Option ℕ) :=
  (walkProps s (fun pp => (s.prop pp).name = name) fuel (.properties np)).map (·.read s)

/-- `__of_add_property` -/
def ofAddProperty (fuel : ℕ) (s : DevTree) (np prop : ℕ) : Option (DevTree × ℤ) :=
  let s := s.setNext prop none
  (walkProps s (fun pp => (s.prop prop).name = (s.prop pp).name) fuel (.properties np)).map
    fun next =>
      match next.read s with
      | some _ => (s, -EEXIST)
      | none => (next.write s (some prop), 0)

/-- `__of_remove_property` -/
def ofRemoveProperty (fuel : ℕ) (s : DevTree) (np prop : ℕ) : Option (DevTree × ℤ) :=
  (walkProps s (fun pp => pp = prop) fuel (.properties np)).map fun next =>
    match next.read s with
    | none => (s, -ENODEV)
    | some _ =>
        let s := next.write s (s.prop prop).next
        let s := s.setNext prop (s.node np).deadprops
        (PropSlot.write s (some prop) (.deadprops np), 0)

/-- `__of_update_property` -/
def ofUpdateProperty (fuel : ℕ) (s : DevTree) (np newprop : ℕ) : Option (DevTree × ℤ) :=
  (walkProps s (fun pp => (s.prop pp).name = (s.prop newprop).name) fuel (.properties np)).map
    fun next =>
      match next.read s with
      | some oldprop =>
          let s := s.setNext newprop (s.prop oldprop).next
          let s := next.write s (some newprop)
          let s := s.setNext oldprop (s.node np).deadprops
          (PropSlot.write s (some oldprop) (.deadprops np), 0)
      | none =>
          let s := s.setNext newprop none
          (next.write s (some newprop), 0)

/-- The loop of `__of_changeset_entry_apply` that takes a property off the list
of removed ones, if it is there. -/
def takeDeadprop (fuel : ℕ) (s : DevTree) (np prop : ℕ) : Option DevTree :=
  (walkProps s (fun pp => pp = prop) fuel (.deadprops np)).map fun propp =>
    match propp.read s with
    | none => s
    | some _ => (propp.write s (s.prop prop).next).setNext prop none

/-! ### Nodes -/

/-- `of_phandle_cache_hash`. All phandles share one slot of the cache. -/
def ofPhandleCacheHash (_handle : ℕ) : ℕ := 0

/-- `__of_phandle_cache_inv_entry` -/
def ofPhandleCacheInvEntry (s : DevTree) (handle : ℕ) : DevTree :=
  if handle = 0 then s
  else
    match s.phandleCache (ofPhandleCacheHash handle) with
    | none => s
    | some np =>
        if handle = (s.node np).phandle then
          { s with
            phandleCache := Function.update s.phandleCache (ofPhandleCacheHash handle) none }
        else s

/-- The name and the phandle that `__of_attach_node` reads from the properties. -/
def ofNodeIdentity (fuel : ℕ) (s : DevTree) (np : ℕ) : Option DeviceNode :=
  if (s.node np).overlay then some (s.node np)
  else
    (ofFindProperty fuel s np "name").bind fun name =>
      (ofFindProperty fuel s np "phandle").bind fun phandle =>
        (ofFindProperty fuel s np "linux,phandle").map fun legacy =>
          { s.node np with
            name :=
              match name with
              | none => cstring "<NULL>"
              | some pp => (s.prop pp).value
            phandle :=
              match phandle.orElse fun _ => legacy with
              | none => 0
              | some pp => if 4 ≤ (s.prop pp).length then be32ToCpup (s.prop pp).value else 0 }

/-- `__of_attach_node` -/
def ofAttachNode (fuel : ℕ) (s : DevTree) (np : ℕ) : Option DevTree :=
  (ofNodeIdentity fuel s np).bind fun v =>
    let s := s.setNode np { v with child := none }
    (s.node np).parent.map fun parent =>
      let s := s.setNode np { s.node np with sibling := (s.node parent).child }
      let s := s.setNode parent { s.node parent with child := some np }
      s.setNode np { s.node np with detached := false }

/-- The loop of `__of_detach_node`, which looks for the node before `np`. -/
def prevSibling (s : DevTree) (np : ℕ) : ℕ → Option ℕ → Option ℕ
  | 0, _ => none
  | _ + 1, none => none
  | fuel + 1, some prevsib =>
      if (s.node prevsib).sibling = some np then some prevsib
      else prevSibling s np fuel (s.node prevsib).sibling

/-- `__of_detach_node` -/
def ofDetachNode (fuel : ℕ) (s : DevTree) (np : ℕ) : Option DevTree :=
  if (s.node np).detached then some s
  else
    match (s.node np).parent with
    | none => some s
    | some parent =>
        let unlinked :=
          if (s.node parent).child = some np then
            some (s.setNode parent { s.node parent with child := (s.node np).sibling })
          else
            (prevSibling s np fuel (s.node parent).child).map fun prevsib =>
              s.setNode prevsib { s.node prevsib with sibling := (s.node np).sibling }
        unlinked.map fun s =>
          let s := s.setNode np { s.node np with detached := true }
          ofPhandleCacheInvEntry s (s.node np).phandle

end GfpDrivers.Of
