import Mathlib.Data.List.DropRight
import GfpDrivers.Lib.Forest
import GfpDrivers.Of.Node

/-!
Unflattening a device tree (`fdt.c`). A blob is the forest of nodes that the
iterators of `libfdt` go through: `fdt_next_node` visits the nodes in preorder
and counts the depth along, `fdt_first_property_offset` and
`fdt_next_property_offset` visit the properties of a node in order.

Nodes and properties are placed one after the other into a block of memory.
A first run without a block, `dryrun`, only adds up the sizes.
-/

namespace GfpDrivers.Of

open Lib

/-! ### Blobs -/

/-- A property of the blob, as `fdt_getprop_by_offset` gives it. -/
structure FlatProp where
  name : String
  length : ℕ
  value : Bytes

/-- A node of the blob: what `fdt_get_name` gives, and the properties. -/
structure FlatNode where
  name : String
  props : List FlatProp

/-- The nodes in the order of `fdt_next_node`, with their depths. -/
def visits : ℕ → Forest FlatNode → List (ℕ × FlatNode)
  | _, .nil => []
  | depth, .cons n K F => (depth, n) :: (visits (depth + 1) K ++ visits depth F)

/-- The characters of a string, up to the zero byte at its end. -/
def chars (s : String) : List UInt8 := s.toUTF8.toList.takeWhile (· ≠ 0)

/-! ### Memory -/

/-- The sizes and alignments of `struct device_node` and `struct property`. -/
structure Sizes where
  node : ℕ
  nodeAlign : ℕ
  prop : ℕ
  propAlign : ℕ
  node_pos : 0 < node
  nodeAlign_pos : 0 < nodeAlign
  prop_pos : 0 < prop
  propAlign_pos : 0 < propAlign

/-- `PTR_ALIGN` -/
def ptrAlign (p a : ℕ) : ℕ := (p + (a - 1)) / a * a

/-- `unflatten_dt_alloc`. The second number is the new value of `*mem`. -/
def unflattenDtAlloc (mem size align : ℕ) : ℕ × ℕ :=
  let res := ptrAlign mem align
  (res, res + size)

def DevTree.setProp (s : DevTree) (p : ℕ) (v : Property) : DevTree :=
  { s with prop := Function.update s.prop p v }

/-! ### Properties -/

/-- The variables of the loop of `populate_properties`. -/
structure Filling where
  tree : DevTree
  mem : ℕ
  pprev : PropSlot
  hasName : Bool

/-- What a property of the blob does to the phandle of its node. -/
def takePhandle (phandle : ℕ) (p : FlatProp) : ℕ :=
  let phandle :=
    if p.name = "phandle" ∨ p.name = "linux,phandle" then
      if phandle = 0 then be32ToCpup p.value else phandle
    else phandle
  if p.name = "ibm,phandle" then be32ToCpup p.value else phandle

/-- One round of the loop of `populate_properties`. -/
def populateProperty (z : Sizes) (dryrun : Bool) (np : ℕ) (f : Filling) (p : FlatProp) : Filling :=
  let hasName := f.hasName || p.name = "name"
  let (pp, mem) := unflattenDtAlloc f.mem z.prop z.propAlign
  if dryrun then { f with mem := mem, hasName := hasName }
  else
    let s := f.tree
    let s := s.setNode np { s.node np with phandle := takePhandle (s.node np).phandle p }
    let s := s.setProp pp { s.prop pp with name := p.name, length := p.length, value := p.value }
    { tree := f.pprev.write s (some pp), mem := mem, pprev := .next pp, hasName := hasName }

/-- The variables of the loop over the name of a node. `pa` starts as a null
pointer. -/
structure NameScan where
  p : ℕ
  ps : ℕ
  pa : Option ℕ

/-- One round of the loop over the name of a node. -/
def NameScan.next (t : NameScan) (c : UInt8) : NameScan :=
  if c = '@'.toUInt8 then { t with p := t.p + 1, pa := some t.p }
  else if c = '/'.toUInt8 then { t with p := t.p + 1, ps := t.p + 1 }
  else { t with p := t.p + 1 }

def NameScan.run (cs : List UInt8) : NameScan := cs.foldl NameScan.next ⟨0, 0, none⟩

/-- `pa`, after `if (pa < ps) pa = p`. -/
def NameScan.stop (t : NameScan) : ℕ :=
  match t.pa with
  | none => t.p
  | some pa => if pa < t.ps then t.p else pa

/-- `populate_properties` -/
def populateProperties (z : Sizes) (dryrun : Bool) (s : DevTree) (mem np : ℕ) (n : FlatNode) :
    DevTree × ℕ :=
  let f := n.props.foldl (populateProperty z dryrun np) ⟨s, mem, .properties np, false⟩
  if f.hasName then (f.tree, f.mem)
  else
    let t := NameScan.run (chars n.name)
    let len := t.stop - t.ps + 1
    let (pp, mem) := unflattenDtAlloc f.mem (z.prop + len) z.propAlign
    if dryrun then (f.tree, mem)
    else
      let s := f.tree
      let value := fun i => if i < len - 1 then (chars n.name).getD (t.ps + i) 0 else 0
      let s := s.setProp pp { s.prop pp with name := "name", length := len, value := value }
      (f.pprev.write s (some pp), mem)

/-! ### Nodes -/

/-- The part of `populate_node` that names the node and links it to its parent. -/
def linkNode (s : DevTree) (dad : Option ℕ) (n : FlatNode) (np : ℕ) : DevTree :=
  let s := s.setNode np { s.node np with fullName := n.name }
  match dad with
  | none => s
  | some dad =>
      let s := s.setNode np { s.node np with parent := some dad, sibling := (s.node dad).child }
      s.setNode dad { s.node dad with child := some np }

/-- `populate_node`, with the node that it stores in `*pnp`. -/
def populateNode (z : Sizes) (fuel : ℕ) (dryrun : Bool) (s : DevTree) (mem : ℕ) (dad : Option ℕ)
    (n : FlatNode) : Option (DevTree × ℕ × ℕ) :=
  let len := (chars n.name).length + 1
  let (np, mem) := unflattenDtAlloc mem (z.node + len) z.nodeAlign
  if dryrun then
    let (s, mem) := populateProperties z dryrun s mem np n
    some (s, mem, np)
  else
    let (s, mem) := populateProperties z dryrun (linkNode s dad n np) mem np n
    (ofFindProperty fuel s np "name").map fun name =>
      let value :=
        match name with
        | none => cstring "<NULL>"
        | some pp => (s.prop pp).value
      (s.setNode np { s.node np with name := value }, mem, np)

/-- The first loop of `reverse_nodes`, over the children from `child` on. -/
def reverseEach (reverse : DevTree → ℕ → Option DevTree) : ℕ → DevTree → Option ℕ → Option DevTree
  | _, s, none => some s
  | 0, _, some _ => none
  | fuel + 1, s, some child =>
      (reverse s child).bind fun s => reverseEach reverse fuel s (s.node child).sibling

/-- The second loop of `reverse_nodes`. -/
def reverseList (parent : ℕ) : ℕ → DevTree → Option ℕ → Option DevTree
  | _, s, none => some s
  | 0, _, some _ => none
  | fuel + 1, s, some child =>
      let next := (s.node child).sibling
      let s := s.setNode child { s.node child with sibling := (s.node parent).child }
      let s := s.setNode parent { s.node parent with child := some child }
      reverseList parent fuel s next

/-- `reverse_nodes`. The last number bounds the depth of the recursion. -/
def reverseNodes (fuel : ℕ) : ℕ → DevTree → ℕ → Option DevTree
  | 0, _, _ => none
  | rounds + 1, s, parent =>
      (reverseEach (reverseNodes fuel rounds) fuel s (s.node parent).child).bind fun s =>
        let child := (s.node parent).child
        let s := s.setNode parent { s.node parent with child := none }
        reverseList parent fuel s child

/-- `FDT_MAX_DEPTH` -/
def fdtMaxDepth : ℕ := 64

/-- The variables of the loop of `unflatten_dt_nodes`. -/
structure Unflattening where
  tree : DevTree
  mem : ℕ
  nps : ℕ → Option ℕ
  nodepp : Option ℕ
  root : Option ℕ

/-- One round of the loop of `unflatten_dt_nodes`. A write behind the end of
`nps` has no meaning. -/
def unflattenNode (z : Sizes) (fuel : ℕ) (dryrun : Bool) (u : Unflattening) (v : ℕ × FlatNode) :
    Option Unflattening :=
  let (depth, n) := v
  if fdtMaxDepth ≤ depth then some u
  else if fdtMaxDepth ≤ depth + 1 then none
  else
    (populateNode z fuel dryrun u.tree u.mem (u.nps depth) n).map fun (s, mem, np) =>
      { tree := s
        mem := mem
        nps := Function.update u.nps (depth + 1) (some np)
        nodepp := if dryrun then u.nodepp else u.nodepp.or (some np)
        root := if dryrun then u.root else u.root.or (some np) }

/-- `unflatten_dt_nodes`, with the size that it returns and the node that it
stores in `*nodepp`. The null pointer is the block at 0. -/
def unflattenDtNodes (z : Sizes) (fuel : ℕ) (s : DevTree) (blob : Forest FlatNode) (mem : ℕ)
    (dad : Option ℕ) : Option (DevTree × ℕ × Option ℕ) :=
  let dryrun := mem = 0
  let depth := if dad.isSome then 1 else 0
  let start : Unflattening := ⟨s, mem, Function.update (fun _ => none) depth dad, none, dad⟩
  ((visits depth blob).foldlM (unflattenNode z fuel dryrun) start).bind fun u =>
    if dryrun then some (u.tree, u.mem - mem, u.nodepp)
    else
      u.root.bind fun root =>
        (reverseNodes fuel fuel u.tree root).map fun s => (s, u.mem - mem, u.nodepp)

end GfpDrivers.Of
