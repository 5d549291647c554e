import GfpDrivers.Lib.Recurrence
import GfpDrivers.Of.ArgsMap
import GfpDrivers.Of.IrqParse

/-!
The walks that the parsers of references make: up the interrupt parents of a node, and from level to
level along maps. Each is a relation between places; what the functions return or touch is a matter of
the places that they come to.
-/

namespace GfpDrivers.Of

open Lib Relation

/-- The device tree is finite: the nodes are finitely many, parents and phandles lead to nodes, and
going up from parent to parent comes to an end. -/
structure TreeView.FiniteTree (v : TreeView) (nodes : Set ℕ) : Prop where
  finite : nodes.Finite
  parent : ∀ np ∈ nodes, ∀ p ∈ v.ofGetParent np, p ∈ nodes
  phandle : ∀ handle, ∀ np ∈ v.ofFindNodeByPhandle handle, np ∈ nodes
  up : ∀ np ∈ nodes, Acc (fun p c => v.ofGetParent c = some p) np

/-! ### Interrupt parents -/

/-- The interrupt parent of a node, whether it has `#interrupt-cells` or not. -/
def irqParent (v : TreeView) (child : ℕ) : Option ℕ :=
  match v.ofPropertyReadU32 child "interrupt-parent" with
  | .error _ => v.ofGetParent child
  | .ok parent => v.ofFindNodeByPhandle parent

/-- The node has a property `#interrupt-cells`. -/
def HasCells (v : TreeView) (np : ℕ) : Prop := (v.ofGetProperty np "#interrupt-cells").isSome

instance (v : TreeView) : DecidablePred (HasCells v) := fun _ => inferInstanceAs (Decidable (_ = true))

/-- `of_irq_find_parent` goes on from a node without `#interrupt-cells`. -/
def ParentStep (v : TreeView) (child p : ℕ) : Prop := irqParent v child = some p ∧ ¬ HasCells v p

/-- The number of cells of a node cannot be read. -/
def NoCells (v : TreeView) (np : ℕ) : Prop := ∀ intsize, v.ofPropertyReadU32 np "#interrupt-cells" ≠ .ok intsize

/-- `of_irq_parse_raw` looks for a node with a number of cells. -/
def SeekStep (v : TreeView) (np p : ℕ) : Prop := NoCells v np ∧ irqParent v np = some p

/-- The number of address cells: that of the node or of the first node above that has one, or else 2. -/
inductive AddressCells (v : TreeView) : ℕ → ℕ → Prop
  | own {np : ℕ} {value : Bytes} {length : ℕ} :
      v.ofGetProperty np "#address-cells" = some (value, length) → AddressCells v np (be32ToCpup value)
  | above {np p addrsize : ℕ} :
      v.ofGetProperty np "#address-cells" = none → v.ofGetParent np = some p → AddressCells v p addrsize →
        AddressCells v np addrsize
  | default {np : ℕ} : v.ofGetProperty np "#address-cells" = none → v.ofGetParent np = none → AddressCells v np 2

/-! ### Levels -/

/-- The variables of the loop over the levels of `of_parse_phandle_with_args_map`. -/
structure NexusLevel where
  cur : ℕ
  listSize : ℕ
  matchArray : CellPtr

/-- The map of a level leads to the next level. -/
inductive NexusStep (v : TreeView) (stray : ℕ → ℤ → ℕ) (names : NexusNames) (initial : ℕ → ℕ) : NexusLevel → NexusLevel → Prop
  | map {l : NexusLevel} {lines : List MapLine × MapStop} {line : MapLine} :
      nodeLines v (names.rules v) l.cur l.listSize = some lines →
      acceptingLine v (names.rules v) l.cur (l.matchArray.value v stray initial) lines.1 = some line →
      NexusStep v stray names initial l ⟨line.node, line.newSpec.length, .map l.cur names.map line.start⟩

/-- The level is neither the last one nor one where the address is missing. -/
def IrqLevel.GoesOn (v : TreeView) (addr : Option Bytes) (l : IrqLevel) : Prop :=
  l.isController v = false ∧ ¬ (l.addrsize ≠ 0 ∧ addr.isNone)

/-- Where a level does not go on, the loop is done. -/
theorem irqLevels_stop {v : TreeView} {addr : Option Bytes} {l : IrqLevel} (stray : ℕ → ℤ → ℕ) (initial : ℕ → ℕ)
    (h : ¬ l.GoesOn v addr) (out : PhandleArgs) :
    ∃ r, ∀ fuel rounds, (irqLevels fuel v stray initial addr (rounds + 1) l out).result = some r := by
  by_cases hctl : l.isController v = true
  · exact ⟨(0, out), fun fuel rounds => by rw [irqLevels, if_pos hctl]; rfl⟩
  · have haddr : l.addrsize ≠ 0 ∧ addr.isNone := by
      by_contra hne
      exact h ⟨by simpa using hctl, hne⟩
    exact ⟨(-EINVAL, out), fun fuel rounds => by
      rw [irqLevels, if_neg hctl, if_pos haddr]
      simp [ofNodePut_result]⟩

/-- The level that the line of a map leads to. -/
def IrqLevel.along (l : IrqLevel) (line : MapLine) (newintsize newaddrsize : ℕ) : IrqLevel where
  ipar := line.node
  addrsize := newaddrsize
  intsize := newintsize
  matchArray := .map l.ipar "interrupt-map" ((line.start + line.newSpec.length : ℕ) - newaddrsize - newintsize)

/-- A place of the walk of `of_irq_parse_raw`: at a level, or on the way up to the next one. -/
inductive IrqPlace where
  | level (l : IrqLevel)
  | climb (l : IrqLevel)

inductive IrqStep (v : TreeView) (stray : ℕ → ℤ → ℕ) (initial : ℕ → ℕ) (addr : Option Bytes) : IrqPlace → IrqPlace → Prop
  | up {l : IrqLevel} : l.GoesOn v addr → v.ofGetProperty l.ipar "interrupt-map" = none →
      IrqStep v stray initial addr (.level l) (.climb l)
  | further {l : IrqLevel} {p : ℕ} : irqParent v l.ipar = some p → ¬ HasCells v p →
      IrqStep v stray initial addr (.climb l) (.climb { l with ipar := p })
  | arrive {l : IrqLevel} {p : ℕ} : irqParent v l.ipar = some p → HasCells v p →
      IrqStep v stray initial addr (.climb l) (.level { l with ipar := p })
  | map {l : IrqLevel} {lines : List MapLine × MapStop} {line : MapLine} {newintsize newaddrsize : ℕ} : l.GoesOn v addr →
      nodeLines v (interruptRules v) l.ipar l.cells = some lines →
      acceptingLine v (interruptRules v) l.ipar (l.matchArray.value v stray initial) lines.1 = some line →
      interruptCells v line.node = .ok (newintsize, newaddrsize) → l.ipar ≠ line.node →
      IrqStep v stray initial addr (.level l) (.level (l.along line newintsize newaddrsize))

/-- Filling an array from `start` on. -/
def filled (val : ℕ → ℕ) (start : ℕ) : ℕ → ℕ → (ℕ → ℕ) → (ℕ → ℕ)
  | 0, _, initial => initial
  | n + 1, i, initial => filled val start n (i + 1) (Function.update initial ((start + i) % 2 ^ 32) (val i))

/-- `initial_match_array` of `of_irq_parse_raw`. -/
def irqMatchArray (addr : Option Bytes) (out : PhandleArgs) (addrsize intsize : ℕ) : ℕ → ℕ :=
  filled out.args addrsize intsize 0 (filled (addrCell addr) 0 addrsize 0 fun _ => 0)

/-- The walk along maps of `of_irq_parse_raw` starts here. -/
structure IrqStart (v : TreeView) (np : ℕ) (out : PhandleArgs) (ipar addrsize : ℕ) : Prop where
  seek : ReflTransGen (SeekStep v) np ipar
  intsize_eq : v.ofPropertyReadU32 ipar "#interrupt-cells" = .ok out.argsCount
  addressCells : AddressCells v ipar addrsize
  cells_le : (addrsize + out.argsCount) % 2 ^ 32 ≤ maxPhandleArgs

variable {v : TreeView} {stray : ℕ → ℤ → ℕ} {names : NexusNames} {initial : ℕ → ℕ} {addr : Option Bytes} {nodes : Set ℕ}
  {np p fuel rounds addrsize : ℕ} {l : IrqLevel} {out : PhandleArgs} {lines : List MapLine × MapStop} {line : MapLine}

theorem TreeView.FiniteTree.irqParent (h : v.FiniteTree nodes) (hnp : np ∈ nodes) (hp : irqParent v np = some p) : p ∈ nodes := by
  unfold Of.irqParent at hp
  cases hread : v.ofPropertyReadU32 np "interrupt-parent" with
  | error e =>
    simp only [hread] at hp
    exact h.parent np hnp p hp
  | ok parent =>
    simp only [hread] at hp
    exact h.phandle parent p hp

/-! ### One round of each loop -/

theorem interruptParent_result (child : ℕ) : (interruptParent v child).result = some (irqParent v child) := by
  unfold interruptParent irqParent
  cases v.ofPropertyReadU32 child "interrupt-parent" with
  | error e => simp [getParent, ofNodeGet_result]
  | ok parent => exact getNodeByPhandle_result parent

/-- A round of `of_irq_find_parent`. -/
theorem findParentLoop_result (rounds child : ℕ) :
    (findParentLoop v (rounds + 1) child).result =
      match irqParent v child with
      | none => some none
      | some p => if HasCells v p then some (some p) else (findParentLoop v rounds p).result := by
  simp only [findParentLoop, Traced.result_bind, interruptParent_result, ofNodePut_result, Option.bind_some]
  cases irqParent v child with
  | none => rfl
  | some p =>
    unfold HasCells
    cases hprop : v.ofGetProperty p "#interrupt-cells" with
    | none => simp [hprop]
    | some cells => simp [hprop]

theorem ofIrqFindParent_result (child : ℕ) :
    (ofIrqFindParent fuel v (some child)).result = (findParentLoop v fuel child).result := by
  simp [ofIrqFindParent, ofNodeGet_result]

theorem noCells_of_not_hasCells (h : ¬ HasCells v np) : NoCells v np := fun intsize hread => h <| by
  unfold TreeView.ofPropertyReadU32 at hread
  unfold HasCells
  cases hprop : v.ofGetProperty np "#interrupt-cells" with
  | none => simp [hprop] at hread
  | some p => rfl

end GfpDrivers.Of
