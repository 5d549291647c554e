import GfpDrivers.Of.MapLines
import GfpDrivers.Of.MatchNode

/-!
Parsing of interrupts (`irq.c`), on machines without the workarounds for old PowerMacs
(`of_irq_workarounds` is 0). `of_irq_find_parent` goes to the interrupt parent of a node,
`of_irq_parse_raw` follows the maps and the interrupt parents to the controller of an interrupt, and
`of_irq_parse_one` finds the interrupt of a device.
-/

namespace GfpDrivers.Of

open Lib

/-- `of_get_parent`, with the reference that it takes. -/
def getParent (v : TreeView) (np : ℕ) : Traced ParseEvent (Option ℕ) := do
  ofNodeGet (v.ofGetParent np)
  pure (v.ofGetParent np)

/-- The node that `of_irq_find_parent` looks at after `child`. -/
def interruptParent (v : TreeView) (child : ℕ) : Traced ParseEvent (Option ℕ) :=
  match v.ofPropertyReadU32 child "interrupt-parent" with
  | .error _ => getParent v child
  | .ok parent => getNodeByPhandle v parent

/-- The loop of `of_irq_find_parent`. -/
def findParentLoop (v : TreeView) : ℕ → ℕ → Traced ParseEvent (Option ℕ)
  | 0, _ => Traced.unfinished
  | rounds + 1, child => do
      let p ← interruptParent v child
      ofNodePut (some child)
      match p with
      | none => pure none
      | some p =>
          if (v.ofGetProperty p "#interrupt-cells").isNone then findParentLoop v rounds p else pure (some p)

/-- `of_irq_find_parent` -/
def ofIrqFindParent (fuel : ℕ) (v : TreeView) (child : Option ℕ) : Traced ParseEvent (Option ℕ) := do
  ofNodeGet child
  match child with
  | none => pure none
  | some child => findParentLoop v fuel child

/-- `of_irq_imap_abusers` -/
def ofIrqImapAbusers : List String :=
  ["CBEA,platform-spider-pic", "sti,platform-spider-pic", "realtek,rtl-intc", "fsl,ls1021a-extirq",
    "fsl,ls1043a-extirq", "fsl,ls1088a-extirq", "renesas,rza1-irqc"]

/-- A string literal. -/
def cstr (s : String) : CStr := ⟨(chars s).filter (· ≠ 0), by simp⟩

/-- `of_device_compatible_match`. A property with strings up to its length needs no more rounds than it has
bytes, and a string that does not end there is the last one. -/
def ofDeviceCompatibleMatch (v : TreeView) (device : ℕ) (compat : List String) : ℤ :=
  compat.foldl (fun score c =>
    let length := ((v.ofGetProperty device "compatible").map (·.2)).getD 0
    let tmp := (ofDeviceIsCompatible (length + 2) v device (cstr c) (cstr "") (cstr "")).getD 0
    if tmp > score then tmp else score) 0

/-- The loop of `of_irq_parse_raw` that looks for the first node with `#interrupt-cells`. -/
def seekLoop (fuel : ℕ) (v : TreeView) : ℕ → ℕ → Traced ParseEvent (Option (ℕ × ℕ))
  | 0, _ => Traced.unfinished
  | rounds + 1, ipar =>
      match v.ofPropertyReadU32 ipar "#interrupt-cells" with
      | .ok intsize => pure (some (ipar, intsize))
      | .error _ => do
          let p ← ofIrqFindParent fuel v (some ipar)
          ofNodePut (some ipar)
          match p with
          | none => pure none
          | some p => seekLoop fuel v rounds p

/-- The loop of `of_irq_parse_raw` that looks for `#address-cells`, with the number of cells that it leaves. -/
def addressCellsLoop (v : TreeView) : ℕ → ℕ → Traced ParseEvent ℕ
  | 0, _ => Traced.unfinished
  | rounds + 1, old => do
      let tmp := v.ofGetProperty old "#address-cells"
      let tnode ← getParent v old
      ofNodePut (some old)
      match tnode, tmp with
      | some old, none => addressCellsLoop v rounds old
      | old, tmp => do
          ofNodePut old
          pure (match tmp with
            | none => 2
            | some (value, _) => be32ToCpup value)

/-- A loop that fills `initial_match_array` from `start` on, with `n` cells left from the cell `i` on. The
indices are numbers of 32 bits. -/
def fillFrom (read : ℕ → Traced ParseEvent ℕ) (start : ℕ) : ℕ → ℕ → (ℕ → ℕ) → Traced ParseEvent (ℕ → ℕ)
  | 0, _, initial => pure initial
  | n + 1, i, initial => do
      let val ← read i
      Traced.emit (.access .initialMatchArray ((start + i) % 2 ^ 32 : ℕ))
      fillFrom read start n (i + 1) (Function.update initial ((start + i) % 2 ^ 32) val)

/-- `out_irq->args[i]` -/
def readArgs (out : PhandleArgs) (i : ℕ) : Traced ParseEvent ℕ := do
  Traced.emit (.access .args i)
  pure (out.args i)

/-- `newintsize` and `newaddrsize` of a node. -/
def interruptCells (v : TreeView) (node : ℕ) : Except ℤ (ℕ × ℕ) :=
  match v.ofPropertyReadU32 node "#interrupt-cells" with
  | .error ret => .error ret
  | .ok newintsize =>
      match v.ofPropertyReadU32 node "#address-cells" with
      | .error _ => .ok (newintsize, 0)
      | .ok newaddrsize => .ok (newintsize, newaddrsize)

/-- The loop over an interrupt map. The number of cells is added in 32 bits. -/
def interruptRules (v : TreeView) : MapRules where
  map := "interrupt-map"
  mask := "interrupt-map-mask"
  size node := (interruptCells v node).map fun cells => (cells.2 + cells.1) % 2 ^ 32
  dropsOld := false
  retLine ret := ret
  retStop
    | .tooLong, _ => -EFAULT
    | _, ret => ret

/-- The loop that copies the new interrupt specifier, with `n` cells left from the cell `i` on. -/
def copyIntspec (v : TreeView) (stray : ℕ → ℤ → ℕ) (ipar : ℕ) (start : ℤ) : ℕ → ℕ → (ℕ → ℕ) → Traced ParseEvent (ℕ → ℕ)
  | 0, _, args => pure args
  | n + 1, i, args => do
      let val ← readMap v stray ipar "interrupt-map" (start + i)
      Traced.emit (.access .args i)
      copyIntspec v stray ipar start n (i + 1) (Function.update args i val)

/-- The variables of the walk: the node, the sizes of its specifier, and where the specifier is. -/
structure IrqLevel where
  ipar : ℕ
  addrsize : ℕ
  intsize : ℕ
  matchArray : CellPtr

/-- The number of cells that are compared, in 32 bits. -/
def IrqLevel.cells (l : IrqLevel) : ℕ := (l.addrsize + l.intsize) % 2 ^ 32

/-- The node is an interrupt controller, and has no map or is known to abuse it. -/
def IrqLevel.isController (v : TreeView) (l : IrqLevel) : Bool :=
  (v.ofGetProperty l.ipar "interrupt-controller").isSome &&
    ((v.ofGetProperty l.ipar "interrupt-map").isNone || ofDeviceCompatibleMatch v l.ipar ofIrqImapAbusers != 0)

/-- The walk of `of_irq_parse_raw`. `rc` is `-EINVAL` all the time, up to the error of a map. -/
def irqLevels (fuel : ℕ) (v : TreeView) (stray : ℕ → ℤ → ℕ) (initial : ℕ → ℕ) (addr : Option Bytes) :
    ℕ → IrqLevel → PhandleArgs → Traced ParseEvent (ℤ × PhandleArgs)
  | 0, _, _ => Traced.unfinished
  | rounds + 1, l, out =>
      if l.isController v then pure (0, out)
      else if l.addrsize ≠ 0 ∧ addr.isNone then do
        ofNodePut (some l.ipar)
        pure (-EINVAL, out)
      else
        match v.ofGetProperty l.ipar "interrupt-map" with
        | none => do
            let newpar ← ofIrqFindParent fuel v (some l.ipar)
            let out := { out with np := newpar }
            ofNodePut (some l.ipar)
            match newpar with
            | none => pure (-ENOENT, out)
            | some newpar => irqLevels fuel v stray initial addr rounds { l with ipar := newpar } out
        | some (_, imaplen) => do
            let (st, failed) ← scanMap v stray (interruptRules v) initial l.ipar l.cells l.matchArray fuel
              ⟨none, 0, imaplen / 4, false, 0, -EINVAL⟩
            if failed then
              ofNodePut (some l.ipar)
              ofNodePut st.new
              pure (st.ret, out)
            else if st.matched = false then
              if (v.ofGetProperty l.ipar "interrupt-controller").isSome then pure (0, out)
              else
                ofNodePut (some l.ipar)
                ofNodePut st.new
                pure (st.ret, out)
            else
              match st.new with
              | none => pure (st.ret, out)
              | some newpar =>
                  match interruptCells v newpar with
                  | .error ret => pure (ret, out)
                  | .ok (newintsize, newaddrsize) =>
                      let args ← copyIntspec v stray l.ipar ((st.pos : ℤ) - newintsize) newintsize 0 out.args
                      let out : PhandleArgs := { out with argsCount := newintsize, args := args }
                      if l.ipar = newpar then pure (0, out)
                      else
                        let out := { out with np := some newpar }
                        ofNodePut (some l.ipar)
                        irqLevels fuel v stray initial addr rounds
                          ⟨newpar, newaddrsize, newintsize,
                            .map l.ipar "interrupt-map" ((st.pos : ℤ) - newaddrsize - newintsize)⟩ out

/-- The cells of `addr`, if it is not `NULL`. -/
def addrCell (addr : Option Bytes) (i : ℕ) : ℕ :=
  match addr with
  | none => 0
  | some addr => cells addr i

/-- `of_irq_parse_raw` -/
def ofIrqParseRaw (fuel : ℕ) (v : TreeView) (stray : ℕ → ℤ → ℕ) (addr : Option Bytes) (out : PhandleArgs) :
    Traced ParseEvent (ℤ × PhandleArgs) := do
  ofNodeGet out.np
  match out.np with
  | none => pure (-EINVAL, out)
  | some np =>
      let found ← seekLoop fuel v fuel np
      match found with
      | none => pure (-EINVAL, out)
      | some (ipar, intsize) =>
          if out.argsCount ≠ intsize then
            ofNodePut (some ipar)
            pure (-EINVAL, out)
          else
            ofNodeGet (some ipar)
            let addrsize ← addressCellsLoop v fuel ipar
            if (addrsize + intsize) % 2 ^ 32 > maxPhandleArgs then
              ofNodePut (some ipar)
              pure (-EFAULT, out)
            else
              let initial ← fillFrom (fun i => pure (addrCell addr i)) 0 addrsize 0 fun _ => 0
              let initial ← fillFrom (readArgs out) addrsize intsize 0 initial
              irqLevels fuel v stray initial addr fuel ⟨ipar, addrsize, intsize, .initialMatchArray⟩ out

/-- The loop of `of_irq_parse_one`, with `n` cells left from the cell `i` on. -/
def copyInterrupts (v : TreeView) (device : ℕ) (base : ℕ) : ℕ → ℕ → (ℕ → ℕ) → Traced ParseEvent (ℤ × (ℕ → ℕ))
  | 0, _, args => pure (0, args)
  | n + 1, i, args =>
      match v.ofPropertyReadU32Index device "interrupts" ((base + i) % 2 ^ 32) with
      | .error res => pure (res, args)
      | .ok val => do
          Traced.emit (.access .args i)
          copyInterrupts v device base n (i + 1) (Function.update args i val)

/-- `of_irq_parse_one` -/
def ofIrqParseOne (fuel : ℕ) (v : TreeView) (stray : ℕ → ℤ → ℕ) (device : ℕ) (index : ℤ) (out : PhandleArgs) :
    Traced ParseEvent (ℤ × PhandleArgs) := do
  let addr := (v.ofGetProperty device "reg").map (·.1)
  let (res, found) ←
    ofParsePhandleWithArgs fuel v device "interrupts-extended" (some "#interrupt-cells") (-1) index (some out)
  let out := found.getD out
  if res = 0 then ofIrqParseRaw fuel v stray addr out
  else
    let p ← ofIrqFindParent fuel v (some device)
    match p with
    | none => pure (-EINVAL, out)
    | some p =>
        match v.ofPropertyReadU32 p "#interrupt-cells" with
        | .error _ =>
            ofNodePut (some p)
            pure (-EINVAL, out)
        | .ok intsize =>
            let (res, args) ← copyInterrupts v device ((index * intsize) % 2 ^ 32).toNat intsize 0 out.args
            let out : PhandleArgs := ⟨some p, intsize, args⟩
            if res ≠ 0 then
              ofNodePut (some p)
              pure (res, out)
            else
              let (res, out) ← ofIrqParseRaw fuel v stray addr out
              ofNodePut (some p)
              pure (res, out)

end GfpDrivers.Of
