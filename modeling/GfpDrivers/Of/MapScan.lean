import GfpDrivers.Of.PhandleList

/-!
The loop over the lines of a map. It is the same for the maps that lists of phandles go through
(`of_parse_phandle_with_args_map`, `base.c`) and for interrupt maps (`of_irq_parse_raw`, `irq.c`), up to
how many cells a node asks for and what becomes of the error (`MapRules`).

A line has a specifier that is compared, a phandle, and the specifier for the node of this phandle.
-/

namespace GfpDrivers.Of

open Lib

/-- A pointer into an array of cells: the array on the stack, or the map of a node. -/
inductive CellPtr where
  | initialMatchArray
  | map (np : ℕ) (name : String) (off : ℤ)
deriving DecidableEq

/-- The cell `j` of a property. What is in front of the value is `stray`. -/
def propertyCell (v : TreeView) (stray : ℕ → ℤ → ℕ) (np : ℕ) (name : String) (j : ℤ) : ℕ :=
  if j < 0 then stray np j
  else
    match v.ofGetProperty np name with
    | none => 0
    | some (value, _) => cells value j.toNat

/-- Reading a cell of a map. -/
def readMap (v : TreeView) (stray : ℕ → ℤ → ℕ) (np : ℕ) (name : String) (j : ℤ) : Traced ParseEvent ℕ := do
  Traced.emit (.access (.map np name) j)
  pure (propertyCell v stray np name j)

/-- Reading `match_array[i]`. -/
def readMatchArray (v : TreeView) (stray : ℕ → ℤ → ℕ) (initial : ℕ → ℕ) (p : CellPtr) (i : ℕ) : Traced ParseEvent ℕ :=
  match p with
  | .initialMatchArray => do
      Traced.emit (.access .initialMatchArray i)
      pure (initial i)
  | .map np name off => readMap v stray np name (off + i)

/-- The loop that compares specifiers, with `n` cells left from the cell `i` on. -/
def compareCells (readMatch readEntry : ℕ → Traced ParseEvent ℕ) (mask : ℕ → ℕ) : ℕ → ℕ → Bool → Traced ParseEvent Bool
  | 0, _, matched => pure matched
  | n + 1, i, matched => do
      let a ← readMatch i
      let b ← readEntry i
      compareCells readMatch readEntry mask n (i + 1) (matched && (a ^^^ b) &&& mask i = 0)

/-- The cells of an optional property, or else `dummy` in all places. -/
def optionalCells (v : TreeView) (np : ℕ) (name : String) (dummy : ℕ) (i : ℕ) : ℕ :=
  match v.ofGetProperty np name with
  | none => dummy
  | some (value, _) => cells value i

/-- What is behind the lines that can be read: less than a line, a phandle of no node, a node whose
number of cells cannot be read, or a specifier that is too long. -/
inductive MapStop where
  | short
  | unknown
  | noCells (ret : ℤ)
  | tooLong

/-- What the maps differ in: the names of the property and of its mask, the number of cells that a node
asks for, whether the reference to the node of the last line is dropped, and what becomes of the error
behind a line and where the reading stops. -/
structure MapRules where
  map : String
  mask : String
  size : ℕ → Except ℤ ℕ
  dropsOld : Bool
  retLine : ℤ → ℤ
  retStop : MapStop → ℤ → ℤ

/-- The variables of the loop over a map: `pos` is the place in it, and `mapLen` what is left. -/
structure MapScan where
  new : Option ℕ
  pos : ℕ
  mapLen : ℕ
  matched : Bool
  newSize : ℕ
  ret : ℤ

/-- Dropping the reference to the node of the last line, where this is done. -/
def dropOld (dropsOld : Bool) (new : Option ℕ) : Traced ParseEvent Unit :=
  if dropsOld then ofNodePut new else pure ()

/-- The loop over the map of `cur`. The second result tells that it was left by a jump. The size of the
specifiers is such that `listSize + 1` does not wrap. -/
def scanMap (v : TreeView) (stray : ℕ → ℤ → ℕ) (rules : MapRules) (initial : ℕ → ℕ) (cur listSize : ℕ)
    (matchArray : CellPtr) : ℕ → MapScan → Traced ParseEvent (MapScan × Bool)
  | 0, _ => Traced.unfinished
  | rounds + 1, st =>
      if st.mapLen > listSize + 1 ∧ st.matched = false then do
        let matched ← compareCells (readMatchArray v stray initial matchArray)
          (fun i => readMap v stray cur rules.map (st.pos + i)) (optionalCells v cur rules.mask 0xffffffff) listSize 0 true
        dropOld rules.dropsOld st.new
        let handle ← readMap v stray cur rules.map (st.pos + listSize)
        let new ← getNodeByPhandle v handle
        match new with
        | none => pure ({ st with new := none, matched := matched, ret := rules.retStop .unknown st.ret }, true)
        | some node =>
            let matched := matched && v.ofDeviceIsAvailable node
            match rules.size node with
            | .error ret =>
                pure ({ st with new := some node, matched := matched, ret := rules.retStop (.noCells ret) st.ret }, true)
            | .ok newSize =>
                let st : MapScan :=
                  ⟨some node, st.pos + (listSize + 1), st.mapLen - (listSize + 1), matched, newSize, rules.retLine st.ret⟩
                if newSize > maxPhandleArgs ∨ st.mapLen < newSize then
                  pure ({ st with ret := rules.retStop .tooLong st.ret }, true)
                else
                  scanMap v stray rules initial cur listSize matchArray rounds
                    { st with pos := st.pos + newSize, mapLen := st.mapLen - newSize }
      else pure (st, false)

end GfpDrivers.Of
