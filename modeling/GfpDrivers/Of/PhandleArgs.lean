import GfpDrivers.Lib.Traced
import GfpDrivers.Of.TreeView

/-!
Lists of phandles with arguments (`base.c`). An entry of a list is a phandle and as many cells as
the node that it leads to asks for; an entry of zero stands alone. `of_phandle_iterator_next` goes
from entry to entry, for `__of_parse_phandle_with_args` and for `of_count_phandle_with_args`.

The functions leave a trace: the references that they take and drop, and the cells of buffers of
fixed size that they touch.
-/

namespace GfpDrivers.Of

open Lib

/-- `MAX_PHANDLE_ARGS` -/
def maxPhandleArgs : ℕ := 16

/-- What is indexed: the local `initial_match_array`, the `args` of the result, or a map. -/
inductive Buffer where
  | initialMatchArray
  | args
  | map (np : ℕ) (name : String)
deriving DecidableEq

/-- `of_node_get`, `of_node_put`, and the access to a cell of a buffer. -/
inductive ParseEvent where
  | get (np : ℕ)
  | put (np : ℕ)
  | access (buf : Buffer) (i : ℤ)
deriving DecidableEq

/-- `struct of_phandle_args` -/
structure PhandleArgs where
  np : Option ℕ
  argsCount : ℕ
  args : ℕ → ℕ

/-- `struct of_phandle_iterator`. The pointers into the list are counted in cells. -/
structure PhandleIterator where
  cellsName : Option String
  cellCount : ℤ
  list : Bytes
  listEnd : ℕ
  phandleEnd : ℕ
  cur : Option ℕ
  curCount : ℕ
  phandle : ℕ
  node : Option ℕ

/-- `of_node_put` -/
def ofNodePut : Option ℕ → Traced ParseEvent Unit
  | none => pure ()
  | some np => Traced.emit (.put np)

/-- `of_node_get` -/
def ofNodeGet : Option ℕ → Traced ParseEvent Unit
  | none => pure ()
  | some np => Traced.emit (.get np)

/-- `of_find_node_by_phandle`, with the reference that it takes. -/
def getNodeByPhandle (v : TreeView) (handle : ℕ) : Traced ParseEvent (Option ℕ) := do
  ofNodeGet (v.ofFindNodeByPhandle handle)
  pure (v.ofFindNodeByPhandle handle)

/-- The bytes of an iterator that was not given a list. -/
def noBytes : Bytes := fun _ => 0

/-- `of_phandle_iterator_init` -/
def ofPhandleIteratorInit (v : TreeView) (np : ℕ) (listName : String) (cellsName : Option String) (cellCount : ℤ) :
    PhandleIterator × ℤ :=
  let it : PhandleIterator := ⟨none, 0, noBytes, 0, 0, none, 0, 0, none⟩
  if cellCount < 0 ∧ cellsName = none then (it, -EINVAL)
  else
    match v.ofGetProperty np listName with
    | none => (it, -ENOENT)
    | some (list, size) =>
        ({ it with
            cellsName := cellsName
            cellCount := cellCount
            list := list
            listEnd := size / 4
            phandleEnd := 0
            cur := some 0 }, 0)

/-- The number of arguments of the entry that the iterator has read. -/
def argumentCount (v : TreeView) (it : PhandleIterator) : Option ℕ :=
  match it.cellsName with
  | none => some it.cellCount.toNat
  | some cellsName =>
      match it.node with
      | none => none
      | some node =>
          match v.ofPropertyReadU32 node cellsName with
          | .ok count => some count
          | .error _ => if it.cellCount ≥ 0 then some it.cellCount.toNat else none

/-- `of_phandle_iterator_next` -/
def ofPhandleIteratorNext (v : TreeView) (it : PhandleIterator) : Traced ParseEvent (PhandleIterator × ℤ) := do
  ofNodePut it.node
  let it := { it with node := none }
  if it.cur = none ∨ it.phandleEnd ≥ it.listEnd then pure (it, -ENOENT)
  else
    let it := { it with cur := some (it.phandleEnd + 1), phandle := cells it.list it.phandleEnd }
    if it.phandle = 0 then pure ({ it with phandleEnd := it.phandleEnd + 1, curCount := 0 }, 0)
    else
      let node ← getNodeByPhandle v it.phandle
      let it := { it with node := node }
      match argumentCount v it with
      | none =>
          ofNodePut it.node
          pure ({ it with node := none }, -EINVAL)
      | some count =>
          if it.phandleEnd + 1 + count > it.listEnd then
            ofNodePut it.node
            pure ({ it with node := none }, -EINVAL)
          else pure ({ it with phandleEnd := it.phandleEnd + 1 + count, curCount := count }, 0)

/-- The loop of `of_phandle_iterator_args`, from the argument `i` on. -/
def copyArgs (it : PhandleIterator) (cur : ℕ) (args : ℕ → ℕ) : ℕ → ℕ → Traced ParseEvent (ℕ → ℕ)
  | 0, _ => pure args
  | count + 1, i => do
      Traced.emit (.access .args i)
      copyArgs it cur (Function.update args i (cells it.list (cur + i))) count (i + 1)

/-- `of_phandle_iterator_args`, with the arguments and their number. -/
def ofPhandleIteratorArgs (it : PhandleIterator) (args : ℕ → ℕ) (size : ℕ) : Traced ParseEvent ((ℕ → ℕ) × ℕ) := do
  let count := if size < it.curCount then size else it.curCount
  let args ← copyArgs it (it.cur.getD 0) args count 0
  pure (args, count)

/-- The loop of `__of_parse_phandle_with_args`. -/
def parseLoop (v : TreeView) (index : ℤ) (outArgs : Option PhandleArgs) :
    ℕ → PhandleIterator → ℤ → Traced ParseEvent (ℤ × Option PhandleArgs)
  | 0, _, _ => Traced.unfinished
  | rounds + 1, it, curIndex => do
      let (it, rc) ← ofPhandleIteratorNext v it
      if rc ≠ 0 then
        ofNodePut it.node
        pure (rc, outArgs)
      else if curIndex = index then
        if it.phandle = 0 then
          ofNodePut it.node
          pure (-ENOENT, outArgs)
        else
          match outArgs with
          | none =>
              ofNodePut it.node
              pure (0, none)
          | some out =>
              let (args, c) ← ofPhandleIteratorArgs it out.args maxPhandleArgs
              pure (0, some ⟨it.node, c, args⟩)
      else parseLoop v index outArgs rounds it (curIndex + 1)

/-- `__of_parse_phandle_with_args`. The result of `of_phandle_iterator_init` is not looked at. -/
def ofParsePhandleWithArgs (fuel : ℕ) (v : TreeView) (np : ℕ) (listName : String) (cellsName : Option String)
    (cellCount index : ℤ) (outArgs : Option PhandleArgs) : Traced ParseEvent (ℤ × Option PhandleArgs) :=
  if index < 0 then pure (-EINVAL, outArgs)
  else parseLoop v index outArgs fuel (ofPhandleIteratorInit v np listName cellsName cellCount).1 0

/-- The loop of `of_count_phandle_with_args`. -/
def countLoop (v : TreeView) : ℕ → PhandleIterator → ℤ → Traced ParseEvent ℤ
  | 0, _, _ => Traced.unfinished
  | rounds + 1, it, curIndex => do
      let (it, rc) ← ofPhandleIteratorNext v it
      if rc = 0 then countLoop v rounds it (curIndex + 1)
      else if rc ≠ -ENOENT then pure rc
      else pure curIndex

/-- `of_count_phandle_with_args` -/
def ofCountPhandleWithArgs (fuel : ℕ) (v : TreeView) (np : ℕ) (listName : String) (cellsName : Option String) :
    Traced ParseEvent ℤ :=
  match cellsName with
  | none =>
      match v.ofGetProperty np listName with
      | none => pure (-ENOENT)
      | some (_, size) => pure (size / 4 : ℕ)
  | some _ =>
      let (it, rc) := ofPhandleIteratorInit v np listName cellsName (-1)
      if rc ≠ 0 then pure rc else countLoop v fuel it 0

end GfpDrivers.Of
