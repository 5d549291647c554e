import GfpDrivers.Of.MapLines

/-!
Lists of phandles whose nodes pass the reference on (`of_parse_phandle_with_args_map`, `base.c`). A
node with a map is a nexus: the map translates the arguments into another node with other arguments.

The loop over the levels keeps the node of the level in `cur` and the node that the map was left
with in `new`; after a translation both are the same node, with one reference.
-/

namespace GfpDrivers.Of

open Lib

/-- The names of the properties of a nexus. -/
structure NexusNames where
  cells : String
  map : String
  mask : String
  pass : String

/-- The strings that `kasprintf` makes of the stem. -/
def nexusNames (stemName : String) : NexusNames where
  cells := "#" ++ stemName ++ "-cells"
  map := stemName ++ "-map"
  mask := stemName ++ "-map-mask"
  pass := stemName ++ "-map-pass-thru"

/-- The loop over the map of a nexus. The variable `ret` is that of `of_property_read_u32`. -/
def NexusNames.rules (names : NexusNames) (v : TreeView) : MapRules where
  map := names.map
  mask := names.mask
  size node := v.ofPropertyReadU32 node names.cells
  dropsOld := true
  retLine _ := 0
  retStop
    | .noCells ret, _ => ret
    | _, ret => ret

/-- The loop that copies the new specifier, with `n` cells left from the cell `i` on. The specifier
is at `start` in the map. -/
def copySpecifier (v : TreeView) (stray : ℕ → ℤ → ℕ) (names : NexusNames) (cur listSize start : ℕ) (pass : ℕ → ℕ) :
    ℕ → ℕ → (ℕ → ℕ) → Traced ParseEvent (ℕ → ℕ)
  | 0, _, args => pure args
  | n + 1, i, args => do
      let val ← readMap v stray cur names.map (start + i)
      if i < listSize then Traced.emit (.access .args i) else pure ()
      let val := if i < listSize then (val &&& (pass i ^^^ 0xffffffff)) ||| (args i &&& pass i) else val
      Traced.emit (.access .args i)
      copySpecifier v stray names cur listSize start pass n (i + 1) (Function.update args i val)

/-- The loop over the levels. -/
def mapLevels (fuel : ℕ) (v : TreeView) (stray : ℕ → ℤ → ℕ) (names : NexusNames) (initial : ℕ → ℕ) :
    ℕ → ℕ → Option ℕ → ℕ → CellPtr → ℤ → PhandleArgs → Traced ParseEvent (ℤ × PhandleArgs)
  | 0, _, _, _, _, _, _ => Traced.unfinished
  | rounds + 1, cur, new, listSize, matchArray, ret, out =>
      match v.ofGetProperty cur names.map with
      | none => pure (0, out)
      | some (_, mapLen) => do
          let (st, failed) ←
            scanMap v stray (names.rules v) initial cur listSize matchArray fuel ⟨new, 0, mapLen / 4, false, 0, ret⟩
          if failed ∨ st.matched = false then
            ofNodePut (some cur)
            ofNodePut st.new
            pure (st.ret, out)
          else
            let start := st.pos - st.newSize
            let args ← copySpecifier v stray names cur listSize start (optionalCells v cur names.pass 0) st.newSize 0 out.args
            let out : PhandleArgs := ⟨st.new, st.newSize, args⟩
            ofNodePut (some cur)
            match st.new with
            | none => pure (st.ret, out)
            | some node => mapLevels fuel v stray names initial rounds node (some node) st.newSize (.map cur names.map start) st.ret out

/-- The loop that fills `initial_match_array`, with `n` cells left from the cell `i` on. -/
def fillMatchArray (args : ℕ → ℕ) : ℕ → ℕ → (ℕ → ℕ) → Traced ParseEvent (ℕ → ℕ)
  | 0, _, initial => pure initial
  | n + 1, i, initial => do
      Traced.emit (.access .args i)
      Traced.emit (.access .initialMatchArray i)
      fillMatchArray args n (i + 1) (Function.update initial i (args i))

/-- `of_parse_phandle_with_args_map`. `alloc` tells which of the four strings can be allocated. -/
def ofParsePhandleWithArgsMap (fuel : ℕ) (v : TreeView) (stray : ℕ → ℤ → ℕ) (alloc : Fin 4 → Bool) (np : ℕ)
    (listName stemName : String) (index : ℤ) (out : PhandleArgs) : Traced ParseEvent (ℤ × PhandleArgs) :=
  if index < 0 then pure (-EINVAL, out)
  else if ∃ k, alloc k = false then pure (-ENOMEM, out)
  else do
    let (ret, found) ← ofParsePhandleWithArgs fuel v np listName (some (nexusNames stemName).cells) (-1) index (some out)
    let out := found.getD out
    if ret ≠ 0 then pure (ret, out)
    else
      match out.np with
      | none => pure (-EINVAL, out)
      | some cur =>
          match v.ofPropertyReadU32 cur (nexusNames stemName).cells with
          | .error ret =>
              ofNodePut (some cur)
              pure (ret, out)
          | .ok listSize =>
              let initial ← fillMatchArray out.args listSize 0 fun _ => 0
              mapLevels fuel v stray (nexusNames stemName) initial fuel cur none listSize .initialMatchArray (-EINVAL) out

/-! ### The array for the first map -/

theorem fillMatchArray_result (args : ℕ → ℕ) (n i : ℕ) (initial : ℕ → ℕ) :
    (fillMatchArray args n i initial).result = some fun j => if i ≤ j ∧ j < i + n then args j else initial j := by
  induction n generalizing i initial with
  | zero =>
    rw [fillMatchArray, Traced.result_pure]
    congr 1
    funext j
    rw [if_neg (by omega)]
  | succ n ih =>
    rw [fillMatchArray, Traced.result_bind, Traced.result_emit, Option.bind_some, Traced.result_bind, Traced.result_emit,
      Option.bind_some, ih]
    exact congrArg some (update_overwrite args initial i n)

/-- The array as it is filled. -/
def nexusMatchArray (args : ℕ → ℕ) (n i : ℕ) : ℕ := if i < n then args i else 0

theorem fillMatchArray_eq (args : ℕ → ℕ) (n : ℕ) :
    (fillMatchArray args n 0 fun _ => 0).result = some (nexusMatchArray args n) := by
  rw [fillMatchArray_result]
  simp only [Nat.zero_le, true_and, Nat.zero_add]
  rfl

end GfpDrivers.Of
