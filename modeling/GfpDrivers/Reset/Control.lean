import GfpDrivers.Basic
import GfpDrivers.Lib.TryAll

/-!
Reset controls (`reset/core.c`). A shared line is deasserted by its first user and
asserted by its last, with `deassert_count` counting the users in between; the count
is changed before the callback of the controller is called. The array and bulk forms
go through a list of controls and undo what they did when one of them fails.

The controls of an array or a bulk list are single ones, as the functions that get
them return them. The results of the callbacks come from outside.
-/

namespace GfpDrivers.Reset

open Lib

/-- A pointer to a single reset control. -/
inductive Rstc (ν : Type) where
  | null
  | invalid
  | line (x : ν)
deriving DecidableEq

/-- A `struct reset_control`, which may be the head of an array. -/
inductive ResetControl (ν : Type) where
  | single (r : Rstc ν)
  | array (rs : List (Rstc ν))

inductive HwOp where
  | assert
  | deassert
deriving DecidableEq

/-- What is fixed of the controls: whether they are shared, and which callbacks
their controllers have. A controller that can assert a line can deassert it. -/
structure Controller (ν : Type) where
  shared : ν → Bool
  hasAssert : ν → Bool
  hasDeassert : ν → Bool
  paired : ∀ x, hasAssert x = true → hasDeassert x = true

/-- The state of the controls, with the last successful operation on each line. -/
structure ResetState (ν : Type) where
  deassertCount : ν → ℕ
  triggeredCount : ν → ℤ
  acquired : ν → Bool
  line : ν → Option HwOp

/-- The results of the callbacks that a call makes for its controls, on the way and
when it undoes what it did. -/
structure Env where
  main : ℕ → ℤ
  back : ℕ → ℤ

variable {ν : Type} [DecidableEq ν]

/-- A callback with the result `out`. -/
def hwCall (s : ResetState ν) (x : ν) (op : HwOp) (out : ℤ) : ResetState ν × ℤ :=
  (if out = 0 then { s with line := Function.update s.line x (some op) } else s, out)

/-- `reset_control_assert` of a single control -/
def assertRstc (c : Controller ν) (out : ℤ) (s : ResetState ν) : Rstc ν → ResetState ν × ℤ
  | .null => (s, 0)
  | .invalid => (s, -EINVAL)
  | .line x =>
      if c.shared x then
        if s.triggeredCount x ≠ 0 then (s, -EINVAL)
        else if s.deassertCount x = 0 then (s, -EINVAL)
        else
          let count := s.deassertCount x - 1
          let s := { s with deassertCount := Function.update s.deassertCount x count }
          if count ≠ 0 then (s, 0)
          else if c.hasAssert x = false then (s, 0)
          else hwCall s x .assert out
      else if c.hasAssert x = false then (s, -ENOTSUPP)
      else if s.acquired x = false then (s, -EPERM)
      else hwCall s x .assert out

/-- `reset_control_deassert` of a single control -/
def deassertRstc (c : Controller ν) (out : ℤ) (s : ResetState ν) : Rstc ν → ResetState ν × ℤ
  | .null => (s, 0)
  | .invalid => (s, -EINVAL)
  | .line x =>
      if c.shared x ∧ s.triggeredCount x ≠ 0 then (s, -EINVAL)
      else if c.shared x = false ∧ s.acquired x = false then (s, -EPERM)
      else
        let count := s.deassertCount x + 1
        let counted := { s with deassertCount := Function.update s.deassertCount x count }
        if c.shared x ∧ count ≠ 1 then (counted, 0)
        else
          let s := if c.shared x then counted else s
          if c.hasDeassert x = false then (s, 0) else hwCall s x .deassert out

section Forms

variable (c : Controller ν) (env : Env)

def assertWith (results : ℕ → ℤ) (s : ResetState ν) (r : Rstc ν × ℕ) : ResetState ν × ℤ :=
  assertRstc c (results r.2) s r.1

def deassertWith (results : ℕ → ℤ) (s : ResetState ν) (r : Rstc ν × ℕ) : ResetState ν × ℤ :=
  deassertRstc c (results r.2) s r.1

/-- `reset_control_array_assert` -/
def resetControlArrayAssert (rs : List (Rstc ν)) (s : ResetState ν) : ResetState ν × ℤ :=
  match tryAll (assertWith c env.main) rs.zipIdx [] s with
  | (s, ret, visited) =>
      if ret ≠ 0 then (unwind (deassertWith c env.back) visited.tail s, ret) else (s, 0)

/-- `reset_control_array_deassert` -/
def resetControlArrayDeassert (rs : List (Rstc ν)) (s : ResetState ν) : ResetState ν × ℤ :=
  match tryAll (deassertWith c env.main) rs.zipIdx [] s with
  | (s, ret, visited) =>
      if ret ≠ 0 then (unwind (assertWith c env.back) visited.tail s, ret) else (s, 0)

/-- `reset_control_assert` -/
def resetControlAssert (r : ResetControl ν) (s : ResetState ν) : ResetState ν × ℤ :=
  match r with
  | .single r => assertRstc c (env.main 0) s r
  | .array rs => resetControlArrayAssert c env rs s

/-- `reset_control_deassert` -/
def resetControlDeassert (r : ResetControl ν) (s : ResetState ν) : ResetState ν × ℤ :=
  match r with
  | .single r => deassertRstc c (env.main 0) s r
  | .array rs => resetControlArrayDeassert c env rs s

/-- `reset_control_bulk_assert` -/
def resetControlBulkAssert (rs : List (Rstc ν)) (s : ResetState ν) : ResetState ν × ℤ :=
  match tryAll (assertWith c env.main) rs.zipIdx [] s with
  | (s, ret, visited) =>
      if ret ≠ 0 then (unwind (deassertWith c env.back) visited.tail s, ret) else (s, 0)

/-- `reset_control_bulk_deassert`, which goes through the list from its end. The loop
that undoes it starts with the control that failed. -/
def resetControlBulkDeassert (rs : List (Rstc ν)) (s : ResetState ν) : ResetState ν × ℤ :=
  match tryAll (deassertWith c env.main) rs.zipIdx.reverse [] s with
  | (s, ret, visited) => if ret ≠ 0 then (unwind (assertWith c env.back) visited s, ret) else (s, 0)

end Forms

/-! ### Runs -/

inductive Call (ν : Type) where
  | assert (r : ResetControl ν)
  | deassert (r : ResetControl ν)
  | bulkAssert (rs : List (Rstc ν))
  | bulkDeassert (rs : List (Rstc ν))

def call (c : Controller ν) (env : Env) (s : ResetState ν) : Call ν → ResetState ν × ℤ
  | .assert r => resetControlAssert c env r s
  | .deassert r => resetControlDeassert c env r s
  | .bulkAssert rs => resetControlBulkAssert c env rs s
  | .bulkDeassert rs => resetControlBulkDeassert c env rs s

def step (c : Controller ν) (s : ResetState ν) (a : Call ν × Env) : Option (ResetState ν) :=
  some (call c a.2 s a.1).1

/-- The controls before their first use. -/
def ResetState.initial : ResetState ν where
  deassertCount := fun _ => 0
  triggeredCount := fun _ => 0
  acquired := fun _ => false
  line := fun _ => none

end GfpDrivers.Reset
