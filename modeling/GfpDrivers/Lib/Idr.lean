import Mathlib.Data.List.Basic

/-!
A table of small integers, each of which names an object or is free. A new object
gets the smallest integer that is free.
-/

namespace GfpDrivers.Lib

/-- All integers from `bound` on are free. -/
structure Idr (α : Type*) where
  find : ℕ → Option α
  bound : ℕ
  free (k : ℕ) : bound ≤ k → find k = none

namespace Idr

variable {α : Type*}

def empty : Idr α := ⟨fun _ => none, 0, fun _ _ => rfl⟩

/-- The smallest integer that is free. -/
def nextId (idr : Idr α) : ℕ := ((List.range idr.bound).find? fun k => (idr.find k).isNone).getD idr.bound

theorem find_nextId (idr : Idr α) : idr.find idr.nextId = none := by
  unfold nextId
  cases h : (List.range idr.bound).find? fun k => (idr.find k).isNone with
  | none => exact idr.free _ (Nat.le_refl _)
  | some k =>
    have hnone := List.find?_some h
    exact Option.isNone_iff_eq_none.mp hnone

/-- `idr_alloc` -/
def alloc (idr : Idr α) (v : α) : Idr α where
  find := Function.update idr.find idr.nextId (some v)
  bound := max idr.bound (idr.nextId + 1)
  free k hk := by
    rw [Function.update_of_ne (by omega)]
    exact idr.free k (by omega)

/-- `idr_remove` -/
def remove (idr : Idr α) (id : ℕ) : Idr α where
  find := Function.update idr.find id none
  bound := idr.bound
  free k hk := by
    by_cases h : k = id
    · rw [h, Function.update_self]
    · rw [Function.update_of_ne h]
      exact idr.free k hk

theorem find_alloc (idr : Idr α) (v : α) (k : ℕ) :
    (idr.alloc v).find k = if k = idr.nextId then some v else idr.find k := Function.update_apply ..

theorem find_remove (idr : Idr α) (id k : ℕ) :
    (idr.remove id).find k = if k = id then none else idr.find k := Function.update_apply ..

end Idr

end GfpDrivers.Lib
