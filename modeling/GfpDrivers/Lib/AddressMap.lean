import Mathlib.Data.List.Basic

/-!
Maps between address spaces. A map lets an address through as it is, or through the first of
its windows that contains the address, or not at all. Maps are composed along a path from
one space to another.
-/

namespace GfpDrivers.Lib

/-- The addresses from `child` to `child + size` are the ones from `parent` on at the other
side. -/
structure AddressWindow where
  child : ℕ
  parent : ℕ
  size : ℕ
deriving DecidableEq

namespace AddressWindow

def Contains (w : AddressWindow) (a : ℕ) : Prop := w.child ≤ a ∧ a < w.child + w.size

instance (w : AddressWindow) (a : ℕ) : Decidable (w.Contains a) := inferInstanceAs (Decidable (_ ∧ _))

def translate (w : AddressWindow) (a : ℕ) : ℕ := w.parent + (a - w.child)

end AddressWindow

inductive AddressMap where
  | closed
  | identity
  | windows (ws : List AddressWindow)

namespace AddressMap

/-- Where the map takes an address. -/
def apply : AddressMap → ℕ → Option ℕ
  | closed, _ => none
  | identity, a => some a
  | windows ws, a => (ws.find? fun w => w.Contains a).map fun w => w.translate a

/-- Where an address can get through one window or another. -/
def Reaches : AddressMap → ℕ → ℕ → Prop
  | closed, _, _ => False
  | identity, a, b => b = a
  | windows ws, a, b => ∃ w ∈ ws, w.Contains a ∧ b = w.translate a

/-- The map without the windows that end at `limit`. -/
def without (limit : ℕ) : AddressMap → AddressMap
  | windows ws => windows (ws.filter fun w => w.child + w.size ≠ limit)
  | m => m

theorem reaches_of_apply {m : AddressMap} {a b : ℕ} (h : m.apply a = some b) : m.Reaches a b := by
  cases m with
  | closed => simp [apply] at h
  | identity => exact (Option.some.inj h).symm
  | windows ws =>
    obtain ⟨w, hw, rfl⟩ := Option.map_eq_some_iff.1 h
    exact ⟨w, List.mem_of_find?_eq_some hw, by simpa using List.find?_some hw, rfl⟩

theorem Reaches.of_without {m : AddressMap} {limit a b : ℕ} (h : (m.without limit).Reaches a b) : m.Reaches a b := by
  cases m with
  | closed => exact h
  | identity => exact h
  | windows ws =>
    obtain ⟨w, hw, hin⟩ := h
    exact ⟨w, (List.mem_filter.1 hw).1, hin⟩

/-- The composition of the maps along a path. -/
def compose : List AddressMap → ℕ → Option ℕ
  | [], a => some a
  | m :: ms, a => (m.apply a).bind (compose ms)

end AddressMap

end GfpDrivers.Lib
