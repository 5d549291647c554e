import Mathlib.Algebra.Ring.Nat
import Mathlib.Data.Fin.Basic
import Mathlib.Data.List.Basic

/-!
A buffer in memory, with a record of what was read and written. Addresses count from
the start of the buffer, and may point before it or behind it.
-/

namespace GfpDrivers.Lib

instance neZeroByte : NeZero 256 := ⟨by decide⟩

structure Window where
  byte : ℤ → Fin 256
  size : ℕ
  accesses : List (ℤ × ℕ)

namespace Window

/-- The `n` bytes from `a` on lie in the buffer. -/
def Holds (w : Window) (a : ℤ) (n : ℕ) : Prop := 0 ≤ a ∧ a + n ≤ w.size

/-- Nothing outside the buffer was accessed. -/
def Inside (w : Window) : Prop := ∀ x ∈ w.accesses, w.Holds x.1 x.2

def access (w : Window) (a : ℤ) (n : ℕ) : Window := { w with accesses := (a, n) :: w.accesses }

/-- The little-endian number of 32 bits at `a`. -/
def u32 (w : Window) (a : ℤ) : ℕ :=
  (w.byte a).val + 256 * (w.byte (a + 1)).val + 65536 * (w.byte (a + 2)).val + 16777216 * (w.byte (a + 3)).val

def write (w : Window) (a : ℤ) (n : ℕ) (buf : ℕ → Fin 256) : Window :=
  { w.access a n with byte := fun x => if a ≤ x ∧ x < a + n then buf (x - a).toNat else w.byte x }

/-- The bytes of a number, the lowest one first. -/
def digits (v : ℕ) : ℕ → Fin 256 := fun k => ⟨v / 256 ^ k % 256, Nat.mod_lt _ (by decide)⟩

/-- How many of at most `n` bytes from `a` on are read to find the end of a string. -/
def scan (byte : ℤ → Fin 256) : ℕ → ℤ → ℕ
  | 0, _ => 0
  | n + 1, a => if byte a = 0 then 1 else scan byte n (a + 1) + 1

/-- Reads a string. A string that does not end in the buffer is followed to the first
byte behind it. -/
def accessString (w : Window) (a : ℤ) : Window := w.access a (scan w.byte (w.size + 1 - a).toNat a)

variable {w : Window} {a : ℤ} {n : ℕ}

theorem u32_lt (w : Window) (a : ℤ) : w.u32 a < 2 ^ 32 := by
  unfold u32
  omega

theorem Inside.access (h : w.Inside) (ha : w.Holds a n) : (w.access a n).Inside := by
  intro x hx
  rcases List.mem_cons.mp hx with rfl | hx
  · exact ha
  · exact h x hx

theorem Inside.write (h : w.Inside) (ha : w.Holds a n) (buf : ℕ → Fin 256) : (w.write a n buf).Inside := h.access ha

/-- A write leaves the numbers before it. -/
theorem u32_write {b : ℤ} (hb : b + 4 ≤ a) (buf : ℕ → Fin 256) : (w.write a n buf).u32 b = w.u32 b := by
  have hbyte : ∀ x, x < a → (w.write a n buf).byte x = w.byte x := fun x hx => if_neg fun h => absurd h.1 (not_le.mpr hx)
  unfold u32
  rw [hbyte b (by omega), hbyte (b + 1) (by omega), hbyte (b + 2) (by omega), hbyte (b + 3) (by omega)]

/-- A string is read up to its end. -/
theorem scan_le {byte : ℤ → Fin 256} {k : ℕ} (hk : byte (a + k) = 0) (n : ℕ) : scan byte n a ≤ k + 1 := by
  induction n generalizing a k with
  | zero => exact Nat.zero_le _
  | succ n ih =>
    rw [scan]
    split
    case isTrue => omega
    case isFalse hne =>
      cases k with
      | zero => exact absurd (by simpa using hk) hne
      | succ k =>
        have hrest : byte (a + 1 + k) = 0 := by
          rw [← hk]
          congr 1
          push_cast
          omega
        exact Nat.succ_le_succ (ih hrest)

/-- The string at `a` ends in the buffer. -/
def Terminated (w : Window) (a : ℤ) : Prop := ∃ k : ℕ, a + k < w.size ∧ w.byte (a + k) = 0

theorem Inside.accessString (h : w.Inside) (ha : 0 ≤ a) (hend : w.Terminated a) : (w.accessString a).Inside := by
  obtain ⟨k, hk, hzero⟩ := hend
  have hle := scan_le hzero (w.size + 1 - a).toNat
  refine h.access ⟨ha, ?_⟩
  omega

end Window

end GfpDrivers.Lib
