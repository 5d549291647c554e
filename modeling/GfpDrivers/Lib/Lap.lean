import Mathlib.Data.Nat.Notation

/-!
Positions on a ring of `num` slots that is used lap after lap. A position is
counted from the start and never wraps; it has a slot, and a lap whose
parity is all a ring stores of it. The first lap has parity `true`.
-/

namespace GfpDrivers.Lib

/-- The slot of position `q`. -/
def slot (num q : ℕ) : ℕ := q % num

/-- The parity of the lap of position `q`. -/
def lap (num q : ℕ) : Bool := q / num % 2 = 0

variable {num q r n : ℕ}

theorem slot_lt (hnum : 0 < num) : slot num q < num := Nat.mod_lt q hnum

theorem slot_of_lt (h : q < num) : slot num q = q := Nat.mod_eq_of_lt h

theorem lap_of_lt (h : q < num) : lap num q = true := by
  simp [lap, Nat.div_eq_of_lt h]

/-- Slot and lap, when the number of laps is known. -/
theorem slot_mul_add (laps : ℕ) (h : q < num) : slot num (num * laps + q) = q := by
  rw [slot, Nat.mul_add_mod, Nat.mod_eq_of_lt h]

theorem lap_mul_add (laps : ℕ) (hnum : 0 < num) :
    lap num (num * laps + q) = decide ((laps + q / num) % 2 = 0) := by
  rw [lap, Nat.mul_add_div hnum]

/-- Where at most one whole lap leads. -/
theorem slot_add (hnum : 0 < num) (hn : n ≤ num) :
    slot num (q + n) =
      if num ≤ slot num q + n then slot num q + n - num else slot num q + n := by
  have hlt := slot_lt (q := q) hnum
  have hmod : slot num (q + n) = (slot num q + n) % num := (Nat.mod_add_mod q num n).symm
  rw [hmod]
  split
  · next hle => rw [Nat.mod_eq_sub_mod hle, Nat.mod_eq_of_lt (by omega)]
  · exact Nat.mod_eq_of_lt (by omega)

theorem lap_add (hnum : 0 < num) (hn : n ≤ num) :
    lap num (q + n) = if num ≤ slot num q + n then !lap num q else lap num q := by
  have hlt := slot_lt (q := q) hnum
  have hdiv : (q + n) / num = q / num + (slot num q + n) / num := by
    have hq : q + n = num * (q / num) + (slot num q + n) := by
      have := Nat.div_add_mod q num
      simp only [slot]
      omega
    calc (q + n) / num = (num * (q / num) + (slot num q + n)) / num := by rw [← hq]
      _ = q / num + (slot num q + n) / num := Nat.mul_add_div hnum _ _
  simp only [lap, hdiv]
  split
  · next hle =>
      have hone : (slot num q + n) / num = 1 := by
        rw [Nat.div_eq_iff hnum]
        omega
      rw [hone]
      by_cases h : q / num % 2 = 0
      · have : (q / num + 1) % 2 ≠ 0 := by omega
        simp [h, this]
      · have : (q / num + 1) % 2 = 0 := by omega
        simp [h, this]
  · next hle =>
      have hnone : (slot num q + n) / num = 0 := Nat.div_eq_of_lt (by omega)
      rw [hnone, Nat.add_zero]

/-- Positions less than one lap apart have different slots. -/
theorem slot_ne (hlt : q < r) (hnum : r < q + num) : slot num q ≠ slot num r := by
  intro h
  have hzero : (r - q) % num = 0 := Nat.sub_mod_eq_zero_of_mod_eq h.symm
  rw [Nat.mod_eq_of_lt (by omega)] at hzero
  omega

theorem slot_inj (hq : q < r + num) (hr : r < q + num) (h : slot num q = slot num r) : q = r := by
  rcases Nat.lt_trichotomy q r with hlt | heq | hgt
  · exact absurd h (slot_ne hlt hr)
  · exact heq
  · exact absurd h.symm (slot_ne hgt hq)

end GfpDrivers.Lib
