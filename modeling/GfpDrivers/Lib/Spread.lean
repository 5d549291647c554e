import Mathlib.Algebra.Order.BigOperators.Group.Finset

/-!
Values that are moved one at a time toward their targets, and stay within a
fixed distance of one another. Each move shortens the total distance to the
targets. If no value can move, then all of them are at their targets: the value
that blocks another one is even further off, and nothing blocks that one.
-/

namespace GfpDrivers.Lib

variable {ι : Type*} {I : Finset ι} {S : ℤ} {v t : ι → ℤ} {i : ι} {w : ℤ}

/-- The values are within `S` of one another. -/
def Close (I : Finset ι) (S : ℤ) (v : ι → ℤ) : Prop := ∀ i ∈ I, ∀ j ∈ I, v i ≤ v j + S

/-- `w` is on the way from `a` to `b`. -/
def Toward (a b w : ℤ) : Prop := a ≤ w ∧ w ≤ b ∨ b ≤ w ∧ w ≤ a

theorem Toward.refl (a b : ℤ) : Toward a b a := by
  unfold Toward
  omega

theorem Toward.trans {a b x y : ℤ} (h : Toward a b x) (h' : Toward a x y) : Toward a b y := by
  unfold Toward at *
  omega

theorem Close.update [DecidableEq ι] (h : Close I S v) (hS : 0 ≤ S)
    (hw : ∀ j ∈ I, j ≠ i → w ≤ v j + S ∧ v j ≤ w + S) : Close I S (Function.update v i w) := by
  intro j hj k hk
  by_cases hji : j = i <;> by_cases hki : k = i
  · subst hji hki
    simpa using hS
  · subst hji
    rw [Function.update_self, Function.update_of_ne hki]
    exact (hw k hk hki).1
  · subst hki
    rw [Function.update_self, Function.update_of_ne hji]
    exact (hw j hj hji).2
  · rw [Function.update_of_ne hji, Function.update_of_ne hki]
    exact h j hj k hk

/-! ### Progress -/

/-- How far the values are from their targets. -/
def distance (I : Finset ι) (v t : ι → ℤ) : ℕ := ∑ i ∈ I, (v i - t i).natAbs

theorem distance_update_lt [DecidableEq ι] (hi : i ∈ I) (hw : Toward (v i) (t i) w) (hne : w ≠ v i) :
    distance I (Function.update v i w) t < distance I v t := by
  unfold Toward at hw
  refine Finset.sum_lt_sum (fun j hj => ?_) ⟨i, hi, ?_⟩
  · by_cases hji : j = i
    · subst hji
      rw [Function.update_self]
      omega
    · rw [Function.update_of_ne hji]
  · rw [Function.update_self]
    omega

/-- A value is blocked if it cannot move toward its target. -/
def Blocked (I : Finset ι) (S : ℤ) (v t : ι → ℤ) (i : ι) : Prop :=
  (v i < t i → ∃ j ∈ I, v j + S ≤ v i) ∧ (t i < v i → ∃ j ∈ I, v i + S ≤ v j)

theorem eq_of_blocked (hS : 0 < S) (hv : Close I S v) (ht : Close I S t)
    (hb : ∀ i ∈ I, Blocked I S v t i) : ∀ i ∈ I, v i = t i := by
  intro i hi
  rcases lt_trichotomy (v i) (t i) with hlt | heq | hgt
  · obtain ⟨j, hj, hji⟩ := (hb i hi).1 hlt
    have htij := ht i hi j hj
    obtain ⟨k, hk, hkj⟩ := (hb j hj).1 (by omega)
    have hvik := hv i hi k hk
    omega
  · exact heq
  · obtain ⟨j, hj, hji⟩ := (hb i hi).2 hgt
    have htji := ht j hj i hi
    obtain ⟨k, hk, hkj⟩ := (hb j hj).2 (by omega)
    have hvki := hv k hk i hi
    omega

end GfpDrivers.Lib
