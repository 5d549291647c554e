import Mathlib.Algebra.Ring.Nat
import Mathlib.Data.List.Pairwise

/-!
A byte buffer as a stream of bits, least significant bit of each byte first,
and what a sequence of writes to disjoint bit ranges leaves in it.
-/

namespace GfpDrivers.Lib

/-- Bit `j` of a byte buffer. -/
def bitAt (buf : ℕ → BitVec 8) (j : ℕ) : Bool := (buf (j / 8)).getLsbD (j % 8)

/-- The number that `n` bits of a buffer form, the first bit being the lowest. -/
def numberAt (buf : ℕ → BitVec 8) (j : ℕ) : ℕ → ℕ
  | 0 => 0
  | n + 1 => 2 ^ n * (bitAt buf (j + n)).toNat + numberAt buf j n

theorem numberAt_lt (buf : ℕ → BitVec 8) (j n : ℕ) : numberAt buf j n < 2 ^ n := by
  induction n with
  | zero => exact Nat.one_pos
  | succ n ih =>
    have hbit := Nat.mul_le_mul_left (2 ^ n) (Bool.toNat_le (bitAt buf (j + n)))
    rw [numberAt, Nat.pow_succ]
    omega

theorem testBit_numberAt (buf : ℕ → BitVec 8) (j n k : ℕ) :
    (numberAt buf j n).testBit k = (decide (k < n) && bitAt buf (j + k)) := by
  induction n with
  | zero => simp [numberAt]
  | succ n ih =>
    rw [numberAt, Nat.testBit_two_pow_mul_add _ (numberAt_lt buf j n), ih]
    rcases Nat.lt_trichotomy k n with hlt | rfl | hgt
    · simp [hlt, Nat.lt_succ_of_lt hlt]
    · cases bitAt buf (j + k) <;> simp
    · have hpow : 1 < 2 ^ (k - n) := Nat.one_lt_two_pow (by omega)
      have hhigh : (bitAt buf (j + n)).toNat.testBit (k - n) = false :=
        Nat.testBit_lt_two_pow (Nat.lt_of_le_of_lt (Bool.toNat_le _) hpow)
      simp [hhigh, show ¬k < n by omega, show ¬k < n + 1 by omega]

theorem bitAt_update (buf : ℕ → BitVec 8) (idx : ℕ) (b : BitVec 8) (j : ℕ) :
    bitAt (Function.update buf idx b) j = if j / 8 = idx then b.getLsbD (j % 8) else bitAt buf j := by
  unfold bitAt
  by_cases h : j / 8 = idx
  · rw [h, Function.update_self, if_pos rfl]
  · rw [Function.update_of_ne h, if_neg h]

/-- A write that puts the bits `bits b` into the range `[lo b, hi b)` of the
stream and leaves every other bit alone. -/
def WritesRange {β : Type*} (write : β → (ℕ → BitVec 8) → ℕ → BitVec 8) (lo hi : β → ℕ)
    (bits : β → ℕ → Bool) (b : β) : Prop :=
  ∀ buf j, bitAt (write b buf) j =
    if lo b ≤ j ∧ j < hi b then bits b (j - lo b) else bitAt buf j

section

variable {β : Type*} {write : β → (ℕ → BitVec 8) → ℕ → BitVec 8} {lo hi : β → ℕ}
  {bits : β → ℕ → Bool}

/-- A bit outside all ranges written keeps its value. -/
theorem bitAt_foldl_of_notMem {l : List β} (hl : ∀ b ∈ l, WritesRange write lo hi bits b)
    {j : ℕ} (hj : ∀ b ∈ l, ¬ (lo b ≤ j ∧ j < hi b)) (buf : ℕ → BitVec 8) :
    bitAt (l.foldl (fun d b => write b d) buf) j = bitAt buf j := by
  induction l generalizing buf with
  | nil => rfl
  | cons b l ih =>
    rw [List.foldl_cons, ih (fun c hc => hl c (by simp [hc])) (fun c hc => hj c (by simp [hc])),
      hl b (by simp) buf j, if_neg (hj b (by simp))]

/-- After writes to pairwise disjoint ranges every range holds what was
written to it. -/
theorem bitAt_foldl_of_mem {l : List β} (hl : ∀ b ∈ l, WritesRange write lo hi bits b)
    (hdisj : l.Pairwise fun b c => hi b ≤ lo c ∨ hi c ≤ lo b) {b : β} (hb : b ∈ l) {j : ℕ}
    (hj : lo b ≤ j ∧ j < hi b) (buf : ℕ → BitVec 8) :
    bitAt (l.foldl (fun d b => write b d) buf) j = bits b (j - lo b) := by
  induction l generalizing buf with
  | nil => simp at hb
  | cons c l ih =>
    rw [List.foldl_cons]
    rw [List.pairwise_cons] at hdisj
    rcases List.mem_cons.mp hb with rfl | hb
    · -- later writes do not reach into the range of the first one
      have hoff : ∀ d ∈ l, ¬ (lo d ≤ j ∧ j < hi d) := by
        intro d hd hin
        rcases hdisj.1 d hd with h | h <;> omega
      rw [bitAt_foldl_of_notMem (fun d hd => hl d (by simp [hd])) hoff,
        hl b (by simp) buf j, if_pos hj]
    · exact ih (fun d hd => hl d (by simp [hd])) hdisj.2 hb _

end

end GfpDrivers.Lib
