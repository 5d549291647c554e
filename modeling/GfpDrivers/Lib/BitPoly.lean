import Mathlib.Algebra.Field.ZMod
import Mathlib.Algebra.Polynomial.Div
import Mathlib.RingTheory.Coprime.Lemmas

/-!
Bit vectors as polynomials over the field with two elements: bit `i` is the coefficient of `X ^ i`, and exclusive or
is addition. A string of bytes is a polynomial too, its first byte with the highest powers. A polynomial with constant
term 1 divides no burst that is shorter than its degree (`not_dvd_burst`).
-/

namespace GfpDrivers.Lib

open Polynomial

/-- Polynomials over the field with two elements. -/
abbrev BitPoly := (ZMod 2)[X]

variable {w w' : ℕ} {v v' : BitVec w} {f g P : BitPoly} {i k : ℕ}

noncomputable def toPoly (v : BitVec w) : BitPoly := ∑ i ∈ Finset.range w, if v.getLsbD i then X ^ i else 0

theorem coeff_toPoly (v : BitVec w) (i : ℕ) : (toPoly v).coeff i = if v.getLsbD i then 1 else 0 := by
  rw [toPoly, finsetSum_coeff]
  rcases Nat.lt_or_ge i w with hi | hi
  · rw [Finset.sum_eq_single_of_mem i (Finset.mem_range.mpr hi)]
    · split_ifs <;> simp
    · intro j _ hj
      split_ifs
      · rw [coeff_X_pow, if_neg (Ne.symm hj)]
      · rfl
  · rw [BitVec.getLsbD_of_ge v i hi, if_neg Bool.false_ne_true]
    refine Finset.sum_eq_zero fun j hj => ?_
    have hij : i ≠ j := fun heq => absurd (Finset.mem_range.mp hj) (by omega)
    split_ifs
    · rw [coeff_X_pow, if_neg hij]
    · rfl

theorem toPoly_inj : toPoly v = toPoly v' ↔ v = v' := by
  refine ⟨fun h => BitVec.eq_of_getLsbD_eq fun i _ => ?_, fun h => h ▸ rfl⟩
  have hi := congrArg (fun f => coeff f i) h
  simp only [coeff_toPoly] at hi
  cases hv : v.getLsbD i <;> cases hv' : v'.getLsbD i <;> simp_all

@[simp] theorem toPoly_zero : toPoly (0 : BitVec w) = 0 := by
  ext i
  rw [coeff_toPoly]
  simp

theorem toPoly_xor (v v' : BitVec w) : toPoly (v ^^^ v') = toPoly v + toPoly v' := by
  ext i
  rw [coeff_add, coeff_toPoly, coeff_toPoly, coeff_toPoly, BitVec.getLsbD_xor]
  cases v.getLsbD i <;> cases v'.getLsbD i <;> decide

theorem degree_toPoly_lt (v : BitVec w) : (toPoly v).degree < w := by
  rw [degree_lt_iff_coeff_zero]
  intro i hi
  rw [coeff_toPoly, BitVec.getLsbD_of_ge v i hi, if_neg Bool.false_ne_true]

/-- Shifting a vector whose last bit is clear. -/
theorem toPoly_shiftLeft_one (h : v.getLsbD (w - 1) = false) : toPoly (v <<< 1) = X * toPoly v := by
  ext i
  cases i with
  | zero => simp [coeff_toPoly]
  | succ i =>
    rw [coeff_X_mul, coeff_toPoly, coeff_toPoly, BitVec.getLsbD_shiftLeft]
    by_cases hi : i + 1 < w
    · simp [hi]
    · have hclear : v.getLsbD i = false := by
        rcases Nat.lt_or_ge i w with hlt | hge
        · rwa [show i = w - 1 by omega]
        · exact BitVec.getLsbD_of_ge v i hge
      simp [hi, hclear]

/-- A wider vector with the same bits, at higher places. -/
theorem toPoly_setWidth_shiftLeft (v : BitVec w) (h : w + k ≤ w') :
    toPoly ((v.setWidth w') <<< k) = X ^ k * toPoly v := by
  ext i
  rw [coeff_X_pow_mul', coeff_toPoly, BitVec.getLsbD_shiftLeft, BitVec.getLsbD_setWidth]
  by_cases hk : k ≤ i
  · rw [if_pos hk, coeff_toPoly]
    by_cases hi : i < w'
    · have hik : i - k < w' := by omega
      simp [hi, hik, Nat.not_lt.mpr hk]
    · have hge : w ≤ i - k := by omega
      simp [hi, BitVec.getLsbD_of_ge v (i - k) hge]
  · simp [hk, Nat.lt_of_not_le hk]

/-- The upper bits of a vector whose lower ones are clear. -/
theorem toPoly_ushiftRight {u : BitVec (w + k)} (h : toPoly u = X ^ k * f) : toPoly ((u >>> k).setWidth w) = f := by
  ext i
  have hi : (toPoly u).coeff (i + k) = f.coeff i := by rw [h, coeff_X_pow_mul]
  rw [← hi, coeff_toPoly, coeff_toPoly, BitVec.getLsbD_setWidth, BitVec.getLsbD_ushiftRight, Nat.add_comm k i]
  by_cases hlt : i < w
  · simp [hlt]
  · have hge : w + k ≤ i + k := by omega
    simp [hlt, BitVec.getLsbD_of_ge u (i + k) hge]

/-! ### Strings of bytes -/

/-- The polynomial of a string of bytes. -/
noncomputable def bytesPoly (bytes : List (BitVec 8)) : BitPoly :=
  bytes.foldl (fun f b => f * X ^ 8 + toPoly b) 0

variable {bytes bytes' : List (BitVec 8)} {b : BitVec 8}

theorem foldl_bytesPoly (f : BitPoly) (bytes : List (BitVec 8)) :
    bytes.foldl (fun f b => f * X ^ 8 + toPoly b) f = f * X ^ (8 * bytes.length) + bytesPoly bytes := by
  induction bytes generalizing f with
  | nil => simp [bytesPoly]
  | cons b bytes ih =>
    rw [bytesPoly, List.foldl_cons, List.foldl_cons, ih, ih, List.length_cons]
    ring

theorem bytesPoly_cons (b : BitVec 8) (bytes : List (BitVec 8)) :
    bytesPoly (b :: bytes) = toPoly b * X ^ (8 * bytes.length) + bytesPoly bytes := by
  rw [bytesPoly, List.foldl_cons, foldl_bytesPoly]
  ring

theorem bytesPoly_concat (bytes : List (BitVec 8)) (b : BitVec 8) :
    bytesPoly (bytes ++ [b]) = bytesPoly bytes * X ^ 8 + toPoly b := by
  rw [bytesPoly, List.foldl_append]
  rfl

/-- Bit `i` of the byte that has `j` bytes behind it. -/
theorem coeff_bytesPoly (bytes : List (BitVec 8)) (j : ℕ) (hi : i < 8) :
    (bytesPoly bytes).coeff (8 * j + i) = if (bytes.reverse.getD j 0).getLsbD i then 1 else 0 := by
  induction bytes using List.reverseRecOn generalizing j with
  | nil => simp [bytesPoly]
  | append_singleton bytes b ih =>
    rw [bytesPoly_concat, coeff_add, coeff_mul_X_pow', List.reverse_append, List.reverse_singleton, List.singleton_append]
    cases j with
    | zero =>
      rw [if_neg (by omega), zero_add, coeff_toPoly, Nat.mul_zero, Nat.zero_add, List.getD_cons_zero]
    | succ j =>
      have hsub : 8 * (j + 1) + i - 8 = 8 * j + i := by omega
      rw [if_pos (by omega), hsub, ih, coeff_toPoly, BitVec.getLsbD_of_ge b _ (by omega), if_neg Bool.false_ne_true,
        add_zero, List.getD_cons_succ]

/-- Errors add up. -/
theorem bytesPoly_zipWith_xor (h : bytes.length = bytes'.length) :
    bytesPoly (List.zipWith (· ^^^ ·) bytes bytes') = bytesPoly bytes + bytesPoly bytes' := by
  induction bytes generalizing bytes' with
  | nil =>
    obtain rfl := List.length_eq_zero_iff.mp h.symm
    simp [bytesPoly]
  | cons b bytes ih =>
    cases bytes' with
    | nil => cases h
    | cons b' bytes' =>
      have hlen : bytes.length = bytes'.length := Nat.succ.inj h
      rw [List.zipWith_cons_cons, bytesPoly_cons, bytesPoly_cons, bytesPoly_cons, ih hlen, toPoly_xor,
        List.length_zipWith, ← hlen, Nat.min_self]
      ring

/-! ### Bursts -/

/-- All bits that are set are among `n` consecutive ones. -/
def IsBurst (n : ℕ) (f : BitPoly) : Prop := f ≠ 0 ∧ ∃ k, ∀ i, f.coeff i ≠ 0 → k ≤ i ∧ i < k + n

/-- No burst shorter than the degree is divided. -/
theorem not_dvd_burst {n : ℕ} (hP : P.coeff 0 = 1) (hdeg : n ≤ P.natDegree) (hf : IsBurst n f) : ¬P ∣ f := by
  obtain ⟨hne, k, hk⟩ := hf
  have hfactor : X ^ k ∣ f := X_pow_dvd_iff.mpr fun d hd => by
    by_contra hcoeff
    exact absurd (hk d hcoeff).1 (Nat.not_le.mpr hd)
  obtain ⟨g, rfl⟩ := hfactor
  intro hdvd
  have hcoprime : IsCoprime P (X ^ k) := by
    refine IsCoprime.pow_right ⟨1, -divX P, ?_⟩
    have hsplit := divX_mul_X_add P
    rw [hP, map_one] at hsplit
    calc 1 * P + -divX P * X = divX P * X + 1 - divX P * X := by rw [hsplit, one_mul, neg_mul, sub_eq_add_neg]
      _ = 1 := add_sub_cancel_left _ _
  have hg : P ∣ g := hcoprime.dvd_of_dvd_mul_left hdvd
  have hg0 : g ≠ 0 := right_ne_zero_of_mul hne
  have hlt : g.natDegree < n := by
    have hlead : (X ^ k * g).coeff (g.natDegree + k) ≠ 0 := by
      rw [coeff_X_pow_mul]
      exact leadingCoeff_ne_zero.mpr hg0
    have hbound := (hk _ hlead).2
    omega
  have hle := natDegree_le_of_dvd hg hg0
  omega

end GfpDrivers.Lib
