import Mathlib.Algebra.Order.Ring.Nat
import Mathlib.Order.Interval.Finset.Nat

/-!
A range cut into cells of one size. Blocks that are made of whole cells leave
a cell free as long as their lengths add up to less than the cells of the
range, wherever they lie.
-/

namespace GfpDrivers.Lib

/-- The least multiple of `a` from `x` on. -/
def roundUp (x a : ℕ) : ℕ := (x + (a - 1)) / a * a

section

variable {x a s : ℕ}

theorem dvd_roundUp (x a : ℕ) : a ∣ roundUp x a := Dvd.intro_left _ rfl

theorem le_roundUp (ha : 0 < a) : x ≤ roundUp x a := by
  have hmod := Nat.mod_lt (x + (a - 1)) ha
  have hdiv := Nat.div_add_mod (x + (a - 1)) a
  rw [Nat.mul_comm] at hdiv
  rw [roundUp]
  omega

theorem roundUp_le (ha : 0 < a) (hs : a ∣ s) (hx : x ≤ s) : roundUp x a ≤ s := by
  obtain ⟨n, rfl⟩ := hs
  have hlt : (x + (a - 1)) / a < n + 1 := by
    rw [Nat.div_lt_iff_lt_mul ha, Nat.add_mul, Nat.mul_comm n a]
    omega
  rw [roundUp, Nat.mul_comm a n]
  exact Nat.mul_le_mul_right a (Nat.le_of_lt_succ hlt)

theorem roundUp_lt (ha : 0 < a) : roundUp x a < x + a := by
  have hle := Nat.div_mul_le_self (x + (a - 1)) a
  rw [roundUp]
  omega

theorem roundUp_of_dvd (ha : 0 < a) (hx : a ∣ x) : roundUp x a = x :=
  Nat.le_antisymm (roundUp_le ha hx le_rfl) (le_roundUp ha)

/-- Adding whole cells commutes with rounding. -/
theorem roundUp_add (ha : 0 < a) (hs : a ∣ s) : roundUp (s + x) a = s + roundUp x a := by
  obtain ⟨n, rfl⟩ := hs
  rw [roundUp, roundUp, Nat.add_assoc, Nat.mul_add_div ha, Nat.add_mul, Nat.mul_comm n a]

/-- A coarser grid starts later by less than its cell, and by whole cells of the finer one. -/
theorem roundUp_le_of_dvd {c : ℕ} (hc : 0 < c) (hac : a ∣ c) (hx : a ∣ x) : roundUp x c + a ≤ x + c := by
  have hlt := roundUp_lt (x := x) hc
  have hdvd : a ∣ x + c - roundUp x c := Nat.dvd_sub (Nat.dvd_add hx hac) (hac.trans (dvd_roundUp x c))
  have hle := Nat.le_of_dvd (by omega) hdvd
  omega

end

/-- The cells that some blocks cover. -/
def covered {ι : Type*} (start len : ι → ℕ) (c : ℕ) : List ι → Finset ℕ
  | [] => ∅
  | b :: l => Finset.Ico (start b / c) ((start b + len b) / c) ∪ covered start len c l

section

variable {ι : Type*} {start len : ι → ℕ} {c : ℕ} {l : List ι}

theorem notMem_covered {t : ℕ} (ht : t ∉ covered start len c l) {b : ι} (hb : b ∈ l) :
    t < start b / c ∨ (start b + len b) / c ≤ t := by
  induction l with
  | nil => cases hb
  | cons d l ih =>
    rw [covered, Finset.mem_union, not_or, Finset.mem_Ico, not_and_or] at ht
    rcases List.mem_cons.mp hb with rfl | hb
    · omega
    · exact ih ht.2 hb

theorem card_covered_le (hc : 0 < c) (hlen : ∀ b ∈ l, c ∣ start b ∧ c ∣ len b) :
    (covered start len c l).card * c ≤ (l.map len).sum := by
  induction l with
  | nil => exact Nat.le_of_eq (Nat.zero_mul c)
  | cons b l ih =>
    obtain ⟨⟨m, hm⟩, ⟨n, hn⟩⟩ := hlen b (by simp)
    have hrest := ih fun d hd => hlen d (by simp [hd])
    have hcard : (Finset.Ico (start b / c) ((start b + len b) / c)).card * c = len b := by
      rw [Nat.card_Ico, hm, hn, ← Nat.mul_add, Nat.mul_div_cancel_left _ hc, Nat.mul_div_cancel_left _ hc,
        Nat.add_sub_cancel_left, Nat.mul_comm]
    have hunion := Finset.card_union_le (Finset.Ico (start b / c) ((start b + len b) / c)) (covered start len c l)
    rw [covered, List.map_cons, List.sum_cons]
    calc _ ≤ _ * c := Nat.mul_le_mul_right c hunion
      _ = _ * c + _ * c := Nat.add_mul _ _ c
      _ ≤ len b + (l.map len).sum := by omega

/-- If the blocks and one more cell fit into the whole cells of a range, then some cell is free. -/
theorem exists_free_cell (hc : 0 < c) (hblocks : ∀ b ∈ l, c ∣ start b ∧ c ∣ len b) {lo hi : ℕ}
    (hroom : roundUp lo c + ((l.map len).sum + c) ≤ hi) :
    ∃ s, c ∣ s ∧ lo ≤ s ∧ s + c ≤ hi ∧ ∀ b ∈ l, start b + len b ≤ s ∨ s + c ≤ start b := by
  obtain ⟨m, hm⟩ := dvd_roundUp lo c
  have hcells : (covered start len c l).card < (Finset.Ico m (m + (covered start len c l).card + 1)).card := by
    rw [Nat.card_Ico]
    omega
  obtain ⟨t, ht, hfree⟩ := Finset.exists_mem_notMem_of_card_lt_card hcells
  rw [Finset.mem_Ico] at ht
  have hcard := card_covered_le hc hblocks
  have hlo := le_roundUp (x := lo) hc
  have htm : c * m ≤ c * t := Nat.mul_le_mul_left c ht.1
  have hend : c * (t + 1) ≤ c * (m + (covered start len c l).card + 1) := Nat.mul_le_mul_left c ht.2
  rw [Nat.mul_add, Nat.mul_add, Nat.mul_add, Nat.mul_one, Nat.mul_comm c (covered start len c l).card] at hend
  refine ⟨c * t, Nat.dvd_mul_right c t, by omega, by omega, fun b hb => ?_⟩
  obtain ⟨⟨p, hp⟩, ⟨n, hn⟩⟩ := hblocks b hb
  rcases notMem_covered hfree hb with hbefore | hafter
  · right
    rw [hp, Nat.mul_div_cancel_left _ hc] at hbefore
    rw [hp]
    exact Nat.mul_le_mul_left c hbefore
  · left
    rw [hp, hn, ← Nat.mul_add, Nat.mul_div_cancel_left _ hc] at hafter
    rw [hp, hn, ← Nat.mul_add]
    exact Nat.mul_le_mul_left c hafter

end

end GfpDrivers.Lib
