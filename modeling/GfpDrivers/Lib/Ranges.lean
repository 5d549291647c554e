import Mathlib.Data.List.Pairwise
import Mathlib.Tactic.SplitIfs

/-!
Lists of ranges of numbers. A range is anything with a first number `lo` and a
number `hi` where it ends; `hi` itself is no longer in it. How often a number
is held by the ranges of a list says all about how they lie to each other.
-/

namespace GfpDrivers.Lib

variable {α : Type*} {lo hi : α → ℕ} {l l' : List α} {r : α} {x k : ℕ}

/-- The number of ranges that hold `x`. -/
def cover (lo hi : α → ℕ) (l : List α) (x : ℕ) : ℕ := l.countP fun r => lo r ≤ x ∧ x < hi r

/-- The ranges are in order, and there is a gap after each of them. -/
def Separated (lo hi : α → ℕ) (l : List α) : Prop := l.Pairwise fun a b => hi a < lo b

@[simp] theorem cover_nil : cover lo hi [] x = 0 := rfl

theorem cover_cons : cover lo hi (r :: l) x = cover lo hi l x + if lo r ≤ x ∧ x < hi r then 1 else 0 := by
  simp [cover, List.countP_cons]

theorem cover_append : cover lo hi (l ++ l') x = cover lo hi l x + cover lo hi l' x :=
  List.countP_append

theorem cover_perm (h : l.Perm l') : cover lo hi l x = cover lo hi l' x := h.countP_eq _

theorem cover_pos_iff : 0 < cover lo hi l x ↔ ∃ r ∈ l, lo r ≤ x ∧ x < hi r := by
  simp [cover, List.countP_pos_iff]

/-- The first numbers are cut off a range. -/
theorem cover_cut {m : ℕ} {r' : α} (hlo : lo r' = m) (hhi : hi r' = hi r) (hr : lo r ≤ m) (hm : m ≤ hi r) :
    cover lo hi (r :: l) x = cover lo hi (r' :: l) x + if lo r ≤ x ∧ x < m then 1 else 0 := by
  rw [cover_cons, cover_cons, hlo, hhi]
  split_ifs <;> omega

/-- A range is joined to the next one. -/
theorem cover_join {r' s : α} (hlo : lo s = lo r) (hmid : hi r = lo r') (hhi : hi s = hi r')
    (hr : lo r ≤ hi r) (hr' : lo r' ≤ hi r') :
    cover lo hi (s :: l) x = cover lo hi (r :: r' :: l) x := by
  rw [cover_cons, cover_cons, cover_cons, hlo, hhi, hmid]
  split_ifs <;> omega

/-- Ranges that never hold a number twice do not meet. -/
theorem disjoint_of_cover_le_one (h : ∀ x, cover lo hi l x ≤ 1) :
    l.Pairwise fun a b => ∀ x, ¬((lo a ≤ x ∧ x < hi a) ∧ lo b ≤ x ∧ x < hi b) := by
  induction l with
  | nil => exact .nil
  | cons r l ih =>
    refine .cons (fun b hb x ⟨hr, hx⟩ => ?_) (ih fun x => ?_)
    · have hpos : 0 < cover lo hi l x := by
        rw [cover_pos_iff]
        exact ⟨b, hb, hx⟩
      have hle := h x
      rw [cover_cons, if_pos hr] at hle
      omega
    · have hle := h x
      rw [cover_cons] at hle
      omega

/-- A number is in one of the ranges at most. -/
theorem Separated.cover_le_one (h : Separated lo hi l) : cover lo hi l x ≤ 1 := by
  induction l with
  | nil => exact Nat.zero_le 1
  | cons r l ih =>
    obtain ⟨hgap, hl⟩ := List.pairwise_cons.mp h
    rw [cover_cons]
    split
    case isTrue hr =>
      have hnone : ¬0 < cover lo hi l x := by
        rw [cover_pos_iff]
        rintro ⟨b, hb, hlo, -⟩
        have := hgap b hb
        omega
      omega
    case isFalse => exact ih hl

/-- Two ranges that are kept apart. -/
theorem Separated.lt_or_lt (h : Separated lo hi l) {a b : α} (ha : a ∈ l) (hb : b ∈ l) (hne : a ≠ b) :
    hi a < lo b ∨ hi b < lo a := by
  have hsymm : l.Pairwise fun a b => hi a < lo b ∨ hi b < lo a := h.imp .inl
  have : Std.Symm fun a b => hi a < lo b ∨ hi b < lo a := ⟨fun _ _ => Or.symm⟩
  exact hsymm.forall ha hb hne

/-- Numbers in a row that are all held lie in one range. -/
theorem Separated.run (h : Separated lo hi l) (hk : 0 < k)
    (hrun : ∀ y, x ≤ y → y < x + k → 0 < cover lo hi l y) : ∃ r ∈ l, lo r ≤ x ∧ x + k ≤ hi r := by
  simp only [cover_pos_iff] at hrun
  obtain ⟨r, hr, hlo, hhi⟩ := hrun x (Nat.le_refl x) (by omega)
  refine ⟨r, hr, hlo, ?_⟩
  by_contra hend
  -- the number after the range is in another one, which has no gap to it
  obtain ⟨b, hb, hblo, hbhi⟩ := hrun (hi r) (by omega) (by omega)
  have hne : r ≠ b := by
    rintro rfl
    omega
  rcases h.lt_or_lt hr hb hne with hlt | hlt <;> omega

end GfpDrivers.Lib
