import Mathlib.Data.List.Basic
import Mathlib.Order.MinMax

/-!
Ranges with both ends in them. A range grows until it crosses none of some given
ones: each time it is exchanged for its hull with one that it crosses (`hull`). The
number of the given ranges that are not within it gets smaller (`outside_hull_lt`), and it
never leaves any range around it that crosses none (`Clear.hull_within`).
-/

namespace GfpDrivers.Lib

structure Span (α : Type*) where
  lo : α
  hi : α

namespace Span

variable {α : Type*} [LinearOrder α] {I J C : Span α} {S : List (Span α)}

def Within (I J : Span α) : Prop := J.lo ≤ I.lo ∧ I.hi ≤ J.hi

instance (I J : Span α) : Decidable (Within I J) := inferInstanceAs (Decidable (_ ∧ _))

def Meets (I J : Span α) : Prop := I.lo ≤ J.hi ∧ J.lo ≤ I.hi

/-- The ranges meet, and none of them is within the other. -/
def Crosses (C I : Span α) : Prop := Meets C I ∧ ¬Within C I ∧ ¬Within I C

def hull (I J : Span α) : Span α := ⟨min I.lo J.lo, max I.hi J.hi⟩

/-- `I` crosses none of `S`. -/
def Clear (S : List (Span α)) (I : Span α) : Prop := ∀ C ∈ S, ¬Crosses C I

/-- How many of `S` are not within `I`. -/
def outside (S : List (Span α)) (I : Span α) : ℕ := S.countP fun C => ¬Within C I

theorem within_rfl : Within I I := ⟨le_rfl, le_rfl⟩

theorem Within.trans (hIJ : Within I J) (hJC : Within J C) : Within I C :=
  ⟨hJC.1.trans hIJ.1, hIJ.2.trans hJC.2⟩

theorem within_hull_left : Within I (hull I J) := ⟨min_le_left _ _, le_max_left _ _⟩

theorem within_hull_right : Within J (hull I J) := ⟨min_le_right _ _, le_max_right _ _⟩

theorem hull_within (hI : Within I C) (hJ : Within J C) : Within (hull I J) C :=
  ⟨le_min hI.1 hJ.1, max_le hI.2 hJ.2⟩

theorem Meets.mono (hmeets : Meets C I) (hIJ : Within I J) : Meets C J :=
  ⟨hmeets.1.trans hIJ.2, hIJ.1.trans hmeets.2⟩

/-- What `I` crosses is within every range around `I` that does not cross it. -/
theorem Clear.hull_within (hJ : Clear S J) (hIJ : Within I J) (hC : C ∈ S) (hcross : Crosses C I) :
    Within (hull I C) J := by
  obtain ⟨hmeets, -, hIC⟩ := hcross
  have hCJ : Within C J := by
    by_contra hout
    exact hJ C hC ⟨hmeets.mono hIJ, hout, fun hJC => hIC (hIJ.trans hJC)⟩
  exact Span.hull_within hIJ hCJ

theorem outside_hull_lt (hC : C ∈ S) (hcross : Crosses C I) : outside S (hull I C) < outside S I := by
  have hmono : ∀ D, ¬Within D (hull I C) → ¬Within D I := fun D hout hin => hout (hin.trans within_hull_left)
  have hle : ∀ S' : List (Span α), outside S' (hull I C) ≤ outside S' I := by
    intro S'
    refine List.countP_mono_left fun D _ hD => ?_
    simp only [decide_eq_true_eq] at hD ⊢
    exact hmono D hD
  obtain ⟨S₁, S₂, rfl⟩ := List.append_of_mem hC
  have h₁ := hle S₁
  have h₂ := hle S₂
  have hnow : ¬¬Within C (hull I C) := not_not_intro within_hull_right
  simp only [outside, List.countP_append, List.countP_cons, hcross.2.1, hnow, not_false_eq_true, decide_true,
    decide_false, if_true, Bool.false_eq_true, if_false] at h₁ h₂ ⊢
  omega

theorem outside_le_length : outside S I ≤ S.length := List.countP_le_length

end Span

end GfpDrivers.Lib
