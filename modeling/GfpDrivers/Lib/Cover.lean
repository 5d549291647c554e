import GfpDrivers.Lib.Span

/-!
What a list of ranges covers, piece by piece. In the list, a range comes before those inside
it and before those after it (`Precedes`). The first one that reaches a window then gives the
first piece of the covered part of the window (`firstPiece_of_find`), and no range of the list
leads beyond the end of the piece from inside of it.
-/

namespace GfpDrivers.Lib.Span

variable {α : Type*} [LinearOrder α] {I I' J : Span α} {S : List (Span α)} {lo hi x : α}

def Contains (I : Span α) (x : α) : Prop := I.lo ≤ x ∧ x ≤ I.hi

def Covers (S : List (Span α)) (x : α) : Prop := ∃ J ∈ S, J.Contains x

def Precedes (I J : Span α) : Prop := I.lo ≤ J.lo ∧ (J.hi ≤ I.hi ∨ I.hi < J.lo)

theorem Contains.of_within (hx : I.Contains x) (hIJ : Within I J) : J.Contains x :=
  ⟨hIJ.1.trans hx.1, hx.2.trans hIJ.2⟩

/-- `I` is the first piece of what `S` covers from `lo` to `hi`. -/
structure FirstPiece (S : List (Span α)) (lo hi : α) (I : Span α) : Prop where
  lo_le : lo ≤ I.lo
  le_hi : I.hi ≤ hi
  valid : I.lo ≤ I.hi
  within : ∃ J ∈ S, Within I J
  first (x : α) : lo ≤ x → x < I.lo → ¬Covers S x
  last (J : Span α) (x : α) : J ∈ S → I.Contains x → J.Contains x → min hi J.hi ≤ I.hi

theorem FirstPiece.covers (hI : FirstPiece S lo hi I) (hx : I.Contains x) : Covers S x := by
  obtain ⟨J, hJ, hIJ⟩ := hI.within
  exact ⟨J, hJ, hx.of_within hIJ⟩

theorem FirstPiece.contains_lo (hI : FirstPiece S lo hi I) : I.Contains I.lo := ⟨le_rfl, hI.valid⟩

theorem FirstPiece.contains_hi (hI : FirstPiece S lo hi I) : I.Contains I.hi := ⟨hI.valid, le_rfl⟩

theorem FirstPiece.eq (hI : FirstPiece S lo hi I) (hI' : FirstPiece S lo hi I') : I = I' := by
  have hlo : ∀ {I I'}, FirstPiece S lo hi I → FirstPiece S lo hi I' → I.lo ≤ I'.lo := by
    intro I I' hI hI'
    by_contra hlt
    exact hI.first I'.lo hI'.lo_le (not_le.mp hlt) (hI'.covers hI'.contains_lo)
  have hlo' := le_antisymm (hlo hI hI') (hlo hI' hI)
  have hhi : ∀ {I I'}, FirstPiece S lo hi I → FirstPiece S lo hi I' → I.lo = I'.lo → I.hi ≤ I'.hi := by
    intro I I' hI hI' heq
    obtain ⟨J, hJ, hIJ⟩ := hI.within
    have hend := hI'.last J I.lo hJ (heq ▸ hI'.contains_lo) (hI.contains_lo.of_within hIJ)
    exact (le_min hI.le_hi hIJ.2).trans hend
  cases I
  cases I'
  simp only [mk.injEq]
  exact ⟨hlo', le_antisymm (hhi hI hI' hlo') (hhi hI' hI hlo'.symm)⟩

/-- Whether a range has a part from `lo` to `hi`. -/
def reaches (lo hi : α) (J : Span α) : Bool := lo ≤ J.hi ∧ J.lo ≤ hi

@[simp] theorem reaches_iff : reaches lo hi J ↔ lo ≤ J.hi ∧ J.lo ≤ hi := by simp [reaches]

theorem firstPiece_of_find (hS : S.Pairwise Precedes) (hvalid : ∀ J ∈ S, J.lo ≤ J.hi) (hle : lo ≤ hi)
    (hfind : S.find? (reaches lo hi) = some J) : FirstPiece S lo hi ⟨max lo J.lo, min hi J.hi⟩ := by
  rw [List.find?_eq_some_iff_append] at hfind
  obtain ⟨hJ, S₁, S₂, rfl, hbefore⟩ := hfind
  simp only [reaches_iff, Bool.not_eq_true', Bool.eq_false_iff, ne_eq, not_and] at hJ hbefore
  have hJmem : J ∈ S₁ ++ J :: S₂ := by simp
  have hafter := (List.pairwise_cons.mp (List.pairwise_append.mp hS).2.1).1
  -- a range that has something from `lo` to `hi` is not before `J`
  have hfrom : ∀ C ∈ S₁ ++ J :: S₂, ∀ x, lo ≤ x → x ≤ hi → C.Contains x → C = J ∨ Precedes J C := by
    intro C hC x hlx hxh hCx
    simp only [List.mem_append, List.mem_cons] at hC
    rcases hC with hC | rfl | hC
    · exact absurd (hCx.1.trans hxh) (hbefore C hC (hlx.trans hCx.2))
    · exact .inl rfl
    · exact .inr (hafter C hC)
  refine ⟨le_max_left _ _, min_le_left _ _, ?_, ⟨J, hJmem, le_max_right _ _, min_le_right _ _⟩, ?_, ?_⟩
  · exact max_le (le_min hle hJ.1) (le_min hJ.2 (hvalid J hJmem))
  · rintro x hlx hlt ⟨C, hC, hCx⟩
    have hxJ : x < J.lo := (lt_max_iff.mp hlt).resolve_left (not_lt.mpr hlx)
    rcases hfrom C hC x hlx (hxJ.le.trans hJ.2) hCx with rfl | hJC
    · exact absurd hCx.1 (not_le.mpr hxJ)
    · exact absurd (hJC.1.trans hCx.1) (not_le.mpr hxJ)
  · intro C x hC hx hCx
    have hxhi : x ≤ min hi J.hi := hx.2
    rcases hfrom C hC x ((le_max_left _ _).trans hx.1) (hxhi.trans (min_le_left _ _)) hCx with rfl | hJC
    · exact le_rfl
    · rcases hJC.2 with hin | hout
      · exact min_le_min_left hi hin
      · exact absurd (hCx.1.trans (hxhi.trans (min_le_right _ _))) (not_le.mpr hout)

theorem not_covers_of_find (hfind : S.find? (reaches lo hi) = none) (hlx : lo ≤ x) (hxh : x ≤ hi) :
    ¬Covers S x := by
  rintro ⟨J, hJ, hJx⟩
  rw [List.find?_eq_none] at hfind
  exact hfind J hJ (reaches_iff.mpr ⟨hlx.trans hJx.2, hJx.1.trans hxh⟩)

/-! ### Piece by piece -/

section

variable {S L : List (Span ℕ)} {I J : Span ℕ} {lo s t stop : ℕ}

/-- Unless nothing is covered right before `stop`, some range covers both sides of it. -/
def Straddles (S : List (Span ℕ)) (stop : ℕ) : Prop :=
  Covers S (stop - 1) → ∃ J ∈ S, J.Contains (stop - 1) ∧ J.Contains stop

theorem FirstPiece.hi_lt (hI : FirstPiece S s stop I) (hlt : s < stop) (hno : ¬Straddles S stop) : I.hi < stop := by
  obtain ⟨hcov, hno⟩ : Covers S (stop - 1) ∧ ∀ J ∈ S, J.Contains (stop - 1) → ¬J.Contains stop := by
    simpa [Straddles] using hno
  obtain ⟨J, hJ, hIJ⟩ := hI.within
  have hle := hI.le_hi
  have hvalid := hI.valid
  have hfirst : stop - 1 < I.lo → ¬Covers S (stop - 1) := hI.first (stop - 1) (by omega)
  have hnoJ := hno J hJ
  simp only [Contains, Within] at hnoJ hIJ
  by_contra hge
  by_cases hlo : stop - 1 < I.lo
  · exact hfirst hlo hcov
  · exact hnoJ (by omega) (by omega)

theorem FirstPiece.hi_ne (hI : FirstPiece S s stop I) (hstr : Straddles S stop) : I.hi + 1 ≠ stop := by
  intro heq
  have hhi : stop - 1 = I.hi := by omega
  obtain ⟨J, hJ, hbefore, hat⟩ := hstr (by rw [hhi]; exact hI.covers hI.contains_hi)
  have hend := hI.last J (stop - 1) hJ (by rw [hhi]; exact hI.contains_hi) hbefore
  have := hat.2
  omega

/-- `L` is what `S` covers from `lo` up to but not including `s`, in order. -/
structure Pieces (S : List (Span ℕ)) (lo s : ℕ) (L : List (Span ℕ)) : Prop where
  valid : ∀ I ∈ L, I.lo ≤ I.hi
  ordered : L.Pairwise fun I J => I.hi < J.lo
  within : ∀ I ∈ L, ∃ J ∈ S, Within I J
  covers (x : ℕ) : Covers L x ↔ lo ≤ x ∧ x < s ∧ Covers S x

theorem Pieces.nil : Pieces S lo lo [] where
  valid := by simp
  ordered := .nil
  within := by simp
  covers := fun x => by
    refine ⟨fun ⟨J, hJ, _⟩ => absurd hJ List.not_mem_nil, fun ⟨hlo, hlt, _⟩ => ?_⟩
    omega

theorem Pieces.hi_lt (hL : Pieces S lo s L) (hI : I ∈ L) : I.hi < s :=
  ((hL.covers I.hi).mp ⟨I, hI, hL.valid I hI, le_rfl⟩).2.1

theorem Pieces.concat (hL : Pieces S lo s L) (hle : lo ≤ s) (hI : FirstPiece S s stop I) :
    Pieces S lo (I.hi + 1) (L ++ [I]) where
  valid := by
    intro J hJ
    rcases List.mem_append.mp hJ with hJ | hJ
    · exact hL.valid J hJ
    · exact List.mem_singleton.mp hJ ▸ hI.valid
  ordered := by
    refine List.pairwise_append.mpr ⟨hL.ordered, List.pairwise_singleton _ _, fun J hJ J' hJ' => ?_⟩
    obtain rfl := List.mem_singleton.mp hJ'
    exact Nat.lt_of_lt_of_le (hL.hi_lt hJ) hI.lo_le
  within := by
    intro J hJ
    rcases List.mem_append.mp hJ with hJ | hJ
    · exact hL.within J hJ
    · exact List.mem_singleton.mp hJ ▸ hI.within
  covers := by
    intro x
    have happend : Covers (L ++ [I]) x ↔ Covers L x ∨ I.Contains x := by
      simp [Covers, or_and_right, exists_or]
    rw [happend, hL.covers x]
    have hlo := hI.lo_le
    have hvalid := hI.valid
    constructor
    · rintro (⟨hlx, hxs, hcov⟩ | hx)
      · exact ⟨hlx, by omega, hcov⟩
      · have := hx.1
        have := hx.2
        exact ⟨by omega, by omega, hI.covers hx⟩
    · rintro ⟨hlx, hxs, hcov⟩
      by_cases hxlt : x < s
      · exact .inl ⟨hlx, hxlt, hcov⟩
      · refine .inr ⟨?_, by omega⟩
        by_contra hbefore
        exact hI.first x (by omega) (by omega) hcov

/-- Where nothing is covered, nothing is missing. -/
theorem Pieces.extend (hL : Pieces S lo s L) (hst : s ≤ t) (hno : ∀ x, s ≤ x → x < t → ¬Covers S x) :
    Pieces S lo t L where
  valid := hL.valid
  ordered := hL.ordered
  within := hL.within
  covers := fun x => by
    rw [hL.covers x]
    refine ⟨fun ⟨hlx, hxs, hcov⟩ => ⟨hlx, by omega, hcov⟩, fun ⟨hlx, hxt, hcov⟩ => ⟨hlx, ?_, hcov⟩⟩
    by_contra hge
    exact hno x (by omega) hxt hcov

end

end GfpDrivers.Lib.Span
