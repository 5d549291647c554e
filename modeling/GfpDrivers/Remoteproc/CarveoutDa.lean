import GfpDrivers.Remoteproc.RscTable

/-!
Device addresses in carveouts (`rproc_da_to_va` and `rproc_check_carveout_da`). The distance of an address from the
start of a carveout is kept in an `int`. It is cut to 32 bits, so that an address 2^32 further on looks the same, and
the upper half of a large carveout looks as if it were in front of it; the end of the area is computed modulo 2^64,
or modulo 2^32.
-/

namespace GfpDrivers.Remoteproc

open Table (FW_RSC_ADDR_ANY)

/-- `struct rproc_mem_entry`, as far as it is read. -/
structure RprocMemEntry where
  /-- A pointer; 0 is `NULL`. -/
  va : ℕ
  isIomem : Bool
  len : ℕ
  da : ℕ
  deriving DecidableEq

namespace RprocMemEntry

/-- `int offset = da - carveout->da` -/
def offset (c : RprocMemEntry) (da : ℕ) : ℤ := ((da : ℤ) - c.da).bmod (2 ^ 32)

/-- What the loop of `rproc_da_to_va` checks. -/
def accepts (c : RprocMemEntry) (da len : ℕ) : Bool :=
  if c.va = 0 then false
  else if c.offset da < 0 then false
  else if (c.len : ℤ) < (c.offset da + len) % 2 ^ 64 then false
  else true

end RprocMemEntry

/-- The loop of `rproc_da_to_va`: the pointer, and what is written to `*is_iomem`. -/
def daToVaLoop (da len : ℕ) : List RprocMemEntry → ℕ × Option Bool
  | [] => (0, none)
  | c :: cs => if c.accepts da len then (c.va + (c.offset da).toNat, some c.isIomem) else daToVaLoop da len cs

/-- `rproc_da_to_va`, where `op` is the `da_to_va` operation. -/
def rprocDaToVa (op : Option (ℕ → ℕ → ℕ × Option Bool)) (carveouts : List RprocMemEntry) (da len : ℕ) :
    ℕ × Option Bool :=
  match op with
  | some daToVa => if (daToVa da len).1 ≠ 0 then daToVa da len else daToVaLoop da len carveouts
  | none => daToVaLoop da len carveouts

/-- `rproc_check_carveout_da` -/
def rprocCheckCarveoutDa (mem : RprocMemEntry) (da len : ℕ) : ℤ :=
  if mem.len < len then -EINVAL
  else if da ≠ FW_RSC_ADDR_ANY ∧ mem.da = FW_RSC_ADDR_ANY then -EINVAL
  else if da ≠ FW_RSC_ADDR_ANY ∧ mem.da ≠ FW_RSC_ADDR_ANY then
    if mem.offset da < 0 then -EINVAL
    else if (mem.len : ℤ) < (mem.offset da + len) % 2 ^ 32 then -EINVAL
    else 0
  else 0

/-! ### Areas -/

namespace RprocMemEntry

/-- The area lies in the carveout. -/
def Inside (c : RprocMemEntry) (da len : ℕ) : Prop := c.da ≤ da ∧ da + len ≤ c.da + c.len

/-- The carveout is allocated, and the area lies in it. -/
def Contains (c : RprocMemEntry) (da len : ℕ) : Prop := c.va ≠ 0 ∧ c.Inside da len

instance insideDecidable (c : RprocMemEntry) (da len : ℕ) : Decidable (c.Inside da len) :=
  inferInstanceAs (Decidable (_ ∧ _))

instance containsDecidable (c : RprocMemEntry) (da len : ℕ) : Decidable (c.Contains da len) :=
  inferInstanceAs (Decidable (_ ∧ _))

/-- A carveout lies below 2^32. -/
structure Fits (c : RprocMemEntry) : Prop where
  da : c.da < 2 ^ 32
  fits : c.da + c.len ≤ 2 ^ 32

/-- The distance from the start as it is kept, before its sign is looked at. -/
def distance (c : RprocMemEntry) (da : ℕ) : ℤ := ((da : ℤ) - c.da) % 2 ^ 32

/-- The address is in the lower half of what an `int` can tell apart if the area lies in the carveout; and if it does
not, the area that the address looks like does not lie in it either. -/
def Right (c : RprocMemEntry) (da len : ℕ) : Prop :=
  c.va ≠ 0 →
    if c.Inside da len then da < c.da + 2 ^ 31
    else c.distance da < 2 ^ 31 → (c.len : ℤ) < (c.distance da + len) % 2 ^ 64

variable {c : RprocMemEntry} {da len : ℕ}

theorem accepts_iff : c.accepts da len = true ↔
    c.va ≠ 0 ∧ 0 ≤ c.offset da ∧ (c.offset da + len) % 2 ^ 64 ≤ c.len := by
  unfold accepts
  split_ifs with hva hneg hlen
  · simp [hva]
  · simp [hneg]
  · exact iff_of_false not_false fun hacc => not_le.mpr hlen hacc.2.2
  · exact iff_of_true rfl ⟨hva, not_lt.mp hneg, not_lt.mp hlen⟩

theorem offset_nonneg_iff : 0 ≤ c.offset da ↔ c.distance da < 2 ^ 31 := by
  unfold offset distance
  rw [Int.bmod_def]
  split_ifs <;> omega

theorem offset_eq_distance (h : c.distance da < 2 ^ 31) : c.offset da = c.distance da := by
  unfold offset
  unfold distance at h ⊢
  rw [Int.bmod_def, if_pos (by omega)]
  rfl

/-- The test is right if it takes exactly the areas inside, and with the right distance. -/
theorem right_iff (h : c.Fits) (hlen : len < 2 ^ 64) : c.Right da len ↔
    (c.accepts da len = true ↔ c.Contains da len) ∧ (c.Contains da len → c.offset da = (da : ℤ) - c.da) := by
  have hda := h.da
  have hfits := h.fits
  rw [accepts_iff, offset_nonneg_iff, Right, Contains]
  by_cases hva : c.va = 0
  · simp [hva]
  · simp only [ne_eq, hva, not_false_eq_true, true_and, true_implies]
    by_cases hin : c.Inside da len
    · obtain ⟨hle, hend⟩ := hin
      rw [if_pos ⟨hle, hend⟩]
      simp only [show c.Inside da len from ⟨hle, hend⟩, iff_true, true_implies]
      constructor
      · intro hlt
        have hdist : c.distance da = (da : ℤ) - c.da := by
          unfold distance
          omega
        have hlow : c.distance da < 2 ^ 31 := by omega
        have hoff := offset_eq_distance hlow
        refine ⟨⟨by omega, ?_⟩, by rw [hoff, hdist]⟩
        rw [hoff, hdist]
        omega
      · rintro ⟨⟨hdist, -⟩, hoff⟩
        rw [offset_eq_distance hdist] at hoff
        omega
    · rw [if_neg hin]
      simp only [hin, iff_false, false_implies, and_true, not_and, not_le]
      refine forall_congr' fun hdist => ?_
      rw [offset_eq_distance hdist]

/-- The address that the loop makes from a carveout, and the right one. -/
def made (c : RprocMemEntry) (da : ℕ) : ℕ := c.va + (c.offset da).toNat

def address (c : RprocMemEntry) (da : ℕ) : ℕ := c.va + (da - c.da)

/-- What `rproc_check_carveout_da` has to tell apart: the area is in the lower half of what an `int` can tell apart if
it lies inside; and if it does not, its end is not taken for one inside, and it is no empty area at 0 that is taken for
the end of a carveout in the upper half. -/
def CheckRight (mem : RprocMemEntry) (da len : ℕ) : Prop :=
  if mem.Inside da len then da < mem.da + 2 ^ 31
  else ¬(mem.da ≤ da ∧ da < mem.da + 2 ^ 31 ∧ len ≤ mem.len ∧ mem.da + 2 ^ 32 ≤ da + len) ∧
    ¬(da = 0 ∧ len = 0 ∧ 2 ^ 31 < mem.da ∧ mem.da + mem.len = 2 ^ 32)

end RprocMemEntry

variable {cs : List RprocMemEntry} {c : RprocMemEntry} {da len : ℕ}

/-- The test is right on all carveouts up to the first one that contains the area. -/
def RightUpTo (da len : ℕ) : List RprocMemEntry → Prop
  | [] => True
  | c :: cs => c.Right da len ∧ (c.Contains da len ∨ RightUpTo da len cs)

/-- The pointer is the one into the first carveout that contains the area, or `NULL`. -/
def Translates (cs : List RprocMemEntry) (da len : ℕ) : Prop :=
  (rprocDaToVa none cs da len).1 = ((cs.find? fun c => c.Contains da len).map (·.address da)).getD 0

/-- The address made from one carveout is not the right one of another. -/
def Separate (cs : List RprocMemEntry) (da : ℕ) : Prop :=
  cs.Pairwise fun c c' => c.made da ≠ c'.address da ∧ c.address da ≠ c'.made da

theorem daToVaLoop_cons_of_accepts (h : c.accepts da len = true) (cs : List RprocMemEntry) :
    daToVaLoop da len (c :: cs) = (c.made da, some c.isIomem) := if_pos h

theorem daToVaLoop_cons_of_not_accepts (h : c.accepts da len = false) (cs : List RprocMemEntry) :
    daToVaLoop da len (c :: cs) = daToVaLoop da len cs := if_neg (by rw [h]; exact Bool.false_ne_true)

theorem daToVaLoop_cases (da len : ℕ) (cs : List RprocMemEntry) :
    (daToVaLoop da len cs).1 = 0 ∨ ∃ c ∈ cs, (daToVaLoop da len cs).1 = c.made da := by
  induction cs with
  | nil => exact .inl rfl
  | cons c cs ih =>
    cases h : c.accepts da len with
    | true =>
      rw [daToVaLoop_cons_of_accepts h]
      exact .inr ⟨c, List.mem_cons_self, rfl⟩
    | false =>
      rw [daToVaLoop_cons_of_not_accepts h]
      exact ih.imp_right fun ⟨c', hc', heq⟩ => ⟨c', List.mem_cons_of_mem c hc', heq⟩

theorem right_of_translates (hc : c.Fits) (hlen : len < 2 ^ 64) (hsep : Separate (c :: cs) da)
    (h : Translates (c :: cs) da len) : c.Right da len := by
  obtain ⟨hfirst, -⟩ := List.pairwise_cons.mp hsep
  rw [RprocMemEntry.right_iff hc hlen]
  unfold Translates rprocDaToVa at h
  dsimp only at h
  by_cases hin : c.Contains da len
  · rw [List.find?_cons_of_pos (by simpa using hin), Option.map_some, Option.getD_some] at h
    cases hacc : c.accepts da len with
    | true =>
      rw [daToVaLoop_cons_of_accepts hacc] at h
      obtain ⟨-, hnonneg, -⟩ := RprocMemEntry.accepts_iff.mp hacc
      have hle := hin.2.1
      unfold RprocMemEntry.made RprocMemEntry.address at h
      exact ⟨iff_of_true rfl hin, fun _ => by omega⟩
    | false =>
      rw [daToVaLoop_cons_of_not_accepts hacc] at h
      rcases daToVaLoop_cases da len cs with hnull | ⟨c', hc', heq⟩
      · have hva := hin.1
        unfold RprocMemEntry.address at h
        omega
      · exact absurd (h.symm.trans heq) (hfirst c' hc').2
  · rw [List.find?_cons_of_neg (by simpa using hin)] at h
    cases hacc : c.accepts da len with
    | true =>
      rw [daToVaLoop_cons_of_accepts hacc] at h
      have hva := (RprocMemEntry.accepts_iff.mp hacc).1
      cases hfind : cs.find? fun c => c.Contains da len with
      | none =>
        rw [hfind] at h
        simp only [RprocMemEntry.made, Option.map_none, Option.getD_none] at h
        omega
      | some c' =>
        rw [hfind, Option.map_some, Option.getD_some] at h
        exact absurd h (hfirst c' (List.mem_of_find?_eq_some hfind)).1
    | false => exact ⟨iff_of_false Bool.false_ne_true hin, fun hcontra => absurd hcontra hin⟩

theorem translates_cons_of_contains (hc : c.Fits) (hlen : len < 2 ^ 64) (hright : c.Right da len)
    (hin : c.Contains da len) : Translates (c :: cs) da len := by
  obtain ⟨hiff, hoff⟩ := (RprocMemEntry.right_iff hc hlen).mp hright
  have hmade : c.made da = c.address da := by
    have hle := hin.2.1
    rw [RprocMemEntry.made, RprocMemEntry.address, hoff hin]
    omega
  unfold Translates rprocDaToVa
  dsimp only
  rw [daToVaLoop_cons_of_accepts (hiff.mpr hin), List.find?_cons_of_pos (by simpa using hin), hmade]
  rfl

theorem translates_cons_of_not_contains (hc : c.Fits) (hlen : len < 2 ^ 64) (hright : c.Right da len)
    (hin : ¬c.Contains da len) : Translates (c :: cs) da len ↔ Translates cs da len := by
  obtain ⟨hiff, -⟩ := (RprocMemEntry.right_iff hc hlen).mp hright
  unfold Translates rprocDaToVa
  dsimp only
  rw [daToVaLoop_cons_of_not_accepts (Bool.eq_false_iff.mpr (mt hiff.mp hin)),
    List.find?_cons_of_neg (by simpa using hin)]

theorem translates_of_rightUpTo (hcs : ∀ c ∈ cs, c.Fits) (hlen : len < 2 ^ 64) (h : RightUpTo da len cs) :
    Translates cs da len := by
  induction cs with
  | nil => rfl
  | cons c cs ih =>
    obtain ⟨hc, hcs⟩ := List.forall_mem_cons.mp hcs
    by_cases hin : c.Contains da len
    · exact translates_cons_of_contains hc hlen h.1 hin
    · exact (translates_cons_of_not_contains hc hlen h.1 hin).mpr (ih hcs (h.2.resolve_left hin))

theorem rightUpTo_of_translates (hcs : ∀ c ∈ cs, c.Fits) (hlen : len < 2 ^ 64) (hsep : Separate cs da)
    (h : Translates cs da len) : RightUpTo da len cs := by
  induction cs with
  | nil => trivial
  | cons c cs ih =>
    obtain ⟨hc, hcs⟩ := List.forall_mem_cons.mp hcs
    have hright := right_of_translates hc hlen hsep h
    refine ⟨hright, ?_⟩
    by_cases hin : c.Contains da len
    · exact .inl hin
    · exact .inr (ih hcs (List.pairwise_cons.mp hsep).2 ((translates_cons_of_not_contains hc hlen hright hin).mp h))

theorem check_iff {mem : RprocMemEntry} (hmem : mem.Fits) (hda : da < FW_RSC_ADDR_ANY) (hany : mem.da ≠ FW_RSC_ADDR_ANY)
    (hlen : len < 2 ^ 32) : (rprocCheckCarveoutDa mem da len = 0 ↔ mem.Inside da len) ↔ mem.CheckRight da len := by
  have h1 := hmem.da
  have h2 := hmem.fits
  have hda' : da < 2 ^ 32 - 1 := hda
  have hinval : ¬-EINVAL = 0 := by decide
  have hcheck : rprocCheckCarveoutDa mem da len = 0 ↔
      len ≤ mem.len ∧ mem.distance da < 2 ^ 31 ∧ (mem.distance da + len) % 2 ^ 32 ≤ mem.len := by
    unfold rprocCheckCarveoutDa
    rw [← RprocMemEntry.offset_nonneg_iff]
    by_cases hle : len ≤ mem.len
    · rw [if_neg (not_lt.mpr hle), if_neg (by tauto), if_pos ⟨ne_of_lt hda, hany⟩]
      by_cases hneg : mem.offset da < 0
      · rw [if_pos hneg]
        exact iff_of_false hinval fun hacc => not_le.mpr hneg hacc.2.1
      · have hoff := RprocMemEntry.offset_eq_distance (RprocMemEntry.offset_nonneg_iff.mp (not_lt.mp hneg))
        rw [if_neg hneg, ← hoff]
        split_ifs with hend
        · exact iff_of_false hinval fun hacc => not_le.mpr hend hacc.2.2
        · exact iff_of_true rfl ⟨hle, not_lt.mp hneg, not_lt.mp hend⟩
    · rw [if_pos (not_le.mp hle)]
      exact iff_of_false hinval fun hacc => hle hacc.1
  rw [hcheck]
  unfold RprocMemEntry.CheckRight RprocMemEntry.distance
  by_cases hin : mem.Inside da len
  · rw [if_pos hin, iff_true_right hin]
    obtain ⟨hle, hend⟩ := hin
    constructor
    · rintro ⟨-, hdist, -⟩
      omega
    · intro hlt
      exact ⟨by omega, by omega, by omega⟩
  · rw [if_neg hin, iff_false_right hin]
    unfold RprocMemEntry.Inside at hin
    constructor
    · intro hnot
      constructor
      · rintro ⟨hle, hlt, hlen', hwrap⟩
        exact hnot ⟨hlen', by omega, by omega⟩
      · rintro ⟨rfl, rfl, hhigh, hend⟩
        exact hnot ⟨by omega, by omega, by omega⟩
    · rintro ⟨hwrap, hempty⟩ ⟨hlen', hdist, hend⟩
      rcases Nat.lt_or_ge da mem.da with hlow | hhigh
      · -- the area looks as if it were at the end of the carveout
        exact hempty ⟨by omega, by omega, by omega, by omega⟩
      · exact hwrap ⟨hhigh, by omega, hlen', by omega⟩

/-- An address is translated through the first carveout that contains the area, if the test is right on all carveouts
up to it; the other way round unless two carveouts give the same address. A registered carveout is checked rightly
exactly if the area is one that the check tells apart. -/
theorem carveoutDa_iff (cs : List RprocMemEntry) (da len : ℕ) (hcs : ∀ c ∈ cs, c.Fits) (hlen : len < 2 ^ 64) :
    (RightUpTo da len cs → Translates cs da len) ∧
      (Separate cs da → Translates cs da len → RightUpTo da len cs) ∧
      ∀ mem : RprocMemEntry, mem.Fits → mem.da ≠ FW_RSC_ADDR_ANY → ∀ da len : ℕ, da < FW_RSC_ADDR_ANY → len < 2 ^ 32 →
        ((rprocCheckCarveoutDa mem da len = 0 ↔ mem.Inside da len) ↔ mem.CheckRight da len) :=
  ⟨translates_of_rightUpTo hcs hlen, rightUpTo_of_translates hcs hlen, fun _ hmem hany _ _ hda hlen =>
    check_iff hmem hda hany hlen⟩

/-- A carveout with 4 KiB at 0x1000. -/
def smallCarveout : RprocMemEntry := ⟨0x80000, false, 0x1000, 0x1000⟩

theorem smallCarveout_translates : Translates [smallCarveout] 0x1800 0x100 := by
  refine (carveoutDa_iff [smallCarveout] 0x1800 0x100 ?_ (by decide)).1 ⟨fun _ => ?_, .inl ?_⟩
  · exact List.forall_mem_singleton.mpr ⟨by decide, by decide⟩
  · decide
  · decide

/-- An address that is 2^32 behind the carveout is translated. -/
theorem smallCarveout_far :
    smallCarveout.Fits ∧ ¬smallCarveout.Contains 0x100001800 0x100 ∧
      rprocDaToVa none [smallCarveout] 0x100001800 0x100 = (0x80800, some false) :=
  ⟨⟨by decide, by decide⟩, by decide, by decide⟩

end GfpDrivers.Remoteproc
