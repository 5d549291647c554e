import Mathlib.Data.List.DropRight
import GfpDrivers.Basic
import GfpDrivers.Lib.Ranges
import GfpDrivers.Lib.Runs

/-!
The allocator of LPIs (`irq-gic-v3-its.c`). The free ids are kept as a list of
ranges in ascending order. Taking ids cuts them off the first range that is
long enough; giving ids back puts a range on its place and merges it with its
neighbours. Since neighbours are always merged, ids in a row that are free lie
in one range, so that looking at single ranges is enough.
-/

namespace GfpDrivers.Its

open Lib List

/-- `struct lpi_range` -/
structure LpiRange where
  baseId : ℕ
  span : ℕ
deriving DecidableEq

/-- The id after the last one of the range. -/
def LpiRange.stop (r : LpiRange) : ℕ := r.baseId + r.span

/-- Arithmetic of `u32`. -/
def u32 (x : ℕ) : ℕ := x % 2 ^ 32

/-- `alloc_lpi_range`: the first id, and the list after it. -/
def allocLpiRange (nrLpis : ℕ) : List LpiRange → Except ℤ (ℕ × List LpiRange)
  | [] => .error (-ENOSPC)
  | range :: rest =>
      if nrLpis ≤ range.span then
        let left : LpiRange := ⟨u32 (range.baseId + nrLpis), range.span - nrLpis⟩
        .ok (range.baseId, if left.span = 0 then rest else left :: rest)
      else (allocLpiRange nrLpis rest).map fun (base, rest) => (base, range :: rest)

/-- `merge_lpi_ranges` for two entries of the list: what becomes of the second
one when the first is merged into it. -/
def mergeLpiRanges (a b : LpiRange) : Option LpiRange :=
  if u32 (a.baseId + a.span) ≠ b.baseId then none else some ⟨a.baseId, u32 (b.span + a.span)⟩

/-- The new range is merged with the entry before it, if there is one. -/
def mergeOld (before : List LpiRange) (new : LpiRange) : List LpiRange × LpiRange :=
  match before.getLast? with
  | none => (before, new)
  | some old =>
      match mergeLpiRanges old new with
      | none => (before, new)
      | some new => (before.dropLast, new)

/-- The new range is merged with the entry after it, if there is one. -/
def mergeNext (new : LpiRange) : List LpiRange → List LpiRange
  | [] => [new]
  | next :: rest =>
      match mergeLpiRanges new next with
      | none => new :: next :: rest
      | some next => next :: rest

/-- `free_lpi_range`, once it has got a list entry. The list is searched from
its end for an entry with a smaller `base_id`. -/
def freeLpiRange (list : List LpiRange) (base nrLpis : ℕ) : List LpiRange :=
  let before := list.rdropWhile fun old => base ≤ old.baseId
  let after := list.rtakeWhile fun old => base ≤ old.baseId
  let (before, new) := mergeOld before ⟨base, nrLpis⟩
  before ++ mergeNext new after

/-! ### Taking ids -/

/-- The ranges are proper ranges of `u32` ids other than 0. -/
def Fits (l : List LpiRange) : Prop := ∀ r ∈ l, 0 < r.baseId ∧ 0 < r.span ∧ r.stop ≤ 2 ^ 32

/-- How often an id is in the ranges of a list. -/
abbrev held (l : List LpiRange) (x : ℕ) : ℕ := cover LpiRange.baseId LpiRange.stop l x

/-- The ranges are in order, and no two of them can be merged. -/
abbrev Merged (l : List LpiRange) : Prop := Separated LpiRange.baseId LpiRange.stop l

variable {l l' before after : List LpiRange} {r new : LpiRange} {k base x : ℕ}

theorem held_cons : held (r :: l) x = held l x + if r.baseId ≤ x ∧ x < r.stop then 1 else 0 := cover_cons

theorem held_append : held (l ++ l') x = held l x + held l' x := cover_append

theorem u32_of_lt (h : x < 2 ^ 32) : u32 x = x := Nat.mod_eq_of_lt h

/-- What is left over of the list. -/
structure Cut (l l' : List LpiRange) (base k : ℕ) : Prop where
  held : ∀ x, held l x = held l' x + if base ≤ x ∧ x < base + k then 1 else 0
  fits : Fits l'
  merged : Merged l'
  /-- Each range lies in one of those before. -/
  within : ∀ r' ∈ l', ∃ r ∈ l, r.baseId ≤ r'.baseId ∧ r'.stop = r.stop
  base_pos : 0 < base
  stop_le : base + k ≤ 2 ^ 32

theorem Cut.of_head (hfits : Fits (r :: l)) (hmerged : Merged (r :: l)) (hk : k < r.span) :
    Cut (r :: l) (⟨u32 (r.baseId + k), r.span - k⟩ :: l) r.baseId k := by
  obtain ⟨⟨hpos, hspan, hstop⟩, hrest⟩ := forall_mem_cons.mp hfits
  obtain ⟨hgap, hmrest⟩ := pairwise_cons.mp hmerged
  rw [LpiRange.stop] at hstop
  rw [u32_of_lt (by omega)]
  have hend : (⟨r.baseId + k, r.span - k⟩ : LpiRange).stop = r.stop := by
    simp only [LpiRange.stop]
    omega
  refine ⟨fun x => ?_, forall_mem_cons.mpr ⟨⟨?_, ?_, ?_⟩, hrest⟩, .cons (fun b hb => ?_) hmrest,
    forall_mem_cons.mpr ⟨⟨r, by simp, Nat.le_add_right .., hend⟩,
      fun r' hr' => ⟨r', by simp [hr'], le_rfl, rfl⟩⟩, hpos, ?_⟩
  · refine cover_cut rfl hend (Nat.le_add_right ..) ?_
    simp only [LpiRange.stop]
    omega
  · exact Nat.add_pos_left hpos k
  · exact Nat.sub_pos_of_lt hk
  · rw [hend]
    exact hstop
  · rw [hend]
    exact hgap b hb
  · omega

theorem Cut.of_tail (hfits : Fits (r :: l)) (hmerged : Merged (r :: l)) (hcut : Cut l l' base k) :
    Cut (r :: l) (r :: l') base k := by
  obtain ⟨hr, -⟩ := forall_mem_cons.mp hfits
  obtain ⟨hgap, -⟩ := pairwise_cons.mp hmerged
  refine ⟨fun x => ?_, forall_mem_cons.mpr ⟨hr, hcut.fits⟩, .cons (fun b hb => ?_) hcut.merged,
    forall_mem_cons.mpr ⟨⟨r, by simp, le_rfl, rfl⟩, fun r' hr' => ?_⟩, hcut.base_pos, hcut.stop_le⟩
  · rw [held_cons, held_cons, hcut.held x]
    omega
  · obtain ⟨b₀, hb₀, hle, -⟩ := hcut.within b hb
    exact (hgap b₀ hb₀).trans_le hle
  · obtain ⟨r₀, hr₀, hle⟩ := hcut.within r' hr'
    exact ⟨r₀, by simp [hr₀], hle⟩

theorem allocLpiRange_ok (hfits : Fits l) (hmerged : Merged l)
    (h : allocLpiRange k l = .ok (base, l')) : Cut l l' base k := by
  induction l generalizing l' with
  | nil => cases h
  | cons range rest ih =>
    obtain ⟨⟨hpos, hspan, hstop⟩, hrest⟩ := forall_mem_cons.mp hfits
    obtain ⟨-, hmrest⟩ := pairwise_cons.mp hmerged
    by_cases hle : k ≤ range.span
    · replace h := (if_pos hle).symm.trans h
      simp only [Except.ok.injEq, Prod.mk.injEq] at h
      obtain ⟨rfl, rfl⟩ := h
      by_cases hall : range.span - k = 0
      · -- the range is used up
        obtain rfl : range.span = k := by omega
        rw [if_pos hall]
        refine ⟨fun x => held_cons, hrest, hmrest, fun r' hr' => ⟨r', by simp [hr'], le_rfl, rfl⟩,
          hpos, hstop⟩
      · rw [if_neg hall]
        exact .of_head hfits hmerged (by omega)
    · replace h := (if_neg hle).symm.trans h
      cases htail : allocLpiRange k rest with
      | error e => simp [htail, Except.map] at h
      | ok res =>
        simp only [htail, Except.map, Except.ok.injEq, Prod.mk.injEq] at h
        obtain ⟨rfl, rfl⟩ := h
        exact .of_tail hfits hmerged (ih hrest hmrest htail)

theorem allocLpiRange_error {err : ℤ} (h : allocLpiRange k l = .error err) : err = -ENOSPC := by
  induction l with
  | nil => exact (Except.error.inj h).symm
  | cons range rest ih =>
    by_cases hle : k ≤ range.span
    · cases (if_pos hle).symm.trans h
    · replace h := (if_neg hle).symm.trans h
      cases htail : allocLpiRange k rest with
      | error e =>
        simp only [htail, Except.map, Except.error.injEq] at h
        exact ih (htail.trans (by rw [h]))
      | ok res => simp [htail, Except.map] at h

theorem allocLpiRange_error_iff : allocLpiRange k l = .error (-ENOSPC) ↔ ∀ r ∈ l, r.span < k := by
  induction l with
  | nil => exact iff_of_true rfl fun r hr => absurd hr not_mem_nil
  | cons range rest ih =>
    rw [allocLpiRange, forall_mem_cons, ← ih]
    by_cases hle : k ≤ range.span
    · simp [hle, not_lt.mpr hle]
    · cases htail : allocLpiRange k rest with
      | error e => simp [hle, Except.map, not_le.mp hle]
      | ok res => simp [hle, Except.map]

theorem allocLpiRange_error_iff_no_run (hmerged : Merged l) (hk : 0 < k) :
    allocLpiRange k l = .error (-ENOSPC) ↔ ¬∃ x, ∀ y, x ≤ y → y < x + k → 0 < held l y := by
  rw [allocLpiRange_error_iff]
  constructor
  · rintro hshort ⟨x, hrun⟩
    obtain ⟨r, hr, hlo, hhi⟩ := hmerged.run hk hrun
    have := hshort r hr
    simp only [LpiRange.stop] at hhi
    omega
  · intro hnone r hr
    by_contra hle
    refine hnone ⟨r.baseId, fun y hy hlt => cover_pos_iff.mpr ⟨r, hr, hy, ?_⟩⟩
    simp only [LpiRange.stop]
    omega

/-! ### Giving ids back -/

theorem mergeLpiRanges_eq {a b : LpiRange} (ha : 0 < a.baseId) (hb : 0 < b.span) (hstop : b.stop ≤ 2 ^ 32)
    (hle : a.stop ≤ b.baseId) :
    mergeLpiRanges a b = if a.stop = b.baseId then some ⟨a.baseId, b.span + a.span⟩ else none := by
  simp only [LpiRange.stop] at hstop hle
  rw [mergeLpiRanges, LpiRange.stop, u32_of_lt (by omega)]
  by_cases heq : a.baseId + a.span = b.baseId
  · rw [if_neg (not_not.mpr heq), if_pos heq, u32_of_lt (by omega)]
  · rw [if_pos heq, if_neg heq]

theorem joined_stop {a b : LpiRange} (h : a.stop = b.baseId) :
    (⟨a.baseId, b.span + a.span⟩ : LpiRange).stop = b.stop := by
  simp only [LpiRange.stop] at h ⊢
  omega

theorem held_join {a b : LpiRange} (h : a.stop = b.baseId) :
    held (⟨a.baseId, b.span + a.span⟩ :: l) x = held (a :: b :: l) x :=
  cover_join rfl h (joined_stop h) (Nat.le_add_right ..) (Nat.le_add_right ..)

/-- The new range is joined to the ranges before it. -/
structure Joined (before : List LpiRange) (new : LpiRange) (res : List LpiRange × LpiRange) : Prop where
  fits : Fits (res.1 ++ [res.2])
  merged : Merged (res.1 ++ [res.2])
  stop : res.2.stop = new.stop
  held : ∀ x, held (res.1 ++ [res.2]) x = held (before ++ [new]) x

theorem fits_append : Fits (l ++ l') ↔ Fits l ∧ Fits l' := forall_mem_append

theorem fits_cons : Fits (r :: l) ↔ (0 < r.baseId ∧ 0 < r.span ∧ r.stop ≤ 2 ^ 32) ∧ Fits l :=
  forall_mem_cons

theorem merged_append_singleton : Merged (l ++ [r]) ↔ Merged l ∧ ∀ a ∈ l, a.stop < r.baseId := by
  simp [Separated, pairwise_append]

theorem mergeOld_joined (new : LpiRange) (hfits : Fits (before ++ [new])) (hmerged : Merged before)
    (hle : ∀ a ∈ before, a.stop ≤ new.baseId) : Joined before new (mergeOld before new) := by
  rcases eq_nil_or_concat' before with rfl | ⟨init, old, rfl⟩
  · exact ⟨hfits, pairwise_singleton .., rfl, fun _ => rfl⟩
  · obtain ⟨hbefore, hnew⟩ := fits_append.mp hfits
    obtain ⟨hinit, hold⟩ := fits_append.mp hbefore
    obtain ⟨⟨holdPos, holdSpan, -⟩, -⟩ := fits_cons.mp hold
    obtain ⟨⟨hnewPos, hnewSpan, hnewStop⟩, -⟩ := fits_cons.mp hnew
    obtain ⟨hminit, hgap⟩ := merged_append_singleton.mp hmerged
    have htouch : old.stop ≤ new.baseId := hle old (by simp)
    rw [mergeOld, List.getLast?_concat]
    simp only [mergeLpiRanges_eq holdPos hnewSpan hnewStop htouch]
    by_cases heq : old.stop = new.baseId
    · -- the entry before it is taken in
      rw [if_pos heq, dropLast_concat]
      refine ⟨fits_append.mpr ⟨hinit, fits_cons.mpr ⟨⟨holdPos, ?_, ?_⟩, by simp [Fits]⟩⟩,
        merged_append_singleton.mpr ⟨hminit, hgap⟩, joined_stop heq, fun x => ?_⟩
      · exact Nat.add_pos_left hnewSpan _
      · rw [joined_stop heq]
        exact hnewStop
      · rw [append_assoc, held_append, held_append, held_join heq]
        rfl
    · rw [if_neg heq]
      have hlt : old.stop < new.baseId := by omega
      refine ⟨hfits, merged_append_singleton.mpr ⟨hmerged, fun a ha => ?_⟩, rfl, fun _ => rfl⟩
      rcases mem_append.mp ha with ha | ha
      · have := hgap a ha
        simp only [LpiRange.stop] at hlt this ⊢
        omega
      · rw [mem_singleton.mp ha]
        exact hlt

/-- The new range is joined to the ranges after it. -/
structure JoinedNext (new : LpiRange) (after l : List LpiRange) : Prop where
  fits : Fits l
  merged : Merged l
  base : ∀ r ∈ l, new.baseId ≤ r.baseId
  held : ∀ x, held l x = held (new :: after) x

theorem mergeNext_joined (hfits : Fits (new :: after)) (hmerged : Merged after)
    (hle : ∀ b ∈ after, new.stop ≤ b.baseId) : JoinedNext new after (mergeNext new after) := by
  obtain ⟨hnew, hafter⟩ := fits_cons.mp hfits
  cases after with
  | nil => exact ⟨hfits, pairwise_singleton .., by simp [mergeNext], fun _ => rfl⟩
  | cons next rest =>
    obtain ⟨⟨hnextPos, hnextSpan, hnextStop⟩, hrest⟩ := fits_cons.mp hafter
    obtain ⟨hgap, hmrest⟩ := pairwise_cons.mp hmerged
    have htouch : new.stop ≤ next.baseId := hle next (by simp)
    have hbase : ∀ b ∈ next :: rest, new.baseId ≤ b.baseId := fun b hb => by
      have := hle b hb
      simp only [LpiRange.stop] at this
      omega
    simp only [mergeNext, mergeLpiRanges_eq hnew.1 hnextSpan hnextStop htouch]
    by_cases heq : new.stop = next.baseId
    · -- the new range is taken in
      rw [if_pos heq]
      refine ⟨fits_cons.mpr ⟨⟨hnew.1, Nat.add_pos_left hnextSpan _, ?_⟩, hrest⟩,
        .cons (fun b hb => ?_) hmrest, forall_mem_cons.mpr ⟨le_rfl, fun b hb => hbase b (by simp [hb])⟩,
        fun x => held_join heq⟩
      · rw [joined_stop heq]
        exact hnextStop
      · rw [joined_stop heq]
        exact hgap b hb
    · rw [if_neg heq]
      have hlt : new.stop < next.baseId := by omega
      refine ⟨hfits, .cons (fun b hb => ?_) hmerged, forall_mem_cons.mpr ⟨le_rfl, hbase⟩,
        fun _ => rfl⟩
      rcases mem_cons.mp hb with rfl | hb
      · exact hlt
      · have := hgap b hb
        simp only [LpiRange.stop] at hlt this ⊢
        omega

theorem rdropWhile_lt (base : ℕ) (hmerged : Merged l) :
    ∀ a ∈ l.rdropWhile (fun old => base ≤ old.baseId), a.baseId < base := by
  intro a ha
  have hne := ne_nil_of_mem ha
  have hlast := rdropWhile_last_not _ _ hne
  have hsub : Merged (l.rdropWhile fun old => base ≤ old.baseId) :=
    hmerged.sublist (List.rdropWhile_prefix ..).sublist
  obtain ⟨init, last, heq⟩ := (eq_nil_or_concat' _).resolve_left hne
  simp only [heq, getLast_append_singleton, decide_eq_true_eq, not_le] at hlast
  rw [heq] at ha hsub
  rcases mem_append.mp ha with ha | ha
  · have := (merged_append_singleton.mp hsub).2 a ha
    simp only [LpiRange.stop] at this
    omega
  · rw [mem_singleton.mp ha]
    exact hlast

/-- The range is in the list again. -/
structure Restored (l l' : List LpiRange) (r : LpiRange) : Prop where
  fits : Fits l'
  merged : Merged l'
  held : ∀ x, held l' x = held (r :: l) x

theorem freeLpiRange_restored (hfits : Fits (r :: l)) (hmerged : Merged l)
    (hfresh : ∀ x, r.baseId ≤ x → x < r.stop → held l x = 0) :
    Restored l (freeLpiRange l r.baseId r.span) r := by
  obtain ⟨hr, hl⟩ := fits_cons.mp hfits
  have hsplit : l.rdropWhile (fun old => r.baseId ≤ old.baseId) ++
      l.rtakeWhile (fun old => r.baseId ≤ old.baseId) = l := rdropWhile_append_rtakeWhile ..
  have hafter : ∀ b ∈ l.rtakeWhile (fun old => r.baseId ≤ old.baseId), r.baseId ≤ b.baseId :=
    fun b hb => by simpa using mem_rtakeWhile_imp hb
  have hbefore := rdropWhile_lt r.baseId hmerged
  rw [freeLpiRange]
  generalize l.rdropWhile (fun old => r.baseId ≤ old.baseId) = before at hsplit hbefore
  generalize l.rtakeWhile (fun old => r.baseId ≤ old.baseId) = after at hsplit hafter
  subst hsplit
  obtain ⟨hfbefore, hfafter⟩ := fits_append.mp hl
  obtain ⟨hmbefore, hmafter, -⟩ := pairwise_append.mp hmerged
  -- the range lies between the two parts, as its ids are not free
  have hold := mergeOld_joined r (fits_append.mpr ⟨hfbefore, fits_cons.mpr ⟨hr, by simp [Fits]⟩⟩)
    hmbefore fun a ha => by
      by_contra hlt
      have hpos : 0 < held (before ++ after) r.baseId :=
        cover_pos_iff.mpr ⟨a, by simp [ha], (hbefore a ha).le, by omega⟩
      rw [hfresh r.baseId le_rfl (Nat.lt_add_of_pos_right hr.2.1)] at hpos
      omega
  generalize mergeOld before ⟨r.baseId, r.span⟩ = res at hold
  obtain ⟨before', new⟩ := res
  obtain ⟨hfits', hmerged', hstop, hheld⟩ := hold
  dsimp only at hfits' hmerged' hstop hheld ⊢
  obtain ⟨hfbefore', hfnew⟩ := fits_append.mp hfits'
  obtain ⟨hmbefore', hgap⟩ := merged_append_singleton.mp hmerged'
  have hnext := mergeNext_joined (fits_cons.mpr ⟨(fits_cons.mp hfnew).1, hfafter⟩) hmafter fun b hb => by
    rw [hstop]
    by_contra hlt
    have hpos : 0 < held (before ++ after) b.baseId :=
      cover_pos_iff.mpr ⟨b, by simp [hb], le_rfl, Nat.lt_add_of_pos_right (hfafter b hb).2.1⟩
    rw [hfresh b.baseId (hafter b hb) (by omega)] at hpos
    omega
  refine ⟨fits_append.mpr ⟨hfbefore', hnext.fits⟩, pairwise_append.mpr ⟨hmbefore', hnext.merged,
    fun a ha b hb => (hgap a ha).trans_le (hnext.base b hb)⟩, fun x => ?_⟩
  have hx := hheld x
  simp only [held_append, held_cons, hnext.held x] at hx ⊢
  simp only [held, cover_nil] at hx ⊢
  omega

/-! ### Runs of the allocator -/

/-- The ranges that are free, those that are in use, and those that could not
be given back. -/
structure LpiState where
  free : List LpiRange
  allocated : List LpiRange
  lost : List LpiRange

/-- The calls. `entry` says whether there is memory for a list entry. -/
inductive LpiCall where
  | alloc (nrLpis : ℕ)
  | free (range : LpiRange) (entry : Bool)

/-- The allocator after `its_lpi_init`. -/
def lpiInit (lpis : ℕ) : LpiState := ⟨freeLpiRange [] 8192 lpis, [], []⟩

def lpiStep (s : LpiState) : LpiCall → Option LpiState
  | .alloc nrLpis =>
      match allocLpiRange nrLpis s.free with
      | .error _ => some s
      | .ok (base, list) => some { s with free := list, allocated := ⟨base, nrLpis⟩ :: s.allocated }
  | .free range entry =>
      let s := { s with allocated := s.allocated.erase range }
      if entry then some { s with free := freeLpiRange s.free range.baseId range.span }
      else some { s with lost := range :: s.lost }

/-- Some ids are asked for, and only what is in use is given back. -/
def LpiCall.Allowed (s : LpiState) : LpiCall → Prop
  | .alloc nrLpis => 0 < nrLpis
  | .free range _ => range ∈ s.allocated

instance (s : LpiState) : DecidablePred (LpiCall.Allowed s)
  | .alloc nrLpis => inferInstanceAs (Decidable (0 < nrLpis))
  | .free range _ => inferInstanceAs (Decidable (range ∈ s.allocated))

/-- The id is in the range. -/
def LpiRange.Has (r : LpiRange) (x : ℕ) : Prop := r.baseId ≤ x ∧ x < r.stop

/-- Every id from 8192 on is in one place. -/
structure Partitioned (lpis : ℕ) (s : LpiState) : Prop where
  sorted : s.free.Pairwise fun a b => a.baseId < b.baseId
  nonempty : ∀ r ∈ s.free, 0 < r.span
  freeDisjoint : s.free.Pairwise fun a b => ∀ x, ¬(a.Has x ∧ b.Has x)
  notAdjacent : s.free.Pairwise fun a b => a.stop ≠ b.baseId ∧ b.stop ≠ a.baseId
  allocatedDisjoint : s.allocated.Pairwise fun a b => ∀ x, ¬(a.Has x ∧ b.Has x)
  apart : ∀ a ∈ s.allocated, ∀ r ∈ s.free, ∀ x, ¬(a.Has x ∧ r.Has x)
  exact : ∀ x, (∃ r ∈ s.free ++ s.allocated ++ s.lost, r.Has x) ↔ 8192 ≤ x ∧ x < 8192 + lpis
  noSpace : ∀ k, 0 < k → (allocLpiRange k s.free = .error (-ENOSPC) ↔
    ¬∃ x, ∀ y, x ≤ y → y < x + k → ∃ r ∈ s.free, r.Has y)

/-- What the calls keep. -/
structure LpiInv (lpis : ℕ) (s : LpiState) : Prop where
  merged : Merged s.free
  fits : Fits s.free
  fitsAllocated : Fits s.allocated
  fitsLost : Fits s.lost
  held : ∀ x, held s.free x + held s.allocated x + held s.lost x =
    if 8192 ≤ x ∧ x < 8192 + lpis then 1 else 0

variable {lpis : ℕ} {s t : LpiState} {call : LpiCall} {calls : List LpiCall}

theorem fits_nil : Fits [] := by simp [Fits]

theorem lpiInit_inv (hpos : 0 < lpis) (hids : 8192 + lpis ≤ 2 ^ 32) : LpiInv lpis (lpiInit lpis) where
  merged := pairwise_singleton ..
  fits := fits_cons.mpr ⟨⟨by simp, hpos, hids⟩, fits_nil⟩
  fitsAllocated := fits_nil
  fitsLost := fits_nil
  held x := by
    have hx : Its.held (lpiInit lpis).free x = 0 + if 8192 ≤ x ∧ x < 8192 + lpis then 1 else 0 := held_cons
    rw [hx]
    exact Nat.zero_add _

theorem held_erase (hr : r ∈ l) :
    held l x = held (l.erase r) x + if r.baseId ≤ x ∧ x < r.stop then 1 else 0 := by
  rw [← held_cons]
  exact cover_perm (perm_cons_erase hr)

theorem lpiStep_inv (h : LpiInv lpis s) (hcall : call.Allowed s) (hstep : lpiStep s call = some t) :
    LpiInv lpis t := by
  cases call with
  | alloc k =>
    cases halloc : allocLpiRange k s.free with
    | error e =>
      simp only [lpiStep, halloc, Option.some.injEq] at hstep
      exact hstep ▸ h
    | ok res =>
      obtain ⟨base, list⟩ := res
      simp only [lpiStep, halloc, Option.some.injEq] at hstep
      have hcut := allocLpiRange_ok h.fits h.merged halloc
      subst hstep
      refine ⟨hcut.merged, hcut.fits, fits_cons.mpr ⟨⟨hcut.base_pos, hcall, hcut.stop_le⟩, h.fitsAllocated⟩,
        h.fitsLost, fun x => ?_⟩
      have hnew : Its.held (⟨base, k⟩ :: s.allocated) x =
          Its.held s.allocated x + if base ≤ x ∧ x < base + k then 1 else 0 := held_cons
      have hx := h.held x
      rw [hcut.held x] at hx
      rw [hnew, ← hx]
      dsimp only
      omega
  | free r entry =>
    have hr := h.fitsAllocated r hcall
    have herase : Fits (s.allocated.erase r) := fun a ha => h.fitsAllocated a (mem_of_mem_erase ha)
    have hparts : ∀ x, Its.held s.free x + Its.held (s.allocated.erase r) x + Its.held s.lost x +
        (if r.baseId ≤ x ∧ x < r.stop then 1 else 0) = if 8192 ≤ x ∧ x < 8192 + lpis then 1 else 0 := by
      intro x
      have hx := h.held x
      rw [held_erase (r := r) hcall] at hx
      omega
    by_cases hentry : entry
    · -- the ids of the range are not free, as each id is in one place
      have hback := freeLpiRange_restored (fits_cons.mpr ⟨hr, h.fits⟩) h.merged fun x hlo hhi => by
        have hx := hparts x
        rw [if_pos ⟨hlo, hhi⟩] at hx
        split at hx <;> omega
      simp only [lpiStep, hentry, if_true, Option.some.injEq] at hstep
      subst hstep
      refine ⟨hback.merged, hback.fits, herase, h.fitsLost, fun x => ?_⟩
      rw [hback.held x, held_cons, ← hparts x]
      dsimp only
      omega
    · simp only [lpiStep, hentry, Bool.false_eq_true, if_false, Option.some.injEq] at hstep
      subst hstep
      refine ⟨h.merged, h.fits, herase, fits_cons.mpr ⟨hr, h.fitsLost⟩, fun x => ?_⟩
      rw [held_cons, ← hparts x]
      dsimp only
      omega

theorem LpiInv.partitioned (h : LpiInv lpis s) : Partitioned lpis s := by
  have hall : ∀ x, Its.held (s.free ++ s.allocated ++ s.lost) x =
      if 8192 ≤ x ∧ x < 8192 + lpis then 1 else 0 := fun x => by
    rw [held_append, held_append]
    exact h.held x
  have hone : ∀ x, Its.held (s.free ++ s.allocated ++ s.lost) x ≤ 1 := fun x => by
    rw [hall x]
    split <;> omega
  have hdisjoint := disjoint_of_cover_le_one hone
  obtain ⟨hparts, -, -⟩ := pairwise_append.mp hdisjoint
  obtain ⟨hfree, halloc, hcross⟩ := pairwise_append.mp hparts
  refine ⟨h.merged.imp fun hab => ?_, fun r hr => (h.fits r hr).2.1, hfree, h.merged.imp_of_mem ?_, halloc,
    fun a ha r hr x hx => hcross r hr a ha x hx.symm, fun x => ?_, fun k hk => ?_⟩
  · simp only [LpiRange.stop] at hab
    omega
  · intro a b ha hb hab
    have := (h.fits b hb).2.1
    simp only [LpiRange.stop] at hab ⊢
    omega
  · have hcover : 0 < cover LpiRange.baseId LpiRange.stop (s.free ++ s.allocated ++ s.lost) x ↔
        ∃ r ∈ s.free ++ s.allocated ++ s.lost, r.Has x := cover_pos_iff
    refine hcover.symm.trans ?_
    rw [show cover LpiRange.baseId LpiRange.stop (s.free ++ s.allocated ++ s.lost) x = _ from hall x]
    split <;> simp_all
  · rw [allocLpiRange_error_iff_no_run h.merged hk]
    simp only [Its.held, cover_pos_iff, LpiRange.Has]

/-- After any calls, every id from 8192 on is in one place, and the ids that
are free lie in as few ranges as possible. -/
theorem lpis_partitioned (hpos : 0 < lpis) (hids : 8192 + lpis ≤ 2 ^ 32)
    (hcalls : Along lpiStep LpiCall.Allowed (lpiInit lpis) calls)
    (hrun : exec lpiStep (lpiInit lpis) calls = some s) : Partitioned lpis s :=
  LpiInv.partitioned (exec_invariant_along (fun _ _ _ => lpiStep_inv) (lpiInit_inv hpos hids) hcalls hrun)

theorem lpis_partitioned_sixteen : ∃ s, exec lpiStep (lpiInit 16)
    [.alloc 4, .alloc 8, .free ⟨8192, 4⟩ true, .free ⟨8196, 8⟩ true, .alloc 16] = some s ∧ Partitioned 16 s := by
  have hcalls : Along lpiStep LpiCall.Allowed (lpiInit 16)
      [.alloc 4, .alloc 8, .free ⟨8192, 4⟩ true, .free ⟨8196, 8⟩ true, .alloc 16] := by decide
  exact ⟨_, rfl, lpis_partitioned (by decide) (by decide) hcalls rfl⟩

/-- Without ids there is an empty range. -/
theorem lpiInit_zero_not_partitioned : ¬Partitioned 0 (lpiInit 0) :=
  fun h => absurd h.nonempty (by decide)

end GfpDrivers.Its
