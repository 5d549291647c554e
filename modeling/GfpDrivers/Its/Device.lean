import Mathlib.Data.Nat.Log
import GfpDrivers.Its.Lpi

/-!
Interrupts of ITS devices (`irq-gic-v3-its.c`). The LPIs of a device are taken
from the allocator when the device is made, and its interrupts are then taken
from a bitmap of its own.

None of the functions gives back what it has taken when it fails later on. So
LPIs are lost whenever some were there to be taken, and so are the bits of a
device. In this version of the driver the interrupt translation table is not
allocated at all (`itt = 0`), and no device can be made.
-/

namespace GfpDrivers.Its

open Lib

/-! ### The functions -/

/-- The conversion from `int` to `u32`. -/
def u32OfInt (n : ℤ) : ℕ := (n % 2 ^ 32).toNat

/-- The conversion from `unsigned long` to `int`. -/
def intOfNat (n : ℕ) : ℤ := if n % 2 ^ 32 < 2 ^ 31 then (n % 2 ^ 32 : ℕ) else (n % 2 ^ 32 : ℕ) - 2 ^ 32

theorem half_pos {n : ℤ} (h : 0 < n.tdiv 2) : 1 < n ∧ n.tdiv 2 = n / 2 := by
  have heq := Int.tdiv_eq_ediv (a := n) (b := 2)
  rw [show Int.sign 2 = 1 from rfl] at heq
  split at heq <;> omega

/-- The loop of `its_lpi_alloc`: the number of its last round, and what that
round gave. -/
def lpiAllocLoop (list : List LpiRange) (nrIrqs : ℤ) : ℤ × Except ℤ (ℕ × List LpiRange) :=
  match allocLpiRange (u32OfInt nrIrqs) list with
  | .ok res => (nrIrqs, .ok res)
  | .error err =>
      if 0 < nrIrqs.tdiv 2 then lpiAllocLoop list (nrIrqs.tdiv 2) else (nrIrqs.tdiv 2, .error err)
termination_by nrIrqs.toNat
decreasing_by
  obtain ⟨hlt, heq⟩ := half_pos (by assumption : 0 < nrIrqs.tdiv 2)
  omega

/-- `its_lpi_alloc`: the list after it, and the first id and the number of ids.
There is memory for the bitmap when `bitmap` is set. -/
def itsLpiAlloc (list : List LpiRange) (nrIrqs : ℤ) (bitmap : Bool) : List LpiRange × Option (ℕ × ℤ) :=
  match lpiAllocLoop list nrIrqs with
  | (_, .error _) => (list, none)
  | (nrIrqs, .ok (base, list)) =>
      if nrIrqs = 0 then (list, none) else if bitmap then (list, some (base, nrIrqs)) else (list, none)

/-- `struct its_device`, with what is used of its `event_map`. -/
structure ItsDevice where
  deviceId : ℕ
  nrItes : ℤ
  lpiMap : ℕ → Bool
  lpiBase : ℕ
  nrLpis : ℤ

/-- The free LPIs and the devices. -/
structure ItsState (δ : Type) where
  lpis : List LpiRange
  device : δ → ItsDevice
  deviceList : List δ

/-- What the calls for memory give in `its_create_device`. -/
structure Memory (δ : Type) where
  deviceTable : Bool
  dev : Option δ
  bitmap : Bool
  colMap : Bool

/-- `is_power_of_2` -/
def isPowerOf2 (n : ℕ) : Bool := n ≠ 0 ∧ n &&& (n - 1) = 0

/-- The number of vectors as `its_create_device` uses it. -/
def roundNvecs (nvecs : ℕ) : ℤ := if isPowerOf2 nvecs then nvecs else intOfNat (2 ^ Nat.clog 2 nvecs)

variable {δ : Type} [DecidableEq δ]

/-- `its_create_device`. The table `itt` is `NULL` in all cases. -/
def itsCreateDevice (s : ItsState δ) (devId nvecs : ℕ) (allocLpis : Bool) (m : Memory δ) :
    ItsState δ × Option δ :=
  if m.deviceTable = false then (s, none)
  else
    let nvecs := roundNvecs nvecs
    let nrItes := max 2 nvecs
    let itt := false
    let (lpis, lpiMap) := if allocLpis then itsLpiAlloc s.lpis nvecs m.bitmap else (s.lpis, none)
    let colMap := if allocLpis then lpiMap.isSome && m.colMap else m.colMap
    let s := { s with lpis := lpis }
    match m.dev with
    | none => (s, none)
    | some dev =>
        if !itt || !colMap || (!lpiMap.isSome && allocLpis) then (s, none)
        else
          let (lpiBase, nrLpis) := lpiMap.getD (0, 0)
          ({ s with
              device := Function.update s.device dev ⟨devId, nrItes, fun _ => false, lpiBase, nrLpis⟩
              deviceList := dev :: s.deviceList }, some dev)

/-- `get_count_order` -/
def getCountOrder (count : ℕ) : ℕ := Nat.clog 2 count

/-- The type of `bitmap_find_free_region`: the first bit of the region, and the
bitmap after it. -/
abbrev FindFreeRegion := (ℕ → Bool) → ℤ → ℕ → Option (ℕ × (ℕ → Bool))

/-- A region that is found was free, and is no longer. -/
structure FindFreeRegion.Correct (find : FindFreeRegion) : Prop where
  clear : ∀ map bits order pos map', find map bits order = some (pos, map') →
    ∀ i, pos ≤ i → i < pos + 2 ^ order → map i = false
  set : ∀ map bits order pos map', find map bits order = some (pos, map') →
    ∀ i, map' i = (map i || decide (pos ≤ i ∧ i < pos + 2 ^ order))

section Irqs

variable (find : FindFreeRegion)

/-- `its_alloc_device_irq`: the device after it and the hardware interrupt. The
only error is `-ENOSPC`. -/
def itsAllocDeviceIrq (dev : ItsDevice) (nvecs : ℕ) : Option (ItsDevice × ℕ) :=
  (find dev.lpiMap dev.nrLpis (getCountOrder nvecs)).map fun (idx, map) =>
    ({ dev with lpiMap := map }, dev.lpiBase + idx)

/-- What the parent domain is described by. -/
inductive ParentNode where
  | ofNode
  | irqchip
  | other

/-- `GIC_IRQ_TYPE_LPI` -/
def gicIrqTypeLpi : ℕ := 0xa110c8ed

/-- `IRQ_TYPE_EDGE_RISING` -/
def irqTypeEdgeRising : ℕ := 1

/-- `its_irq_gic_domain_alloc`, where the parent domain answers to the number of
the interrupt and to the parameters. -/
def itsIrqGicDomainAlloc (parent : ParentNode) (allocParent : ℕ → List ℕ → ℤ) (virq hwirq : ℕ) : ℤ :=
  match parent with
  | .ofNode => allocParent virq [gicIrqTypeLpi, hwirq, irqTypeEdgeRising]
  | .irqchip => allocParent virq [hwirq, irqTypeEdgeRising]
  | .other => -EINVAL

/-- The loop of `its_irq_domain_alloc`. -/
def allocEach (alloc : ℕ → ℤ) : List ℕ → ℤ
  | [] => 0
  | i :: rest => if alloc i ≠ 0 then alloc i else allocEach alloc rest

/-- `its_irq_domain_alloc`, where `iommu` is what `iommu_dma_prepare_msi`
returns. -/
def itsIrqDomainAlloc (s : ItsState δ) (dev : δ) (virq nrIrqs : ℕ) (iommu : ℤ) (parent : ParentNode)
    (allocParent : ℕ → List ℕ → ℤ) : ItsState δ × ℤ :=
  match itsAllocDeviceIrq find (s.device dev) nrIrqs with
  | none => (s, -ENOSPC)
  | some (d, hwirq) =>
      let s := { s with device := Function.update s.device dev d }
      if iommu ≠ 0 then (s, iommu)
      else
        (s, allocEach (fun i => itsIrqGicDomainAlloc parent allocParent (virq + i) (hwirq + i))
          (List.range nrIrqs))

end Irqs

/-! ### What is lost -/

variable {list list' : List LpiRange} {s s' : ItsState δ} {n m : ℤ} {base x k : ℕ} {find : FindFreeRegion}

/-- The same LPIs are free, and the bitmaps of the devices are the same. -/
structure Returned (s s' : ItsState δ) : Prop where
  lpis : ∀ x, (∃ r ∈ s'.lpis, r.Has x) ↔ ∃ r ∈ s.lpis, r.Has x
  maps : ∀ d, (s'.device d).lpiMap = (s.device d).lpiMap

/-- The values of `int`. -/
def IsInt (n : ℤ) : Prop := -2 ^ 31 ≤ n ∧ n < 2 ^ 31

/-- The smallest number of ids that `its_lpi_alloc` comes down to. -/
def leastRequest (nrIrqs : ℤ) : ℕ := if 0 < nrIrqs then 1 else u32OfInt nrIrqs

/-- There are ids for `its_lpi_alloc` to take. -/
def CanTake (list : List LpiRange) (nrIrqs : ℤ) : Prop :=
  ∃ r ∈ list, 0 < leastRequest nrIrqs ∧ leastRequest nrIrqs ≤ r.span

theorem allocLpiRange_long {res : ℕ × List LpiRange} (h : allocLpiRange k list = .ok res) :
    ∃ r ∈ list, k ≤ r.span := by
  by_contra hshort
  have herr : allocLpiRange k list = .error (-ENOSPC) :=
    allocLpiRange_error_iff.mpr fun r hr => not_le.mp fun hle => hshort ⟨r, hr, hle⟩
  simp [herr] at h

theorem u32OfInt_pos (hint : IsInt n) (hne : n ≠ 0) : 0 < u32OfInt n := by
  obtain ⟨hlo, hhi⟩ := hint
  simp only [u32OfInt]
  omega

theorem lpiAllocLoop_cases (list : List LpiRange) (hint : IsInt n) :
    (∃ m e, lpiAllocLoop list n = (m, .error e) ∧ ¬CanTake list n) ∨
      ∃ m base list', lpiAllocLoop list n = (m, .ok (base, list')) ∧
        allocLpiRange (u32OfInt m) list = .ok (base, list') ∧ IsInt m ∧ (m ≠ 0 ↔ CanTake list n) := by
  fun_induction lpiAllocLoop list n with
  | case1 n res hres =>
    refine .inr ⟨n, res.1, res.2, rfl, hres, hint, fun hne => ?_, ?_⟩
    · obtain ⟨r, hr, hle⟩ := allocLpiRange_long hres
      have hpos := u32OfInt_pos hint hne
      refine ⟨r, hr, ?_⟩
      unfold leastRequest
      split <;> omega
    · rintro ⟨r, -, hpos, -⟩ rfl
      simp [leastRequest, u32OfInt] at hpos
  | case2 n err herr hhalf ih =>
    -- both numbers come down to one id
    obtain ⟨hlt, heq⟩ := half_pos hhalf
    have hint' : IsInt (n.tdiv 2) := by
      obtain ⟨hlo, hhi⟩ := hint
      rw [heq]
      exact ⟨by omega, by omega⟩
    have hsame : CanTake list n ↔ CanTake list (n.tdiv 2) := by
      simp only [CanTake, leastRequest, if_pos hhalf, if_pos (show 0 < n by omega)]
    rw [hsame]
    exact ih hint'
  | case3 n err herr hhalf =>
    refine .inl ⟨_, err, rfl, ?_⟩
    rintro ⟨r, hr, -, hle⟩
    have hlt : r.span < u32OfInt n := by
      rw [allocLpiRange_error herr] at herr
      exact allocLpiRange_error_iff.mp herr r hr
    by_cases hpos : 0 < n
    · have hone : n = 1 := by
        rw [Int.tdiv_eq_ediv_of_nonneg hpos.le] at hhalf
        omega
      subst hone
      rw [leastRequest, if_pos hpos] at hle
      simp [u32OfInt] at hlt
      omega
    · rw [leastRequest, if_neg hpos] at hle
      omega

theorem cut_changes (hmerged : Merged list) (hcut : Cut list list' base k) (hk : 0 < k) :
    ¬∀ x, (∃ r ∈ list', r.Has x) ↔ ∃ r ∈ list, r.Has x := by
  intro hsame
  have hone : held list base ≤ 1 := hmerged.cover_le_one
  have hbase := hcut.held base
  rw [if_pos ⟨le_rfl, by omega⟩] at hbase
  have hfree : 0 < held list base := by omega
  have hpos : 0 < held list' base := cover_pos_iff.mpr ((hsame base).mpr (cover_pos_iff.mp hfree))
  omega

theorem cut_zero_same (hcut : Cut list list' base 0) :
    ∀ x, (∃ r ∈ list', r.Has x) ↔ ∃ r ∈ list, r.Has x := by
  intro x
  have hx := hcut.held x
  rw [if_neg (by omega)] at hx
  exact cover_pos_iff.symm.trans ((by rw [hx]; rfl : 0 < held list' x ↔ 0 < held list x).trans cover_pos_iff)

/-- The ids that `its_lpi_alloc` could take are taken, whether it fails or not. -/
theorem itsLpiAlloc_same_iff (bitmap : Bool) (hfits : Fits list) (hmerged : Merged list) (hint : IsInt n) :
    (∀ x, (∃ r ∈ (itsLpiAlloc list n bitmap).1, r.Has x) ↔ ∃ r ∈ list, r.Has x) ↔ ¬CanTake list n := by
  rcases lpiAllocLoop_cases list hint with ⟨m, e, hloop, hno⟩ | ⟨m, base, l, hloop, halloc, hm, htake⟩
  · rw [itsLpiAlloc, hloop]
    exact iff_of_true (fun _ => Iff.rfl) hno
  · have hcut := allocLpiRange_ok hfits hmerged halloc
    have hlist : (itsLpiAlloc list n bitmap).1 = l := by
      rw [itsLpiAlloc, hloop]
      dsimp only
      split
      · rfl
      · split <;> rfl
    rw [hlist, ← htake, not_not]
    by_cases hzero : m = 0
    · subst hzero
      exact iff_of_true (cut_zero_same hcut) rfl
    · exact iff_of_false (cut_changes hmerged hcut (u32OfInt_pos hm hzero)) hzero

theorem roundNvecs_isInt {nvecs : ℕ} (h : nvecs < 2 ^ 31) : IsInt (roundNvecs nvecs) := by
  unfold roundNvecs intOfNat IsInt
  split
  · omega
  · split <;> omega

theorem itsCreateDevice_eq {devId nvecs : ℕ} {allocLpis : Bool} {mem : Memory δ} :
    itsCreateDevice s devId nvecs allocLpis mem =
      ({ s with lpis := if mem.deviceTable && allocLpis then
          (itsLpiAlloc s.lpis (roundNvecs nvecs) mem.bitmap).1 else s.lpis }, none) := by
  obtain ⟨table, dev, bitmap, colMap⟩ := mem
  cases table <;> cases dev <;> cases allocLpis <;> rfl

theorem itsCreateDevice_returned_iff {devId nvecs : ℕ} {allocLpis : Bool} {mem : Memory δ} {dev : Option δ}
    (hfits : Fits s.lpis) (hmerged : Merged s.lpis) (hnvecs : nvecs < 2 ^ 31)
    (h : itsCreateDevice s devId nvecs allocLpis mem = (s', dev)) :
    Returned s s' ↔ ¬(mem.deviceTable ∧ allocLpis ∧ CanTake s.lpis (roundNvecs nvecs)) := by
  rw [itsCreateDevice_eq] at h
  obtain ⟨rfl, -⟩ := Prod.mk.inj h
  have hsame := itsLpiAlloc_same_iff mem.bitmap hfits hmerged (roundNvecs_isInt hnvecs)
  by_cases htry : (mem.deviceTable && allocLpis) = true
  · obtain ⟨htable, halloc⟩ := Bool.and_eq_true_iff.mp htry
    simp only [htable, halloc, Bool.and_self, if_true, true_and]
    rw [← hsame]
    exact ⟨fun hret => hret.lpis, fun hlpis => ⟨hlpis, fun _ => rfl⟩⟩
  · rw [if_neg htry]
    refine iff_of_true ⟨fun _ => Iff.rfl, fun _ => rfl⟩ ?_
    rintro ⟨htable, halloc, -⟩
    simp [htable, halloc] at htry

theorem itsIrqDomainAlloc_returned_iff (hfind : find.Correct) {dev : δ} {virq nrIrqs : ℕ} {iommu err : ℤ}
    {parent : ParentNode} {allocParent : ℕ → List ℕ → ℤ}
    (h : itsIrqDomainAlloc find s dev virq nrIrqs iommu parent allocParent = (s', err)) :
    Returned s s' ↔ find (s.device dev).lpiMap (s.device dev).nrLpis (getCountOrder nrIrqs) = none := by
  cases hres : find (s.device dev).lpiMap (s.device dev).nrLpis (getCountOrder nrIrqs) with
  | none =>
    simp only [itsIrqDomainAlloc, itsAllocDeviceIrq, hres, Option.map_none, Prod.mk.injEq] at h
    obtain ⟨rfl, -⟩ := h
    exact iff_of_true ⟨fun _ => Iff.rfl, fun _ => rfl⟩ rfl
  | some res =>
    obtain ⟨pos, map⟩ := res
    have hs' : (s'.device dev).lpiMap = map := by
      simp only [itsIrqDomainAlloc, itsAllocDeviceIrq, hres, Option.map_some] at h
      split at h
      all_goals
        rw [← (Prod.mk.inj h).1]
        simp
    refine iff_of_false (fun hret => ?_) (by simp)
    -- the first bit of the region was clear and is set
    have hmap := congrFun ((hret.maps dev).symm.trans hs') pos
    have hin : pos < pos + 2 ^ getCountOrder nrIrqs := Nat.lt_add_of_pos_right (Nat.two_pow_pos _)
    rw [hfind.set _ _ _ _ _ hres pos, hfind.clear _ _ _ _ _ hres pos le_rfl hin] at hmap
    simp [hin] at hmap

/-- A call that fails gives back what it has taken only if there was nothing
to take. -/
theorem failed_alloc_returns_iff (hfind : find.Correct) (hfits : Fits s.lpis) (hmerged : Merged s.lpis) :
    (∀ (nrIrqs : ℤ) (bitmap : Bool), IsInt nrIrqs → (itsLpiAlloc s.lpis nrIrqs bitmap).2 = none →
      (Returned s { s with lpis := (itsLpiAlloc s.lpis nrIrqs bitmap).1 } ↔ ¬CanTake s.lpis nrIrqs)) ∧
    (∀ (devId nvecs : ℕ) (allocLpis : Bool) (mem : Memory δ) (s' : ItsState δ), 0 < nvecs → nvecs < 2 ^ 31 →
      itsCreateDevice s devId nvecs allocLpis mem = (s', none) →
      (Returned s s' ↔ ¬(mem.deviceTable ∧ allocLpis ∧ CanTake s.lpis (roundNvecs nvecs)))) ∧
    ∀ (dev : δ) (virq nrIrqs : ℕ) (iommu : ℤ) (parent : ParentNode) (allocParent : ℕ → List ℕ → ℤ)
      (s' : ItsState δ) (err : ℤ), 0 < nrIrqs →
      itsIrqDomainAlloc find s dev virq nrIrqs iommu parent allocParent = (s', err) → err ≠ 0 →
      (Returned s s' ↔ find (s.device dev).lpiMap (s.device dev).nrLpis (getCountOrder nrIrqs) = none) := by
  refine ⟨fun nrIrqs bitmap hint _ => ?_, fun _ _ _ _ _ _ hnvecs h => ?_, fun _ _ _ _ _ _ _ _ _ h _ => ?_⟩
  · rw [← itsLpiAlloc_same_iff bitmap hfits hmerged hint]
    exact ⟨fun hret => hret.lpis, fun hlpis => ⟨hlpis, fun _ => rfl⟩⟩
  · exact itsCreateDevice_returned_iff hfits hmerged hnvecs h
  · exact itsIrqDomainAlloc_returned_iff hfind h

/-- The search of `bitmap_find_free_region` for the first free region. -/
def firstFit : FindFreeRegion := fun map bits order =>
  ((List.range bits.toNat).find? fun pos => pos % 2 ^ order = 0 ∧ pos + 2 ^ order ≤ bits.toNat ∧
      ∀ i ∈ List.range (2 ^ order), map (pos + i) = false).map
    fun pos => (pos, fun i => map i || decide (pos ≤ i ∧ i < pos + 2 ^ order))

theorem firstFit_correct : firstFit.Correct where
  clear map bits order pos map' h i hlo hhi := by
    obtain ⟨pos', hpos, heq⟩ := Option.map_eq_some_iff.mp h
    obtain ⟨rfl, -⟩ := Prod.mk.inj heq
    have hfree := List.find?_some hpos
    simp only [decide_eq_true_eq] at hfree
    have hi := hfree.2.2 (i - pos') (List.mem_range.mpr (by omega))
    rwa [Nat.add_sub_cancel' hlo] at hi
  set map bits order pos map' h i := by
    obtain ⟨pos', hpos, heq⟩ := Option.map_eq_some_iff.mp h
    obtain ⟨rfl, rfl⟩ := Prod.mk.inj heq
    rfl

/-- Four free LPIs, and a device with two unused ones. -/
def oneDevice : ItsState Unit where
  lpis := [⟨8194, 4⟩]
  device _ := ⟨0, 2, fun _ => false, 8192, 2⟩
  deviceList := [()]

theorem itsLpiAlloc_two : itsLpiAlloc oneDevice.lpis 2 false = ([⟨8196, 2⟩], none) := by
  rw [itsLpiAlloc, lpiAllocLoop]
  rfl

theorem oneDevice_fits : Fits oneDevice.lpis := by
  simp [Fits, oneDevice, LpiRange.stop]

theorem failed_alloc_of_oneDevice :
    (Returned oneDevice { oneDevice with lpis := (itsLpiAlloc oneDevice.lpis 2 false).1 } ↔
      ¬CanTake oneDevice.lpis 2) ∧
    (∃ s', itsCreateDevice oneDevice 1 2 true ⟨true, some (), true, true⟩ = (s', none) ∧
      (Returned oneDevice s' ↔ ¬(true ∧ true ∧ CanTake oneDevice.lpis (roundNvecs 2)))) ∧
    ∃ s', itsIrqDomainAlloc firstFit oneDevice () 0 1 (-12) .ofNode (fun _ _ => 0) = (s', -12) ∧
      (Returned oneDevice s' ↔ firstFit (fun _ => false) 2 (getCountOrder 1) = none) := by
  have h := failed_alloc_returns_iff (s := oneDevice) firstFit_correct oneDevice_fits
    (List.pairwise_singleton ..)
  refine ⟨h.1 2 false ⟨by decide, by decide⟩ (by rw [itsLpiAlloc_two]), ⟨_, itsCreateDevice_eq, ?_⟩, ⟨_, rfl, ?_⟩⟩
  · exact h.2.1 1 2 true ⟨true, some (), true, true⟩ _ (by decide) (by decide) itsCreateDevice_eq
  · exact h.2.2 () 0 1 (-12) .ofNode (fun _ _ => 0) _ _ (by decide) rfl (by decide)

/-- Two LPIs are lost when there is no memory for their bitmap. -/
theorem lpis_lost_without_bitmap : (itsLpiAlloc oneDevice.lpis 2 false).2 = none ∧
    ¬Returned oneDevice { oneDevice with lpis := (itsLpiAlloc oneDevice.lpis 2 false).1 } := by
  rw [itsLpiAlloc_two]
  refine ⟨rfl, fun h => ?_⟩
  obtain ⟨r, hr, hlo, hhi⟩ := (h.lpis 8194).mpr ⟨⟨8194, 4⟩, by simp [oneDevice], by simp [LpiRange.Has, LpiRange.stop]⟩
  obtain rfl := List.mem_singleton.mp hr
  simp at hlo

end GfpDrivers.Its
