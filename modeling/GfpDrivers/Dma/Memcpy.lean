import GfpDrivers.Dma.Transfer

/-!
Copies in memory (`pl330_prep_dma_memcpy`). The size of the bursts is halved until the source, the destination and the length
are multiples of it, so that a copy has no part of a beat left over and all of its bytes are moved.
-/

namespace GfpDrivers.Dma

open Lib

/-- What is used of a `struct pl330_config`. -/
structure Config where
  dataBusWidth : BitVec 10
  dataBufDep : BitVec 11
  numChan : BitVec 4

/-- `read_dmac_config`, from the registers `CRD` and `CR0` -/
def readDmacConfig (crd cr0 : BitVec 32) : Config where
  dataBusWidth := BitVec.ofNat 10 (8 * 2 ^ (crd &&& 0x7).toNat)
  dataBufDep := BitVec.ofNat 11 (((crd >>> 20) &&& 0x3ff).toNat + 1)
  numChan := BitVec.ofNat 4 (((cr0 >>> 4) &&& 0x7).toNat + 1)

/-- The loop that halves `burst`. -/
def alignBurst : ℕ → BitVec 64 → ℕ → Option ℕ
  | 0, _, _ => none
  | fuel + 1, params, burst =>
      if params &&& BitVec.ofInt 64 (burst - 1) ≠ 0 then alignBurst fuel params (burst / 2) else some burst

/-- The loop that counts `brst_size`. -/
def countBrstSize : ℕ → ℕ → BitVec 3 → Option (BitVec 3)
  | 0, _, _ => none
  | fuel + 1, burst, size => if burst ≠ 1 <<< size.toNat then countBrstSize fuel burst (size + 1) else some size

/-- `get_burst_len` -/
def getBurstLen (cfg : Config) (brstSize : BitVec 3) : ℕ :=
  if (cfg.dataBusWidth.toNat / 8 * (cfg.dataBufDep.toNat / cfg.numChan.toNat)) >>> brstSize.toNat > 16 then 16
  else (cfg.dataBusWidth.toNat / 8 * (cfg.dataBufDep.toNat / cfg.numChan.toNat)) >>> brstSize.toNat

/-- `fill_px` -/
def Desc.fillPx (desc : Desc) (dst src len : BitVec 64) : Desc :=
  { desc with bytes := len.setWidth 32, dstAddr := dst.setWidth 32, srcAddr := src.setWidth 32 }

/-- The descriptor of a copy, with bursts of the size that was found. -/
def Desc.forMemcpy (desc : Desc) (cfg : Config) (dst src len : BitVec 64) (burst : ℕ) (brstSize : BitVec 3) : Desc :=
  { desc.fillPx dst src len with
    rqtype := .memToMem
    rqcfg := { desc.rqcfg with
      srcInc := true
      dstInc := true
      brstSize := brstSize
      brstLen := if burst * 8 < cfg.dataBusWidth.toNat then 1 else BitVec.ofNat 5 (getBurstLen cfg brstSize) } }

/-- `pl330_prep_dma_memcpy`, with what `pl330_get_desc` returns. The result is `none` while one of the loops still runs. -/
def prepDmaMemcpy (fuel : ℕ) (cfg : Config) (getDesc : Option Desc) (dst src len : BitVec 64) : Option (Option Desc) :=
  if len = 0 then some none
  else
    match getDesc with
    | none => some none
    | some desc => do
        let burst ← alignBurst fuel (src ||| dst ||| len) (cfg.dataBusWidth.toNat / 8)
        let brstSize ← countBrstSize fuel burst 0
        some (some (desc.forMemcpy cfg dst src len burst brstSize))

/-! ### Bursts that divide the parameters -/

variable {fuel i j : ℕ} {params : BitVec 64}

theorem mask_eq_zero (hj : j < 8) : params &&& BitVec.ofInt 64 (((2 ^ j : ℕ) : ℤ) - 1) = 0 ↔ 2 ^ j ∣ params.toNat := by
  have hmask : ∀ j < 8, (BitVec.ofInt 64 (((2 ^ j : ℕ) : ℤ) - 1)).toNat = 2 ^ j - 1 := by decide
  rw [← BitVec.toNat_inj, BitVec.toNat_and, hmask j hj, Nat.and_two_pow_sub_one_eq_mod]
  exact (Nat.dvd_iff_mod_eq_zero).symm

/-- The loop ends with a power of two that divides the parameters, the greatest one that does not exceed the first. -/
theorem alignBurst_spec (params : BitVec 64) (hj : j < 8) (hfuel : j < fuel) : ∃ i ≤ j, alignBurst fuel params (2 ^ j) = some (2 ^ i) ∧
    2 ^ i ∣ params.toNat ∧ (i = j ∨ ¬2 ^ (i + 1) ∣ params.toNat) := by
  induction j generalizing fuel with
  | zero =>
    obtain ⟨fuel, rfl⟩ := Nat.exists_eq_add_one.mpr (Nat.zero_lt_of_lt hfuel)
    have hdvd : 2 ^ 0 ∣ params.toNat := one_dvd _
    exact ⟨0, le_rfl, if_neg (not_not_intro ((mask_eq_zero hj).mpr hdvd)), hdvd, .inl rfl⟩
  | succ j ih =>
    obtain ⟨fuel, rfl⟩ := Nat.exists_eq_add_one.mpr (Nat.zero_lt_of_lt hfuel)
    by_cases hdvd : 2 ^ (j + 1) ∣ params.toNat
    · exact ⟨j + 1, le_rfl, if_neg (not_not_intro ((mask_eq_zero hj).mpr hdvd)), hdvd, .inl rfl⟩
    · obtain ⟨i, hle, heq, hi, hmax⟩ := ih (Nat.lt_of_succ_lt hj) (Nat.lt_of_succ_lt_succ hfuel)
      refine ⟨i, Nat.le_succ_of_le hle, ?_, hi, .inr ?_⟩
      · rw [alignBurst, if_pos fun h0 => hdvd ((mask_eq_zero hj).mp h0), Nat.pow_succ, Nat.mul_div_cancel _ Nat.two_pos]
        exact heq
      · obtain rfl | hmax := hmax
        · exact hdvd
        · exact hmax

theorem countBrstSize_spec (hj : j < 8) (hfuel : 8 ≤ fuel) : countBrstSize fuel (2 ^ j) 0 = some (BitVec.ofNat 3 j) := by
  obtain ⟨k, rfl⟩ := Nat.exists_eq_add_of_le' hfuel
  interval_cases j <;> rfl

/-- A power of two divides the three parameters together if it divides each of them. -/
theorem dvd_params {dst src len : BitVec 64} (h : 2 ^ i ∣ (src ||| dst ||| len).toNat) : 2 ^ i ∣ len.toNat := by
  rw [BitVec.toNat_or, Nat.dvd_iff_mod_eq_zero, Nat.or_mod_two_pow, Nat.or_eq_zero_iff] at h
  exact Nat.dvd_of_mod_eq_zero h.2

theorem busWidth_readDmacConfig {crd : BitVec 32} (hw : (crd &&& 0x7).toNat ≠ 7) (cr0 : BitVec 32) :
    (crd &&& 0x7).toNat < 7 ∧ (readDmacConfig crd cr0).dataBusWidth.toNat / 8 = 2 ^ (crd &&& 0x7).toNat := by
  have hle : (crd &&& 0x7).toNat ≤ 7 := by
    rw [BitVec.toNat_and]
    exact Nat.and_le_right
  have hlt : (crd &&& 0x7).toNat < 7 := Nat.lt_of_le_of_ne hle hw
  refine ⟨hlt, ?_⟩
  dsimp only [readDmacConfig]
  generalize (crd &&& 0x7).toNat = w at hlt
  interval_cases w <;> rfl

/-- A descriptor for a copy of `len` bytes. -/
structure CopyDesc (desc : Desc) (dst src len : BitVec 64) : Prop where
  rqtype : desc.rqtype = .memToMem
  srcInc : desc.rqcfg.srcInc = true
  dstInc : desc.rqcfg.dstInc = true
  srcAddr : desc.srcAddr = src.setWidth 32
  dstAddr : desc.dstAddr = dst.setWidth 32
  bytes : desc.bytes = len.setWidth 32
  aligned : 2 ^ desc.rqcfg.brstSize.toNat ∣ len.toNat

variable {crd : BitVec 32} (cr0 : BitVec 32) (dst src : BitVec 64) {len : BitVec 64}

theorem prepDmaMemcpy_spec (hw : (crd &&& 0x7).toNat ≠ 7) (hfuel : 8 ≤ fuel) (hlen : len ≠ 0) (desc : Desc) :
    ∃ desc', prepDmaMemcpy fuel (readDmacConfig crd cr0) (some desc) dst src len = some (some desc') ∧
      CopyDesc desc' dst src len := by
  obtain ⟨hlt, hbus⟩ := busWidth_readDmacConfig hw cr0
  obtain ⟨i, hle, hburst, hdvd, -⟩ := alignBurst_spec (src ||| dst ||| len) (Nat.lt_succ_of_lt hlt)
    (Nat.lt_of_lt_of_le (Nat.lt_succ_of_lt hlt) hfuel)
  have hi : i < 8 := by omega
  refine ⟨desc.forMemcpy (readDmacConfig crd cr0) dst src len (2 ^ i) (BitVec.ofNat 3 i), ?_, ?_⟩
  · rw [prepDmaMemcpy, if_neg hlen, hbus, hburst, Option.bind_eq_bind, Option.bind_some, countBrstSize_spec hi hfuel]
    rfl
  · refine ⟨rfl, rfl, rfl, rfl, rfl, rfl, ?_⟩
    rw [Desc.forMemcpy, BitVec.toNat_ofNat, Nat.mod_eq_of_lt hi]
    exact dvd_params hdvd

end GfpDrivers.Dma
