import GfpDrivers.Dma.Microcode
import Mathlib.Tactic.IntervalCases

/-!
The fields of the channel control register, in the word that `_prepare_ccr` makes and in the one that `_dregs` makes of it. Both
sides of a transfer have bursts of the same size and length.
-/

namespace GfpDrivers.Dma

def srcInc (ccr : BitVec 32) : Bool := ccr.getLsbD 0

def dstInc (ccr : BitVec 32) : Bool := ccr.getLsbD 14

def dstBrstLen (ccr : BitVec 32) : ℕ := ((ccr >>> 18) &&& 0xf).toNat + 1

def dstBrstSize (ccr : BitVec 32) : ℕ := 2 ^ ((ccr >>> 15) &&& 0x7).toNat

/-- Both sides move the same bursts. -/
structure Balanced (ccr : BitVec 32) : Prop where
  len : dstBrstLen ccr = brstLen ccr
  size : dstBrstSize ccr = brstSize ccr

theorem brstLen_pos (ccr : BitVec 32) : 0 < brstLen ccr := Nat.succ_pos _

theorem brstLen_le (ccr : BitVec 32) : brstLen ccr ≤ 16 := by
  have h : ((ccr >>> 4) &&& 0xf).toNat ≤ 15 := by
    rw [BitVec.toNat_and]
    exact Nat.and_le_right
  exact Nat.succ_le_succ h

/-! ### Bits -/

theorem getElem_flag (b : Bool) (x : BitVec 32) (i : ℕ) (hi : i < 32) : (if b then x else 0#32)[i] = (b && x[i]) := by
  cases b <;> simp

theorem and_congr_of_bits {x y m : BitVec 32} (h : ∀ i (hi : i < 32), m[i] = true → x[i] = y[i]) : x &&& m = y &&& m := by
  apply BitVec.eq_of_getElem_eq
  intro i hi
  rw [BitVec.getElem_and, BitVec.getElem_and]
  cases hm : m[i] with
  | false => rw [Bool.and_false, Bool.and_false]
  | true => rw [h i hi hm]

theorem lt_of_getElem_0xf : ∀ i (hi : i < 32), (0xf : BitVec 32)[i] = true → i < 4 := by decide

theorem lt_of_getElem_0x7 : ∀ i (hi : i < 32), (0x7 : BitVec 32)[i] = true → i < 3 := by decide

/-! ### `_prepare_ccr` -/

variable (rqc : Reqcfg)

theorem srcInc_prepareCcr : srcInc (prepareCcr rqc) = rqc.srcInc := by
  unfold srcInc prepareCcr
  generalize rqc.brstLen.setWidth 32 - 1 = len
  simp [getElem_flag]

theorem dstInc_prepareCcr : dstInc (prepareCcr rqc) = rqc.dstInc := by
  unfold dstInc prepareCcr
  generalize rqc.brstLen.setWidth 32 - 1 = len
  simp [getElem_flag]

theorem brstSize_prepareCcr : brstSize (prepareCcr rqc) = 2 ^ rqc.brstSize.toNat := by
  have hfield : (prepareCcr rqc >>> 1) &&& (0x7 : BitVec 32) = rqc.brstSize.setWidth 32 &&& 0x7 := by
    refine and_congr_of_bits fun i hi hm => ?_
    have hlt := lt_of_getElem_0x7 i hi hm
    unfold prepareCcr
    generalize rqc.brstLen.setWidth 32 - 1 = len
    interval_cases i <;> simp [getElem_flag]
  have hval : ∀ size : BitVec 3, (size.setWidth 32 &&& 0x7).toNat = size.toNat := by decide
  rw [brstSize, hfield, hval]

theorem balanced_prepareCcr : Balanced (prepareCcr rqc) where
  len := by
    have hfield : (prepareCcr rqc >>> 18) &&& (0xf : BitVec 32) = (prepareCcr rqc >>> 4) &&& 0xf := by
      refine and_congr_of_bits fun i hi hm => ?_
      have hlt := lt_of_getElem_0xf i hi hm
      unfold prepareCcr
      generalize rqc.brstLen.setWidth 32 - 1 = len
      interval_cases i <;> simp [getElem_flag]
    rw [dstBrstLen, hfield, brstLen]
  size := by
    have hfield : (prepareCcr rqc >>> 15) &&& (0x7 : BitVec 32) = (prepareCcr rqc >>> 1) &&& 0x7 := by
      refine and_congr_of_bits fun i hi hm => ?_
      have hlt := lt_of_getElem_0x7 i hi hm
      unfold prepareCcr
      generalize rqc.brstLen.setWidth 32 - 1 = len
      interval_cases i <;> simp [getElem_flag]
    rw [dstBrstSize, hfield, brstSize]

/-! ### `_dregs` -/

variable (pxs : XferSpec)

theorem srcInc_dregsCcr (n : ℕ) : srcInc (dregsCcr pxs n) = srcInc pxs.ccr := by
  unfold srcInc dregsCcr
  generalize BitVec.ofNat 32 (n - 1) = len
  simp

theorem dstInc_dregsCcr (n : ℕ) : dstInc (dregsCcr pxs n) = dstInc pxs.ccr := by
  unfold dstInc dregsCcr
  generalize BitVec.ofNat 32 (n - 1) = len
  simp

theorem brstSize_dregsCcr (n : ℕ) : brstSize (dregsCcr pxs n) = brstSize pxs.ccr := by
  have hfield : (dregsCcr pxs n >>> 1) &&& (0x7 : BitVec 32) = (pxs.ccr >>> 1) &&& 0x7 := by
    refine and_congr_of_bits fun i hi hm => ?_
    have hlt := lt_of_getElem_0x7 i hi hm
    unfold dregsCcr
    generalize BitVec.ofNat 32 (n - 1) = len
    interval_cases i <;> simp
  rw [brstSize, hfield, brstSize]

theorem dstBrstSize_dregsCcr (n : ℕ) : dstBrstSize (dregsCcr pxs n) = dstBrstSize pxs.ccr := by
  have hfield : (dregsCcr pxs n >>> 15) &&& (0x7 : BitVec 32) = (pxs.ccr >>> 15) &&& 0x7 := by
    refine and_congr_of_bits fun i hi hm => ?_
    have hlt := lt_of_getElem_0x7 i hi hm
    unfold dregsCcr
    generalize BitVec.ofNat 32 (n - 1) = len
    interval_cases i <;> simp
  rw [dstBrstSize, hfield, dstBrstSize]

theorem len_dregs {n : ℕ} (hpos : 0 < n) (hle : n ≤ 16) : (BitVec.ofNat 32 (n - 1) &&& 0xf).toNat + 1 = n := by
  interval_cases n <;> rfl

theorem brstLen_dregsCcr {n : ℕ} (hpos : 0 < n) (hle : n ≤ 16) : brstLen (dregsCcr pxs n) = n := by
  have hfield : (dregsCcr pxs n >>> 4) &&& (0xf : BitVec 32) = BitVec.ofNat 32 (n - 1) &&& 0xf := by
    refine and_congr_of_bits fun i hi hm => ?_
    have hlt := lt_of_getElem_0xf i hi hm
    unfold dregsCcr
    generalize BitVec.ofNat 32 (n - 1) = len
    interval_cases i <;> simp
  rw [brstLen, hfield, len_dregs hpos hle]

theorem dstBrstLen_dregsCcr {n : ℕ} (hpos : 0 < n) (hle : n ≤ 16) : dstBrstLen (dregsCcr pxs n) = n := by
  have hfield : (dregsCcr pxs n >>> 18) &&& (0xf : BitVec 32) = BitVec.ofNat 32 (n - 1) &&& 0xf := by
    refine and_congr_of_bits fun i hi hm => ?_
    have hlt := lt_of_getElem_0xf i hi hm
    unfold dregsCcr
    generalize BitVec.ofNat 32 (n - 1) = len
    interval_cases i <;> simp
  rw [dstBrstLen, hfield, len_dregs hpos hle]

end GfpDrivers.Dma
