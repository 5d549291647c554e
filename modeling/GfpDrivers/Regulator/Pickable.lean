import Mathlib.Data.List.TakeDrop
import Mathlib.Data.Nat.Bitwise
import GfpDrivers.Basic

/-!
Selectors of regulators with pickable ranges. The ranges share one selector field; a second field says
which of them is picked. A flat selector is split into a range and a selector in it
(`regulator_set_voltage_sel_pickable_regmap`) and put together again
(`regulator_get_voltage_sel_pickable_regmap`).

A pick may have more than one range, each with the selectors that follow those of the one before. For
such a range the setter shifts first and adds the lowest selector of the range then, where the getter
shifts the sum.
-/

namespace GfpDrivers.Regulator

open Function

/-! ### The code -/

/-- `struct linear_range` -/
structure LinearRange where
  min : ℕ
  minSel : ℕ
  maxSel : ℕ
  step : ℕ

/-- What `linear_range.h` declares for counting the selectors of ranges. -/
structure RangeCounts where
  valuesInRange : LinearRange → ℕ
  valuesInRangeArray : List LinearRange → ℕ → ℕ

/-- The fields of `struct regulator_desc` for pickable ranges. A table that is not there is empty. -/
structure PickableDesc where
  linearRanges : List LinearRange
  linearRangeSelectors : List (BitVec 32)
  vselReg : ℕ
  vselMask : BitVec 32
  vselRangeReg : ℕ
  vselRangeMask : BitVec 32
  applyReg : ℕ
  applyBit : BitVec 32

abbrev Regs := ℕ → BitVec 32

/-- The answers of a regmap to the reads and the writes of a call, counted from 0. -/
structure RegmapAnswers where
  read : ℕ → ℤ
  write : ℕ → ℤ

/-- `regmap_update_bits`, which is write `i` of the call. -/
def regmapUpdateBits (a : RegmapAnswers) (i : ℕ) (regs : Regs) (reg : ℕ) (mask val : BitVec 32) : Regs × ℤ :=
  if a.write i ≠ 0 then (regs, a.write i)
  else (Function.update regs reg (regs reg &&& ~~~mask ||| val &&& mask), 0)

/-- `if (ret) return ret;` -/
def andThen (r : Regs × ℤ) (f : Regs → Regs × ℤ) : Regs × ℤ := if r.2 ≠ 0 then r else f r.1

/-- `ffs` -/
def ffs (x : BitVec 32) : ℕ := ((List.range 32).find? fun i => x.getLsbD i).elim 0 (· + 1)

variable (lib : RangeCounts) (d : PickableDesc) (a : RegmapAnswers)

/-- `regulator_range_selector_to_index` -/
def regulatorRangeSelectorToIndex (rval : BitVec 32) : Except ℤ ℕ :=
  match d.linearRangeSelectors.findIdx? fun selector => selector = rval &&& d.vselRangeMask with
  | some i => .ok i
  | none => .error (-EINVAL)

/-- `regulator_get_voltage_sel_pickable_regmap` -/
def regulatorGetVoltageSelPickableRegmap (regs : Regs) : ℤ :=
  if d.linearRanges = [] then -EINVAL
  else if a.read 0 ≠ 0 then a.read 0
  else if a.read 1 ≠ 0 then a.read 1
  else
    let val := (regs d.vselReg &&& d.vselMask) >>> (ffs d.vselMask - 1)
    match regulatorRangeSelectorToIndex d (regs d.vselRangeReg) with
    | .error _ => -EINVAL
    | .ok range => (val + BitVec.ofNat 32 (lib.valuesInRangeArray d.linearRanges range)).toInt

/-- The loop of `regulator_set_voltage_sel_pickable_regmap`: the index of the range and the selector in it. -/
def findRange : List LinearRange → ℕ → ℕ → Option (ℕ × ℕ)
  | [], _, _ => none
  | r :: rest, i, sel =>
      if sel < lib.valuesInRange r then some (i, sel) else findRange rest (i + 1) (sel - lib.valuesInRange r)

/-- The range with an index. -/
def PickableDesc.range (i : ℕ) : LinearRange := d.linearRanges.getD i ⟨0, 0, 0, 0⟩

/-- The range selector with an index. -/
def PickableDesc.selector (i : ℕ) : BitVec 32 := d.linearRangeSelectors.getD i 0

/-- `sel <<= ffs(vsel_mask) - 1; sel += min_sel` -/
def encodeSel (i sel : ℕ) : BitVec 32 :=
  BitVec.ofNat 32 sel <<< (ffs d.vselMask - 1) + BitVec.ofNat 32 (d.range i).minSel

/-- The writes of `regulator_set_voltage_sel_pickable_regmap`. -/
def writePickable (regs : Regs) (sel range : BitVec 32) : Regs × ℤ :=
  andThen
    (if d.vselReg = d.vselRangeReg then
      regmapUpdateBits a 0 regs d.vselReg (d.vselRangeMask ||| d.vselMask) (sel ||| range)
    else
      andThen (regmapUpdateBits a 0 regs d.vselRangeReg d.vselRangeMask range) fun regs =>
        regmapUpdateBits a 1 regs d.vselReg d.vselMask sel)
    fun regs => if d.applyBit ≠ 0 then regmapUpdateBits a 2 regs d.applyReg d.applyBit d.applyBit else (regs, 0)

/-- `regulator_set_voltage_sel_pickable_regmap` -/
def regulatorSetVoltageSelPickableRegmap (regs : Regs) (sel : ℕ) : Regs × ℤ :=
  match findRange lib d.linearRanges 0 sel with
  | none => (regs, -EINVAL)
  | some (i, sel) => writePickable d a regs (encodeSel d i sel) (d.selector i)

/-! ### Descriptors -/

variable {lib d a} {regs regs' : Regs} {mask m v x y : BitVec 32} {sh k s i j l f n reg : ℕ}

/-- The mask has the bits from `sh` to `sh + k`. -/
structure Contiguous (mask : BitVec 32) (sh k : ℕ) : Prop where
  pos : 0 < k
  bits : ∀ i, mask.getLsbD i = decide (sh ≤ i ∧ i < sh + k)

/-- The number of selectors of a range. -/
def LinearRange.values (r : LinearRange) : ℕ := r.maxSel - r.minSel + 1

/-- The number of selectors of the ranges before the one with an index. -/
def PickableDesc.base (d : PickableDesc) (i : ℕ) : ℕ := ((d.linearRanges.take i).map LinearRange.values).sum

/-- The helpers count, as long as the counts are `unsigned int`s. -/
structure RangeCounts.Correct (lib : RangeCounts) : Prop where
  valuesInRange : ∀ r, r.values < 2 ^ 32 → lib.valuesInRange r = r.values
  valuesInRangeArray : ∀ rs n, ((rs.take n).map LinearRange.values).sum < 2 ^ 32 →
    lib.valuesInRangeArray rs n = ((rs.take n).map LinearRange.values).sum

/-- A descriptor with pickable ranges, and a selector mask from bit `sh` on. The picks follow one another, and
within a pick the ranges do. -/
structure Pickable (d : PickableDesc) (sh k : ℕ) : Prop where
  lengths : d.linearRangeSelectors.length = d.linearRanges.length
  total : d.base d.linearRanges.length < 2 ^ 32
  mask : Contiguous d.vselMask sh k
  ordered : ∀ i < d.linearRanges.length, (d.range i).minSel ≤ (d.range i).maxSel
  fits : ∀ i < d.linearRanges.length, (d.range i).maxSel < 2 ^ k
  first : (d.range 0).minSel = 0
  next : ∀ i, i + 1 < d.linearRanges.length →
    d.selector (i + 1) = d.selector i ∧ (d.range (i + 1)).minSel = (d.range i).maxSel + 1 ∨
      (∀ j ≤ i, d.selector j ≠ d.selector (i + 1)) ∧ (d.range (i + 1)).minSel = 0
  inside : ∀ i < d.linearRanges.length, d.selector i &&& d.vselRangeMask = d.selector i
  disjoint : d.vselReg = d.vselRangeReg → d.vselMask &&& d.vselRangeMask = 0
  applySel : d.applyReg = d.vselReg → d.applyBit &&& d.vselMask = 0
  applyRange : d.applyReg = d.vselRangeReg → d.applyBit &&& d.vselRangeMask = 0

/-! ### Fields of registers -/

theorem Contiguous.le (h : Contiguous mask sh k) : sh + k ≤ 32 := by
  have hpos := h.pos
  have htop : mask.getLsbD (sh + k - 1) = true := by
    rw [h.bits, decide_eq_true_eq]
    omega
  have := BitVec.lt_of_getLsbD htop
  omega

theorem ffs_eq (h : Contiguous mask sh k) : ffs mask = sh + 1 := by
  have hpos := h.pos
  have hle := h.le
  have hfind : (List.range 32).find? (fun i => mask.getLsbD i) = some sh := by
    rw [List.find?_range_eq_some]
    refine ⟨?_, List.mem_range.mpr (by omega), fun i hi => ?_⟩
    · rw [h.bits, decide_eq_true_eq]
      omega
    · rw [h.bits, Bool.not_eq_true', decide_eq_false_iff_not]
      omega
  rw [ffs, hfind]
  rfl

theorem Contiguous.read (h : Contiguous mask sh k) (y : BitVec 32) :
    ((y &&& mask) >>> sh).toNat = y.toNat / 2 ^ sh % 2 ^ k := by
  refine Nat.eq_of_testBit_eq fun i => ?_
  rw [BitVec.testBit_toNat, BitVec.getLsbD_ushiftRight, BitVec.getLsbD_and, h.bits, Nat.testBit_mod_two_pow,
    Nat.testBit_div_two_pow, BitVec.testBit_toNat, Nat.add_comm i sh, Bool.and_comm]
  refine congrArg (· && _) (decide_eq_decide.mpr ?_)
  omega

/-- What fits into a field, shifted into place, has no other bits. -/
theorem Contiguous.place_and (h : Contiguous mask sh k) (hy : y.toNat = l * 2 ^ sh) (hl : l < 2 ^ k)
    (hm : mask &&& m = 0) : y &&& m = 0 := by
  refine BitVec.eq_of_getLsbD_eq fun i _ => ?_
  have hdis : (mask &&& m).getLsbD i = false := by
    rw [hm]
    exact BitVec.getLsbD_zero
  rw [BitVec.getLsbD_and, h.bits] at hdis
  refine Eq.trans ?_ BitVec.getLsbD_zero.symm
  rw [BitVec.getLsbD_and, ← BitVec.testBit_toNat, hy, Nat.testBit_mul_two_pow]
  by_cases hi : sh ≤ i ∧ i < sh + k
  · rw [decide_eq_true hi, Bool.true_and] at hdis
    rw [hdis, Bool.and_false]
  · by_cases hlo : sh ≤ i
    · have hbit : l.testBit (i - sh) = false :=
        Nat.testBit_lt_two_pow (hl.trans_le (Nat.pow_le_pow_right (by decide) (by omega)))
      rw [hbit, Bool.and_false, Bool.false_and]
    · rw [decide_eq_false hlo, Bool.false_and, Bool.false_and]

theorem updated_and (hm : m &&& mask = m) : (y &&& ~~~mask ||| v &&& mask) &&& m = v &&& m := by
  refine BitVec.eq_of_getLsbD_eq fun i hi => ?_
  have hbit : (m &&& mask).getLsbD i = m.getLsbD i := by rw [hm]
  simp only [BitVec.getLsbD_and, BitVec.getLsbD_or, BitVec.getLsbD_not, hi, decide_true, Bool.true_and] at hbit ⊢
  cases hmi : m.getLsbD i <;> cases hma : mask.getLsbD i <;> simp_all

theorem updated_and_of_disjoint (hm : mask &&& m = 0) : (y &&& ~~~mask ||| v &&& mask) &&& m = y &&& m := by
  refine BitVec.eq_of_getLsbD_eq fun i hi => ?_
  have hbit : (mask &&& m).getLsbD i = false := by
    rw [hm]
    exact BitVec.getLsbD_zero
  simp only [BitVec.getLsbD_and, BitVec.getLsbD_or, BitVec.getLsbD_not, hi, decide_true, Bool.true_and] at hbit ⊢
  cases hmi : m.getLsbD i <;> cases hma : mask.getLsbD i <;> simp_all

/-! ### Ranges and picks -/

theorem base_succ (hi : i < d.linearRanges.length) : d.base (i + 1) = d.base i + (d.range i).values := by
  rw [PickableDesc.base, PickableDesc.base, List.take_succ_eq_append_getElem hi, List.map_append, List.sum_append,
    PickableDesc.range, List.getD_eq_getElem _ _ hi]
  simp

theorem base_mono (hij : i ≤ j) : d.base i ≤ d.base j := by
  rw [PickableDesc.base, PickableDesc.base, ← Nat.add_sub_cancel' hij, List.take_add, List.map_append, List.sum_append]
  exact Nat.le_add_right _ _

theorem base_le (d : PickableDesc) (i : ℕ) : d.base i ≤ d.base d.linearRanges.length := by
  rcases le_total i d.linearRanges.length with hi | hi
  · exact base_mono hi
  · rw [PickableDesc.base, PickableDesc.base, List.take_of_length_le hi, List.take_length]

theorem values_le_total (hi : i < d.linearRanges.length) : (d.range i).values ≤ d.base d.linearRanges.length := by
  have := base_le d (i + 1)
  rw [base_succ hi] at this
  omega

/-- The range that a selector lies in. -/
structure PickableDesc.InRange (d : PickableDesc) (s i : ℕ) : Prop where
  lt : i < d.linearRanges.length
  le : d.base i ≤ s
  lt_next : s < d.base (i + 1)

theorem PickableDesc.InRange.unique (hi : d.InRange s i) (hj : d.InRange s j) : i = j := by
  have hi' := hi.lt_next
  have hj' := hj.lt_next
  rcases lt_trichotomy i j with hlt | rfl | hlt
  · have : d.base (i + 1) ≤ d.base j := base_mono hlt
    have := hj.le
    omega
  · rfl
  · have : d.base (j + 1) ≤ d.base i := base_mono hlt
    have := hi.le
    omega

theorem findRange_eq (hlib : lib.Correct) (hd : Pickable d sh k) (hs : s < d.base d.linearRanges.length) :
    ∃ i, d.InRange s i ∧ findRange lib d.linearRanges 0 s = some (i, s - d.base i) := by
  -- the loop from range `j` on
  have hloop : ∀ n j, j + n = d.linearRanges.length → d.base j ≤ s →
      ∃ i, d.InRange s i ∧ findRange lib (d.linearRanges.drop j) j (s - d.base j) = some (i, s - d.base i) := by
    intro n
    induction n with
    | zero =>
      intro j hj hle
      rw [← hj, Nat.add_zero] at hs
      omega
    | succ n ih =>
      intro j hj hle
      have hlt : j < d.linearRanges.length := by omega
      have hvalues : lib.valuesInRange (d.range j) = (d.range j).values :=
        hlib.valuesInRange _ ((values_le_total hlt).trans_lt hd.total)
      have hcons : d.linearRanges.drop j = d.range j :: d.linearRanges.drop (j + 1) := by
        rw [PickableDesc.range, List.getD_eq_getElem _ _ hlt, List.drop_eq_getElem_cons hlt]
      have hbase := base_succ hlt
      rw [hcons, findRange, hvalues]
      by_cases hin : s - d.base j < (d.range j).values
      · exact ⟨j, ⟨hlt, hle, by omega⟩, if_pos hin⟩
      · rw [if_neg hin, Nat.sub_sub, ← hbase]
        exact ih (j + 1) (by omega) (by omega)
  exact hloop d.linearRanges.length 0 (Nat.zero_add _) (Nat.zero_le _)

/-- The ranges before `i` back to `f` are of the same pick, and `f` is its first. -/
structure Pick (d : PickableDesc) (f i : ℕ) : Prop where
  le : f ≤ i
  same : ∀ j, f ≤ j → j ≤ i → d.selector j = d.selector i
  first : ∀ j < f, d.selector j ≠ d.selector i
  base : d.base i = d.base f + (d.range i).minSel

theorem Pickable.exists_pick (hd : Pickable d sh k) (hi : i < d.linearRanges.length) : ∃ f, Pick d f i := by
  induction i with
  | zero => exact ⟨0, le_rfl, fun j _ hj => by rw [Nat.le_zero.mp hj], nofun, by rw [hd.first, Nat.add_zero]⟩
  | succ i ih =>
    have hlt : i < d.linearRanges.length := by omega
    rcases hd.next i hi with ⟨hsame, hmin⟩ | ⟨hnew, hmin⟩
    · obtain ⟨f, hf⟩ := ih hlt
      refine ⟨f, hf.le.trans (Nat.le_succ i), fun j hfj hj => ?_, fun j hj => hsame ▸ hf.first j hj, ?_⟩
      · rcases Nat.le_succ_iff.mp hj with hj | rfl
        · rw [hsame, hf.same j hfj hj]
        · rfl
      · have hord := hd.ordered i hlt
        rw [base_succ hlt, hf.base, hmin, LinearRange.values]
        omega
    · refine ⟨i + 1, le_rfl, fun j hij hj => by rw [le_antisymm hj hij], fun j hj => hnew j (by omega), ?_⟩
      rw [hmin]
      rfl

theorem Pick.findIdx (hd : Pickable d sh k) (hi : i < d.linearRanges.length) (h : Pick d f i) :
    d.linearRangeSelectors.findIdx? (fun selector => selector = d.selector i) = some f := by
  have hlen := hd.lengths
  have hf : f < d.linearRangeSelectors.length := by have := h.le; omega
  have hget : ∀ j (hj : j < d.linearRangeSelectors.length), d.linearRangeSelectors[j] = d.selector j := fun j hj =>
    (List.getD_eq_getElem _ _ hj).symm
  rw [List.findIdx?_eq_some_iff_getElem]
  refine ⟨hf, ?_, fun j hj => ?_⟩
  · rw [hget f hf, decide_eq_true_eq]
    exact h.same f le_rfl h.le
  · rw [hget j (by omega), decide_eq_true_eq]
    exact h.first j hj

theorem Pick.base_add_ne (hi : i < d.linearRanges.length) (h : Pick d f i)
    (hj : ∀ n < j, d.selector n ≠ d.selector j) (hl : l < (d.range i).minSel) : d.base j + l ≠ d.base i := by
  have hbase := h.base
  rcases le_or_gt j f with hjf | hjf
  · have : d.base j ≤ d.base f := base_mono hjf
    omega
  rcases le_or_gt j i with hji | hji
  · exact absurd ((h.same f le_rfl h.le).trans (h.same j hjf.le hji).symm) (hj f hjf)
  · have hnext : d.base (i + 1) ≤ d.base j := base_mono (Nat.succ_le_of_lt hji)
    have hvalues := base_succ hi
    have hpos : 0 < (d.range i).values := Nat.succ_pos _
    omega

/-! ### Setting -/

theorem regmapUpdateBits_ok (h : (regmapUpdateBits a n regs reg mask v).2 = 0) :
    (regmapUpdateBits a n regs reg mask v).1 = update regs reg (regs reg &&& ~~~mask ||| v &&& mask) := by
  rw [regmapUpdateBits] at h ⊢
  split at h
  · next hne => exact absurd h hne
  · next heq => rw [if_neg heq]

theorem andThen_ok {r : Regs × ℤ} {g : Regs → Regs × ℤ} (h : andThen r g = (regs', 0)) :
    r.2 = 0 ∧ g r.1 = (regs', 0) := by
  rw [andThen] at h
  split at h
  · next hne => exact absurd (congrArg Prod.snd h) hne
  · next heq => exact ⟨not_not.mp heq, h⟩

/-- The bit that applies the change is in neither field. -/
theorem apply_and (hm : d.applyReg = reg → d.applyBit &&& m = 0)
    (h : (if d.applyBit ≠ 0 then regmapUpdateBits a 2 regs d.applyReg d.applyBit d.applyBit else (regs, 0)) = (regs', 0)) :
    regs' reg &&& m = regs reg &&& m := by
  obtain rfl := congrArg Prod.fst h
  have hret := congrArg Prod.snd h
  split at hret
  · next happly =>
    rw [if_pos happly, regmapUpdateBits_ok hret]
    by_cases hreg : reg = d.applyReg
    · rw [hreg, update_self, updated_and_of_disjoint (hm hreg.symm)]
    · rw [update_of_ne hreg]
  · next happly => rw [if_neg happly]

theorem and_or_left_self (m x : BitVec 32) : m &&& (m ||| x) = m := by
  refine BitVec.eq_of_getLsbD_eq fun i _ => ?_
  rw [BitVec.getLsbD_and, BitVec.getLsbD_or]
  cases m.getLsbD i <;> rfl

theorem or_and_of_disjoint (hx : x &&& m = 0) : (x ||| v) &&& m = v &&& m := by
  refine BitVec.eq_of_getLsbD_eq fun i hi => ?_
  have hbit : (x &&& m).getLsbD i = false := by
    rw [hx]
    exact BitVec.getLsbD_zero
  rw [BitVec.getLsbD_and] at hbit
  rw [BitVec.getLsbD_and, BitVec.getLsbD_or, BitVec.getLsbD_and, Bool.and_or_distrib_right, hbit, Bool.false_or]

theorem writePickable_fields (hd : Pickable d sh k) (hv : v &&& d.vselRangeMask = v)
    (h : writePickable d a regs x v = (regs', 0)) :
    regs' d.vselReg &&& d.vselMask = x &&& d.vselMask ∧
      regs' d.vselRangeReg &&& d.vselRangeMask =
        if d.vselReg = d.vselRangeReg then (x ||| v) &&& d.vselRangeMask else v := by
  obtain ⟨hret, happly⟩ := andThen_ok h
  rw [apply_and hd.applySel happly, apply_and hd.applyRange happly]
  by_cases hsame : d.vselReg = d.vselRangeReg
  · have hdis := hd.disjoint hsame
    have hv' : v &&& d.vselMask = 0 := by
      rw [← hv, BitVec.and_assoc, BitVec.and_comm d.vselRangeMask, hdis]
      exact BitVec.and_zero
    simp only [if_pos hsame] at hret ⊢
    rw [regmapUpdateBits_ok hret, ← hsame, update_self]
    refine ⟨?_, updated_and (and_or_left_self _ _)⟩
    rw [updated_and (BitVec.or_comm d.vselMask d.vselRangeMask ▸ and_or_left_self _ _), BitVec.or_comm, or_and_of_disjoint hv']
  · simp only [if_neg hsame] at hret ⊢
    obtain ⟨hret₁, hsel⟩ := andThen_ok (Prod.ext rfl hret)
    rw [← congrArg Prod.fst hsel, regmapUpdateBits_ok (congrArg Prod.snd hsel), regmapUpdateBits_ok hret₁]
    rw [update_self, update_of_ne (Ne.symm hsame), update_self]
    exact ⟨updated_and (BitVec.and_self), (updated_and BitVec.and_self).trans hv⟩

theorem encodeSel_toNat (hd : Pickable d sh k) (hi : i < d.linearRanges.length) (hl : l < (d.range i).values) :
    (encodeSel d i l).toNat = l * 2 ^ sh + (d.range i).minSel ∧ l + (d.range i).minSel < 2 ^ k := by
  have hord := hd.ordered i hi
  have hfits := hd.fits i hi
  rw [LinearRange.values] at hl
  have hsum : l + (d.range i).minSel < 2 ^ k := by omega
  have hle : l * 2 ^ sh + (d.range i).minSel ≤ (l + (d.range i).minSel) * 2 ^ sh := by
    rw [Nat.add_mul]
    exact Nat.add_le_add_left (Nat.le_mul_of_pos_right _ (Nat.two_pow_pos sh)) _
  have hlt : (l + (d.range i).minSel) * 2 ^ sh < 2 ^ 32 := by
    refine ((Nat.mul_lt_mul_right (Nat.two_pow_pos sh)).mpr hsum).trans_le ?_
    rw [← Nat.pow_add]
    exact Nat.pow_le_pow_right (by decide) (by have := hd.mask.le; omega)
  have hpos := Nat.le_mul_of_pos_right l (Nat.two_pow_pos sh)
  have hl32 : l < 2 ^ 32 := by omega
  have hmin32 : (d.range i).minSel < 2 ^ 32 := by omega
  have hplace32 : l * 2 ^ sh < 2 ^ 32 := by omega
  refine ⟨?_, hsum⟩
  rw [encodeSel, ffs_eq hd.mask, Nat.add_sub_cancel, BitVec.toNat_add, BitVec.toNat_shiftLeft, BitVec.toNat_ofNat,
    BitVec.toNat_ofNat, Nat.shiftLeft_eq, Nat.mod_eq_of_lt hl32, Nat.mod_eq_of_lt hmin32, Nat.mod_eq_of_lt hplace32,
    Nat.mod_eq_of_lt (hle.trans_lt hlt)]

theorem encodeSel_field (hd : Pickable d sh k) (hi : i < d.linearRanges.length) (hl : l < (d.range i).values) :
    ((encodeSel d i l &&& d.vselMask) >>> sh).toNat = l + (d.range i).minSel / 2 ^ sh := by
  obtain ⟨htoNat, hsum⟩ := encodeSel_toNat hd hi hl
  have hdiv := Nat.div_le_self (d.range i).minSel (2 ^ sh)
  rw [hd.mask.read, htoNat, Nat.mul_comm, Nat.mul_add_div (Nat.two_pow_pos sh), Nat.mod_eq_of_lt (by omega)]

theorem encodeSel_and (hd : Pickable d sh k) (hi : i < d.linearRanges.length) (hl : l < (d.range i).values)
    (hgood : sh = 0 ∨ (d.range i).minSel = 0) (hm : d.vselMask &&& m = 0) : encodeSel d i l &&& m = 0 := by
  obtain ⟨htoNat, hsum⟩ := encodeSel_toNat hd hi hl
  refine hd.mask.place_and (l := l + (d.range i).minSel) ?_ hsum hm
  rw [htoNat]
  rcases hgood with rfl | hmin
  · rw [Nat.pow_zero, Nat.mul_one, Nat.mul_one]
  · rw [hmin]
    rfl

theorem toInt_eq_iff (x : BitVec 32) : x.toInt = (s : ℤ) ↔ x.toNat = s ∧ s < 2 ^ 31 := by
  have hx := x.isLt
  rw [BitVec.toInt_eq_toNat_cond]
  split <;> omega

/-- The getter adds the selector field to the base of the range that it finds. -/
theorem regulatorGet_eq_iff (hlib : lib.Correct) (hd : Pickable d sh k) (hn : 0 < d.linearRanges.length)
    (hread : ∀ n, a.read n = 0) :
    regulatorGetVoltageSelPickableRegmap lib d a regs = (s : ℤ) ↔ s < 2 ^ 31 ∧
      ∃ j, d.linearRangeSelectors.findIdx? (fun selector => selector = regs d.vselRangeReg &&& d.vselRangeMask) = some j ∧
        (((regs d.vselReg &&& d.vselMask) >>> sh).toNat + d.base j) % 2 ^ 32 = s := by
  have hne : d.linearRanges ≠ [] := List.ne_nil_of_length_pos hn
  rw [regulatorGetVoltageSelPickableRegmap, if_neg hne, if_neg (not_not_intro (hread 0)), if_neg (not_not_intro (hread 1)),
    ffs_eq hd.mask, Nat.add_sub_cancel]
  simp only [regulatorRangeSelectorToIndex]
  cases d.linearRangeSelectors.findIdx? fun selector => selector = regs d.vselRangeReg &&& d.vselRangeMask with
  | none =>
    refine iff_of_false (fun h => ?_) (by rintro ⟨-, j, hj, -⟩; cases hj)
    have hneg : (-EINVAL : ℤ) < 0 := by decide
    have h : (-EINVAL : ℤ) = s := h
    omega
  | some j =>
    have hbase : lib.valuesInRangeArray d.linearRanges j = d.base j :=
      hlib.valuesInRangeArray _ _ ((base_le d j).trans_lt hd.total)
    simp only [hbase]
    rw [toInt_eq_iff, BitVec.toNat_add, BitVec.toNat_ofNat, Nat.add_mod_mod]
    constructor
    · rintro ⟨h, hs⟩
      exact ⟨hs, j, rfl, h⟩
    · rintro ⟨hs, _, hj, h⟩
      exact ⟨Option.some.inj hj ▸ h, hs⟩

/-- The selectors that come back are those that an `int` holds and whose range begins at 0, or any if the
selector field is at bit 0. -/
theorem regulatorGet_regulatorSet_iff (hlib : lib.Correct) (hd : Pickable d sh k) (hread : ∀ n, a.read n = 0)
    (hs : s < d.base d.linearRanges.length) (hset : (regulatorSetVoltageSelPickableRegmap lib d a regs s).2 = 0) :
    regulatorGetVoltageSelPickableRegmap lib d a (regulatorSetVoltageSelPickableRegmap lib d a regs s).1 = (s : ℤ) ↔
      s < 2 ^ 31 ∧ ∀ i, d.InRange s i → sh = 0 ∨ (d.range i).minSel = 0 := by
  obtain ⟨i, hin, hfind⟩ := findRange_eq hlib hd hs
  have hnext := base_succ hin.lt
  have hle := hin.le
  have hl : s - d.base i < (d.range i).values := by
    have := hin.lt_next
    omega
  obtain ⟨f, hpick⟩ := hd.exists_pick hin.lt
  have hbase := hpick.base
  have hdiv := Nat.div_le_self (d.range i).minSel (2 ^ sh)
  simp only [regulatorSetVoltageSelPickableRegmap, hfind] at hset ⊢
  have hwrite : writePickable d a regs (encodeSel d i (s - d.base i)) (d.selector i) = (_, 0) := Prod.ext rfl hset
  obtain ⟨hsel, hrange⟩ := writePickable_fields hd (hd.inside i hin.lt) hwrite
  rw [regulatorGet_eq_iff hlib hd (Nat.zero_lt_of_lt hin.lt) hread, hsel, hrange, encodeSel_field hd hin.lt hl]
  refine and_congr_right fun hs31 => ⟨?_, fun hgood => ?_⟩
  · rintro ⟨j, hj, hsum⟩ i' hin'
    obtain rfl : i' = i := hin'.unique hin
    by_contra hbad
    -- the lowest selector of the range loses its lowest bits
    have hlost : (d.range i').minSel / 2 ^ sh < (d.range i').minSel :=
      Nat.div_lt_self (by omega) (Nat.one_lt_two_pow (by omega))
    obtain ⟨hjlen, hjeq, hjfirst⟩ := List.findIdx?_eq_some_iff_getElem.mp hj
    have hfirst : ∀ n < j, d.selector n ≠ d.selector j := fun n hn => by
      have hnfirst := hjfirst n hn
      rw [decide_eq_true_eq] at hjeq hnfirst
      rw [PickableDesc.selector, PickableDesc.selector, List.getD_eq_getElem _ _ (hn.trans hjlen),
        List.getD_eq_getElem _ _ hjlen, hjeq]
      exact hnfirst
    have hne := hpick.base_add_ne hin.lt hfirst hlost
    have hjlt := (base_le d j).trans_lt hd.total
    generalize (d.range i').minSel / 2 ^ sh = q at hsum hlost hne
    omega
  · have hlow : (d.range i).minSel / 2 ^ sh = (d.range i).minSel := by
      rcases hgood i hin with rfl | hmin
      · rw [Nat.pow_zero, Nat.div_one]
      · rw [hmin, Nat.zero_div]
    have hselector : (if d.vselReg = d.vselRangeReg then
        (encodeSel d i (s - d.base i) ||| d.selector i) &&& d.vselRangeMask else d.selector i) = d.selector i := by
      split
      · next hsame =>
        rw [or_and_of_disjoint (encodeSel_and hd hin.lt hl (hgood i hin) (hd.disjoint hsame)), hd.inside i hin.lt]
      · rfl
    rw [hselector]
    refine ⟨f, hpick.findIdx hd hin.lt, ?_⟩
    rw [hlow, Nat.mod_eq_of_lt (by omega)]
    omega

/-- The helpers as their names say. -/
def countRanges : RangeCounts := ⟨LinearRange.values, fun rs n => ((rs.take n).map LinearRange.values).sum⟩

theorem countRanges_correct : countRanges.Correct := ⟨fun _ _ => rfl, fun _ _ _ => rfl⟩

/-- One pick with two ranges of three selectors each, in the field of three bits from `sh` on. -/
def twoRanges (vselMask : BitVec 32) : PickableDesc :=
  ⟨[⟨100, 0, 2, 10⟩, ⟨200, 3, 5, 50⟩], [0, 0], 0, vselMask, 0, 0x80, 0, 0⟩

theorem twoRanges_pickable {vselMask : BitVec 32} (hmask : Contiguous vselMask sh 3) (hdis : vselMask &&& 0x80 = 0) :
    Pickable (twoRanges vselMask) sh 3 where
  lengths := rfl
  total := show (6 : ℕ) < 2 ^ 32 by decide
  mask := hmask
  ordered := show ∀ i < 2, _ from fun i hi => by
    obtain rfl | rfl : i = 0 ∨ i = 1 := by omega
    · exact show 0 ≤ 2 by decide
    · exact show 3 ≤ 5 by decide
  fits := show ∀ i < 2, _ from fun i hi => by
    obtain rfl | rfl : i = 0 ∨ i = 1 := by omega
    · exact show 2 < 2 ^ 3 by decide
    · exact show 5 < 2 ^ 3 by decide
  first := rfl
  next := show ∀ i, i + 1 < 2 → _ from fun i hi => by
    obtain rfl : i = 0 := by omega
    exact .inl ⟨rfl, rfl⟩
  inside := show ∀ i < 2, _ from fun i hi => by
    obtain rfl | rfl : i = 0 ∨ i = 1 := by omega
    all_goals exact BitVec.zero_and
  disjoint := fun _ => hdis
  applySel := fun _ => BitVec.zero_and
  applyRange := fun _ => BitVec.zero_and

/-- A regmap that never fails. -/
def workingRegmap : RegmapAnswers := ⟨fun _ => 0, fun _ => 0⟩

theorem Contiguous.of_bits (hpos : 0 < k) (hle : sh + k ≤ 32)
    (h : ∀ i < 32, mask.getLsbD i = decide (sh ≤ i ∧ i < sh + k)) : Contiguous mask sh k := by
  refine ⟨hpos, fun i => ?_⟩
  rcases lt_or_ge i 32 with hi | hi
  · exact h i hi
  · rw [BitVec.getLsbD_of_ge _ _ hi, eq_comm, decide_eq_false_iff_not]
    omega

theorem twoRanges_get_set :
    regulatorGetVoltageSelPickableRegmap countRanges (twoRanges 7) workingRegmap
      (regulatorSetVoltageSelPickableRegmap countRanges (twoRanges 7) workingRegmap (fun _ => 0) 4).1 = (4 : ℕ) :=
  (regulatorGet_regulatorSet_iff countRanges_correct (twoRanges_pickable (.of_bits (by decide) (by decide) (by decide)) (by decide)) (fun _ => rfl)
    (by decide) (by decide)).mpr ⟨by decide, fun _ _ => .inl rfl⟩

/-- With the selector field at bit 1, the lowest selector of the second range comes back as 1. -/
theorem twoRanges_get_set_ne :
    Pickable (twoRanges 14) 1 3 ∧
      (regulatorSetVoltageSelPickableRegmap countRanges (twoRanges 14) workingRegmap (fun _ => 0) 3).2 = 0 ∧
      regulatorGetVoltageSelPickableRegmap countRanges (twoRanges 14) workingRegmap
        (regulatorSetVoltageSelPickableRegmap countRanges (twoRanges 14) workingRegmap (fun _ => 0) 3).1 = 1 :=
  ⟨twoRanges_pickable (.of_bits (by decide) (by decide) (by decide)) (by decide), by decide, by decide⟩

end GfpDrivers.Regulator
