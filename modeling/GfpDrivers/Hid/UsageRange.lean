import GfpDrivers.Hid.Parser

/-!
Ranges of usages: a `USAGE_MINIMUM` item and the `USAGE_MAXIMUM` item after it. The loop
appends the usages one by one until the table is full or the range is at its end.

The numbers are unsigned and wrap. A range that ends at the last number of all has no end
for the loop, and a reversed range looks like a long one to the check of its length, which
then puts its end where the table is full.
-/

namespace GfpDrivers.Hid

variable {p p' : HidParser} {size fuel k : ℕ} {n data usage : BitVec 32}

/-- A usage as it is stored: one that is short gets the usage page. -/
def HidParser.completed (p : HidParser) (usage : BitVec 32) (size : ℕ) : BitVec 32 :=
  if size ≤ 2 then usage &&& 0xFFFF ||| (p.global.usagePage &&& 0xFFFF) <<< 16 else usage

/-- The parser after `k` usages from `n` on have been appended to its table. -/
def appendUsages (p : HidParser) (size : ℕ) (n : BitVec 32) (k : ℕ) : HidParser :=
  let index := p.local_.usageIndex
  let new := fun i => decide (index ≤ i ∧ i < index + k)
  { p with
    local_ := { p.local_ with
      usage := fun i => if new i then p.completed (n + BitVec.ofNat 32 (i - index)) size else p.local_.usage i
      usageSize := fun i => if new i then size else p.local_.usageSize i
      collectionIndex := fun i => if new i then p.collectionStack.head?.getD 0 else p.local_.collectionIndex i
      usageIndex := index + k } }

@[simp] theorem appendUsages_usageIndex :
    (appendUsages p size n k).local_.usageIndex = p.local_.usageIndex + k := rfl

/-- Nothing changes after the usages that were appended. -/
theorem appendUsages_of_le {i : ℕ} (hi : p.local_.usageIndex + k ≤ i) :
    (appendUsages p size n k).local_.usage i = p.local_.usage i ∧
      (appendUsages p size n k).local_.usageSize i = p.local_.usageSize i ∧
      (appendUsages p size n k).local_.collectionIndex i = p.local_.collectionIndex i := by
  have hold : ¬(p.local_.usageIndex ≤ i ∧ i < p.local_.usageIndex + k) := by omega
  simp [appendUsages, hold]

theorem appendUsages_zero : appendUsages p size n 0 = p := by
  have hnew : ∀ i, ¬(p.local_.usageIndex ≤ i ∧ i < p.local_.usageIndex) := fun i => by omega
  refine HidParser.ext rfl rfl ?_ rfl rfl
  apply HidLocal.ext <;> simp [appendUsages, hnew]

/-- What is written to one cell and then to the `k` cells after it. -/
theorem ite_cells_succ {α : Type} {index i : ℕ} {first rest both old : α} (hfirst : i = index → first = both)
    (hrest : index + 1 ≤ i → rest = both) :
    (if index + 1 ≤ i ∧ i < index + 1 + k then rest else if index ≤ i ∧ i < index + 1 then first else old) =
      if index ≤ i ∧ i < index + (k + 1) then both else old := by
  by_cases hlater : index + 1 ≤ i ∧ i < index + 1 + k
  · rw [if_pos hlater, if_pos (by omega), hrest hlater.1]
  · rw [if_neg hlater]
    by_cases hnow : index ≤ i ∧ i < index + 1
    · rw [if_pos hnow, if_pos (by omega), hfirst (by omega)]
    · rw [if_neg hnow, if_neg (by omega)]

theorem appendUsages_succ :
    appendUsages (appendUsages p size n 1) size (n + 1) k = appendUsages p size n (k + 1) := by
  have hnext : ∀ i, p.local_.usageIndex + 1 ≤ i →
      n + 1 + BitVec.ofNat 32 (i - (p.local_.usageIndex + 1)) = n + BitVec.ofNat 32 (i - p.local_.usageIndex) := by
    intro i hi
    rw [BitVec.add_assoc, show (1 : BitVec 32) = BitVec.ofNat 32 1 from rfl, ← BitVec.ofNat_add]
    congr 2
    omega
  refine HidParser.ext rfl rfl ?_ rfl rfl
  refine HidLocal.ext ?_ ?_ ?_ ?_ rfl rfl rfl
  · ext1 i
    simp only [appendUsages, decide_eq_true_eq]
    exact ite_cells_succ (fun _ => rfl) fun hi => congrArg (p.completed · size) (hnext i hi)
  · ext1 i
    simp only [appendUsages, decide_eq_true_eq]
    exact ite_cells_succ (fun _ => rfl) fun _ => rfl
  · ext1 i
    simp only [appendUsages, decide_eq_true_eq]
    exact ite_cells_succ (fun _ => rfl) fun _ => rfl
  · simp only [appendUsages_usageIndex]
    omega

/-- `hid_add_usage` appends one usage if there is room. -/
theorem hidAddUsage_of_lt (h : p.local_.usageIndex < HID_MAX_USAGES) :
    hidAddUsage p usage size = (appendUsages p size usage 1, 0) := by
  have hnew : ∀ i, (p.local_.usageIndex ≤ i ∧ i < p.local_.usageIndex + 1) ↔ i = p.local_.usageIndex :=
    fun i => by omega
  have hroom : ¬ HID_MAX_USAGES ≤ p.local_.usageIndex := by omega
  rw [hidAddUsage, if_neg hroom]
  refine Prod.ext ?_ rfl
  apply HidParser.ext <;> try (split_ifs <;> rfl)
  apply HidLocal.ext <;> try (split_ifs <;> rfl)
  · ext1 i
    simp only [appendUsages, HidParser.completed, hnew, decide_eq_true_eq]
    by_cases hi : i = p.local_.usageIndex <;> by_cases hsize : size ≤ 2 <;> simp [completeUsage, hi, hsize]
  · ext1 i
    simp only [appendUsages, hnew, decide_eq_true_eq]
    by_cases hi : i = p.local_.usageIndex <;> by_cases hsize : size ≤ 2 <;> simp [completeUsage, hi, hsize]
  · ext1 i
    simp only [appendUsages, hnew, decide_eq_true_eq]
    by_cases hi : i = p.local_.usageIndex <;> by_cases hsize : size ≤ 2 <;> simp [completeUsage, hi, hsize]

/-! ### The loop -/

theorem addUsages_of_lt (hfuel : 0 < fuel) (h : data < n) : addUsages data size fuel n p = some (p, 0) := by
  obtain ⟨fuel, rfl⟩ := Nat.exists_eq_add_one.2 hfuel
  have hstop : ¬ n ≤ data := BitVec.not_le.2 h
  rw [addUsages, if_neg hstop]

theorem addUsages_of_full (hfuel : 0 < fuel) (h : n ≤ data) (hfull : HID_MAX_USAGES ≤ p.local_.usageIndex) :
    addUsages data size fuel n p = some (p, -1) := by
  obtain ⟨fuel, rfl⟩ := Nat.exists_eq_add_one.2 hfuel
  simp [addUsages, h, hidAddUsage, hfull]

theorem addUsages_succ (h : n ≤ data) (hroom : p.local_.usageIndex < HID_MAX_USAGES) :
    addUsages data size (fuel + 1) n p = addUsages data size fuel (n + 1) (appendUsages p size n 1) := by
  simp [addUsages, h, hidAddUsage_of_lt hroom]

/-- The loop appends the whole range when there is room for it and the counter gets past
its end. -/
theorem addUsages_exact (hfuel : k < fuel) (hk : n.toNat + k = data.toNat + 1) (hend : data.toNat + 1 < 2 ^ 32)
    (hroom : p.local_.usageIndex + k ≤ HID_MAX_USAGES) :
    addUsages data size fuel n p = some (appendUsages p size n k, 0) := by
  induction k generalizing fuel n p with
  | zero =>
    have hstop : data < n := BitVec.lt_def.2 (by omega)
    rw [addUsages_of_lt hfuel hstop, appendUsages_zero]
  | succ k ih =>
    obtain ⟨fuel, rfl⟩ := Nat.exists_eq_add_one.2 (Nat.zero_lt_of_lt hfuel)
    have hn : (n + 1).toNat = n.toNat + 1 := by bv_omega
    have hgo : n ≤ data := BitVec.le_def.2 (by omega)
    rw [addUsages_succ hgo (by omega), ih (by omega) (by omega) (by simp; omega), appendUsages_succ]

/-- The loop fills the table and fails when the range is longer than the table, or when its
counter never gets past the end. -/
theorem addUsages_fill (hfuel : k < fuel) (hk : data = BitVec.allOnes 32 ∨ n.toNat + k ≤ data.toNat)
    (hroom : p.local_.usageIndex + k = HID_MAX_USAGES) :
    addUsages data size fuel n p = some (appendUsages p size n k, -1) := by
  have hgo : n ≤ data := by
    obtain rfl | hk := hk
    · exact BitVec.not_lt.1 BitVec.not_allOnes_lt
    · exact BitVec.le_def.2 (by omega)
  induction k generalizing fuel n p with
  | zero => rw [addUsages_of_full hfuel hgo (by omega), appendUsages_zero]
  | succ k ih =>
    obtain ⟨fuel, rfl⟩ := Nat.exists_eq_add_one.2 (Nat.zero_lt_of_lt hfuel)
    have hnext : data = BitVec.allOnes 32 ∨ (n + 1).toNat + k ≤ data.toNat :=
      hk.imp id fun h => by bv_omega
    have hgo' : n + 1 ≤ data := by
      obtain rfl | h := hnext
      · exact BitVec.not_lt.1 BitVec.not_allOnes_lt
      · exact BitVec.le_def.2 (by omega)
    rw [addUsages_succ hgo (by omega), ih (by omega) hnext (by simp; omega) hgo', appendUsages_succ]

/-- The loop returns, and it only appends usages there is room for. -/
theorem addUsages_returns (hfuel : HID_MAX_USAGES < fuel) (hu : p.local_.usageIndex ≤ HID_MAX_USAGES) :
    ∃ k ret, addUsages data size fuel n p = some (appendUsages p size n k, ret) ∧
      p.local_.usageIndex + k ≤ HID_MAX_USAGES := by
  by_cases hstop : data < n
  · exact ⟨0, 0, by rw [addUsages_of_lt (by omega) hstop, appendUsages_zero], by omega⟩
  by_cases hroom : data.toNat + 1 < 2 ^ 32 ∧ p.local_.usageIndex + (data.toNat + 1 - n.toNat) ≤ HID_MAX_USAGES
  · refine ⟨data.toNat + 1 - n.toNat, 0, addUsages_exact (by omega) (by bv_omega) hroom.1 hroom.2, hroom.2⟩
  · refine ⟨HID_MAX_USAGES - p.local_.usageIndex, -1, addUsages_fill (by omega) ?_ (by omega), by omega⟩
    by_cases hend : data = BitVec.allOnes 32
    · exact .inl hend
    · have hmax : data.toNat ≠ 2 ^ 32 - 1 := fun h => hend (BitVec.eq_of_toNat_eq (by rw [h, BitVec.toNat_allOnes]))
      exact .inr (by bv_omega)

/-! ### The two items -/

/-- What a range of usages is to do: one for which there is room is appended in order, and
one in reverse appends nothing. -/
def RangeExact (p p' : HidParser) (ret : ℤ) (size : ℕ) (a b : BitVec 32) : Prop :=
  (a ≤ b → p.local_.usageIndex + (b.toNat - a.toNat + 1) ≤ HID_MAX_USAGES →
    p' = appendUsages p size a (b.toNat - a.toNat + 1) ∧ ret = 0) ∧
  (b < a → p' = p)

/-- The ranges for which it is done: no counter wraps on the way. -/
def RangeInside (index : ℕ) (a b : BitVec 32) : Prop :=
  (a ≤ b → index + (b.toNat - a.toNat + 1) ≤ HID_MAX_USAGES → b ≠ BitVec.allOnes 32) ∧
  (b < a → a.toNat - b.toNat ≤ index ∨ index = HID_MAX_USAGES ∨ 2 ^ 32 < a.toNat + (HID_MAX_USAGES - index))

variable {item : HidItem} {a b : BitVec 32}

theorem hidParserLocal_usageMinimum (fuel : ℕ) (item : HidItem) (hbranch : p.local_.delimiterBranch ≤ 1) :
    hidParserLocal fuel p .usageMinimum item =
      some ({ p with local_ := { p.local_ with usageMinimum := itemUdata item } }, 0) := by
  have hnot : ¬ 1 < p.local_.delimiterBranch := BitVec.not_lt.2 hbranch
  simp only [hidParserLocal, if_neg hnot]

theorem hidParserLocal_usageMaximum (hbranch : p.local_.delimiterBranch ≤ 1) (ha : p.local_.usageMinimum = a)
    (hb : itemUdata item = b) :
    hidParserLocal fuel p .usageMaximum item =
      if BitVec.ofNat 32 HID_MAX_USAGES ≤ b - a + BitVec.ofNat 32 p.local_.usageIndex then
        if BitVec.ofNat 32 HID_MAX_USAGES - BitVec.ofNat 32 p.local_.usageIndex + a - 1 ≤ 0 then some (p, -1)
        else
          addUsages (BitVec.ofNat 32 HID_MAX_USAGES - BitVec.ofNat 32 p.local_.usageIndex + a - 1) item.size fuel a p
      else addUsages b item.size fuel a p := by
  have hnot : ¬ 1 < p.local_.delimiterBranch := BitVec.not_lt.2 hbranch
  simp only [hidParserLocal, if_neg hnot, ha, hb]

/-- The item returns, and it only appends usages there is room for. -/
theorem usageMaximum_returns (item : HidItem) (hfuel : HID_MAX_USAGES < fuel) (hu : p.local_.usageIndex ≤ HID_MAX_USAGES)
    (hbranch : p.local_.delimiterBranch ≤ 1) :
    ∃ k ret, hidParserLocal fuel p .usageMaximum item =
        some (appendUsages p item.size p.local_.usageMinimum k, ret) ∧
      p.local_.usageIndex + k ≤ HID_MAX_USAGES := by
  rw [hidParserLocal_usageMaximum hbranch rfl rfl]
  split_ifs with hlong hend
  · exact ⟨0, -1, by rw [appendUsages_zero], hu⟩
  · exact addUsages_returns hfuel hu
  · exact addUsages_returns hfuel hu

theorem usageMaximum_of_fits (fuel : ℕ) (hbranch : p.local_.delimiterBranch ≤ 1) (ha : p.local_.usageMinimum = a)
    (hb : itemUdata item = b) (hab : a ≤ b)
    (hroom : p.local_.usageIndex + (b.toNat - a.toNat + 1) ≤ HID_MAX_USAGES) :
    hidParserLocal fuel p .usageMaximum item = addUsages b item.size fuel a p := by
  have hshort : ¬ BitVec.ofNat 32 HID_MAX_USAGES ≤ b - a + BitVec.ofNat 32 p.local_.usageIndex := by
    rw [HID_MAX_USAGES] at *
    bv_omega
  rw [hidParserLocal_usageMaximum hbranch ha hb, if_neg hshort]

/-- A reversed range whose end, cut short or not, is still before its start. -/
theorem usageMaximum_of_reversed (hfuel : HID_MAX_USAGES < fuel) (hbranch : p.local_.delimiterBranch ≤ 1)
    (ha : p.local_.usageMinimum = a) (hb : itemUdata item = b) (hba : b < a)
    (hu : p.local_.usageIndex ≤ HID_MAX_USAGES)
    (hin : a.toNat - b.toNat ≤ p.local_.usageIndex ∨ p.local_.usageIndex = HID_MAX_USAGES ∨
      2 ^ 32 < a.toNat + (HID_MAX_USAGES - p.local_.usageIndex)) :
    ∃ ret, hidParserLocal fuel p .usageMaximum item = some (p, ret) := by
  have hfuel' : 0 < fuel := Nat.zero_lt_of_lt hfuel
  rw [hidParserLocal_usageMaximum hbranch ha hb]
  split_ifs with hlong hend
  · exact ⟨-1, rfl⟩
  · refine ⟨0, addUsages_of_lt hfuel' ?_⟩
    rw [HID_MAX_USAGES] at *
    bv_omega
  · exact ⟨0, addUsages_of_lt hfuel' hba⟩

theorem usageMaximum_of_wrapped (hfuel : HID_MAX_USAGES < fuel) (hbranch : p.local_.delimiterBranch ≤ 1)
    (ha : p.local_.usageMinimum = a) (hb : itemUdata item = b) (hba : b < a)
    (hdist : p.local_.usageIndex < a.toNat - b.toNat) (hu : p.local_.usageIndex < HID_MAX_USAGES)
    (hend : a.toNat + (HID_MAX_USAGES - p.local_.usageIndex) ≤ 2 ^ 32) :
    ∃ ret, hidParserLocal fuel p .usageMaximum item =
      some (appendUsages p item.size a (HID_MAX_USAGES - p.local_.usageIndex), ret) := by
  have hlong : BitVec.ofNat 32 HID_MAX_USAGES ≤ b - a + BitVec.ofNat 32 p.local_.usageIndex := by
    rw [HID_MAX_USAGES] at *
    bv_omega
  have hcut : (BitVec.ofNat 32 HID_MAX_USAGES - BitVec.ofNat 32 p.local_.usageIndex + a - 1).toNat =
      a.toNat + (HID_MAX_USAGES - p.local_.usageIndex) - 1 := by
    rw [HID_MAX_USAGES] at *
    bv_omega
  have hpos : ¬ BitVec.ofNat 32 HID_MAX_USAGES - BitVec.ofNat 32 p.local_.usageIndex + a - 1 ≤ 0 := by
    rw [BitVec.le_def, hcut]
    bv_omega
  rw [hidParserLocal_usageMaximum hbranch ha hb, if_pos hlong, if_neg hpos]
  by_cases hlast : a.toNat + (HID_MAX_USAGES - p.local_.usageIndex) = 2 ^ 32
  · refine ⟨-1, addUsages_fill (by omega) (.inl (BitVec.eq_of_toNat_eq ?_)) (by omega)⟩
    rw [hcut, BitVec.toNat_allOnes]
    omega
  · exact ⟨0, addUsages_exact (by omega) (by omega) (by omega) (by omega)⟩

/-- A pair of items `USAGE_MINIMUM` and `USAGE_MAXIMUM` is handled in finitely many steps and
stays inside the table, but the usages of the range are appended as they should be only when
no counter wraps. -/
theorem hidParserLocal_usageRange (fuel : ℕ) (p : HidParser) (low high : HidItem) (hfuel : HID_MAX_USAGES < fuel)
    (hu : p.local_.usageIndex ≤ HID_MAX_USAGES) (hbranch : p.local_.delimiterBranch ≤ 1) :
    ∃ q p' ret, hidParserLocal fuel p .usageMinimum low = some (q, 0) ∧
      hidParserLocal fuel q .usageMaximum high = some (p', ret) ∧
      p'.local_.usageIndex ≤ HID_MAX_USAGES ∧
      (∀ i, HID_MAX_USAGES ≤ i → p'.local_.usage i = p.local_.usage i ∧
        p'.local_.usageSize i = p.local_.usageSize i ∧ p'.local_.collectionIndex i = p.local_.collectionIndex i) ∧
      (RangeExact q p' ret high.size (itemUdata low) (itemUdata high) ↔
        RangeInside p.local_.usageIndex (itemUdata low) (itemUdata high)) := by
  have hlow := hidParserLocal_usageMinimum fuel low hbranch
  set a := itemUdata low
  set b := itemUdata high with hb
  set q : HidParser := { p with local_ := { p.local_ with usageMinimum := a } }
  have ha : q.local_.usageMinimum = a := rfl
  have hbq : q.local_.delimiterBranch ≤ 1 := hbranch
  have huq : q.local_.usageIndex = p.local_.usageIndex := rfl
  obtain ⟨k, ret, hret, hroom⟩ := usageMaximum_returns high hfuel (huq ▸ hu) hbq
  refine ⟨q, _, ret, hlow, hret, hroom, fun i hi => appendUsages_of_le (hroom.trans hi), ?_⟩
  constructor
  · rintro ⟨hfits, hrev⟩
    refine ⟨fun hab hroom' hlast => ?_, fun hba => ?_⟩
    · have hfull := usageMaximum_of_fits fuel hbq ha hb.symm hab hroom'
      rw [addUsages_fill (k := HID_MAX_USAGES - p.local_.usageIndex) (by omega) (.inl hlast) (by omega)] at hfull
      have hfail : ret = -1 := (Prod.ext_iff.1 (Option.some.inj (hret.symm.trans hfull))).2
      have hok := (hfits hab hroom').2
      omega
    · by_contra hout
      push Not at hout
      obtain ⟨ret', hfull⟩ := usageMaximum_of_wrapped hfuel hbq ha hb.symm hba hout.1 (by omega) hout.2.2
      have hp := (Prod.ext_iff.1 (Option.some.inj (hret.symm.trans hfull))).1
      have hindex := congrArg (fun p : HidParser => p.local_.usageIndex) (hp.symm.trans (hrev hba))
      simp at hindex
      omega
  · rintro ⟨hfits, hrev⟩
    refine ⟨fun hab hroom' => ?_, fun hba => ?_⟩
    · have hexact := usageMaximum_of_fits fuel hbq ha hb.symm hab hroom'
      have hlast : b.toNat ≠ 2 ^ 32 - 1 := fun h =>
        hfits hab hroom' (BitVec.eq_of_toNat_eq (by rw [h, BitVec.toNat_allOnes]))
      have hspan : a.toNat + (b.toNat - a.toNat + 1) = b.toNat + 1 := by
        have hle : a.toNat ≤ b.toNat := hab
        omega
      have hend : b.toNat + 1 < 2 ^ 32 := by bv_omega
      have hlen : b.toNat - a.toNat + 1 < fuel := by omega
      rw [addUsages_exact hlen hspan hend hroom'] at hexact
      exact Prod.ext_iff.1 (Option.some.inj (hret.symm.trans hexact))
    · obtain ⟨ret', hnone⟩ := usageMaximum_of_reversed hfuel hbq ha hb.symm hba hu (hrev hba)
      exact (Prod.ext_iff.1 (Option.some.inj (hret.symm.trans hnone))).1

/-- A parser with nothing in it. -/
def HidParser.fresh : HidParser where
  global := HidGlobal.zero
  globalStack := []
  local_ := HidLocal.zero
  collectionStack := []
  device := ⟨fun _ => ⟨.application, 0⟩, fun _ => false, fun _ _ => none⟩

theorem hidParserLocal_usageRange_fresh : ∃ q p' ret,
    hidParserLocal 12289 HidParser.fresh .usageMinimum ⟨1, 4⟩ = some (q, 0) ∧
    hidParserLocal 12289 q .usageMaximum ⟨1, 7⟩ = some (p', ret) ∧
    p' = appendUsages q 1 4 4 ∧ ret = 0 := by
  obtain ⟨q, p', ret, hlow, hhigh, -, -, hiff⟩ :=
    hidParserLocal_usageRange 12289 HidParser.fresh ⟨1, 4⟩ ⟨1, 7⟩ (by decide) (by decide) (by decide)
  have hin : RangeInside 0 4 7 := ⟨fun _ _ => by decide, fun h => absurd h (by decide)⟩
  have hindex : q.local_.usageIndex = 0 := by
    have hq := (Prod.ext_iff.1 (Option.some.inj hlow)).1
    exact congrArg (fun p : HidParser => p.local_.usageIndex) hq.symm
  exact ⟨q, p', ret, hlow, hhigh, (hiff.2 hin).1 (by decide) (by rw [hindex]; decide)⟩

/-- The range from 2 down to 1 fills the whole table. -/
theorem usageRange_reversed_appends : ∃ q p',
    hidParserLocal 12289 HidParser.fresh .usageMinimum ⟨1, 2⟩ = some (q, 0) ∧
    hidParserLocal 12289 q .usageMaximum ⟨1, 1⟩ = some (p', 0) ∧
    itemUdata ⟨1, 1⟩ < itemUdata ⟨1, 2⟩ ∧ q.local_.usageIndex = 0 ∧ p'.local_.usageIndex = HID_MAX_USAGES := by
  let q : HidParser := { HidParser.fresh with local_ := { HidLocal.zero with usageMinimum := 2 } }
  refine ⟨q, appendUsages q 1 2 HID_MAX_USAGES, hidParserLocal_usageMinimum _ _ (by decide), ?_, by decide, rfl, by decide⟩
  rw [hidParserLocal_usageMaximum (a := 2) (b := 1) (by decide) (by decide) (by decide), if_pos (by decide),
    if_neg (by decide)]
  exact addUsages_exact (k := HID_MAX_USAGES) (by decide) (by decide) (by decide) (by decide)

end GfpDrivers.Hid
