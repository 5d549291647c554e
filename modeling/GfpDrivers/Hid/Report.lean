import GfpDrivers.Hid.Field
import GfpDrivers.Lib.Runs

/-!
Output reports: values are stored in the fields by `hid_set_field`, written
into the report by `hid_output_report`, and read back by
`hid_input_fetch_field`. The bit ranges of the fields are disjoint, so that
each field finds in the report what was written for it.

The range test of `hid_set_field` converts the value to the width of the
field and back. It answers correctly for every width but 32, where the mask
`(1 << n) - 1` of `s32ton` is computed by a shift over the whole width.
-/

namespace GfpDrivers.Hid

open GfpDrivers.Lib Function

/-- `HID_MAIN_ITEM_VARIABLE` -/
def hidMainItemVariable : ℕ := 0x002

/-- `HID_UP_KEYBOARD` -/
def hidUpKeyboard : ℕ := 0x00070000

/-- What the functions below read and write of `struct hid_field`;
`usageHid i` is `usage[i].hid`. -/
structure HidField where
  flags : ℕ
  reportOffset : ℕ
  reportSize : ℕ
  reportCount : ℕ
  logicalMinimum : BitVec 32
  logicalMaximum : BitVec 32
  maxusage : ℕ
  usageHid : ℕ → ℕ
  value : ℕ → BitVec 32
  newValue : ℕ → BitVec 32
  ignored : Bool

/-- `struct hid_report`: its id, its size in bits, and `field[0..maxfield)`. -/
structure HidReport where
  id : ℕ
  size : ℕ
  fields : List HidField

/-- The test `field->logical_minimum < 0` for signed values. -/
def HidField.signed (f : HidField) : Prop := f.logicalMinimum.toInt < 0

instance (f : HidField) : Decidable f.signed := inferInstanceAs (Decidable (_ < _))

/-- The bit position of the `n`-th value, in `unsigned` arithmetic. -/
def HidField.bitPos (f : HidField) (n : ℕ) : ℕ := (f.reportOffset + n * f.reportSize) % 2 ^ 32

/-- `hid_set_field`. -/
def hidSetField (field : Option HidField) (offset : ℕ) (value : BitVec 32) :
    Option HidField × ℤ :=
  match field with
  | none => (none, -1)
  | some f =>
      if f.reportCount ≤ offset then (some f, -1)
      else if f.signed ∧ value ≠ snto32 (s32ton value f.reportSize) f.reportSize then (some f, -1)
      else (some { f with value := Function.update f.value offset value }, 0)

/-- The bits `hid_output_field` writes for the `n`-th value. -/
def HidField.code (f : HidField) (n : ℕ) : BitVec 32 :=
  if f.signed then s32ton (f.value n) f.reportSize else f.value n

/-- `hid_output_field`. -/
def hidOutputField (f : HidField) (data : ℕ → BitVec 8) : ℕ → BitVec 8 :=
  (List.range f.reportCount).foldl
    (fun d n => implement d (f.bitPos n) f.reportSize (f.code n)) data

/-- `hid_compute_report_size`, in bytes. -/
def hidComputeReportSize (r : HidReport) : ℕ :=
  if r.size ≠ 0 then ((r.size - 1) >>> 3) + 1 else 0

/-- The bytes of a report buffer after the report id, if it has one. -/
def HidReport.body (r : HidReport) (data : ℕ → BitVec 8) : ℕ → BitVec 8 :=
  if 0 < r.id then fun i => data (i + 1) else data

/-- `hid_output_report`. -/
def hidOutputReport (r : HidReport) (data : ℕ → BitVec 8) : ℕ → BitVec 8 :=
  let cleared := fun i => if i < hidComputeReportSize r then 0#8 else r.body data i
  let body := r.fields.foldl (fun d f => hidOutputField f d) cleared
  if 0 < r.id then fun i => if i = 0 then BitVec.ofNat 8 r.id else body (i - 1) else body

/-- `hid_array_value_is_valid`. -/
def hidArrayValueIsValid (f : HidField) (value : BitVec 32) : Bool :=
  decide (f.logicalMinimum.toInt ≤ value.toInt) && decide (value.toInt ≤ f.logicalMaximum.toInt) &&
    decide ((value - f.logicalMinimum).toNat < f.maxusage)

/-- One value as `hid_input_fetch_field` reads it. -/
def HidField.fetch (f : HidField) (data : ℕ → BitVec 8) (n : ℕ) : BitVec 32 :=
  if f.signed then snto32 (hidFieldExtract data (f.bitPos n) f.reportSize) f.reportSize
  else hidFieldExtract data (f.bitPos n) f.reportSize

/-- The loop of `hid_input_fetch_field`, with the values fetched so far; the
second component is `field->ignored`. -/
def fetchLoop (f : HidField) (data : ℕ → BitVec 8) :
    ℕ → ℕ → (ℕ → BitVec 32) → (ℕ → BitVec 32) × Bool
  | 0, _, values => (values, false)
  | todo + 1, n, values =>
      let v := f.fetch data n
      let values := Function.update values n v
      if f.flags &&& hidMainItemVariable = 0 ∧ hidArrayValueIsValid f v = true ∧
          f.usageHid (v - f.logicalMinimum).toNat = hidUpKeyboard + 1 then
        (values, true)
      else fetchLoop f data todo (n + 1) values

/-- `hid_input_fetch_field`. -/
def hidInputFetchField (f : HidField) (data : ℕ → BitVec 8) : HidField :=
  let start := fun n => if n < f.reportCount then 0#32 else f.newValue n
  let (values, ignored) := fetchLoop f data f.reportCount 0 start
  { f with newValue := values, ignored := ignored }

/-! ### Writing the fields -/

/-- Start and end of the bit range of a field. -/
def HidField.range (f : HidField) : ℕ × ℕ :=
  (f.reportOffset, f.reportOffset + f.reportCount * f.reportSize)

/-- The bit ranges of the fields lie inside the report and do not overlap.
`size` is an `unsigned`. -/
structure HidReport.Layout (r : HidReport) : Prop where
  size_lt : r.size < 2 ^ 32
  width : ∀ f ∈ r.fields, 1 ≤ f.reportSize ∧ f.reportSize ≤ 32
  inside : ∀ f ∈ r.fields, f.reportOffset + f.reportCount * f.reportSize ≤ r.size
  disjoint : (r.fields.map HidField.range).Pairwise fun p q => p.2 ≤ q.1 ∨ q.2 ≤ p.1

/-- A value can be written and read back: it passed the range test of
`hid_set_field`, or it is an unsigned value of the width of the field. -/
def HidField.Stored (f : HidField) : Prop :=
  ∀ n, n < f.reportCount →
    if f.signed then f.value n = snto32 (s32ton (f.value n) f.reportSize) f.reportSize
    else FitsIn (f.value n) f.reportSize

theorem HidField.Stored.fitsIn_code {f : HidField} (h : f.Stored) (hw : 1 ≤ f.reportSize)
    (hw' : f.reportSize ≤ 32) {n : ℕ} (hn : n < f.reportCount) :
    FitsIn (f.code n) f.reportSize := by
  have hstored := h n hn
  unfold HidField.code
  split
  · exact fitsIn_s32ton hw hw' _
  · rename_i hs
    rwa [if_neg hs] at hstored

/-- The positions of the values follow each other without wrapping. -/
theorem HidField.bitPos_eq {f : HidField} {size : ℕ} (hsize : size < 2 ^ 32)
    (hin : f.reportOffset + f.reportCount * f.reportSize ≤ size) {n : ℕ}
    (hn : n < f.reportCount) : f.bitPos n = f.reportOffset + n * f.reportSize := by
  have hmul : n * f.reportSize ≤ f.reportCount * f.reportSize :=
    Nat.mul_le_mul_right _ (Nat.le_of_lt hn)
  exact Nat.mod_eq_of_lt (by omega)

/-- `hid_output_field` fills the range of the field with the codes of its
values. -/
theorem writesRange_hidOutputField {f : HidField} {size : ℕ} (hsize : size < 2 ^ 32)
    (hin : f.reportOffset + f.reportCount * f.reportSize ≤ size) (hw : 1 ≤ f.reportSize)
    (hw' : f.reportSize ≤ 32) (h : f.Stored) :
    WritesRange hidOutputField (fun f => f.reportOffset)
      (fun f => f.reportOffset + f.reportCount * f.reportSize)
      (fun f p => (f.code (p / f.reportSize)).getLsbD (p % f.reportSize)) f := by
  intro buf j
  have hpos := fun n hn => HidField.bitPos_eq (f := f) hsize hin (n := n) hn
  have hwrite : ∀ n ∈ List.range f.reportCount, WritesRange
      (fun n d => implement d (f.bitPos n) f.reportSize (f.code n)) (fun n => f.bitPos n)
      (fun n => f.bitPos n + f.reportSize) (fun n p => (f.code n).getLsbD p) n := by
    intro n hn d i
    exact bitAt_implement d _ hw' (h.fitsIn_code hw hw' (List.mem_range.mp hn)) i
  by_cases hj : f.reportOffset ≤ j ∧ j < f.reportOffset + f.reportCount * f.reportSize
  · rw [if_pos hj]
    -- the value the bit belongs to
    have hlt : (j - f.reportOffset) / f.reportSize < f.reportCount :=
      (Nat.div_lt_iff_lt_mul (by omega)).mpr (by omega)
    have hdm := Nat.div_add_mod (j - f.reportOffset) f.reportSize
    have hmod := Nat.mod_lt (j - f.reportOffset) (show f.reportSize > 0 by omega)
    rw [Nat.mul_comm] at hdm
    have hdisj : (List.range f.reportCount).Pairwise fun a b =>
        f.bitPos a + f.reportSize ≤ f.bitPos b ∨ f.bitPos b + f.reportSize ≤ f.bitPos a := by
      refine List.pairwise_lt_range.imp_of_mem ?_
      intro a b ha hb hab
      rw [hpos a (List.mem_range.mp ha), hpos b (List.mem_range.mp hb)]
      have hstep : (a + 1) * f.reportSize ≤ b * f.reportSize := Nat.mul_le_mul_right _ hab
      rw [Nat.add_mul, Nat.one_mul] at hstep
      omega
    have hread := bitAt_foldl_of_mem hwrite hdisj (List.mem_range.mpr hlt) (j := j)
      (by rw [hpos _ hlt]; omega) buf
    rw [hpos _ hlt] at hread
    simpa [hidOutputField, show j - (f.reportOffset + (j - f.reportOffset) / f.reportSize *
      f.reportSize) = (j - f.reportOffset) % f.reportSize by omega] using hread
  · rw [if_neg hj]
    refine bitAt_foldl_of_notMem hwrite ?_ buf
    intro n hn hcon
    rw [List.mem_range] at hn
    rw [hpos n hn] at hcon
    have hstep : (n + 1) * f.reportSize ≤ f.reportCount * f.reportSize :=
      Nat.mul_le_mul_right _ hn
    rw [Nat.add_mul, Nat.one_mul] at hstep
    omega

/-- The report holds the code of every value at its position. -/
theorem bitAt_hidOutputReport {r : HidReport} (hr : r.Layout) (hs : ∀ f ∈ r.fields, f.Stored)
    {f : HidField} (hf : f ∈ r.fields) {n : ℕ} (hn : n < f.reportCount) {k : ℕ}
    (hk : k < f.reportSize) (data : ℕ → BitVec 8) :
    bitAt (r.body (hidOutputReport r data)) (f.bitPos n + k) = (f.code n).getLsbD k := by
  have hbody : r.body (hidOutputReport r data) =
      r.fields.foldl (fun d f => hidOutputField f d)
        (fun i => if i < hidComputeReportSize r then 0#8 else r.body data i) := by
    by_cases h : 0 < r.id <;> simp [HidReport.body, hidOutputReport, h]
  have hwrite := fun g hg => writesRange_hidOutputField hr.size_lt (hr.inside g hg)
    (hr.width g hg).1 (hr.width g hg).2 (hs g hg)
  rw [hbody, HidField.bitPos_eq hr.size_lt (hr.inside f hf) hn]
  have hstep : (n + 1) * f.reportSize ≤ f.reportCount * f.reportSize :=
    Nat.mul_le_mul_right _ hn
  rw [Nat.add_mul, Nat.one_mul] at hstep
  rw [bitAt_foldl_of_mem hwrite (List.pairwise_map.mp hr.disjoint) hf (j := f.reportOffset + n * f.reportSize + k)
    (by omega)]
  have hsub : f.reportOffset + n * f.reportSize + k - f.reportOffset = k + f.reportSize * n := by
    rw [Nat.mul_comm]
    omega
  rw [hsub, Nat.add_mul_div_left _ _ (by omega), Nat.div_eq_of_lt hk, Nat.zero_add,
    Nat.add_mul_mod_self_left, Nat.mod_eq_of_lt hk]

/-! ### Reading them back -/

theorem fetchLoop_variable {f : HidField} (hvar : f.flags &&& hidMainItemVariable ≠ 0)
    (data : ℕ → BitVec 8) (todo n : ℕ) (values : ℕ → BitVec 32) (k : ℕ) :
    (fetchLoop f data todo n values).1 k =
      if n ≤ k ∧ k < n + todo then f.fetch data k else values k := by
  induction todo generalizing n values with
  | zero => rw [fetchLoop, if_neg (by omega)]
  | succ todo ih =>
    rw [fetchLoop]
    simp only [hvar, false_and, if_false]
    rw [ih (n + 1)]
    by_cases hk : k = n
    · subst hk
      rw [if_neg (by omega), if_pos (by omega), update_self]
    · rw [update_of_ne hk]
      by_cases hin : n + 1 ≤ k ∧ k < n + 1 + todo
      · rw [if_pos hin, if_pos (by omega)]
      · rw [if_neg hin, if_neg (by omega)]

/-- Every variable field of a report is read back as it was stored. -/
theorem fetch_hidOutputReport {r : HidReport} (hr : r.Layout) (hs : ∀ f ∈ r.fields, f.Stored)
    {f : HidField} (hf : f ∈ r.fields) (hvar : f.flags &&& hidMainItemVariable ≠ 0) {n : ℕ}
    (hn : n < f.reportCount) (data : ℕ → BitVec 8) :
    (hidInputFetchField f (r.body (hidOutputReport r data))).newValue n = f.value n := by
  have hw := hr.width f hf
  have hread : hidFieldExtract (r.body (hidOutputReport r data)) (f.bitPos n) f.reportSize =
      f.code n :=
    hidFieldExtract_eq hw.2 ((hs f hf).fitsIn_code hw.1 hw.2 hn)
      (fun k hk => bitAt_hidOutputReport hr hs hf hn hk data)
  have hstored := hs f hf n hn
  simp only [hidInputFetchField]
  rw [fetchLoop_variable hvar, if_pos (by omega), HidField.fetch, hread, HidField.code]
  split
  · rename_i hsigned
    rw [if_pos hsigned] at hstored
    exact hstored.symm
  · rfl

/-! ### Storing values -/

/-- A call of `hid_set_field` on a field of the report. -/
structure SetCall where
  field : ℕ
  offset : ℕ
  value : BitVec 32

/-- A call that returns 0; a failing one is not taken. -/
def HidReport.setField (r : HidReport) (c : SetCall) : Option HidReport :=
  match hidSetField r.fields[c.field]? c.offset c.value with
  | (some f, ret) =>
      if ret = 0 then some { r with fields := r.fields.set c.field f } else none
  | (none, _) => none

/-- `hid_set_field` does not look at the range of an unsigned value; that is
the caller's business. -/
def HidReport.UnsignedInRange (r : HidReport) (c : SetCall) : Prop :=
  ∀ f, r.fields[c.field]? = some f → ¬ f.signed →
    0 ≤ c.value.toInt ∧ c.value.toInt ≤ 2 ^ f.reportSize - 1

theorem HidReport.setField_cases {r r' : HidReport} {c : SetCall} (h : r.setField c = some r') :
    ∃ f, r.fields[c.field]? = some f ∧
      (f.signed → c.value = snto32 (s32ton c.value f.reportSize) f.reportSize) ∧
      r' = { r with fields :=
        r.fields.set c.field { f with value := update f.value c.offset c.value } } := by
  unfold HidReport.setField at h
  cases hf : r.fields[c.field]? with
  | none => simp [hf, hidSetField] at h
  | some f =>
    refine ⟨f, rfl, ?_⟩
    rw [hf] at h
    unfold hidSetField at h
    dsimp only at h
    split at h
    · rename_i heq
      split at heq
      · simp only [Prod.mk.injEq, Option.some.injEq] at heq
        obtain ⟨-, rfl⟩ := heq
        simp at h
      · split at heq
        · simp only [Prod.mk.injEq, Option.some.injEq] at heq
          obtain ⟨-, rfl⟩ := heq
          simp at h
        · rename_i htest
          simp only [Prod.mk.injEq, Option.some.injEq] at heq
          obtain ⟨rfl, rfl⟩ := heq
          simp only [if_true, Option.some.injEq] at h
          refine ⟨fun hsigned => ?_, h.symm⟩
          by_contra hne
          exact htest ⟨hsigned, hne⟩
    · simp at h

/-- An `n`-bit unsigned value fits in `n` bits. -/
theorem fitsIn_of_range {n : ℕ} {value : BitVec 32} (h₀ : 0 ≤ value.toInt)
    (h : value.toInt ≤ 2 ^ n - 1) : FitsIn value n := by
  have hmsb : value.toInt = value.toNat := by
    rw [BitVec.toInt_eq_toNat_cond] at *
    split at h₀
    · rename_i hlt; simp [hlt]
    · have := value.isLt
      omega
  have hlt : value.toNat < 2 ^ n := by
    rw [hmsb] at h
    have hcast : ((2 ^ n : ℕ) : ℤ) = 2 ^ n := by simp
    omega
  exact fitsIn_of_lt hlt

/-- The layout with values that can be written and read back. -/
structure HidReport.Inv (r : HidReport) : Prop where
  layout : r.Layout
  stored : ∀ f ∈ r.fields, f.Stored

theorem map_range_set {fields : List HidField} {i : ℕ} {f : HidField}
    (hf : fields[i]? = some f) (value : ℕ → BitVec 32) :
    (fields.set i { f with value := value }).map HidField.range =
      fields.map HidField.range := by
  apply List.ext_getElem?
  intro k
  rw [List.getElem?_map, List.getElem?_map, List.getElem?_set]
  split
  · rename_i hik
    subst hik
    obtain ⟨hlt, hget⟩ := List.getElem?_eq_some_iff.mp hf
    simp [hlt, hget, HidField.range]
  · rfl

theorem HidReport.Layout.set {r : HidReport} (hr : r.Layout) {i : ℕ} {f : HidField}
    (hf : r.fields[i]? = some f) (value : ℕ → BitVec 32) :
    HidReport.Layout { r with fields := r.fields.set i { f with value := value } } := by
  have hmem : f ∈ r.fields := List.mem_of_getElem? hf
  refine ⟨hr.size_lt, ?_, ?_, ?_⟩
  · intro g hg
    rcases List.mem_or_eq_of_mem_set hg with hg | rfl
    · exact hr.width g hg
    · exact hr.width f hmem
  · intro g hg
    rcases List.mem_or_eq_of_mem_set hg with hg | rfl
    · exact hr.inside g hg
    · exact hr.inside f hmem
  · rw [map_range_set hf]
    exact hr.disjoint

theorem HidReport.inv_setField {r r' : HidReport} {c : SetCall} (hr : r.Inv)
    (hc : r.UnsignedInRange c) (h : r.setField c = some r') : r'.Inv := by
  obtain ⟨f, hf, htest, rfl⟩ := HidReport.setField_cases h
  refine ⟨hr.layout.set hf _, fun g hg => ?_⟩
  rcases List.mem_or_eq_of_mem_set hg with hg | rfl
  · exact hr.stored g hg
  · intro n hn
    have hold := hr.stored f (List.mem_of_getElem? hf) n hn
    by_cases hsame : n = c.offset
    · subst hsame
      simp only [update_self]
      split
      · rename_i hsigned
        exact htest hsigned
      · rename_i hsigned
        exact fitsIn_of_range (hc f hf hsigned).1 (hc f hf hsigned).2
    · simp only [update_of_ne hsame]
      exact hold

/-- A report as it is registered: no value has been set yet. -/
def HidReport.Blank (r : HidReport) : Prop := ∀ f ∈ r.fields, ∀ n, f.value n = 0

theorem HidReport.Blank.stored {r : HidReport} (h : r.Blank) : ∀ f ∈ r.fields, f.Stored := by
  intro f hf n _
  rw [h f hf n]
  split
  · have hzero : s32ton 0 f.reportSize = 0 := by simp [s32ton]
    rw [hzero]
    simp [snto32]
  · intro k _
    simp

/-- The result of `hid_set_field` for a signed value. -/
theorem hidSetField_eq_zero_iff {f : HidField} (hsigned : f.signed) {offset : ℕ}
    (hoff : offset < f.reportCount) (value : BitVec 32) :
    (hidSetField (some f) offset value).2 = 0 ↔
      value = snto32 (s32ton value f.reportSize) f.reportSize := by
  unfold hidSetField
  dsimp only
  rw [if_neg (by omega)]
  by_cases h : value = snto32 (s32ton value f.reportSize) f.reportSize
  · rw [if_neg (fun hc => hc.2 h)]
    simp [← h]
  · rw [if_pos ⟨hsigned, h⟩]
    simp [h]

/-- **Output reports decode to what was set**, for every report and every
sequence of successful `hid_set_field` calls. For a signed field
`hid_set_field` accepts exactly the values in range if, and only if, the
field is narrower than 32 bits or the value is 0. -/
theorem output_report_decodes (r r' : HidReport) (calls : List SetCall)
    (data : ℕ → BitVec 8) (hlayout : r.Layout) (hblank : r.Blank)
    (hcalls : Along HidReport.setField HidReport.UnsignedInRange r calls)
    (hset : exec HidReport.setField r calls = some r') :
    (∀ f ∈ r'.fields, f.flags &&& hidMainItemVariable ≠ 0 → ∀ n, n < f.reportCount →
      (hidInputFetchField f (r'.body (hidOutputReport r' data))).newValue n = f.value n) ∧
    ∀ (f : HidField) (offset : ℕ) (value : BitVec 32), f.signed → 1 ≤ f.reportSize →
      f.reportSize ≤ 32 → offset < f.reportCount →
      (((hidSetField (some f) offset value).2 = 0 ↔ InRange f.reportSize value) ↔
        (f.reportSize < 32 ∨ value = 0)) := by
  have hinv : r'.Inv := exec_invariant_along
    (fun _ _ _ hr hc h => HidReport.inv_setField hr hc h) ⟨hlayout, hblank.stored⟩ hcalls hset
  constructor
  · intro f hf hvar n hn
    exact fetch_hidOutputReport hinv.layout hinv.stored hf hvar hn data
  · intro f offset value hsigned hw hw' hoff
    rw [hidSetField_eq_zero_iff hsigned hoff]
    exact range_test_iff hw hw' value

/-- A signed field of the given width with one value. -/
def signedField (width : ℕ) : HidField where
  flags := hidMainItemVariable
  reportOffset := 3
  reportSize := width
  reportCount := 1
  logicalMinimum := -1
  logicalMaximum := 1
  maxusage := 0
  usageHid := fun _ => 0
  value := fun _ => 0
  newValue := fun _ => 0
  ignored := false

/-- A 5-bit field that crosses a byte boundary, set to -13. -/
theorem output_report_decodes_negative :
    ∃ r', exec HidReport.setField ⟨1, 8, [signedField 5]⟩ [⟨0, 0, -13⟩] = some r' ∧
      (∀ f ∈ r'.fields, f.flags &&& hidMainItemVariable ≠ 0 → ∀ n, n < f.reportCount →
        (hidInputFetchField f
          (r'.body (hidOutputReport r' fun _ => 0xff))).newValue n = f.value n) ∧
      ∀ (f : HidField) (offset : ℕ) (value : BitVec 32), f.signed → 1 ≤ f.reportSize →
        f.reportSize ≤ 32 → offset < f.reportCount →
        (((hidSetField (some f) offset value).2 = 0 ↔ InRange f.reportSize value) ↔
          (f.reportSize < 32 ∨ value = 0)) := by
  refine ⟨_, rfl, output_report_decodes ⟨1, 8, [signedField 5]⟩ _ [⟨0, 0, -13⟩] (fun _ => 0xff)
    ?_ ?_ (Along.cons ?_ rfl trivial) rfl⟩
  · constructor <;> simp [signedField]
  · intro f hf n
    rw [List.mem_singleton] at hf
    subst hf
    rfl
  · intro f hf hsigned
    have hf' : f = signedField 5 := by simpa using hf.symm
    exact absurd (by rw [hf']; decide) hsigned

/-- A full-width signed field refuses the value 1, which is in its range. -/
theorem setField_refuses_one :
    (signedField 32).signed ∧
      ¬ ((hidSetField (some (signedField 32)) 0 1).2 = 0 ↔
        InRange (signedField 32).reportSize 1) := by
  refine ⟨by decide, fun h => ?_⟩
  have hrange : InRange (signedField 32).reportSize 1 := inRange_32 1
  have hret : (hidSetField (some (signedField 32)) 0 1).2 = -1 := by decide
  rw [← h, hret] at hrange
  simp at hrange

end GfpDrivers.Hid
