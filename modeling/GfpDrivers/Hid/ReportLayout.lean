import GfpDrivers.Hid.Parser

/-!
Where the fields of the reports lie after a report descriptor has been parsed. A field
starts where its report ended before it, and the report grows by the size of the field, so
that fields follow one another. The numbers come from the device: what keeps the 32-bit sums
from wrapping is that the size and the count of a field are checked when they are set, and
stay checked when they are pushed and popped.
-/

namespace GfpDrivers.Hid

open GfpDrivers.Lib

/-- An item of the descriptor. For a main item it is also said whether there is memory for a
report and for a field. -/
inductive HidAct where
  | global (tag : GlobalTag) (item : HidItem)
  | local_ (tag : LocalTag) (item : HidItem)
  | main (tag : MainTag) (item : HidItem) (allocReport allocField : Bool)

/-- The next item, if it is parsed with success. -/
def hidStep (fuel : ℕ) (p : HidParser) : HidAct → Option HidParser
  | .global tag item => if (hidParserGlobal p tag item).2 = 0 then some (hidParserGlobal p tag item).1 else none
  | .local_ tag item => (hidParserLocal fuel p tag item).bind fun res => if res.2 = 0 then some res.1 else none
  | .main tag item allocReport allocField =>
      if (hidParserMain p tag item allocReport allocField).2 = 0 then
        some (hidParserMain p tag item allocReport allocField).1
      else none

/-- The parser of a device without reports, with some collections open. -/
def HidParser.start (collectionStack : List ℕ) (collection : ℕ → HidCollection) : HidParser where
  global := HidGlobal.zero
  globalStack := []
  local_ := HidLocal.zero
  collectionStack := collectionStack
  device := ⟨collection, fun _ => false, fun _ _ => none⟩

/-! ### The invariant -/

def ParsedField.bitEnd (f : ParsedField) : ℕ := f.reportOffset + f.reportSize * f.reportCount

/-- The fields of a report follow one another inside it, and each has a usage for every one
of its values. -/
structure ParsedReport.Laid (r : ParsedReport) : Prop where
  size_le : r.size.toNat ≤ (HID_MAX_BUFFER_SIZE - 1) * 8
  ordered : r.field.Pairwise fun f g => f.bitEnd ≤ g.reportOffset
  inside : ∀ f ∈ r.field, f.bitEnd ≤ r.size.toNat
  length_le : r.field.length ≤ HID_MAX_FIELDS
  backed : ∀ f ∈ r.field, f.reportCount ≤ f.maxusage ∧ 1 ≤ f.maxusage

/-- The size and the count of the fields to come are within their limits. -/
def HidGlobal.Checked (g : HidGlobal) : Prop := g.reportSize.toNat ≤ 256 ∧ g.reportCount.toNat ≤ HID_MAX_USAGES

def HidDevice.Laid (device : HidDevice) : Prop :=
  ∀ type id r, device.reportIdHash type id = some r → r.Laid

structure HidParser.Inv (p : HidParser) : Prop where
  global : p.global.Checked
  stack : ∀ g ∈ p.globalStack, g.Checked
  device : p.device.Laid

/-- What is parsed leaves the reports and the global items alone. -/
def HidParser.SameOutside (p q : HidParser) : Prop :=
  q.global = p.global ∧ q.globalStack = p.globalStack ∧ q.device = p.device

variable {p q : HidParser} {item : HidItem} {type : ReportType} {flags : BitVec 32} {allocReport allocField : Bool}

theorem HidParser.SameOutside.trans {r : HidParser} (h : p.SameOutside q) (h' : q.SameOutside r) : p.SameOutside r :=
  ⟨h'.1.trans h.1, h'.2.1.trans h.2.1, h'.2.2.trans h.2.2⟩

theorem HidParser.Inv.sameOutside (hp : p.Inv) (h : p.SameOutside q) : q.Inv where
  global := h.1 ▸ hp.global
  stack := h.2.1 ▸ hp.stack
  device := h.2.2 ▸ hp.device

theorem HidParser.inv_start (stack : List ℕ) (collection : ℕ → HidCollection) :
    (HidParser.start stack collection).Inv where
  global := ⟨Nat.zero_le _, Nat.zero_le _⟩
  stack := fun g hg => by simp [HidParser.start] at hg
  device := fun type id r hr => by simp [HidParser.start] at hr

/-! ### Global and local items -/

theorem hidParserGlobal_inv (tag : GlobalTag) (hp : p.Inv) (h : (hidParserGlobal p tag item).2 = 0) :
    (hidParserGlobal p tag item).1.Inv := by
  obtain ⟨⟨hsize, hcount⟩, hstack, hdevice⟩ := hp
  cases tag with
  | push =>
    simp only [hidParserGlobal] at h ⊢
    split_ifs at h ⊢ with hfull
    · simp at h
    refine ⟨⟨hsize, hcount⟩, fun g hg => ?_, hdevice⟩
    obtain rfl | hg := List.mem_cons.1 hg
    · exact ⟨hsize, hcount⟩
    · exact hstack g hg
  | pop =>
    cases hs : p.globalStack with
    | nil => simp [hidParserGlobal, hs] at h
    | cons top rest =>
      rw [hs] at hstack
      simp only [hidParserGlobal, hs]
      exact ⟨hstack top (by simp), fun g hg => hstack g (by simp [hg]), hdevice⟩
  | reportSize =>
    simp only [hidParserGlobal] at h ⊢
    split_ifs at h with hbig
    exact ⟨⟨by simpa using hbig, hcount⟩, hstack, hdevice⟩
  | reportCount =>
    simp only [hidParserGlobal] at h ⊢
    split_ifs at h with hbig
    exact ⟨⟨hsize, by simpa using hbig⟩, hstack, hdevice⟩
  | unknown => simp [hidParserGlobal] at h
  | _ => exact ⟨⟨hsize, hcount⟩, hstack, hdevice⟩

theorem completeUsage_same (index : ℕ) : p.SameOutside (completeUsage p index) := ⟨rfl, rfl, rfl⟩

theorem hidAddUsage_same (usage : BitVec 32) (size : ℕ) : p.SameOutside (hidAddUsage p usage size).1 := by
  dsimp only [hidAddUsage]
  split_ifs <;> exact ⟨rfl, rfl, rfl⟩

theorem addUsages_same {data n : BitVec 32} {size fuel : ℕ} {res : HidParser × ℤ}
    (h : addUsages data size fuel n p = some res) : p.SameOutside res.1 := by
  induction fuel generalizing n p with
  | zero => cases h
  | succ fuel ih =>
    have hone := hidAddUsage_same (p := p) n size
    simp only [addUsages] at h
    split_ifs at h with hgo hret
    · exact Option.some.inj h ▸ hone
    · exact hone.trans (ih h)
    · exact Option.some.inj h ▸ ⟨rfl, rfl, rfl⟩

theorem hidParserLocal_same {fuel : ℕ} {res : HidParser × ℤ} (tag : LocalTag)
    (h : hidParserLocal fuel p tag item = some res) : p.SameOutside res.1 := by
  cases tag with
  | delimiter =>
    simp only [hidParserLocal] at h
    split_ifs at h <;> exact Option.some.inj h ▸ ⟨rfl, rfl, rfl⟩
  | usage =>
    simp only [hidParserLocal] at h
    split_ifs at h
    · exact Option.some.inj h ▸ ⟨rfl, rfl, rfl⟩
    · exact Option.some.inj h ▸ hidAddUsage_same _ _
  | usageMinimum =>
    simp only [hidParserLocal] at h
    split_ifs at h <;> exact Option.some.inj h ▸ ⟨rfl, rfl, rfl⟩
  | usageMaximum =>
    simp only [hidParserLocal] at h
    split_ifs at h
    · exact Option.some.inj h ▸ ⟨rfl, rfl, rfl⟩
    · exact Option.some.inj h ▸ ⟨rfl, rfl, rfl⟩
    · exact addUsages_same h
    · exact addUsages_same h
  | unknown => exact Option.some.inj h ▸ ⟨rfl, rfl, rfl⟩

theorem hidConcatenateLastUsagePage_same : p.SameOutside (hidConcatenateLastUsagePage p) := by
  have hloop : ∀ (page : BitVec 32) (i : ℕ) (p : HidParser), p.SameOutside (concatenateFrom page i p) := by
    intro page i
    induction i with
    | zero => exact fun p => ⟨rfl, rfl, rfl⟩
    | succ i ih =>
      intro p
      unfold concatenateFrom
      split_ifs
      · exact ih p
      · exact ⟨rfl, rfl, rfl⟩
      · exact (completeUsage_same i).trans (ih _)
  exact hloop _ _ _

/-! ### Main items -/

theorem HidDevice.Laid.setReport {device : HidDevice} (hd : device.Laid) {r : ParsedReport} (hr : r.Laid)
    (type : ReportType) (id : BitVec 32) : (device.setReport type id r).Laid := by
  intro type' id' r' h
  simp only [HidDevice.setReport, Function.update_apply] at h
  split_ifs at h with htype
  · subst htype
    rw [Function.update_apply] at h
    split_ifs at h with hid
    · exact Option.some.inj h ▸ hr
    · exact hd _ _ _ h
  · exact hd _ _ _ h

theorem laid_new (type : ReportType) (id application : BitVec 32) : (ParsedReport.mk id type application 0 []).Laid where
  size_le := Nat.zero_le _
  ordered := List.Pairwise.nil
  inside := fun _ hf => absurd hf List.not_mem_nil
  length_le := Nat.zero_le _
  backed := fun _ hf => absurd hf List.not_mem_nil

theorem hidRegisterReport_laid (type : ReportType) {device : HidDevice} (hd : device.Laid)
    (id application : BitVec 32) (alloc : Bool) :
    (hidRegisterReport device type id application alloc).1.Laid ∧
      ∀ r, (hidRegisterReport device type id application alloc).2 = some r → r.Laid := by
  by_cases hid : HID_MAX_IDS ≤ id.toNat
  · rw [hidRegisterReport, if_pos hid]
    exact ⟨hd, fun r h => by simp at h⟩
  cases hr : device.reportIdHash type id with
  | some report =>
    simp only [hidRegisterReport, if_neg hid, hr]
    exact ⟨hd, fun r h => Option.some.inj h ▸ hd type id report hr⟩
  | none =>
    simp only [hidRegisterReport, if_neg hid, hr]
    cases alloc with
    | false => exact ⟨hd, fun r h => by simp at h⟩
    | true =>
      have hnew := hd.setReport (laid_new type id application) type id
      exact ⟨fun type' id' r h => hnew type' id' r h, fun r h => Option.some.inj h ▸ laid_new type id application⟩

/-- The sums and products that the parser computes next stay below `2 ^ 32`. -/
theorem HidGlobal.Checked.no_wrap {g : HidGlobal} (hg : g.Checked) {r : ParsedReport} (hr : r.Laid) :
    r.size.toNat + g.reportSize.toNat * g.reportCount.toNat < 2 ^ 32 := by
  have hmul : g.reportSize.toNat * g.reportCount.toNat ≤ 256 * HID_MAX_USAGES := Nat.mul_le_mul hg.1 hg.2
  have hsize := hr.size_le
  rw [HID_MAX_BUFFER_SIZE] at hsize
  rw [HID_MAX_USAGES] at hmul
  omega

theorem HidGlobal.Checked.toNat_size {g : HidGlobal} (hg : g.Checked) {r : ParsedReport} (hr : r.Laid) :
    (r.size + g.reportSize * g.reportCount).toNat = r.size.toNat + g.reportSize.toNat * g.reportCount.toNat := by
  have hsum := hg.no_wrap hr
  rw [BitVec.toNat_add, BitVec.toNat_mul, Nat.mod_eq_of_lt (Nat.lt_of_le_of_lt (Nat.le_add_left _ _) hsum),
    Nat.mod_eq_of_lt hsum]

theorem ParsedReport.Laid.grow {r : ParsedReport} (hr : r.Laid) {g : HidGlobal} (hg : g.Checked)
    (hsize : ¬(HID_MAX_BUFFER_SIZE - 1) * 8 < (r.size + g.reportSize * g.reportCount).toNat) :
    ({ r with size := r.size + g.reportSize * g.reportCount } : ParsedReport).Laid where
  size_le := Nat.not_lt.1 hsize
  ordered := hr.ordered
  inside := fun f hf => by
    rw [hg.toNat_size hr]
    exact (hr.inside f hf).trans (Nat.le_add_right _ _)
  length_le := hr.length_le
  backed := hr.backed

theorem ParsedReport.Laid.append {r : ParsedReport} (hr : r.Laid) {f : ParsedField} {size : BitVec 32}
    (hgrow : ({ r with size := size } : ParsedReport).Laid) (hlen : r.field.length ≠ HID_MAX_FIELDS)
    (hoff : f.reportOffset = r.size.toNat) (hend : f.bitEnd ≤ size.toNat) (hcount : f.reportCount ≤ f.maxusage)
    (hone : 1 ≤ f.maxusage) : ({ r with size := size, field := r.field ++ [f] } : ParsedReport).Laid where
  size_le := hgrow.size_le
  ordered := by
    refine List.pairwise_append.2 ⟨hr.ordered, List.pairwise_singleton _ _, fun a ha b hb => ?_⟩
    rw [List.mem_singleton.1 hb, hoff]
    exact hr.inside a ha
  inside := fun a ha => by
    obtain ha | ha := List.mem_append.1 ha
    · exact hgrow.inside a ha
    · exact List.mem_singleton.1 ha ▸ hend
  length_le := by
    have hle := hr.length_le
    simp only [List.length_append, List.length_singleton]
    omega
  backed := fun a ha => by
    obtain ha | ha := List.mem_append.1 ha
    · exact hr.backed a ha
    · exact List.mem_singleton.1 ha ▸ ⟨hcount, hone⟩

theorem hidAddField_inv (hp : p.Inv) (h : (hidAddField p type flags allocReport allocField).2 = 0) :
    (hidAddField p type flags allocReport allocField).1.Inv := by
  obtain ⟨hdevice, hreport⟩ :=
    hidRegisterReport_laid type hp.device p.global.reportId (hidLookupCollection p .application) allocReport
  unfold hidAddField at h ⊢
  dsimp only at h ⊢
  cases hreg : hidRegisterReport p.device type p.global.reportId (hidLookupCollection p .application) allocReport with
  | mk device report =>
  rw [hreg] at hdevice hreport
  cases report with
  | none => simp [hreg] at h
  | some r =>
    have hr := hreport r rfl
    simp only [hreg] at h ⊢
    split_ifs at h ⊢ with hrange hsize hpad hfield
    · simp at h
    · simp at h
    · exact ⟨hp.global, hp.stack, hdevice.setReport (hr.grow hp.global hsize) _ _⟩
    · have hlen : r.field.length ≠ HID_MAX_FIELDS := fun hlen => by simp [hidRegisterField, hlen] at hfield
      have hone : 1 ≤ max p.local_.usageIndex p.global.reportCount.toNat :=
        (Nat.one_le_iff_ne_zero.2 hpad).trans (Nat.le_max_left _ _)
      have hnew := hr.append (f := newField p type flags (hidLookupCollection p .application) r.size
        (max p.local_.usageIndex p.global.reportCount.toNat)) (hr.grow hp.global hsize) hlen rfl
        (hp.global.toNat_size hr).ge (Nat.le_max_right _ _) hone
      exact ⟨hp.global, hp.stack, hdevice.setReport hnew _ _⟩
    · exact ⟨hp.global, hp.stack, hdevice.setReport (hr.grow hp.global hsize) _ _⟩

theorem hidParserMain_inv (tag : MainTag) (hp : p.Inv) (h : (hidParserMain p tag item allocReport allocField).2 = 0) :
    (hidParserMain p tag item allocReport allocField).1.Inv := by
  have hcat := hp.sameOutside hidConcatenateLastUsagePage_same
  cases tag with
  | input => exact (hidAddField_inv hcat h).sameOutside ⟨rfl, rfl, rfl⟩
  | output => exact (hidAddField_inv hcat h).sameOutside ⟨rfl, rfl, rfl⟩
  | feature => exact (hidAddField_inv hcat h).sameOutside ⟨rfl, rfl, rfl⟩
  | unknown => exact hcat.sameOutside ⟨rfl, rfl, rfl⟩

/-! ### Runs -/

theorem hidStep_inv {fuel : ℕ} {a : HidAct} (hp : p.Inv) (h : hidStep fuel p a = some q) : q.Inv := by
  cases a with
  | global tag item =>
    simp only [hidStep] at h
    split_ifs at h with hret
    exact Option.some.inj h ▸ hidParserGlobal_inv tag hp hret
  | local_ tag item =>
    obtain ⟨res, hres, h⟩ := Option.bind_eq_some_iff.1 h
    split_ifs at h
    exact Option.some.inj h ▸ hp.sameOutside (hidParserLocal_same tag hres)
  | main tag item allocReport allocField =>
    simp only [hidStep] at h
    split_ifs at h with hret
    exact Option.some.inj h ▸ hidParserMain_inv tag hp hret

/-- After any items that are parsed with success, every report is laid out as it should be,
and the sum that the next field would need does not wrap for any report. -/
theorem hidParser_reportsLaid (fuel : ℕ) (stack : List ℕ) (collection : ℕ → HidCollection) (items : List HidAct)
    (p : HidParser) (hrun : exec (hidStep fuel) (HidParser.start stack collection) items = some p) :
    (∀ type id r, p.device.reportIdHash type id = some r → r.Laid ∧
      r.size.toNat + p.global.reportSize.toNat * p.global.reportCount.toNat < 2 ^ 32 ∧
      (r.size + p.global.reportSize * p.global.reportCount).toNat =
        r.size.toNat + p.global.reportSize.toNat * p.global.reportCount.toNat) ∧
    p.global.reportSize.toNat * p.global.reportCount.toNat < 2 ^ 32 := by
  have hp : p.Inv := exec_invariant_of_forall (P := fun _ => True) (fun _ _ _ hs _ => hidStep_inv hs)
    (HidParser.inv_start stack collection) (fun _ _ => trivial) hrun
  refine ⟨fun type id r hr => ?_, ?_⟩
  · have hlaid := hp.device type id r hr
    exact ⟨hlaid, hp.global.no_wrap hlaid, hp.global.toNat_size hlaid⟩
  · have hsum := hp.global.no_wrap (laid_new .input 0 0)
    exact Nat.lt_of_le_of_lt (Nat.le_add_left _ _) hsum

/-- Two bytes, one byte of padding and one more byte. -/
def paddedItems : List HidAct :=
  [.global .reportSize ⟨1, 8⟩, .global .reportCount ⟨1, 2⟩, .local_ .usage ⟨1, 0x30⟩, .main .input ⟨1, 2⟩ true true,
    .global .reportCount ⟨1, 1⟩, .main .input ⟨1, 3⟩ true true, .local_ .usage ⟨1, 0x32⟩, .main .input ⟨1, 2⟩ true true]

theorem hidParser_reportsLaid_padded : ∃ p,
    exec (hidStep 1) (HidParser.start [] fun _ => ⟨.application, 0⟩) paddedItems = some p ∧
    ((p.device.reportIdHash .input 0).map fun r => (r.size, r.field.map (·.reportOffset))) = some (32, [0, 24]) ∧
    ∀ r, p.device.reportIdHash .input 0 = some r → r.Laid := by
  refine ⟨_, rfl, rfl, fun r hr => ?_⟩
  exact ((hidParser_reportsLaid 1 [] (fun _ => ⟨.application, 0⟩) paddedItems _ rfl).1 .input 0 r hr).1

end GfpDrivers.Hid
