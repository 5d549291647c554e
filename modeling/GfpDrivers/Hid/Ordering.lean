import GfpDrivers.Hid.ArrayField
import GfpDrivers.Lib.Priority

/-!
The order in which the values of an input report are processed. `hid_report_process_ordering`
makes a list of all values of variable fields and of all array fields by their priority, and
`hid_process_report` follows it; without such a list it goes field by field.

A field is in no other field's way, so that only the order of the events differs.
-/

namespace GfpDrivers.Hid

open GfpDrivers.Lib List

/-- `field` is the number of the field in its report. -/
structure HidFieldEntry where
  field : ℕ
  index : ℕ
  priority : BitVec 32
deriving DecidableEq

/-- A report with what orders its fields: `usagesPriorities a i` is
`field[a]->usages_priorities[i]`. -/
structure InputReport where
  fields : List HidField
  usagesPriorities : ℕ → ℕ → BitVec 32
  fieldEntryList : List HidFieldEntry

/-- `field->flags & HID_MAIN_ITEM_VARIABLE` -/
def HidField.isVariable (f : HidField) : Bool := decide (f.flags &&& hidMainItemVariable ≠ 0)

/-- The walk of `__hid_insert_field_entry`: before the first entry of a lower priority. -/
def insertEntry (entry : HidFieldEntry) : List HidFieldEntry → List HidFieldEntry
  | [] => [entry]
  | next :: rest =>
      if next.priority.toInt < entry.priority.toInt then entry :: next :: rest else next :: insertEntry entry rest

/-- `__hid_insert_field_entry` -/
def hidInsertFieldEntry (r : InputReport) (field usageIndex : ℕ) : InputReport :=
  { r with
    fieldEntryList := insertEntry ⟨field, usageIndex, r.usagesPriorities field usageIndex⟩ r.fieldEntryList }

/-- `hid_report_process_ordering`; `alloc` says whether there is memory for the entries. -/
def hidReportProcessOrdering (r : InputReport) (alloc : Bool) : InputReport :=
  if alloc then
    r.fields.zipIdx.foldl
      (fun r field =>
        if field.1.isVariable then
          (List.range field.1.reportCount).foldl (fun r u => hidInsertFieldEntry r field.2 u) r
        else hidInsertFieldEntry r field.2 0)
      r
  else r

/-- `hid_input_var_field` -/
def hidInputVarField (index : ℕ) (f : HidField) : HidField × List HidEvent :=
  (f.store, (List.range f.reportCount).map fun n => ⟨index, n, f.newValue n⟩)

/-- One turn of the loop over the list of entries. -/
def processEntry (s : List HidField × List HidEvent) (entry : HidFieldEntry) : List HidField × List HidEvent :=
  match s.1[entry.field]? with
  | none => s
  | some f =>
      if f.isVariable then (s.1, s.2 ++ [⟨entry.field, entry.index, f.newValue entry.index⟩])
      else (s.1.set entry.field (hidInputArrayField entry.field f).1, s.2 ++ (hidInputArrayField entry.field f).2)

/-- One turn of the loop over the fields when there is no list. -/
def processField (index : ℕ) (f : HidField) : HidField × List HidEvent :=
  if f.isVariable then hidInputVarField index f else hidInputArrayField index f

/-- `hid_process_report` -/
def hidProcessReport (r : InputReport) (data : ℕ → BitVec 8) : InputReport × List HidEvent :=
  let fields := r.fields.map fun f => hidInputFetchField f data
  if r.fieldEntryList ≠ [] then
    let res := r.fieldEntryList.foldl processEntry (fields, [])
    ({ r with fields := res.1.map fun f => if f.isVariable then f.store else f }, res.2)
  else
    let res := fields.zipIdx.map fun field => processField field.2 field.1
    ({ r with fields := res.map Prod.fst }, res.flatMap Prod.snd)

/-! ### The list -/

/-- The entries that are made for a field. -/
def fieldEntries (priorities : ℕ → ℕ → BitVec 32) (field : HidField × ℕ) : List HidFieldEntry :=
  if field.1.isVariable then
    (List.range field.1.reportCount).map fun u => ⟨field.2, u, priorities field.2 u⟩
  else [⟨field.2, 0, priorities field.2 0⟩]

/-- The entries in the order they are made. -/
def allEntries (priorities : ℕ → ℕ → BitVec 32) (fields : List HidField) : List HidFieldEntry :=
  fields.zipIdx.flatMap (fieldEntries priorities)

/-- What the list is to contain. -/
def InputReport.HasEntry (r : InputReport) (e : HidFieldEntry) : Prop :=
  e.priority = r.usagesPriorities e.field e.index ∧ ∃ f, r.fields[e.field]? = some f ∧
    if f.isVariable then e.index < f.reportCount else e.index = 0

/-- The order of the fields, and of the values within a field. -/
def HidFieldEntry.earlier (a b : HidFieldEntry) : Prop := a.field < b.field ∨ a.field = b.field ∧ a.index < b.index

def entryPriority (e : HidFieldEntry) : ℤ := e.priority.toInt

theorem insertEntry_eq (entry : HidFieldEntry) (list : List HidFieldEntry) :
    insertEntry entry list = insertByPriority entryPriority entry list := by
  induction list with
  | nil => rfl
  | cons next rest ih =>
    rw [insertEntry, ih]
    rfl

theorem foldl_hidInsertFieldEntry (field : ℕ) (us : List ℕ) (r : InputReport) :
    us.foldl (fun r u => hidInsertFieldEntry r field u) r =
      { r with
        fieldEntryList := (us.map fun u => HidFieldEntry.mk field u (r.usagesPriorities field u)).foldl
          (fun list e => insertByPriority entryPriority e list) r.fieldEntryList } := by
  induction us generalizing r with
  | nil => rfl
  | cons u us ih =>
    rw [foldl_cons, ih, map_cons, foldl_cons, hidInsertFieldEntry, insertEntry_eq]

theorem hidReportProcessOrdering_eq (r : InputReport) :
    hidReportProcessOrdering r true =
      { r with
        fieldEntryList := (allEntries r.usagesPriorities r.fields).foldl
          (fun list e => insertByPriority entryPriority e list) r.fieldEntryList } := by
  have hloop : ∀ (fields : List (HidField × ℕ)) (r : InputReport),
      fields.foldl
          (fun r field =>
            if field.1.isVariable then
              (List.range field.1.reportCount).foldl (fun r u => hidInsertFieldEntry r field.2 u) r
            else hidInsertFieldEntry r field.2 0) r =
        { r with
          fieldEntryList := (fields.flatMap (fieldEntries r.usagesPriorities)).foldl
            (fun list e => insertByPriority entryPriority e list) r.fieldEntryList } := by
    intro fields
    induction fields with
    | nil => exact fun r => rfl
    | cons field fields ih =>
      intro r
      rw [foldl_cons, ih, flatMap_cons, foldl_append, fieldEntries]
      split_ifs with hvar
      · rw [foldl_hidInsertFieldEntry]
      · rw [hidInsertFieldEntry, insertEntry_eq]
        rfl
  exact hloop r.fields.zipIdx r

theorem mem_allEntries {priorities : ℕ → ℕ → BitVec 32} {fields : List HidField} {e : HidFieldEntry} :
    e ∈ allEntries priorities fields ↔ e.priority = priorities e.field e.index ∧
      ∃ f, fields[e.field]? = some f ∧ if f.isVariable then e.index < f.reportCount else e.index = 0 := by
  simp only [allEntries, mem_flatMap, fieldEntries]
  constructor
  · rintro ⟨⟨f, a⟩, hfield, he⟩
    have hget := mem_zipIdx_iff_getElem?.1 hfield
    split_ifs at he with hvar
    · obtain ⟨u, hu, rfl⟩ := mem_map.1 he
      exact ⟨rfl, f, hget, by rw [if_pos hvar]; exact mem_range.1 hu⟩
    · obtain rfl := mem_singleton.1 he
      exact ⟨rfl, f, hget, by rw [if_neg hvar]⟩
  · obtain ⟨field, index, priority⟩ := e
    rintro ⟨hpriority, f, hget, hindex⟩
    dsimp only at hpriority hget hindex
    subst hpriority
    refine ⟨(f, field), mem_zipIdx_iff_getElem?.2 hget, ?_⟩
    split_ifs at hindex ⊢ with hvar
    · exact mem_map.2 ⟨index, mem_range.2 hindex, rfl⟩
    · subst hindex
      exact mem_singleton_self _

theorem pairwise_allEntries (priorities : ℕ → ℕ → BitVec 32) (fields : List HidField) :
    (allEntries priorities fields).Pairwise HidFieldEntry.earlier := by
  have hfield : ∀ field : HidField × ℕ, ∀ e ∈ fieldEntries priorities field, e.field = field.2 := by
    intro field e he
    unfold fieldEntries at he
    split_ifs at he
    · obtain ⟨u, -, rfl⟩ := mem_map.1 he
      rfl
    · obtain rfl := mem_singleton.1 he
      rfl
  refine pairwise_flatMap.2 ⟨fun field _ => ?_, ?_⟩
  · unfold fieldEntries
    split_ifs
    · exact pairwise_map.2 (pairwise_lt_range.imp fun h => .inr ⟨rfl, h⟩)
    · exact pairwise_singleton _ _
  · have hlt : (fields.zipIdx.map Prod.snd).Pairwise (· < ·) := by
      rw [zipIdx_map_snd]
      exact pairwise_lt_range'
    refine (pairwise_map.1 hlt).imp fun {field field'} h e he e' he' => .inl ?_
    rw [hfield field e he, hfield field' e' he']
    exact h

/-! ### The events -/

/-- The events of an entry, from the fields as they were fetched. -/
def entryEvents (fields : List HidField) (entry : HidFieldEntry) : List HidEvent :=
  match fields[entry.field]? with
  | none => []
  | some f =>
      if f.isVariable then [⟨entry.field, entry.index, f.newValue entry.index⟩]
      else (hidInputArrayField entry.field f).2

/-- Two entries that are not both for one array field. -/
def Apart (fields : List HidField) (a b : HidFieldEntry) : Prop :=
  a.field = b.field → ∀ f, fields[a.field]? = some f → f.isVariable = true

/-- What the entries of a list make of the fields: the array fields among them are done. -/
def arraysDone (es : List HidFieldEntry) (fields : List HidField) : List HidField :=
  fields.mapIdx fun a f => if f.isVariable = false ∧ a ∈ es.map HidFieldEntry.field then (hidInputArrayField a f).1 else f

theorem hidInputArrayField_isVariable (index : ℕ) (f : HidField) :
    (hidInputArrayField index f).1.isVariable = f.isVariable := by
  unfold hidInputArrayField
  split_ifs <;> rfl

theorem arraysDone_getElem? (es : List HidFieldEntry) (fields : List HidField) (a : ℕ) :
    (arraysDone es fields)[a]? = fields[a]?.map fun f =>
      if f.isVariable = false ∧ a ∈ es.map HidFieldEntry.field then (hidInputArrayField a f).1 else f := by
  rw [arraysDone, List.getElem?_mapIdx]

theorem foldl_processEntry (es : List HidFieldEntry) (fields : List HidField) (events : List HidEvent)
    (hes : es.Pairwise (Apart fields)) :
    es.foldl processEntry (fields, events) = (arraysDone es fields, events ++ es.flatMap (entryEvents fields)) := by
  induction es generalizing fields events with
  | nil =>
    have hsame : arraysDone [] fields = fields := by
      apply ext_getElem?
      intro a
      simp [arraysDone_getElem?]
    rw [hsame]
    simp
  | cons e es ih =>
    obtain ⟨he, hes⟩ := pairwise_cons.1 hes
    rw [foldl_cons, flatMap_cons]
    cases hget : fields[e.field]? with
    | none =>
      have hstep : processEntry (fields, events) e = (fields, events) := by simp [processEntry, hget]
      have hnone : entryEvents fields e = [] := by simp [entryEvents, hget]
      rw [hstep, ih fields events hes, hnone, nil_append]
      refine Prod.ext ?_ rfl
      apply ext_getElem?
      intro a
      rw [arraysDone_getElem?, arraysDone_getElem?]
      by_cases ha : a = e.field
      · rw [ha, hget]
        rfl
      · simp [ha]
    | some f =>
    cases hvar : f.isVariable with
    | true =>
      have hstep : processEntry (fields, events) e = (fields, events ++ entryEvents fields e) := by
        simp [processEntry, entryEvents, hget, hvar]
      rw [hstep, ih fields _ hes, append_assoc]
      refine Prod.ext ?_ rfl
      apply ext_getElem?
      intro a
      rw [arraysDone_getElem?, arraysDone_getElem?]
      by_cases ha : a = e.field
      · rw [ha, hget]
        simp [hvar]
      · simp [ha]
    | false =>
      -- the field is done now, and no later entry is for it
      have hother : ∀ e' ∈ es, e'.field ≠ e.field := fun e' he' h => by
        have hcontra := he e' he' h.symm f hget
        rw [hvar] at hcontra
        exact absurd hcontra (by decide)
      have hstep : processEntry (fields, events) e =
          (fields.set e.field (hidInputArrayField e.field f).1, events ++ entryEvents fields e) := by
        simp [processEntry, entryEvents, hget, hvar]
      have hset : ∀ a, a ≠ e.field → (fields.set e.field (hidInputArrayField e.field f).1)[a]? = fields[a]? :=
        fun a ha => List.getElem?_set_ne (Ne.symm ha)
      have hlen : e.field < fields.length := (List.getElem?_eq_some_iff.1 hget).1
      have hself : (fields.set e.field (hidInputArrayField e.field f).1)[e.field]? =
          some (hidInputArrayField e.field f).1 := List.getElem?_set_self hlen
      have hes' : es.Pairwise (Apart (fields.set e.field (hidInputArrayField e.field f).1)) :=
        hes.imp_of_mem fun {a b} ha _ h hab g hg => h hab g (hset a.field (hother a ha) ▸ hg)
      have hevents : es.flatMap (entryEvents (fields.set e.field (hidInputArrayField e.field f).1)) =
          es.flatMap (entryEvents fields) := by
        refine flatMap_congr fun e' he' => ?_
        rw [entryEvents, entryEvents, hset e'.field (hother e' he')]
      rw [hstep, ih _ _ hes', hevents, append_assoc]
      refine Prod.ext ?_ rfl
      apply ext_getElem?
      intro a
      rw [arraysDone_getElem?, arraysDone_getElem?]
      by_cases ha : a = e.field
      · have hlast : e.field ∉ es.map HidFieldEntry.field := fun hmem => by
          obtain ⟨e', he', h⟩ := mem_map.1 hmem
          exact hother e' he' h
        rw [ha, hself, hget]
        simp [hvar, hlast]
      · rw [hset a ha]
        simp [ha]

/-- Entries stay the same when only values of the fields change. -/
theorem allEntries_map (priorities : ℕ → ℕ → BitVec 32) (fields : List HidField) {g : HidField → HidField}
    (hg : ∀ f, (g f).isVariable = f.isVariable ∧ (g f).reportCount = f.reportCount) :
    allEntries priorities (fields.map g) = allEntries priorities fields := by
  rw [allEntries, allEntries, zipIdx_map, flatMap_map]
  refine flatMap_congr fun field _ => ?_
  simp only [fieldEntries, Prod.map_fst, Prod.map_snd, id_eq, (hg field.1).1, (hg field.1).2]

theorem apart_allEntries (priorities : ℕ → ℕ → BitVec 32) (fields : List HidField) :
    (allEntries priorities fields).Pairwise (Apart fields) := by
  refine (pairwise_allEntries priorities fields).imp_of_mem fun {a b} ha hb h hab f hf => ?_
  by_contra hvar
  obtain ⟨-, g, hg, hindex⟩ := mem_allEntries.1 ha
  obtain ⟨-, g', hg', hindex'⟩ := mem_allEntries.1 hb
  obtain rfl : f = g := Option.some.inj (hf.symm.trans hg)
  obtain rfl : f = g' := Option.some.inj ((hab ▸ hf).symm.trans hg')
  rw [if_neg hvar] at hindex hindex'
  obtain h | ⟨-, h⟩ := h <;> omega

/-- What is left of a field after a report. -/
def HidField.done (f : HidField) : HidField := if f.isVariable = false ∧ f.ignored then f else f.store

theorem processField_fst (index : ℕ) (f : HidField) : (processField index f).1 = f.done := by
  unfold processField hidInputVarField hidInputArrayField HidField.done
  split_ifs <;> simp_all

theorem hidProcessReport_plain {r : InputReport} (hlist : r.fieldEntryList = []) (priorities : ℕ → ℕ → BitVec 32)
    (data : ℕ → BitVec 8) :
    hidProcessReport r data =
      ({ r with fields := (r.fields.map fun f => hidInputFetchField f data).map HidField.done },
        (allEntries priorities (r.fields.map fun f => hidInputFetchField f data)).flatMap
          (entryEvents (r.fields.map fun f => hidInputFetchField f data))) := by
  rw [hidProcessReport, if_neg (not_not.2 hlist)]
  generalize (r.fields.map fun f => hidInputFetchField f data) = fields
  have hfields : (fields.zipIdx.map fun field => processField field.2 field.1).map Prod.fst = fields.map HidField.done := by
    rw [map_map, ← map_congr_left (fun field _ => (processField_fst field.2 field.1).symm)]
    rw [show (fun field : HidField × ℕ => field.1.done) = HidField.done ∘ Prod.fst from rfl, ← map_map,
      zipIdx_map_fst]
  have hevents : (fields.zipIdx.map fun field => processField field.2 field.1).flatMap Prod.snd =
      (allEntries priorities fields).flatMap (entryEvents fields) := by
    rw [flatMap_map, allEntries, flatMap_assoc]
    refine flatMap_congr fun field hfield => ?_
    have hget := mem_zipIdx_iff_getElem?.1 hfield
    unfold fieldEntries processField
    split_ifs with hvar
    · rw [flatMap_map]
      simp [entryEvents, hget, hvar, hidInputVarField, map_eq_flatMap]
    · simp [entryEvents, hget, hvar]
  dsimp only
  rw [hfields, hevents]

theorem hidProcessReport_of_perm {r : InputReport} {priorities : ℕ → ℕ → BitVec 32}
    (hlist : r.fieldEntryList.Perm (allEntries priorities r.fields)) (data : ℕ → BitVec 8) :
    (hidProcessReport r data).1 =
        { r with fields := (r.fields.map fun f => hidInputFetchField f data).map HidField.done } ∧
      (hidProcessReport r data).2.Perm
        ((allEntries priorities (r.fields.map fun f => hidInputFetchField f data)).flatMap
          (entryEvents (r.fields.map fun f => hidInputFetchField f data))) := by
  by_cases hnil : r.fieldEntryList = []
  · rw [hidProcessReport_plain hnil priorities]
    exact ⟨rfl, List.Perm.refl _⟩
  rw [hidProcessReport, if_pos hnil]
  rw [← allEntries_map priorities r.fields (g := fun f => hidInputFetchField f data) fun f => ⟨rfl, rfl⟩] at hlist
  generalize (r.fields.map fun f => hidInputFetchField f data) = fields at hlist ⊢
  have hsymm : ∀ {a b : HidFieldEntry}, Apart fields a b → Apart fields b a := fun h hab f hf => h hab.symm f (hab ▸ hf)
  have hapart := (hlist.pairwise_iff hsymm).2 (apart_allEntries priorities fields)
  dsimp only
  rw [foldl_processEntry _ fields [] hapart, nil_append]
  refine ⟨?_, hlist.flatMap_right _⟩
  have hfields : ((arraysDone r.fieldEntryList fields).map fun f => if f.isVariable then f.store else f) =
      fields.map HidField.done := by
    apply ext_getElem?
    intro a
    rw [List.getElem?_map, arraysDone_getElem?, List.getElem?_map]
    cases hget : fields[a]? with
    | none => rfl
    | some f =>
      cases hvar : f.isVariable with
      | true => simp [HidField.done, hvar]
      | false =>
        have hentry : ⟨a, 0, priorities a 0⟩ ∈ r.fieldEntryList :=
          hlist.mem_iff.2 (mem_allEntries.2 ⟨rfl, f, hget, by simp [hvar]⟩)
        have hmem : a ∈ r.fieldEntryList.map HidFieldEntry.field := mem_map.2 ⟨_, hentry, rfl⟩
        have hdone := processField_fst a f
        rw [processField, if_neg (by simp [hvar])] at hdone
        have hvar' := (hidInputArrayField_isVariable a f).trans hvar
        simp [hvar, hmem, hdone ▸ hvar', hdone]
  rw [hfields]

/-! ### All reports -/

/-- The order in which the list stands: the higher priority first, and the order of the
fields and of their values among entries of one priority. -/
def Ordered (list : List HidFieldEntry) : Prop := list.Pairwise (Before entryPriority HidFieldEntry.earlier)

theorem hidReportProcessOrdering_list {r : InputReport} (hnew : r.fieldEntryList = []) :
    (hidReportProcessOrdering r true).fieldEntryList.Perm (allEntries r.usagesPriorities r.fields) ∧
      Ordered (hidReportProcessOrdering r true).fieldEntryList := by
  rw [hidReportProcessOrdering_eq, hnew]
  exact ⟨foldl_insertByPriority_perm, pairwise_foldl_insertByPriority (pairwise_allEntries _ _)⟩

/-- The report after some data came in for it. -/
def InputReport.afterReports (r : InputReport) (reports : List (ℕ → BitVec 8)) : InputReport :=
  reports.foldl (fun r data => (hidProcessReport r data).1) r

theorem afterReports_fields {r s : InputReport} {priorities : ℕ → ℕ → BitVec 32}
    (hs : s.fieldEntryList = []) (hr : r.fieldEntryList.Perm (allEntries priorities r.fields))
    (hsame : r.fields = s.fields) (reports : List (ℕ → BitVec 8)) :
    (s.afterReports reports).fieldEntryList = [] ∧
      (r.afterReports reports).fieldEntryList.Perm (allEntries priorities (r.afterReports reports).fields) ∧
      (r.afterReports reports).fields = (s.afterReports reports).fields := by
  induction reports generalizing r s with
  | nil => exact ⟨hs, hr, hsame⟩
  | cons data reports ih =>
    have hplain := hidProcessReport_plain hs priorities data
    have hordered := (hidProcessReport_of_perm hr data).1
    refine ih (r := (hidProcessReport r data).1) (s := (hidProcessReport s data).1) ?_ ?_ ?_
    · rw [hplain]
      exact hs
    · rw [hordered]
      have hentries := allEntries_map priorities r.fields (g := fun f => (hidInputFetchField f data).done)
        fun f => by unfold HidField.done; split_ifs <;> exact ⟨rfl, rfl⟩
      rw [map_map]
      exact hentries ▸ hr
    · rw [hplain, hordered, hsame]

/-- The list has every value of a variable field and every array field once, in the order of
the priorities; and with it or without it, the same reports leave the same fields and give
the same events, if not in the same order. -/
theorem hidProcessReport_ordering (r : InputReport) (hnew : r.fieldEntryList = []) (alloc : Bool) :
    (alloc = true → (hidReportProcessOrdering r alloc).fieldEntryList.Nodup ∧
      (∀ e, e ∈ (hidReportProcessOrdering r alloc).fieldEntryList ↔ r.HasEntry e) ∧
      Ordered (hidReportProcessOrdering r alloc).fieldEntryList) ∧
    ∀ (reports : List (ℕ → BitVec 8)) (data : ℕ → BitVec 8),
      ((hidReportProcessOrdering r alloc).afterReports reports).fields = (r.afterReports reports).fields ∧
      (hidProcessReport ((hidReportProcessOrdering r alloc).afterReports reports) data).2.Perm
        (hidProcessReport (r.afterReports reports) data).2 ∧
      (hidProcessReport ((hidReportProcessOrdering r alloc).afterReports reports) data).1.fields =
        (hidProcessReport (r.afterReports reports) data).1.fields := by
  cases alloc with
  | false => exact ⟨fun h => by simp at h, fun reports data => ⟨rfl, List.Perm.refl _, rfl⟩⟩
  | true =>
    obtain ⟨hperm, hsorted⟩ := hidReportProcessOrdering_list hnew
    have hfields : (hidReportProcessOrdering r true).fields = r.fields := by rw [hidReportProcessOrdering_eq]
    refine ⟨fun _ => ⟨?_, fun e => hperm.mem_iff.trans mem_allEntries, hsorted⟩, fun reports data => ?_⟩
    · refine (hperm.nodup_iff).2 ((pairwise_allEntries _ _).imp fun {a b} h hab => ?_)
      subst hab
      obtain h | ⟨-, h⟩ := h <;> exact absurd h (Nat.lt_irrefl _)
    · obtain ⟨hs, hr, hsame⟩ := afterReports_fields hnew (hfields ▸ hperm) hfields reports
      have hplain := hidProcessReport_plain hs r.usagesPriorities data
      obtain ⟨hordered, hevents⟩ := hidProcessReport_of_perm hr data
      refine ⟨hsame, ?_, ?_⟩
      · rw [hplain, ← hsame]
        exact hevents
      · rw [hplain, hordered, hsame]

/-- Two buttons and an array; the second button and the array go before the first button. -/
def mixedReport : InputReport where
  fields := [{ twoKeys 0 with flags := 2, reportSize := 1, reportCount := 2 }, { twoKeys 1 with reportOffset := 8 }]
  usagesPriorities := fun field index => if field = 0 ∧ index = 0 then 0 else 1
  fieldEntryList := []

theorem hidProcessReport_ordering_mixed :
    (hidReportProcessOrdering mixedReport true).fieldEntryList = [⟨0, 1, 1⟩, ⟨1, 0, 1⟩, ⟨0, 0, 0⟩] ∧
    (hidProcessReport (hidReportProcessOrdering mixedReport true) fun _ => 1).2.Perm
      (hidProcessReport mixedReport fun _ => 1).2 :=
  ⟨by decide, ((hidProcessReport_ordering mixedReport rfl true).2 [] fun _ => 1).2.1⟩

end GfpDrivers.Hid
