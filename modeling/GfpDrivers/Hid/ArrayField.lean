import GfpDrivers.Hid.Report
import GfpDrivers.Lib.Differences
import Mathlib.Data.Finset.Image

/-!
Array fields: each report lists the keys that are down, and `hid_input_array_field` tells
its listener what changed since the last report that was not ignored.

The stored values of a new field are all zero, and that is what the first report is compared
with. Where zero is the number of a key, the key counts as down before any report has come,
and the listener is never told so.
-/

namespace GfpDrivers.Hid

open GfpDrivers.Lib

/-- A call of `hid_process_event`: the number of the field in its report, the number of the
usage in the field, and the value. -/
structure HidEvent where
  field : ℕ
  usage : ℕ
  value : BitVec 32
deriving DecidableEq

/-- `search`, in the first `n` slots. -/
def search (array : ℕ → BitVec 32) (value : BitVec 32) : ℕ → ℤ
  | 0 => -1
  | n + 1 => if array 0 = value then 0 else search (fun i => array (i + 1)) value n

/-- The events of one turn of the loop of `hid_input_array_field`. -/
def HidField.arrayEvents (index : ℕ) (f : HidField) (n : ℕ) : List HidEvent :=
  (if hidArrayValueIsValid f (f.value n) ∧ search f.newValue (f.value n) f.reportCount ≠ 0 then
    [⟨index, (f.value n - f.logicalMinimum).toNat, 0⟩]
  else []) ++
  if hidArrayValueIsValid f (f.newValue n) ∧ search f.value (f.newValue n) f.reportCount ≠ 0 then
    [⟨index, (f.newValue n - f.logicalMinimum).toNat, 1⟩]
  else []

/-- The `memcpy` from the new values to the stored ones. -/
def HidField.store (f : HidField) : HidField :=
  { f with value := fun n => if n < f.reportCount then f.newValue n else f.value n }

/-- `hid_input_array_field` -/
def hidInputArrayField (index : ℕ) (f : HidField) : HidField × List HidEvent :=
  if f.ignored then (f, []) else (f.store, (List.range f.reportCount).flatMap (f.arrayEvents index))

/-! ### The events of a report -/

theorem search_ne_zero_iff (array : ℕ → BitVec 32) (value : BitVec 32) (n : ℕ) :
    search array value n ≠ 0 ↔ ∀ i < n, array i ≠ value := by
  induction n generalizing array with
  | zero => simp [search]
  | succ n ih =>
    rw [search]
    split_ifs with h
    · simpa using ⟨0, by omega, h⟩
    · rw [ih]
      refine ⟨fun hall i hi => ?_, fun hall i hi => hall (i + 1) (by omega)⟩
      cases i with
      | zero => exact h
      | succ i => exact hall i (by omega)

/-- The usages of the valid ones among some values. -/
def HidField.keysOf (f : HidField) (values : ℕ → BitVec 32) : Finset ℕ :=
  ((Finset.range f.reportCount).filter fun n => hidArrayValueIsValid f (values n)).image
    fun n => f.usageHid (values n - f.logicalMinimum).toNat

/-- An event as a change of the set of keys that are down. -/
def HidField.change (f : HidField) (e : HidEvent) : ℕ × Bool := (f.usageHid e.usage, decide (e.value ≠ 0))

/-- Different numbers stand for different usages. -/
def HidField.OneToOne (f : HidField) : Prop :=
  ∀ i j, i < f.maxusage → j < f.maxusage → f.usageHid i = f.usageHid j → i = j

variable {f : HidField} {index : ℕ}

theorem mem_keysOf {values : ℕ → BitVec 32} {u : ℕ} :
    u ∈ f.keysOf values ↔ ∃ n < f.reportCount, hidArrayValueIsValid f (values n) = true ∧
      f.usageHid (values n - f.logicalMinimum).toNat = u := by
  simp only [HidField.keysOf, Finset.mem_image, Finset.mem_filter, Finset.mem_range, and_assoc]

theorem lt_maxusage_of_valid {v : BitVec 32} (h : hidArrayValueIsValid f v = true) :
    (v - f.logicalMinimum).toNat < f.maxusage := by
  simp only [hidArrayValueIsValid, Bool.and_eq_true, decide_eq_true_eq] at h
  exact h.2

/-- Two valid values with the same usage are the same. -/
theorem HidField.OneToOne.eq (hf : f.OneToOne) {v w : BitVec 32} (hv : hidArrayValueIsValid f v = true)
    (hw : hidArrayValueIsValid f w = true)
    (h : f.usageHid (v - f.logicalMinimum).toNat = f.usageHid (w - f.logicalMinimum).toNat) : v = w := by
  have hindex := hf _ _ (lt_maxusage_of_valid hv) (lt_maxusage_of_valid hw) h
  exact (BitVec.sub_left_inj _).1 (BitVec.eq_of_toNat_eq hindex)

/-- What `search` tells about a valid value, in terms of the usages. -/
theorem HidField.OneToOne.mem_sdiff (hf : f.OneToOne) {a b : ℕ → BitVec 32} {u : ℕ} :
    u ∈ f.keysOf a \ f.keysOf b ↔ ∃ n < f.reportCount, hidArrayValueIsValid f (a n) = true ∧
      search b (a n) f.reportCount ≠ 0 ∧ f.usageHid (a n - f.logicalMinimum).toNat = u := by
  simp only [Finset.mem_sdiff, search_ne_zero_iff, mem_keysOf]
  constructor
  · rintro ⟨⟨n, hn, hvalid, rfl⟩, hnot⟩
    exact ⟨n, hn, hvalid, fun i hi h => hnot ⟨i, hi, h ▸ hvalid, by rw [h]⟩, rfl⟩
  · rintro ⟨n, hn, hvalid, hsearch, rfl⟩
    refine ⟨⟨n, hn, hvalid, rfl⟩, ?_⟩
    rintro ⟨i, hi, hvalid', h⟩
    exact hsearch i hi (hf.eq hvalid' hvalid h)

theorem mem_changes (hf : f.OneToOne) (u : ℕ) (down : Bool) :
    (u, down) ∈ ((List.range f.reportCount).flatMap (f.arrayEvents index)).map f.change ↔
      if down then u ∈ f.keysOf f.newValue \ f.keysOf f.value else u ∈ f.keysOf f.value \ f.keysOf f.newValue := by
  simp only [hf.mem_sdiff]
  simp only [List.mem_map, List.mem_flatMap, List.mem_range, HidField.arrayEvents, List.mem_append, HidField.change,
    Prod.mk.injEq, List.mem_ite_nil_right, List.mem_singleton]
  cases down with
  | true =>
    simp only [if_true]
    constructor
    · rintro ⟨e, ⟨n, hn, ⟨-, rfl⟩ | ⟨hgo, rfl⟩⟩, rfl, hdown⟩
      · simp at hdown
      · exact ⟨n, hn, hgo.1, hgo.2, rfl⟩
    · rintro ⟨n, hn, hvalid, hsearch, rfl⟩
      exact ⟨_, ⟨n, hn, .inr ⟨⟨hvalid, hsearch⟩, rfl⟩⟩, rfl, by simp⟩
  | false =>
    simp only [Bool.false_eq_true, if_false]
    constructor
    · rintro ⟨e, ⟨n, hn, ⟨hgo, rfl⟩ | ⟨-, rfl⟩⟩, rfl, hdown⟩
      · exact ⟨n, hn, hgo.1, hgo.2, rfl⟩
      · simp at hdown
    · rintro ⟨n, hn, hvalid, hsearch, rfl⟩
      exact ⟨_, ⟨n, hn, .inl ⟨⟨hvalid, hsearch⟩, rfl⟩⟩, rfl, by simp⟩

/-- The events of a report that is not ignored are the changes between the stored keys and
the new ones. -/
theorem foldl_changes (index : ℕ) (hf : f.OneToOne) (keys : Finset ℕ) :
    (((List.range f.reportCount).flatMap (f.arrayEvents index)).map f.change).foldl applyChange keys =
      follow keys (f.keysOf f.value) (f.keysOf f.newValue) := by
  ext u
  rw [mem_foldl_applyChange]
  · rw [mem_changes hf, mem_changes hf]
    simp only [if_true, Bool.false_eq_true, if_false, follow, Finset.mem_union, Finset.mem_sdiff]
    tauto
  · intro v hcame hwent
    rw [mem_changes hf] at hcame hwent
    simp only [if_true, Bool.false_eq_true, if_false, Finset.mem_sdiff] at hcame hwent
    exact hwent.2 hcame.1

/-! ### Reports -/

/-- Whether a value of the report is a roll-over error. -/
def HidField.rollsOver (f : HidField) (data : ℕ → BitVec 8) (n : ℕ) : Prop :=
  f.flags &&& hidMainItemVariable = 0 ∧ hidArrayValueIsValid f (f.fetch data n) = true ∧
    f.usageHid (f.fetch data n - f.logicalMinimum).toNat = hidUpKeyboard + 1

instance (data : ℕ → BitVec 8) (n : ℕ) : Decidable (f.rollsOver data n) :=
  inferInstanceAs (Decidable (_ ∧ _ ∧ _))

/-- Whether the field ignores the report. -/
def HidField.ignores (f : HidField) (data : ℕ → BitVec 8) : Bool :=
  decide (∃ n < f.reportCount, f.rollsOver data n)

/-- A report is fetched up to the first error, and to its end if there is none. -/
theorem fetchLoop_spec (data : ℕ → BitVec 8) (todo n : ℕ) (values : ℕ → BitVec 32) :
    ((fetchLoop f data todo n values).2 = true ↔ ∃ k < n + todo, n ≤ k ∧ f.rollsOver data k) ∧
      ((fetchLoop f data todo n values).2 = false →
        ∀ k, (fetchLoop f data todo n values).1 k = if n ≤ k ∧ k < n + todo then f.fetch data k else values k) := by
  induction todo generalizing n values with
  | zero =>
    refine ⟨⟨fun h => by simp [fetchLoop] at h, fun ⟨k, hk, hnk, _⟩ => by omega⟩, fun _ k => ?_⟩
    rw [fetchLoop, if_neg (by omega)]
  | succ todo ih =>
    rw [fetchLoop]
    split_ifs with herr
    · exact ⟨⟨fun _ => ⟨n, by omega, Nat.le_refl n, herr⟩, fun _ => rfl⟩, fun h => by simp at h⟩
    obtain ⟨hsome, hnone⟩ := ih (n + 1) (Function.update values n (f.fetch data n))
    refine ⟨hsome.trans ⟨?_, ?_⟩, fun h k => ?_⟩
    · rintro ⟨k, hk, hnk, hroll⟩
      exact ⟨k, by omega, by omega, hroll⟩
    · rintro ⟨k, hk, hnk, hroll⟩
      have hne : k ≠ n := fun h => herr (h ▸ hroll)
      exact ⟨k, by omega, by omega, hroll⟩
    · rw [hnone h k]
      by_cases hk : k = n
      · subst hk
        rw [if_neg (by omega), if_pos (by omega), Function.update_self]
      · rw [Function.update_of_ne hk]
        by_cases hin : n + 1 ≤ k ∧ k < n + 1 + todo
        · rw [if_pos hin, if_pos (by omega)]
        · rw [if_neg hin, if_neg (by omega)]

theorem hidInputFetchField_ignored (data : ℕ → BitVec 8) : (hidInputFetchField f data).ignored = f.ignores data := by
  rw [Bool.eq_iff_iff]
  simp only [hidInputFetchField, HidField.ignores, decide_eq_true_eq]
  refine (fetchLoop_spec data f.reportCount 0 _).1.trans ⟨?_, ?_⟩
  · rintro ⟨k, hk, -, hroll⟩
    exact ⟨k, by omega, hroll⟩
  · rintro ⟨k, hk, hroll⟩
    exact ⟨k, by omega, Nat.zero_le k, hroll⟩

theorem hidInputFetchField_newValue {data : ℕ → BitVec 8} (h : f.ignores data = false) {n : ℕ}
    (hn : n < f.reportCount) : (hidInputFetchField f data).newValue n = f.fetch data n := by
  rw [← hidInputFetchField_ignored] at h
  have hread := (fetchLoop_spec data f.reportCount 0 _).2 h n
  rw [if_pos ⟨Nat.zero_le n, by omega⟩] at hread
  exact hread

/-- A report comes in: the field and the keys that the listener has after it. -/
def receiveReport (index : ℕ) (s : HidField × Finset ℕ) (data : ℕ → BitVec 8) : HidField × Finset ℕ :=
  let res := hidInputArrayField index (hidInputFetchField s.1 data)
  (res.1, (res.2.map s.1.change).foldl applyChange s.2)

/-- The keys that the listener of a new field has after some reports. -/
def HidField.keysAfter (index : ℕ) (f : HidField) (reports : List (ℕ → BitVec 8)) : Finset ℕ :=
  (reports.foldl (receiveReport index) (f, ∅)).2

/-- The keys that are down in each of the reports that are not ignored. -/
def HidField.downs (f : HidField) (reports : List (ℕ → BitVec 8)) : List (Finset ℕ) :=
  (reports.filter fun data => !f.ignores data).map fun data => f.keysOf (f.fetch data)

/-- The keys that are down in the last report that was not ignored. -/
def HidField.keysDown (f : HidField) (reports : List (ℕ → BitVec 8)) : Finset ℕ := (f.downs reports).getLast?.getD ∅

theorem keysOf_congr {a b : ℕ → BitVec 32} (h : ∀ n < f.reportCount, a n = b n) : f.keysOf a = f.keysOf b := by
  ext u
  simp only [mem_keysOf]
  constructor <;> rintro ⟨n, hn, hrest⟩ <;> exact ⟨n, hn, by simpa [h n hn] using hrest⟩

/-- The listener follows the keys through the reports that are not ignored. -/
theorem foldl_receiveReport (hf : f.OneToOne) (reports : List (ℕ → BitVec 8)) (value newValue : ℕ → BitVec 32)
    (ignored : Bool) (keys : Finset ℕ) :
    (reports.foldl (receiveReport index)
        ({ f with value := value, newValue := newValue, ignored := ignored }, keys)).2 =
      followAll keys (f.keysOf value) (f.downs reports) := by
  induction reports generalizing value newValue ignored keys with
  | nil => rfl
  | cons data rest ih =>
    set g : HidField := { f with value := value, newValue := newValue, ignored := ignored }
    have hshape : hidInputFetchField g data =
        { f with
          value := value
          newValue := (hidInputFetchField g data).newValue
          ignored := f.ignores data } := by
      rw [← show g.ignores data = f.ignores data from rfl, ← hidInputFetchField_ignored]
      rfl
    rw [List.foldl_cons, HidField.downs, List.filter_cons]
    cases hig : f.ignores data with
    | true =>
      have hrecv : receiveReport index (g, keys) data =
          ({ f with value := value, newValue := (hidInputFetchField g data).newValue, ignored := true }, keys) := by
        rw [receiveReport, hshape, hig]
        rfl
      rw [hrecv, ih]
      rfl
    | false =>
      have hnew : f.keysOf (hidInputFetchField g data).newValue = f.keysOf (f.fetch data) :=
        keysOf_congr fun n hn => hidInputFetchField_newValue (f := g) hig hn
      have hrecv : receiveReport index (g, keys) data =
          ({ f with
              value := fun n => if n < f.reportCount then (hidInputFetchField g data).newValue n else value n
              newValue := (hidInputFetchField g data).newValue
              ignored := false },
            follow keys (f.keysOf value) (f.keysOf (f.fetch data))) := by
        rw [receiveReport, hshape, hig, ← hnew]
        exact Prod.ext rfl (foldl_changes (f := { f with
          value := value, newValue := (hidInputFetchField g data).newValue, ignored := false }) index hf keys)
      have hstored : f.keysOf (fun n => if n < f.reportCount then (hidInputFetchField g data).newValue n else value n) =
          f.keysOf (f.fetch data) := hnew ▸ keysOf_congr fun n hn => if_pos hn
      rw [hrecv, ih, hstored]
      rfl

/-- The key that the stored values of a new field stand for, if there is one. -/
theorem mem_keysOf_zero {value : ℕ → BitVec 32} (hzero : ∀ n < f.reportCount, value n = 0) {u : ℕ} :
    u ∈ f.keysOf value ↔
      0 < f.reportCount ∧ hidArrayValueIsValid f 0 = true ∧ f.usageHid (0 - f.logicalMinimum).toNat = u := by
  rw [mem_keysOf]
  constructor
  · rintro ⟨n, hn, hvalid, hu⟩
    rw [hzero n hn] at hvalid hu
    exact ⟨by omega, hvalid, hu⟩
  · rintro ⟨hpos, hvalid, hu⟩
    exact ⟨0, hpos, (hzero 0 hpos).symm ▸ hvalid, (hzero 0 hpos).symm ▸ hu⟩

/-- The listener has the keys of the last report exactly when the key that stands for zero,
if there is one, was up in some report. -/
theorem keysAfter_eq_iff (hf : f.OneToOne) (reports : List (ℕ → BitVec 8)) :
    f.keysAfter index reports = f.keysDown reports ↔
      f.downs reports = [] ∨ ∀ u ∈ f.keysOf f.value, ∃ down ∈ f.downs reports, u ∉ down := by
  have hrun : f.keysAfter index reports = followAll ∅ (f.keysOf f.value) (f.downs reports) :=
    foldl_receiveReport hf reports f.value f.newValue f.ignored ∅
  rw [hrun, HidField.keysDown]
  cases hdowns : f.downs reports with
  | nil => simp [followAll]
  | cons down rest =>
    have hlast := followAll_eq_iff (Finset.empty_subset (f.keysOf f.value)) (down :: rest)
    rw [List.getLast?_cons, Option.getD_some, Finset.sdiff_empty] at hlast
    rw [List.getLast?_cons, Option.getD_some, hlast]
    simp only [reduceCtorEq, false_or]

/-- After every report the listener has the keys of the last report that was not ignored,
unless zero stands for a key and the first such report has it. -/
theorem hidInputArrayField_keys (f : HidField) (index : ℕ) (hf : f.OneToOne)
    (hzero : ∀ n < f.reportCount, f.value n = 0) (reports : List (ℕ → BitVec 8)) :
    (∀ before, before <+: reports → f.keysAfter index before = f.keysDown before) ↔
      (hidArrayValueIsValid f 0 = true → ∀ data, (reports.find? fun data => !f.ignores data) = some data →
        ∀ n < f.reportCount, f.fetch data n ≠ 0) := by
  constructor
  · intro hall hvalid data hfirst n hn hfetch
    obtain ⟨hdata, as, bs, rfl, has⟩ := List.find?_eq_some_iff_append.1 hfirst
    have hbefore := hall (as ++ [data]) ⟨bs, by simp⟩
    have hig : ∀ a ∈ as, f.ignores a = true := fun a ha => by simpa using has a ha
    have hdowns : f.downs (as ++ [data]) = [f.keysOf (f.fetch data)] := by
      have hnone : as.filter (fun data => !f.ignores data) = [] := List.filter_eq_nil_iff.2 fun a ha => by simp [hig a ha]
      rw [HidField.downs, List.filter_append, hnone]
      simp [hdata]
    rw [keysAfter_eq_iff hf, hdowns] at hbefore
    have hkey := (mem_keysOf_zero hzero).2 ⟨Nat.zero_lt_of_lt hn, hvalid, rfl⟩
    obtain hnil | hup := hbefore
    · simp at hnil
    · obtain ⟨down, hdown, hnot⟩ := hup _ hkey
      rw [List.mem_singleton.1 hdown, mem_keysOf] at hnot
      exact hnot ⟨n, hn, hfetch ▸ hvalid, by rw [hfetch]⟩
  · rintro hfirst before ⟨after, rfl⟩
    rw [keysAfter_eq_iff hf]
    cases hfind : before.find? (fun data => !f.ignores data) with
    | none =>
      have hnone : before.filter (fun data => !f.ignores data) = [] :=
        List.filter_eq_nil_iff.2 fun a ha => List.find?_eq_none.1 hfind a ha
      exact .inl (by rw [HidField.downs, hnone, List.map_nil])
    | some data =>
      refine .inr fun u hu => ?_
      obtain ⟨hpos, hvalid, rfl⟩ := (mem_keysOf_zero hzero).1 hu
      have hne := hfirst hvalid data (by rw [List.find?_append, hfind, Option.some_or])
      have haccept : (!f.ignores data) = true := List.find?_some (p := fun data => !f.ignores data) hfind
      refine ⟨f.keysOf (f.fetch data), List.mem_map_of_mem
        (List.mem_filter.2 ⟨List.mem_of_find?_eq_some hfind, haccept⟩), fun hmem => ?_⟩
      obtain ⟨n, hn, hvalid', husage⟩ := mem_keysOf.1 hmem
      exact hne n hn (hf.eq hvalid' hvalid husage)

/-- A field of one byte that takes `minimum` and the number after it. -/
def twoKeys (minimum : BitVec 32) : HidField where
  flags := 0
  reportOffset := 0
  reportSize := 8
  reportCount := 1
  logicalMinimum := minimum
  logicalMaximum := minimum + 1
  maxusage := 2
  usageHid := fun i => hidUpKeyboard + 4 + i
  value := fun _ => 0
  newValue := fun _ => 0
  ignored := false

theorem twoKeys_oneToOne (minimum : BitVec 32) : (twoKeys minimum).OneToOne := fun i j _ _ h => by
  simp only [twoKeys] at h
  omega

/-- With numbers from one on, both keys are told. -/
theorem hidInputArrayField_keys_fromOne :
    (twoKeys 1).keysAfter 0 [fun _ => 1, fun _ => 2] = (twoKeys 1).keysDown [fun _ => 1, fun _ => 2] :=
  (hidInputArrayField_keys (twoKeys 1) 0 (twoKeys_oneToOne 1) (fun _ _ => rfl) [fun _ => 1, fun _ => 2]).2
    (fun h => absurd h (by decide)) _ List.prefix_rfl

/-- With numbers from zero on, the first key is down in the only report, and no event came. -/
theorem hidInputArrayField_misses_zero : (twoKeys 0).OneToOne ∧ (∀ n < (twoKeys 0).reportCount, (twoKeys 0).value n = 0) ∧
    (twoKeys 0).keysAfter 0 [fun _ => 0] = ∅ ∧ (twoKeys 0).keysDown [fun _ => 0] = {hidUpKeyboard + 4} :=
  ⟨twoKeys_oneToOne 0, fun _ _ => rfl, by decide, by decide⟩

end GfpDrivers.Hid
