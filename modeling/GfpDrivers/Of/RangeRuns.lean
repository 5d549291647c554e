import GfpDrivers.Lib.MaximalRuns
import GfpDrivers.Of.RangeParser

/-!
What the loop over the ranges of a property does: whether it ends, and how the ranges come
from the entries.

It ends if the number of cells of an entry, as an `int`, is positive. The ranges are then the
maximal runs of entries that continue one another, as long as nothing wraps: the addresses
and sizes are numbers of 64 bits.
-/

namespace GfpDrivers.Of

open Lib

variable {translate : Translator} {p : RangeParser} {s : DevTree} {bus : OfBus} {before : ℤ → UInt8} {node fuel : ℕ}
  {name : String} {ret : ℤ}

/-! ### The end of the loop -/

theorem parserInit_range (h : parserInit fuel s bus before node name = some (p, ret)) :
    p.range = none ∨ p.range = some 0 ∧ 0 ≤ p.end_ := by
  simp only [parserInit, Option.bind_eq_some_iff, Option.map_eq_some_iff] at h
  obtain ⟨pna, -, na, -, ns, -, prop, -, h⟩ := h
  cases prop with
  | none =>
    obtain ⟨rfl, -⟩ := Prod.mk.inj h
    exact .inl rfl
  | some prop =>
    obtain ⟨rfl, -⟩ := Prod.mk.inj h
    exact .inr ⟨rfl, Int.natCast_nonneg _⟩

theorem RangeParser.readEntry_eq_some_iff (pos : ℤ) :
    (∃ e, p.readEntry translate pos = some e) ↔ ∃ cpu, translate p.dma p.node (p.bytesAt (pos + p.na)) = some cpu := by
  simp [RangeParser.readEntry]

theorem exists_list {f : ℕ → Option Range} {n : ℕ} (h : ∀ i < n, ∃ e, f i = some e) :
    ∃ es : List Range, es.length = n ∧ ∀ i (hi : i < es.length), f i = some es[i] := by
  refine ⟨(List.range n).map fun i => (f i).getD ⟨0, 0, 0, 0⟩, by simp, fun i hi => ?_⟩
  obtain ⟨e, he⟩ := h i (by simpa using hi)
  simp [he]

theorem forEachOfRange_null (h : p.range = none) : Returns (fun fuel => forEachOfRange translate fuel p) [] := by
  refine ⟨1, fun fuel hfuel => ?_⟩
  obtain ⟨fuel, rfl⟩ := Nat.exists_eq_add_of_le' hfuel
  simp [forEachOfRange, ofPciRangeParserOne, h]

theorem forEachOfRange_start_iff (hstart : p.range = some 0) {ranges : List Range} :
    Returns (fun fuel => forEachOfRange translate fuel p) ranges ↔ ∃ es, ReadsAs translate p 0 es ∧ ranges = merge es := by
  obtain ⟨node, bus, range, last, na, ns, pna, dma, byte⟩ := p
  obtain rfl : range = some 0 := hstart
  exact forEachOfRange_returns_iff (p := ⟨node, bus, some 0, last, na, ns, pna, dma, byte⟩)

theorem ReadsAs.of_start (hstart : p.range = some 0) {ranges : List Range} (h : forEachOfRange translate fuel p = some ranges) :
    ∃ es, ReadsAs translate p 0 es := by
  obtain ⟨node, bus, range, last, na, ns, pna, dma, byte⟩ := p
  obtain rfl : range = some 0 := hstart
  exact ReadsAs.of_forEachOfRange (p := ⟨node, bus, some 0, last, na, ns, pna, dma, byte⟩) h

/-- The loop over the ranges of a node ends exactly if there is no property, or the number of
cells of an entry is positive as an `int` and the address of each entry can be translated. -/
theorem forEachOfRange_ends_iff (translate : Translator) (s : DevTree) (bus : OfBus) (before : ℤ → UInt8) (node : ℕ)
    (name : String) (p : RangeParser) (ret : ℤ)
    (hinit : Returns (fun fuel => parserInit fuel s bus before node name) (p, ret)) :
    (∃ ranges, Returns (fun fuel => forEachOfRange translate fuel p) ranges) ↔
      p.range = none ∨ 0 < p.np ∧ ∀ i : ℕ, (i : ℤ) < p.end_ / p.np →
        ∃ cpu, translate p.dma p.node (p.bytesAt (i * p.np + p.na)) = some cpu := by
  obtain ⟨k, hk⟩ := hinit
  obtain hnull | ⟨hstart, hend⟩ := parserInit_range (hk k (le_refl k))
  · exact iff_of_true ⟨[], forEachOfRange_null hnull⟩ (.inl hnull)
  simp only [forEachOfRange_start_iff hstart, hstart, reduceCtorEq, false_or]
  constructor
  · rintro ⟨-, es, hes, -⟩
    have hnp : 0 < p.np := by
      by_contra hnp
      exact not_readsAs (not_lt.1 hnp) (by omega) hes
    refine ⟨hnp, fun i hi => ?_⟩
    obtain ⟨hlen, hall⟩ := (readsAs_iff hnp).1 hes
    have hin : i < es.length := by
      rw [hlen, Int.sub_zero]
      omega
    have hread := hall i hin
    rw [Int.zero_add] at hread
    exact (RangeParser.readEntry_eq_some_iff _).1 ⟨_, hread⟩
  · rintro ⟨hnp, hall⟩
    have hentries : ∀ i < (p.end_ / p.np).toNat, ∃ e, p.readEntry translate (i * p.np) = some e := fun i hi =>
      (RangeParser.readEntry_eq_some_iff _).2 (hall i (by omega))
    obtain ⟨es, hlen, hes⟩ := exists_list hentries
    refine ⟨merge es, es, (readsAs_iff hnp).2 ⟨by rw [hlen, Int.sub_zero], fun i hi => ?_⟩, rfl⟩
    rw [Int.zero_add]
    exact hes i hi

theorem parserInit_returns (bus : OfBus) (before : ℤ → UInt8) {pna na ns : ℤ} {value : Option (Bytes × ℕ)}
    (hpna : Returns (fun fuel => ofNAddrCells fuel s node) pna)
    (hna : Returns (fun fuel => ofBusNAddrCells fuel s node) na)
    (hns : Returns (fun fuel => ofBusNSizeCells fuel s node) ns)
    (hprop : Returns (fun fuel => ofGetProperty fuel s node name) value) :
    Returns (fun fuel => parserInit fuel s bus before node name)
      (value.elim
        ({ node := node, bus := bus, range := none, end_ := 0, na := na, ns := ns, pna := pna,
           dma := name = "dma-ranges", byte := before }, -ENOENT)
        fun value =>
          ({ node := node, bus := bus, range := some 0, end_ := (value.2 / 4 : ℕ), na := na, ns := ns, pna := pna,
             dma := name = "dma-ranges", byte := fun i => if 0 ≤ i then value.1 i.toNat else before i }, 0)) := by
  obtain ⟨k₁, hk₁⟩ := hpna
  obtain ⟨k₂, hk₂⟩ := hna
  obtain ⟨k₃, hk₃⟩ := hns
  obtain ⟨k₄, hk₄⟩ := hprop
  refine ⟨k₁ + k₂ + k₃ + k₄, fun fuel hfuel => ?_⟩
  have hp : ofNAddrCells fuel s node = some pna := hk₁ fuel (by omega)
  have ha : ofBusNAddrCells fuel s node = some na := hk₂ fuel (by omega)
  have hs : ofBusNSizeCells fuel s node = some ns := hk₃ fuel (by omega)
  have hr : ofGetProperty fuel s node name = some value := hk₄ fuel (by omega)
  simp only [parserInit, hp, ha, hs, hr, Option.bind_some, Option.map_some]
  cases value <;> rfl

/-- A bus `1` below the root `0`, with its `ranges`. -/
def oneBus (pna pns na ns : ℕ) (ranges : List ℕ) : DevTree where
  node n :=
    if n = 0 then { bareNode with properties := some 10, child := some 1, detached := false }
    else if n = 1 then { bareNode with properties := some 12, parent := some 0, detached := false }
    else bareNode
  prop p :=
    if p = 10 then ⟨"#address-cells", 4, smallCell pna, some 11⟩
    else if p = 11 then ⟨"#size-cells", 4, smallCell pns, none⟩
    else if p = 12 then ⟨"#address-cells", 4, smallCell na, some 13⟩
    else if p = 13 then ⟨"#size-cells", 4, smallCell ns, some 14⟩
    else ⟨"ranges", 4 * ranges.length, cellBytes ranges, none⟩
  root := some 0
  phandleCache _ := none

/-- The parser of its `ranges`. -/
def oneBusParser (pna na ns : ℕ) (ranges : List ℕ) : RangeParser where
  node := 1
  bus := .default
  range := some 0
  end_ := ranges.length
  na := toInt (be32ToCpup (smallCell na))
  ns := toInt (be32ToCpup (smallCell ns))
  pna := toInt (be32ToCpup (smallCell pna))
  dma := false
  byte := fun i => if 0 ≤ i then cellBytes ranges i.toNat else 0

theorem oneBus_root_props {pna pns na ns : ℕ} {ranges : List ℕ} (name : String) :
    Returns (fun fuel => ofGetProperty fuel (oneBus pna pns na ns ranges) 0 name)
      (([10, 11].find? fun p => ((oneBus pna pns na ns ranges).prop p).name = name).map fun p =>
        (((oneBus pna pns na ns ranges).prop p).value, ((oneBus pna pns na ns ranges).prop p).length)) :=
  ofGetProperty_chain name ⟨rfl, rfl, rfl⟩

theorem parserInit_oneBus (pna pns na ns : ℕ) (ranges : List ℕ) :
    Returns (fun fuel => parserInit fuel (oneBus pna pns na ns ranges) .default (fun _ => 0) 1 "ranges")
      (oneBusParser pna na ns ranges, 0) := by
  have hroot : Returns (fun fuel => ofGetProperty fuel (oneBus pna pns na ns ranges) 0 "#address-cells")
      (some (smallCell pna, 4)) :=
    oneBus_root_props "#address-cells"
  have hbus : ∀ name, Returns (fun fuel => ofGetProperty fuel (oneBus pna pns na ns ranges) 1 name)
      (([12, 13, 14].find? fun p => ((oneBus pna pns na ns ranges).prop p).name = name).map fun p =>
        (((oneBus pna pns na ns ranges).prop p).value, ((oneBus pna pns na ns ranges).prop p).length)) :=
    fun name => ofGetProperty_chain name ⟨rfl, rfl, rfl, rfl⟩
  have haddr : Returns (fun fuel => ofGetProperty fuel (oneBus pna pns na ns ranges) 1 "#address-cells")
      (some (smallCell na, 4)) := hbus "#address-cells"
  have hsize : Returns (fun fuel => ofGetProperty fuel (oneBus pna pns na ns ranges) 1 "#size-cells")
      (some (smallCell ns, 4)) := hbus "#size-cells"
  have hranges : Returns (fun fuel => ofGetProperty fuel (oneBus pna pns na ns ranges) 1 "ranges")
      (some (cellBytes ranges, 4 * ranges.length)) := hbus "ranges"
  have hinit := parserInit_returns .default (fun _ => 0)
    (ofBusNCells_own hroot (le_refl 4)) (ofBusNCells_own haddr (le_refl 4)) (ofBusNCells_own hsize (le_refl 4)) hranges
  rw [Option.elim_some, Nat.mul_div_cancel_left _ (by decide)] at hinit
  exact hinit

/-- `of_translate_address` on a tree. -/
def liveTranslator (s : DevTree) : Translator := fun _ node addr =>
  (ofTranslateAddress 8 s node addr).map (BitVec.ofNat 64)

/-- A loop that ends. -/
theorem forEachOfRange_ends_iff_oneBus :
    ∃ ranges, Returns (fun fuel => forEachOfRange (liveTranslator (oneBus 1 1 1 1 [0, 0x40000000, 0x1000])) fuel
      (oneBusParser 1 1 1 [0, 0x40000000, 0x1000])) ranges :=
  (forEachOfRange_ends_iff (liveTranslator (oneBus 1 1 1 1 [0, 0x40000000, 0x1000])) (oneBus 1 1 1 1 [0, 0x40000000, 0x1000])
    .default (fun _ => 0) 1 "ranges" (oneBusParser 1 1 1 [0, 0x40000000, 0x1000]) 0 (parserInit_oneBus 1 1 1 1 _)).2
      (.inr ⟨by decide, fun _ _ => ⟨_, rfl⟩⟩)

/-- With no cells at all the loop does not end, be the property empty. -/
theorem forEachOfRange_endless :
    Returns (fun fuel => parserInit fuel (oneBus 0 0 0 0 []) .default (fun _ => 0) 1 "ranges") (oneBusParser 0 0 0 [], 0) ∧
      ¬ ∃ ranges, Returns (fun fuel => forEachOfRange (liveTranslator (oneBus 0 0 0 0 [])) fuel (oneBusParser 0 0 0 []))
        ranges := by
  refine ⟨parserInit_oneBus 0 0 0 0 [], ?_⟩
  rintro ⟨ranges, hranges⟩
  obtain ⟨es, hes, -⟩ := (forEachOfRange_start_iff rfl).1 hranges
  exact not_readsAs (by decide) (by decide) hes

/-! ### The runs of entries -/

/-- The number of cells of an entry. -/
def RangeParser.stride (p : RangeParser) : ℕ := (p.pna % 2 ^ 32).toNat + (p.na % 2 ^ 32).toNat + (p.ns % 2 ^ 32).toNat

/-- The complete entries of the property. -/
def RangeParser.EntriesAre (translate : Translator) (p : RangeParser) (es : List Range) : Prop :=
  es.length = (p.end_ / p.stride).toNat ∧ ∀ i (h : i < es.length), p.readEntry translate (i * p.stride : ℕ) = some es[i]

namespace Range

/-- The range of a run of entries. -/
def ofRun : List Range → Range
  | [] => ⟨0, 0, 0, 0⟩
  | e :: es => { e with size := ((e :: es).map Range.size).sum }

/-- An entry has the flags of a range and starts where it ends, on both buses. -/
def Follows (range e : Range) : Prop :=
  e.flags = range.flags ∧ e.busAddr = range.busAddr + range.size ∧ e.cpuAddr = range.cpuAddr + range.size

instance (range e : Range) : Decidable (range.Follows e) := inferInstanceAs (Decidable (_ ∧ _ ∧ _))

/-- An entry continues a run. -/
abbrev Continues (run : List Range) (e : Range) : Prop := (ofRun run).Follows e

/-- A range as it fits in numbers of 64 bits. -/
def wrapped (range : Range) : Range := { range with size := range.size % 2 ^ 64 }

/-- An entry seems to continue a run. -/
abbrev WrapContinues (run : List Range) (e : Range) : Prop := (ofRun run).wrapped.Joins e

/-- The values of an entry are numbers of 64 bits. -/
def Fits64 (e : Range) : Prop := e.busAddr < 2 ^ 64 ∧ e.cpuAddr < 2 ^ 64 ∧ e.size < 2 ^ 64

end Range

/-- The ranges are those of a partition of the entries into maximal runs. -/
def PartitionedAs (es ranges : List Range) : Prop := ∃ parts, MaximalRuns Range.Continues es parts ∧ ranges = parts.map Range.ofRun

/-- The sizes of no maximal run add up to `2 ^ 64`, and no entry starts at the end of the run
before it except for a multiple of `2 ^ 64`. -/
def NoWrap (es : List Range) : Prop :=
  (∀ run ∈ maximalRuns Range.Continues es, (Range.ofRun run).size < 2 ^ 64) ∧
    (maximalRuns Range.Continues es).IsChain fun run next => ∀ e ∈ next.head?, ¬ Range.WrapContinues run e

theorem Range.ofRun_append {run : List Range} (hrun : run ≠ []) (e : Range) :
    Range.ofRun (run ++ [e]) = { Range.ofRun run with size := (Range.ofRun run).size + e.size } := by
  obtain ⟨head, tail, rfl⟩ := List.exists_cons_of_ne_nil hrun
  simp [Range.ofRun, Nat.add_assoc]

theorem Range.wrapped_grow {run : List Range} (hrun : run ≠ []) (e : Range) :
    (Range.ofRun run).wrapped.grow e = (Range.ofRun (run ++ [e])).wrapped := by
  simp [Range.ofRun_append hrun, Range.wrapped, Range.grow, Range.next]

theorem Range.Fits64.wrapped_singleton {e : Range} (h : e.Fits64) : (Range.ofRun [e]).wrapped = e := by
  have hsize : e.size % 2 ^ 64 = e.size := Nat.mod_eq_of_lt h.2.2
  rw [Range.wrapped, Range.ofRun, List.map_singleton, List.sum_singleton, hsize]

/-- What the code makes of the entries are the runs of entries that seem to continue one
another. -/
theorem mergeFrom_eq {run es : List Range} (hrun : run ≠ []) (hes : ∀ e ∈ es, e.Fits64) :
    mergeFrom (Range.ofRun run).wrapped es =
      (runsFrom Range.WrapContinues run es).map fun run => (Range.ofRun run).wrapped := by
  induction es generalizing run with
  | nil => rfl
  | cons e es ih =>
    obtain ⟨he, hes⟩ := List.forall_mem_cons.1 hes
    rw [mergeFrom, runsFrom]
    by_cases hjoin : Range.WrapContinues run e
    · rw [if_pos hjoin, if_pos hjoin, Range.wrapped_grow hrun]
      exact ih (by simp) hes
    · rw [if_neg hjoin, if_neg hjoin, List.map_cons, ← ih (List.cons_ne_nil e []) hes, he.wrapped_singleton]

theorem merge_eq {es : List Range} (hes : ∀ e ∈ es, e.Fits64) :
    merge es = (maximalRuns Range.WrapContinues es).map fun run => (Range.ofRun run).wrapped := by
  cases es with
  | nil => rfl
  | cons e es =>
    obtain ⟨he, hes⟩ := List.forall_mem_cons.1 hes
    have hfrom := mergeFrom_eq (List.cons_ne_nil e []) hes
    rwa [he.wrapped_singleton] at hfrom

/-- An entry that continues a run starts below `2 ^ 64`, and so does the end of the run. -/
theorem Range.WrapContinues.of_continues (run : List Range) (e : Range) (he : e.Fits64) (h : Range.Continues run e) :
    Range.WrapContinues run e := by
  obtain ⟨hflags, hbus, hcpu⟩ := h
  obtain ⟨hbusLt, hcpuLt, -⟩ := he
  refine ⟨hflags, ?_, ?_⟩
  · simp only [Range.wrapped, Range.next]
    omega
  · simp only [Range.wrapped, Range.next]
    omega

theorem Range.wrapContinues_append (run : List Range) (e e' : Range) (h : Range.WrapContinues run e) :
    Range.WrapContinues (run ++ [e]) e' ↔ Range.WrapContinues [e] e' := by
  cases run with
  | nil => exact Iff.rfl
  | cons head tail =>
    obtain ⟨hflags, hbus, hcpu⟩ := h
    have hsingle : Range.ofRun [e] = e := by simp [Range.ofRun]
    rw [Range.WrapContinues, Range.WrapContinues, Range.ofRun_append (List.cons_ne_nil head tail), hsingle]
    simp only [Range.Joins, Range.wrapped, Range.next] at hflags hbus hcpu ⊢
    rw [hflags, hbus, hcpu]
    have hmod : ∀ a b c : ℕ, ((a + b % 2 ^ 64) % 2 ^ 64 + c % 2 ^ 64) % 2 ^ 64 = (a + (b + c) % 2 ^ 64) % 2 ^ 64 := by
      intro a b c
      simp only [Nat.add_mod_mod, Nat.mod_add_mod, Nat.add_assoc]
    rw [hmod, hmod]

theorem partitionedAs_iff {es ranges : List Range} :
    PartitionedAs es ranges ↔ ranges = (maximalRuns Range.Continues es).map Range.ofRun := by
  simp only [PartitionedAs, maximalRuns_iff, exists_eq_left]

/-- The ranges are those of the partition if nothing wraps, and only then. -/
theorem partitionedAs_merge_iff {es : List Range} (hes : ∀ e ∈ es, e.Fits64) : PartitionedAs es (merge es) ↔ NoWrap es := by
  have hsub : ∀ run, ∀ e ∈ es, Range.Continues run e → Range.WrapContinues run e := fun run e he =>
    Range.WrapContinues.of_continues run e (hes e he)
  rw [partitionedAs_iff, merge_eq hes]
  have hruns := maximalRuns_iff.2 (Eq.refl (maximalRuns Range.Continues es))
  have hmap : ∀ parts : List (List Range), (parts.map fun run => (Range.ofRun run).wrapped) = parts.map Range.ofRun ↔
      ∀ run ∈ parts, (Range.ofRun run).size < 2 ^ 64 := by
    intro parts
    rw [List.map_inj_left]
    refine forall₂_congr fun run _ => ?_
    rw [Range.wrapped, ← Nat.mod_eq_iff_lt (by decide)]
    exact ⟨congrArg Range.size, fun hsize => congrArg (fun size => { Range.ofRun run with size := size }) hsize⟩
  constructor
  · intro heq
    have hsame : maximalRuns Range.WrapContinues es = maximalRuns Range.Continues es := by
      cases es with
      | nil => rfl
      | cons e es =>
        refine runsFrom_eq_of_length (fun run a ha => hsub run a (List.mem_cons_of_mem e ha)) Range.wrapContinues_append ?_
        have hlength := congrArg List.length heq
        rwa [List.length_map, List.length_map] at hlength
    rw [hsame] at heq
    refine ⟨(hmap _).1 heq, ?_⟩
    rw [← hsame]
    exact (maximalRuns_iff.2 rfl).maximal
  · rintro ⟨hsizes, hbreaks⟩
    have hisRun : ∀ run ∈ maximalRuns Range.Continues es, IsRun Range.WrapContinues run := by
      intro run hrun
      refine ⟨(hruns.isRun run hrun).1, fun xs e ys hsplit hne => hsub xs e ?_ ((hruns.isRun run hrun).2 xs e ys hsplit hne)⟩
      rw [← hruns.flatten]
      exact List.mem_flatten.2 ⟨run, hrun, by simp [hsplit]⟩
    have hsame : maximalRuns Range.Continues es = maximalRuns Range.WrapContinues es :=
      maximalRuns_iff.1 ⟨hruns.flatten, hisRun, hbreaks⟩
    rw [← hsame]
    exact (hmap _).2 hsizes

namespace RangeParser

theorem np_eq (p : RangeParser) : p.np = toInt p.stride := by
  have hstride : (p.stride : ℤ) % 2 ^ 32 = (p.pna + p.na + p.ns) % 2 ^ 32 := by
    have htoNat : ∀ x : ℤ, ((x % 2 ^ 32).toNat : ℤ) = x % 2 ^ 32 := fun x =>
      Int.toNat_of_nonneg (Int.emod_nonneg x (by decide))
    rw [stride, Nat.cast_add, Nat.cast_add, htoNat, htoNat, htoNat, Int.add_emod_emod, Int.add_emod,
      ← Int.add_emod p.pna, ← Int.add_emod]
  have hmod : ((p.pna + p.na + p.ns) % 2 ^ 32).toNat % 2 ^ 32 = p.stride % 2 ^ 32 := by
    rw [← hstride]
    omega
  rw [np, toInt, toInt, hmod]

theorem readEntry_fits64 {pos : ℤ} {e : Range} (h : p.readEntry translate pos = some e) : e.Fits64 := by
  obtain ⟨cpu, -, rfl⟩ := Option.map_eq_some_iff.1 h
  exact ⟨ofReadNumber_lt _ _, cpu.isLt, ofReadNumber_lt _ _⟩

theorem EntriesAre.fits64 {es : List Range} (h : p.EntriesAre translate es) : ∀ e ∈ es, e.Fits64 := by
  intro e he
  obtain ⟨i, hi, rfl⟩ := List.mem_iff_getElem.1 he
  exact readEntry_fits64 (h.2 i hi)

/-- As long as the number of cells fits an `int`, what is read are the complete entries. -/
theorem readsAs_iff_entriesAre {es : List Range} (hcells : 0 < p.stride) (hint : p.stride < 2 ^ 31) :
    ReadsAs translate p 0 es ↔ p.EntriesAre translate es := by
  have hnp : p.np = p.stride := by
    rw [np_eq, toInt]
    omega
  have hentry : ∀ i : ℕ, (0 : ℤ) + i * p.np = (i * p.stride : ℕ) := fun i => by
    rw [hnp, Int.zero_add, Int.natCast_mul]
  rw [readsAs_iff (by omega), EntriesAre, Int.sub_zero, hnp]
  simp only [← hnp, hentry]

theorem EntriesAre.unique {es es' : List Range} (h : p.EntriesAre translate es) (h' : p.EntriesAre translate es') :
    es = es' := by
  refine List.ext_getElem (h.1.trans h'.1.symm) fun i hi hi' => ?_
  exact Option.some.inj ((h.2 i hi).symm.trans (h'.2 i hi'))

end RangeParser

theorem mergeFrom_ne_nil (range : Range) (es : List Range) : mergeFrom range es ≠ [] := by
  induction es generalizing range with
  | nil => exact List.cons_ne_nil range []
  | cons e es ih =>
    rw [mergeFrom]
    split_ifs
    · exact ih _
    · exact List.cons_ne_nil range _

/-- The ranges of a property with entries of at least one cell are those of its partition
into maximal runs if the number of cells of an entry fits an `int`, or not even one entry of
what it has become fits the property, and nothing wraps; and only then. -/
theorem forEachOfRange_runs (translate : Translator) (s : DevTree) (bus : OfBus) (before : ℤ → UInt8) (node : ℕ)
    (name : String) (p : RangeParser) (ret : ℤ)
    (hinit : Returns (fun fuel => parserInit fuel s bus before node name) (p, ret))
    (hprop : p.range ≠ none) (hcells : 0 < p.stride) (hlen : p.end_ < 2 ^ 29) :
    (∃ es ranges, p.EntriesAre translate es ∧ Returns (fun fuel => forEachOfRange translate fuel p) ranges ∧
        PartitionedAs es ranges) ↔
      (p.stride < 2 ^ 31 ∨ p.end_ < toInt p.stride) ∧ ∃ es, p.EntriesAre translate es ∧ NoWrap es := by
  obtain ⟨k, hk⟩ := hinit
  obtain hnull | ⟨hstart, hend⟩ := parserInit_range (hk k (le_refl k))
  · exact absurd hnull hprop
  simp only [forEachOfRange_start_iff hstart]
  by_cases hint : p.stride < 2 ^ 31
  · simp only [RangeParser.readsAs_iff_entriesAre hcells hint, hint, true_or, true_and]
    constructor
    · rintro ⟨es, -, hes, ⟨es', hes', rfl⟩, hpart⟩
      obtain rfl : es = es' := hes.unique hes'
      exact ⟨es, hes, (partitionedAs_merge_iff hes.fits64).1 hpart⟩
    · rintro ⟨es, hes, hwrap⟩
      exact ⟨es, merge es, hes, ⟨es, hes, rfl⟩, (partitionedAs_merge_iff hes.fits64).2 hwrap⟩
  · -- the property is too short for an entry of so many cells
    have hnone : p.end_ / p.stride = 0 := Int.ediv_eq_zero_of_lt hend (by omega)
    have hentries : ∀ es, p.EntriesAre translate es ↔ es = [] := by
      intro es
      rw [RangeParser.EntriesAre, hnone, Int.toNat_zero, List.length_eq_zero_iff]
      exact ⟨fun h => h.1, fun h => ⟨h, by simp [h]⟩⟩
    have hwrap : NoWrap [] := ⟨fun run hrun => absurd hrun List.not_mem_nil, List.IsChain.nil⟩
    simp only [hentries, exists_eq_left, exists_and_left, hint, false_or, hwrap, and_true, ← RangeParser.np_eq]
    constructor
    · rintro ⟨ranges, ⟨es, hes, rfl⟩, hnil⟩
      cases hes with
      | nil hshort => exact (Int.zero_add p.np) ▸ hshort
      | @cons _ e es _ _ _ => exact absurd (partitionedAs_iff.1 hnil) (mergeFrom_ne_nil e es)
    · intro hshort
      exact ⟨[], ⟨[], .nil (by omega), rfl⟩, partitionedAs_iff.2 rfl⟩

/-- Two entries that make one range, and an entry of its own. -/
def splitWindow : List ℕ := [0, 0x40000000, 0x1000, 0x1000, 0x40001000, 0x1000, 0x8000, 0x50000000, 0x1000]

theorem forEachOfRange_runs_splitWindow :
    ∃ es ranges, (oneBusParser 1 1 1 splitWindow).EntriesAre (liveTranslator (oneBus 1 1 1 1 splitWindow)) es ∧
      Returns (fun fuel => forEachOfRange (liveTranslator (oneBus 1 1 1 1 splitWindow)) fuel (oneBusParser 1 1 1 splitWindow))
        ranges ∧
      PartitionedAs es ranges :=
  (forEachOfRange_runs (liveTranslator (oneBus 1 1 1 1 splitWindow)) (oneBus 1 1 1 1 splitWindow) .default (fun _ => 0) 1
    "ranges" (oneBusParser 1 1 1 splitWindow) 0 (parserInit_oneBus 1 1 1 1 splitWindow) (by decide) (by decide) (by decide)).2
    ⟨.inl (by decide), [⟨IORESOURCE_MEM, 0, 0x40000000, 0x1000⟩, ⟨IORESOURCE_MEM, 0x1000, 0x40001000, 0x1000⟩,
      ⟨IORESOURCE_MEM, 0x8000, 0x50000000, 0x1000⟩], ⟨by decide, by decide⟩, by decide, by decide⟩

/-- The two halves of the address space. -/
def bothHalves : List ℕ := [0, 0, 0, 0, 0x80000000, 0, 0x80000000, 0, 0x80000000, 0, 0x80000000, 0]

/-- They make a range of no size. -/
theorem forEachOfRange_wraps :
    Returns (fun fuel => parserInit fuel (oneBus 2 2 2 2 bothHalves) .default (fun _ => 0) 1 "ranges")
      (oneBusParser 2 2 2 bothHalves, 0) ∧
    (oneBusParser 2 2 2 bothHalves).EntriesAre (liveTranslator (oneBus 2 2 2 2 bothHalves))
      [⟨IORESOURCE_MEM, 0, 0, 2 ^ 63⟩, ⟨IORESOURCE_MEM, 2 ^ 63, 2 ^ 63, 2 ^ 63⟩] ∧
    Returns (fun fuel => forEachOfRange (liveTranslator (oneBus 2 2 2 2 bothHalves)) fuel (oneBusParser 2 2 2 bothHalves))
      [⟨IORESOURCE_MEM, 0, 0, 0⟩] ∧
    ¬ PartitionedAs [⟨IORESOURCE_MEM, 0, 0, 2 ^ 63⟩, ⟨IORESOURCE_MEM, 2 ^ 63, 2 ^ 63, 2 ^ 63⟩] [⟨IORESOURCE_MEM, 0, 0, 0⟩] := by
  have hes : (oneBusParser 2 2 2 bothHalves).EntriesAre (liveTranslator (oneBus 2 2 2 2 bothHalves))
      [⟨IORESOURCE_MEM, 0, 0, 2 ^ 63⟩, ⟨IORESOURCE_MEM, 2 ^ 63, 2 ^ 63, 2 ^ 63⟩] := ⟨by decide, by decide⟩
  have hreads := (RangeParser.readsAs_iff_entriesAre (by decide) (by decide)).2 hes
  refine ⟨parserInit_oneBus 2 2 2 2 bothHalves, hes, (forEachOfRange_start_iff rfl).2 ⟨_, hreads, by decide⟩, ?_⟩
  rw [partitionedAs_iff]
  decide

end GfpDrivers.Of
