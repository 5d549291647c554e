import GfpDrivers.Of.RegResource

/-!
The parser of `ranges` and `dma-ranges` (`address.c`). Each call reads an entry and goes on
as long as the next entry continues the one before it; the loop `for_each_of_range` makes
calls until one of them returns null.

Pointers into the property are counted in cells from its start. The number of cells that an
entry has is an `int`, and the sum of three of them, so that it may be zero or less. A
negative `int` used to count cells goes through the unsigned numbers. Translation of an
address is an argument, and so is the bus that `of_match_bus` finds.
-/

namespace GfpDrivers.Of

open Lib

def IORESOURCE_IO : ℕ := 0x00000100

def IORESOURCE_PREFETCH : ℕ := 0x00002000

def IORESOURCE_MEM_64 : ℕ := 0x00100000

/-- The entries of `of_busses`. -/
inductive OfBus where
  | pci
  | isa
  | default
deriving DecidableEq

/-- `has_flags` -/
def OfBus.hasFlags : OfBus → Bool
  | .pci => true
  | .isa => true
  | .default => false

/-- `of_bus_pci_get_flags`, for the first cell of an address. -/
def ofBusPciGetFlags (w : ℕ) : ℕ :=
  let flags :=
    match w / 2 ^ 24 % 4 with
    | 1 => IORESOURCE_IO
    | 2 => IORESOURCE_MEM
    | 3 => IORESOURCE_MEM ||| IORESOURCE_MEM_64
    | _ => 0
  if w &&& 0x40000000 ≠ 0 then flags ||| IORESOURCE_PREFETCH else flags

/-- `of_bus_isa_get_flags` -/
def ofBusIsaGetFlags (w : ℕ) : ℕ := if w &&& 1 ≠ 0 then IORESOURCE_IO else IORESOURCE_MEM

/-- `get_flags` -/
def OfBus.getFlags : OfBus → ℕ → ℕ
  | .pci, w => ofBusPciGetFlags w
  | .isa, w => ofBusIsaGetFlags w
  | .default, _ => IORESOURCE_MEM

/-- `of_translate_dma_address` or `of_translate_address` for a node and a pointer to an
address; `none` stands for a call that does not return. -/
abbrev Translator := Bool → ℕ → Bytes → Option (BitVec 64)

/-- `struct of_pci_range_parser`, with the memory that the pointers go to. -/
structure RangeParser where
  node : ℕ
  bus : OfBus
  range : Option ℤ
  end_ : ℤ
  na : ℤ
  ns : ℤ
  pna : ℤ
  dma : Bool
  byte : ℤ → UInt8

/-- `struct of_pci_range` -/
structure Range where
  flags : ℕ
  busAddr : ℕ
  cpuAddr : ℕ
  size : ℕ
deriving DecidableEq

/-- `of_n_addr_cells` -/
def ofNAddrCells (fuel : ℕ) (s : DevTree) (np : ℕ) : Option ℤ :=
  ofBusNAddrCells fuel s ((s.node np).parent.getD np)

/-- `parser_init`; `before` is what lies in front of the property. -/
def parserInit (fuel : ℕ) (s : DevTree) (bus : OfBus) (before : ℤ → UInt8) (node : ℕ) (name : String) :
    Option (RangeParser × ℤ) :=
  (ofNAddrCells fuel s node).bind fun pna =>
    (ofBusNAddrCells fuel s node).bind fun na =>
      (ofBusNSizeCells fuel s node).bind fun ns =>
        (ofGetProperty fuel s node name).map fun prop =>
          let parser : RangeParser :=
            { node := node, bus := bus, range := none, end_ := 0, na := na, ns := ns, pna := pna,
              dma := name = "dma-ranges", byte := before }
          match prop with
          | none => (parser, -ENOENT)
          | some (value, rlen) =>
              ({ parser with
                  range := some 0
                  end_ := (rlen / 4 : ℕ)
                  byte := fun i => if 0 ≤ i then value i.toNat else before i }, 0)

namespace RangeParser

/-- The bytes from a pointer on. -/
def bytesAt (p : RangeParser) (pos : ℤ) : Bytes := fun i => p.byte (4 * pos + i)

/-- `of_read_number` at a pointer, with a count that is an `int`. -/
def readNumber (p : RangeParser) (pos size : ℤ) : ℕ := ofReadNumber (cells (p.bytesAt pos)) (size % 2 ^ 32).toNat

/-- The `int np` of `of_pci_range_parser_one`. -/
def np (p : RangeParser) : ℤ := toInt ((p.pna + p.na + p.ns) % 2 ^ 32).toNat

/-- `busflag_na` -/
def busflagNa (p : RangeParser) : ℤ := if p.bus.hasFlags then 1 else 0

/-- The four values that are read at a pointer. -/
def readEntry (translate : Translator) (p : RangeParser) (pos : ℤ) : Option Range :=
  (translate p.dma p.node (p.bytesAt (pos + p.na))).map fun cpu =>
    { flags := p.bus.getFlags (cells (p.bytesAt pos) 0)
      busAddr := p.readNumber (pos + p.busflagNa) (p.na - p.busflagNa)
      cpuAddr := cpu.toNat
      size := p.readNumber (pos + p.pna + p.na) p.ns }

end RangeParser

/-- The end of a range, in a `u64`. -/
def Range.next (addr size : ℕ) : ℕ := (addr + size) % 2 ^ 64

/-- The loop of `of_pci_range_parser_one`. -/
def consumeEntries (translate : Translator) (p : RangeParser) : ℕ → ℤ → Range → Option (Range × ℤ)
  | 0, _, _ => none
  | fuel + 1, pos, range =>
      if pos + p.np ≤ p.end_ then
        (p.readEntry translate pos).bind fun e =>
          if e.flags ≠ range.flags then some (range, pos)
          else if e.busAddr ≠ Range.next range.busAddr range.size ∨ e.cpuAddr ≠ Range.next range.cpuAddr range.size then
            some (range, pos)
          else consumeEntries translate p fuel (pos + p.np) { range with size := Range.next range.size e.size }
      else some (range, pos)

/-- `of_pci_range_parser_one` -/
def ofPciRangeParserOne (translate : Translator) (fuel : ℕ) (p : RangeParser) : Option (RangeParser × Option Range) :=
  match p.range with
  | none => some (p, none)
  | some pos =>
      if p.end_ < pos + p.np then some (p, none)
      else
        (p.readEntry translate pos).bind fun range =>
          (consumeEntries translate p fuel (pos + p.np) range).map fun res =>
            ({ p with range := some res.2 }, some res.1)

/-- `for_each_of_range`: the ranges that the calls return. -/
def forEachOfRange (translate : Translator) : ℕ → RangeParser → Option (List Range)
  | 0, _ => none
  | fuel + 1, p =>
      (ofPciRangeParserOne translate (fuel + 1) p).bind fun res =>
        match res.2 with
        | none => some []
        | some range => (forEachOfRange translate fuel res.1).map fun ranges => range :: ranges

/-! ### The entries that are read -/

/-- The values read from a pointer up to the end of the property. -/
inductive ReadsAs (translate : Translator) (p : RangeParser) : ℤ → List Range → Prop
  | nil {pos : ℤ} : p.end_ < pos + p.np → ReadsAs translate p pos []
  | cons {pos : ℤ} {e : Range} {es : List Range} : pos + p.np ≤ p.end_ → p.readEntry translate pos = some e →
      ReadsAs translate p (pos + p.np) es → ReadsAs translate p pos (e :: es)

/-- Whether an entry continues a range, in numbers of 64 bits. -/
def Range.Joins (range e : Range) : Prop :=
  e.flags = range.flags ∧ e.busAddr = Range.next range.busAddr range.size ∧
    e.cpuAddr = Range.next range.cpuAddr range.size

instance (range e : Range) : Decidable (range.Joins e) := inferInstanceAs (Decidable (_ ∧ _ ∧ _))

def Range.grow (range e : Range) : Range := { range with size := Range.next range.size e.size }

/-- The ranges that are made of a range that is begun and the entries after it. -/
def mergeFrom : Range → List Range → List Range
  | range, [] => [range]
  | range, e :: es => if range.Joins e then mergeFrom (range.grow e) es else range :: mergeFrom e es

def merge : List Range → List Range
  | [] => []
  | e :: es => mergeFrom e es

variable {translate : Translator} {p : RangeParser} {pos pos' : ℤ} {range range' : Range} {es : List Range} {fuel : ℕ}

theorem consumeEntries_succ (fuel : ℕ) : consumeEntries translate p (fuel + 1) pos range =
    if pos + p.np ≤ p.end_ then
      (p.readEntry translate pos).bind fun e =>
        if range.Joins e then consumeEntries translate p fuel (pos + p.np) (range.grow e) else some (range, pos)
    else some (range, pos) := by
  have hbranches : ∀ (e : Range) (x y : Option (Range × ℤ)),
      (if e.flags ≠ range.flags then x
        else if e.busAddr ≠ Range.next range.busAddr range.size ∨ e.cpuAddr ≠ Range.next range.cpuAddr range.size then x
        else y) = if range.Joins e then y else x := by
    intro e x y
    unfold Range.Joins
    grind
  rw [consumeEntries]
  simp only [hbranches]
  rfl

/-- The loop does not look at the pointer that the parser was called with. -/
theorem consumeEntries_range (r : Option ℤ) (fuel : ℕ) :
    consumeEntries translate { p with range := r } fuel pos range = consumeEntries translate p fuel pos range := by
  induction fuel generalizing pos range with
  | zero => rfl
  | succ fuel ih =>
    rw [consumeEntries_succ, consumeEntries_succ]
    simp only [ih]
    rfl

/-- The loop stops at the first entry that does not continue the range. -/
theorem consumeEntries_returns (h : ReadsAs translate p pos es) (range : Range) (hfuel : es.length < fuel) :
    ∃ range' pos' es', consumeEntries translate p fuel pos range = some (range', pos') ∧
      ReadsAs translate p pos' es' ∧ es'.length ≤ es.length ∧ mergeFrom range es = range' :: merge es' := by
  induction h generalizing range fuel with
  | @nil pos hend =>
    obtain ⟨fuel, rfl⟩ := Nat.exists_eq_add_one.2 hfuel
    exact ⟨range, pos, [], by rw [consumeEntries_succ, if_neg (by omega)], .nil hend, le_refl _, rfl⟩
  | @cons pos e es hfit hread hrest ih =>
    obtain ⟨fuel, rfl⟩ := Nat.exists_eq_add_one.2 (Nat.zero_lt_of_lt hfuel)
    rw [consumeEntries_succ, if_pos hfit, hread, Option.bind_some, mergeFrom]
    split_ifs with hjoin
    · obtain ⟨range', pos', es', hrun, hreads, hlen, hmerge⟩ := ih (range.grow e) (by simpa using hfuel)
      exact ⟨range', pos', es', hrun, hreads, by simp; omega, hmerge⟩
    · exact ⟨range, pos, e :: es, rfl, .cons hfit hread hrest, le_refl _, rfl⟩

theorem ReadsAs.of_consumeEntries (h : consumeEntries translate p fuel pos range = some (range', pos'))
    (hreads : ∃ es, ReadsAs translate p pos' es) : ∃ es, ReadsAs translate p pos es := by
  induction fuel generalizing pos range with
  | zero => cases h
  | succ fuel ih =>
    rw [consumeEntries_succ] at h
    split_ifs at h with hfit
    · obtain ⟨e, hread, h⟩ := Option.bind_eq_some_iff.1 h
      split_ifs at h with hjoin
      · obtain ⟨es, hes⟩ := ih h
        exact ⟨e :: es, .cons hfit hread hes⟩
      · obtain ⟨rfl, rfl⟩ := Prod.mk.inj (Option.some.inj h)
        exact hreads
    · obtain ⟨rfl, rfl⟩ := Prod.mk.inj (Option.some.inj h)
      exact hreads

theorem forEachOfRange_of_reads (h : ReadsAs translate p pos es) (hfuel : es.length < fuel) :
    forEachOfRange translate fuel { p with range := some pos } = some (merge es) := by
  induction fuel generalizing pos es with
  | zero => omega
  | succ fuel ih =>
    cases h with
    | nil hend =>
      have hnull : p.end_ < pos + RangeParser.np { p with range := some pos } := hend
      simp [forEachOfRange, ofPciRangeParserOne, hnull, merge]
    | @cons _ e es hfit hread hrest =>
      have hlen : es.length < fuel + 1 := by simp only [List.length_cons] at hfuel; omega
      obtain ⟨range', pos', es', hrun, hreads, hle, hmerge⟩ := consumeEntries_returns hrest e hlen
      have hgo : ¬ p.end_ < pos + RangeParser.np { p with range := some pos } := not_lt.2 hfit
      have hone : ofPciRangeParserOne translate (fuel + 1) { p with range := some pos } =
          some ({ p with range := some pos' }, some range') := by
        have hhead : RangeParser.readEntry translate { p with range := some pos } pos = some e := hread
        simp only [ofPciRangeParserOne, if_neg hgo, hhead, Option.bind_some, consumeEntries_range]
        exact congrArg (Option.map _) hrun
      simp only [List.length_cons] at hfuel
      rw [forEachOfRange, hone, Option.bind_some]
      simp only [ih hreads (by omega), Option.map_some, merge, hmerge]

theorem ReadsAs.of_forEachOfRange {ranges : List Range}
    (h : forEachOfRange translate fuel { p with range := some pos } = some ranges) : ∃ es, ReadsAs translate p pos es := by
  induction fuel generalizing pos ranges with
  | zero => cases h
  | succ fuel ih =>
    rw [forEachOfRange] at h
    by_cases hend : p.end_ < pos + p.np
    · exact ⟨[], .nil hend⟩
    obtain ⟨res, hres, h⟩ := Option.bind_eq_some_iff.1 h
    have hgo : ¬ p.end_ < pos + RangeParser.np { p with range := some pos } := hend
    simp only [ofPciRangeParserOne, if_neg hgo, consumeEntries_range] at hres
    obtain ⟨e, hread, hres⟩ := Option.bind_eq_some_iff.1 hres
    obtain ⟨⟨range', pos'⟩, hrun, rfl⟩ := Option.map_eq_some_iff.1 hres
    obtain ⟨ranges', hranges, -⟩ := Option.map_eq_some_iff.1 h
    obtain ⟨es, hes⟩ := ReadsAs.of_consumeEntries hrun (ih hranges)
    exact ⟨e :: es, .cons (not_lt.1 hend) hread hes⟩

/-- The loop ends exactly when the entries can be read up to the end. -/
theorem forEachOfRange_returns_iff {ranges : List Range} :
    Returns (fun fuel => forEachOfRange translate fuel { p with range := some pos }) ranges ↔
      ∃ es, ReadsAs translate p pos es ∧ ranges = merge es := by
  constructor
  · intro h
    obtain ⟨k, hk⟩ := h
    obtain ⟨es, hes⟩ := ReadsAs.of_forEachOfRange (hk k (le_refl k))
    have hmerge : Returns (fun fuel => forEachOfRange translate fuel { p with range := some pos }) (merge es) :=
      ⟨es.length + 1, fun fuel hfuel => forEachOfRange_of_reads hes hfuel⟩
    exact ⟨es, hes, Returns.unique ⟨k, hk⟩ hmerge⟩
  · rintro ⟨es, hes, rfl⟩
    exact ⟨es.length + 1, fun fuel hfuel => forEachOfRange_of_reads hes hfuel⟩

theorem readsAs_cons_iff {e : Range} : ReadsAs translate p pos (e :: es) ↔
    pos + p.np ≤ p.end_ ∧ p.readEntry translate pos = some e ∧ ReadsAs translate p (pos + p.np) es := by
  constructor
  · intro h
    cases h with
    | cons hfit hread hrest => exact ⟨hfit, hread, hrest⟩
  · rintro ⟨hfit, hread, hrest⟩
    exact .cons hfit hread hrest

theorem readsAs_iff (hnp : 0 < p.np) : ReadsAs translate p pos es ↔
    es.length = ((p.end_ - pos) / p.np).toNat ∧
      ∀ i (h : i < es.length), p.readEntry translate (pos + i * p.np) = some es[i] := by
  induction es generalizing pos with
  | nil =>
    have hnil : ReadsAs translate p pos [] ↔ p.end_ < pos + p.np :=
      ⟨fun h => by cases h with | nil h => exact h, .nil⟩
    have hdiv : (p.end_ - pos) / p.np < 1 ↔ p.end_ - pos < 1 * p.np := Int.ediv_lt_iff_lt_mul hnp
    rw [hnil]
    simp only [List.length_nil, Nat.not_lt_zero, IsEmpty.forall_iff, implies_true, and_true]
    omega
  | cons e es ih =>
    rw [readsAs_cons_iff, ih]
    have hstep : (p.end_ - pos) / p.np = (p.end_ - (pos + p.np)) / p.np + 1 := by
      rw [show p.end_ - pos = p.end_ - (pos + p.np) + 1 * p.np by omega, Int.add_mul_ediv_right _ _ (by omega)]
    have hnonneg : 0 ≤ (p.end_ - (pos + p.np)) / p.np ↔ 0 ≤ p.end_ - (pos + p.np) := Int.ediv_nonneg_iff_of_pos hnp
    have hentry : ∀ i : ℕ, pos + p.np + i * p.np = pos + (i + 1 : ℕ) * p.np := fun i => by
      rw [Nat.cast_succ, Int.add_mul]
      omega
    have hlength : (e :: es).length = es.length + 1 := List.length_cons
    rw [hstep]
    constructor
    · rintro ⟨hfit, hread, hlen, hall⟩
      refine ⟨by omega, fun i hi => ?_⟩
      cases i with
      | zero => simpa using hread
      | succ i =>
        rw [← hentry]
        exact hall i (by omega)
    · rintro ⟨hlen, hall⟩
      have hread := hall 0 (by omega)
      refine ⟨by omega, by simpa using hread, by omega, fun i hi => ?_⟩
      rw [hentry]
      exact hall (i + 1) (by omega)

theorem not_readsAs (hnp : p.np ≤ 0) (hpos : pos + p.np ≤ p.end_) : ¬ ReadsAs translate p pos es := by
  intro h
  induction h with
  | nil hend => omega
  | cons _ _ _ ih => exact ih (by omega)

end GfpDrivers.Of
