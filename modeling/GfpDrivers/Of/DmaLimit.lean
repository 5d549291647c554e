import GfpDrivers.Of.RangeRuns
import Mathlib.Order.Bounds.Basic

/-!
The highest CPU address that all DMA masters of a tree reach
(`of_dma_get_max_cpu_address`, `address.c`): a minimum over the nodes with `dma-ranges` of
the largest end of their ranges.

The end of a range is a number of 64 bits, and an address that is not translated is a number
like any other: a range at the top of the address space ends at zero, and a range that is
not translated close to zero.
-/

namespace GfpDrivers.Of

open Lib

/-- `PHYS_ADDR_MAX`, with and without `CONFIG_PHYS_ADDR_T_64BIT`. -/
def PHYS_ADDR_MAX (phys64 : Bool) : ℕ := if phys64 then 2 ^ 64 - 1 else 2 ^ 32 - 1

/-! ### The children -/

/-- Whether `strcmp` returns zero. -/
def strEq (value : Bytes) (str : String) : Bool :=
  (List.range (str.utf8ByteSize + 1)).all fun i => value i = cstring str i

/-- `__of_device_is_available` -/
def ofDeviceIsAvailable (fuel : ℕ) (s : DevTree) (device : ℕ) : Option Bool :=
  (ofGetProperty fuel s device "status").map fun status =>
    match status with
    | none => true
    | some (value, statlen) => 0 < statlen && (strEq value "okay" || strEq value "ok")

/-- The loop of `of_get_next_available_child`. -/
def skipUnavailable (s : DevTree) : ℕ → Option ℕ → Option (Option ℕ)
  | 0, _ => none
  | fuel + 1, next =>
      match next with
      | none => some none
      | some next =>
          (ofDeviceIsAvailable (fuel + 1) s next).bind fun available =>
            if available then some (some next) else skipUnavailable s fuel (s.node next).sibling

/-- `of_get_next_available_child` -/
def ofGetNextAvailableChild (fuel : ℕ) (s : DevTree) (node : ℕ) (prev : Option ℕ) : Option (Option ℕ) :=
  skipUnavailable s fuel
    (match prev with
    | some prev => (s.node prev).sibling
    | none => (s.node node).child)

/-! ### The limit -/

/-- The loop over the ranges of a node, with `cpu_end`. -/
def maxCpuEnd : List Range → ℕ → ℕ
  | [], cpuEnd => cpuEnd
  | range :: ranges, cpuEnd =>
      maxCpuEnd ranges
        (if Range.next range.cpuAddr range.size > cpuEnd then Range.next range.cpuAddr range.size - 1 else cpuEnd)

/-- What else the code finds in memory: the bus of a node, and what lies in front of its
`dma-ranges`. -/
structure Surroundings where
  bus : ℕ → OfBus
  before : ℕ → ℤ → UInt8

/-- `of_dma_range_parser_init` -/
def ofDmaRangeParserInit (fuel : ℕ) (s : DevTree) (around : Surroundings) (np : ℕ) : Option (RangeParser × ℤ) :=
  parserInit fuel s (around.bus np) (around.before np) np "dma-ranges"

/-- `max_cpu_addr` before the loop over the children. -/
def dmaNodeLimit (phys64 : Bool) (translate : Translator) (fuel : ℕ) (s : DevTree) (around : Surroundings) (np : ℕ) :
    Option ℕ :=
  (ofGetProperty fuel s np "dma-ranges").bind fun ranges =>
    match ranges with
    | none => some (PHYS_ADDR_MAX phys64)
    | some (_, len) =>
        if len ≠ 0 then
          (ofDmaRangeParserInit fuel s around np).bind fun init =>
            (forEachOfRange translate fuel init.1).map fun ranges =>
              if PHYS_ADDR_MAX phys64 > maxCpuEnd ranges 0 then maxCpuEnd ranges 0 else PHYS_ADDR_MAX phys64
        else some (PHYS_ADDR_MAX phys64)

/-- The loop over the children, from `child` on. -/
def minOverChildren (s : DevTree) (limitOf : ℕ → Option ℕ) (np : ℕ) : ℕ → Option ℕ → ℕ → Option ℕ
  | 0, _, _ => none
  | fuel + 1, child, maxCpuAddr =>
      match child with
      | none => some maxCpuAddr
      | some child =>
          (limitOf child).bind fun subtreeMaxAddr =>
            (ofGetNextAvailableChild (fuel + 1) s np (some child)).bind fun next =>
              minOverChildren s limitOf np fuel next (if maxCpuAddr > subtreeMaxAddr then subtreeMaxAddr else maxCpuAddr)

/-- `of_dma_get_max_cpu_address` -/
def ofDmaGetMaxCpuAddress (phys64 : Bool) (translate : Translator) (s : DevTree) (around : Surroundings) :
    ℕ → Option ℕ → Option ℕ
  | 0, _ => none
  | fuel + 1, np =>
      match np.orElse fun _ => s.root with
      | none => some (PHYS_ADDR_MAX phys64)
      | some np =>
          (dmaNodeLimit phys64 translate (fuel + 1) s around np).bind fun maxCpuAddr =>
            (ofGetNextAvailableChild (fuel + 1) s np none).bind fun child =>
              minOverChildren s (fun child => ofDmaGetMaxCpuAddress phys64 translate s around fuel (some child)) np
                (fuel + 1) child maxCpuAddr

/-! ### The tightest limit -/

/-- The nodes that are reached from a link through available children. -/
inductive AvailableBelow (s : DevTree) : NodeSlot → List ℕ → Prop
  | none {l : NodeSlot} : s.nodeLink l = none → AvailableBelow s l []
  | skip {l : NodeSlot} {n : ℕ} {rest : List ℕ} : s.nodeLink l = some n →
      Returns (fun fuel => ofDeviceIsAvailable fuel s n) false → AvailableBelow s (.sibling n) rest →
      AvailableBelow s l rest
  | child {l : NodeSlot} {n : ℕ} {below rest : List ℕ} : s.nodeLink l = some n →
      Returns (fun fuel => ofDeviceIsAvailable fuel s n) true → AvailableBelow s (.child n) below →
      AvailableBelow s (.sibling n) rest → AvailableBelow s l (n :: below ++ rest)

/-- The node has a non-empty `dma-ranges`. -/
def Constrained (s : DevTree) (n : ℕ) : Prop :=
  ∃ value len, Returns (fun fuel => ofGetProperty fuel s n "dma-ranges") (some (value, len)) ∧ len ≠ 0

/-- The last addresses of the entries that are translated. -/
def lastAddresses (es : List Range) : Set ℤ := {a | ∃ e ∈ es, e.cpuAddr ≠ OF_BAD_ADDR ∧ a = e.cpuAddr + e.size - 1}

/-- The largest last address of each node with a non-empty `dma-ranges`. -/
def nodeLimits (translate : Translator) (s : DevTree) (parser : ℕ → RangeParser) (nodes : List ℕ) : Set ℤ :=
  {a | ∃ n ∈ nodes, Constrained s n ∧ ∃ es, (parser n).EntriesAre translate es ∧ IsGreatest (lastAddresses es) a}

/-- The least of the limits, or the highest address if there are none. -/
def IsTightest (phys64 : Bool) (limits : Set ℤ) (a : ℤ) : Prop :=
  IsLeast limits a ∨ limits = ∅ ∧ a = PHYS_ADDR_MAX phys64

/-- What the code makes of the limit `a`. It is kept if each node has a range that ends beyond
it, and there is a node without ranges that end further, both with ends of 64 bits. -/
structure LimitKept (phys64 : Bool) (s : DevTree) (entries : ℕ → List Range) (nodes : List ℕ) (a : ℤ) : Prop where
  fits : a ≤ PHYS_ADDR_MAX phys64
  reached : ∀ n ∈ nodes, Constrained s n → a ≤ 0 ∨ ∃ range ∈ merge (entries n), a < Range.next range.cpuAddr range.size
  bounded : a = PHYS_ADDR_MAX phys64 ∨
    0 ≤ a ∧ ∃ n ∈ nodes, Constrained s n ∧ ∀ range ∈ merge (entries n), Range.next range.cpuAddr range.size ≤ a + 1

variable {phys64 : Bool} {translate : Translator} {s : DevTree} {around : Surroundings} {l : NodeSlot} {n np : ℕ}
  {nodes below : List ℕ} {parser : ℕ → RangeParser} {entries : ℕ → List Range}

/-! ### The loops -/

theorem le_maxCpuEnd_iff (ranges : List Range) (cpuEnd : ℕ) (a : ℤ) :
    a ≤ maxCpuEnd ranges cpuEnd ↔ a ≤ cpuEnd ∨ ∃ range ∈ ranges, a < Range.next range.cpuAddr range.size := by
  induction ranges generalizing cpuEnd with
  | nil => simp [maxCpuEnd]
  | cons range ranges ih =>
    have hstep : a ≤ (if Range.next range.cpuAddr range.size > cpuEnd then Range.next range.cpuAddr range.size - 1
        else cpuEnd : ℕ) ↔ a ≤ cpuEnd ∨ a < Range.next range.cpuAddr range.size := by
      split_ifs with hlt <;> omega
    rw [maxCpuEnd, ih, hstep]
    simp only [List.mem_cons, exists_eq_or_imp, or_assoc]

/-- The minimum of the limits of some nodes and of `m`. -/
def minLimit (limit : ℕ → ℕ) (m : ℕ) (nodes : List ℕ) : ℕ := nodes.foldl (fun m n => min m (limit n)) m

theorem minLimit_min (limit : ℕ → ℕ) (m m' : ℕ) (nodes : List ℕ) :
    minLimit limit (min m m') nodes = min m (minLimit limit m' nodes) := by
  induction nodes generalizing m' with
  | nil => rfl
  | cons n nodes ih =>
    rw [minLimit, List.foldl_cons, min_assoc]
    exact ih (min m' (limit n))

theorem le_minLimit_iff (limit : ℕ → ℕ) (m : ℕ) (nodes : List ℕ) (a : ℤ) :
    a ≤ minLimit limit m nodes ↔ a ≤ m ∧ ∀ n ∈ nodes, a ≤ limit n := by
  induction nodes generalizing m with
  | nil => simp [minLimit]
  | cons n nodes ih =>
    have hmin : a ≤ (min m (limit n) : ℕ) ↔ a ≤ m ∧ a ≤ limit n := by omega
    have hstep : minLimit limit m (n :: nodes) = minLimit limit (min m (limit n)) nodes := rfl
    rw [hstep, ih, hmin, List.forall_mem_cons, and_assoc]

/-- The loop over the children, from a link on. -/
def minOverLink (s : DevTree) (limitOf : ℕ → Option ℕ) (np fuel fuel' : ℕ) (l : NodeSlot) (m : ℕ) : Option ℕ :=
  (skipUnavailable s fuel (s.nodeLink l)).bind fun child => minOverChildren s limitOf np fuel' child m

theorem ofDmaGetMaxCpuAddress_succ (fuel : ℕ) {start : Option ℕ} (hstart : (start.orElse fun _ => s.root) = some np) :
    ofDmaGetMaxCpuAddress phys64 translate s around (fuel + 1) start =
      (dmaNodeLimit phys64 translate (fuel + 1) s around np).bind fun m =>
        minOverLink s (fun child => ofDmaGetMaxCpuAddress phys64 translate s around fuel (some child)) np (fuel + 1) (fuel + 1)
          (.child np) m := by
  rw [ofDmaGetMaxCpuAddress, hstart]
  rfl

theorem minOverLink_skip {limitOf : ℕ → Option ℕ} {fuel fuel' m : ℕ} (hlink : s.nodeLink l = some n)
    (havailable : ofDeviceIsAvailable (fuel + 1) s n = some false) :
    minOverLink s limitOf np (fuel + 1) fuel' l m = minOverLink s limitOf np fuel fuel' (.sibling n) m := by
  rw [minOverLink, hlink, skipUnavailable]
  simp only [havailable, Option.bind_some, Bool.false_eq_true, if_false]
  rfl

theorem minOverLink_child {limitOf : ℕ → Option ℕ} {fuel fuel' m : ℕ} (hlink : s.nodeLink l = some n)
    (havailable : ofDeviceIsAvailable (fuel + 1) s n = some true) :
    minOverLink s limitOf np (fuel + 1) (fuel' + 1) l m =
      (limitOf n).bind fun sub => minOverLink s limitOf np (fuel' + 1) fuel' (.sibling n) (min m sub) := by
  have hmin : ∀ sub : ℕ, (if m > sub then sub else m) = min m sub := fun sub => by
    split_ifs <;> omega
  rw [minOverLink, hlink, skipUnavailable]
  simp only [havailable, Option.bind_some, if_true, minOverChildren, hmin]
  rfl

/-- The minimum over the nodes below a link, if each of them has a limit. -/
theorem minOverLink_returns {limit : ℕ → ℕ} (hbelow : AvailableBelow s l below)
    (hlimit : ∀ n ∈ below, Returns (fun fuel => dmaNodeLimit phys64 translate fuel s around n) (limit n)) :
    ∃ k, ∀ fuel fuel' fuel'' np m, k ≤ fuel → k ≤ fuel' → k ≤ fuel'' →
      minOverLink s (fun child => ofDmaGetMaxCpuAddress phys64 translate s around fuel'' (some child)) np fuel fuel' l m =
        some (minLimit limit m below) := by
  induction hbelow with
  | none hlink =>
    refine ⟨1, fun fuel fuel' fuel'' np m hfuel hfuel' _ => ?_⟩
    obtain ⟨fuel, rfl⟩ := Nat.exists_eq_add_of_le' hfuel
    obtain ⟨fuel', rfl⟩ := Nat.exists_eq_add_of_le' hfuel'
    rw [minOverLink, hlink]
    rfl
  | @skip l n rest hlink havailable _ ih =>
    obtain ⟨k, hk⟩ := ih hlimit
    obtain ⟨k', hk'⟩ := havailable
    refine ⟨k + k' + 1, fun fuel fuel' fuel'' np m hfuel hfuel' hfuel'' => ?_⟩
    obtain ⟨fuel, rfl⟩ := Nat.exists_eq_add_of_le' (Nat.le_of_add_left_le hfuel : 1 ≤ fuel)
    rw [minOverLink_skip hlink (hk' _ (by omega))]
    exact hk fuel fuel' fuel'' np m (by omega) (by omega) (by omega)
  | @child l n below rest hlink havailable _ _ ihbelow ihrest =>
    obtain ⟨k₁, hk₁⟩ := ihbelow fun c hc => hlimit c (by simp [hc])
    obtain ⟨k₂, hk₂⟩ := ihrest fun c hc => hlimit c (by simp [hc])
    obtain ⟨k₃, hk₃⟩ := havailable
    obtain ⟨k₄, hk₄⟩ := hlimit n (by simp)
    refine ⟨k₁ + k₂ + k₃ + k₄ + 1, fun fuel fuel' fuel'' np m hfuel hfuel' hfuel'' => ?_⟩
    obtain ⟨fuel, rfl⟩ := Nat.exists_eq_add_of_le' (Nat.le_of_add_left_le hfuel : 1 ≤ fuel)
    obtain ⟨fuel', rfl⟩ := Nat.exists_eq_add_of_le' (Nat.le_of_add_left_le hfuel' : 1 ≤ fuel')
    obtain ⟨fuel'', rfl⟩ := Nat.exists_eq_add_of_le' (Nat.le_of_add_left_le hfuel'' : 1 ≤ fuel'')
    have hself : dmaNodeLimit phys64 translate (fuel'' + 1) s around n = some (limit n) := hk₄ _ (by omega)
    have hsub : ofDmaGetMaxCpuAddress phys64 translate s around (fuel'' + 1) (some n) =
        some (minLimit limit (limit n) below) := by
      rw [ofDmaGetMaxCpuAddress_succ fuel'' rfl, hself, Option.bind_some]
      exact hk₁ _ _ _ n _ (by omega) (by omega) (by omega)
    have happend : minLimit limit m (n :: below ++ rest) = minLimit limit (minLimit limit (min m (limit n)) below) rest :=
      List.foldl_append
    rw [minOverLink_child hlink (hk₃ _ (by omega)), hsub, Option.bind_some, hk₂ _ _ _ np _ (by omega) (by omega) (by omega),
      ← minLimit_min, happend]

/-- If the loop returns, then it has found the limit of each of the nodes. -/
theorem of_minOverLink (phys64 : Bool) (translate : Translator) {P : ℕ → Prop} (hbelow : AvailableBelow s l below)
    (hlimit : ∀ n ∈ below, ∃ k, ∀ fuel, k ≤ fuel → ∀ limit, dmaNodeLimit phys64 translate fuel s around n = some limit → P n) :
    ∃ k, ∀ fuel fuel' fuel'' np m limit, k ≤ fuel → k ≤ fuel' → k ≤ fuel'' →
      minOverLink s (fun child => ofDmaGetMaxCpuAddress phys64 translate s around fuel'' (some child)) np fuel fuel' l m =
        some limit → ∀ n ∈ below, P n := by
  induction hbelow with
  | none hlink => exact ⟨0, fun _ _ _ _ _ _ _ _ _ _ n hn => absurd hn List.not_mem_nil⟩
  | @skip l n rest hlink havailable _ ih =>
    obtain ⟨k, hk⟩ := ih hlimit
    obtain ⟨k', hk'⟩ := havailable
    refine ⟨k + k' + 1, fun fuel fuel' fuel'' np m limit hfuel hfuel' hfuel'' hloop => ?_⟩
    obtain ⟨fuel, rfl⟩ := Nat.exists_eq_add_of_le' (Nat.le_of_add_left_le hfuel : 1 ≤ fuel)
    rw [minOverLink_skip hlink (hk' _ (by omega))] at hloop
    exact hk fuel fuel' fuel'' np m limit (by omega) (by omega) (by omega) hloop
  | @child l n below rest hlink havailable _ _ ihbelow ihrest =>
    obtain ⟨k₁, hk₁⟩ := ihbelow fun c hc => hlimit c (by simp [hc])
    obtain ⟨k₂, hk₂⟩ := ihrest fun c hc => hlimit c (by simp [hc])
    obtain ⟨k₃, hk₃⟩ := havailable
    obtain ⟨k₄, hk₄⟩ := hlimit n (by simp)
    refine ⟨k₁ + k₂ + k₃ + k₄ + 1, fun fuel fuel' fuel'' np m limit hfuel hfuel' hfuel'' hloop => ?_⟩
    obtain ⟨fuel, rfl⟩ := Nat.exists_eq_add_of_le' (Nat.le_of_add_left_le hfuel : 1 ≤ fuel)
    obtain ⟨fuel', rfl⟩ := Nat.exists_eq_add_of_le' (Nat.le_of_add_left_le hfuel' : 1 ≤ fuel')
    obtain ⟨fuel'', rfl⟩ := Nat.exists_eq_add_of_le' (Nat.le_of_add_left_le hfuel'' : 1 ≤ fuel'')
    rw [minOverLink_child hlink (hk₃ _ (by omega))] at hloop
    obtain ⟨sub, hsub, hloop⟩ := Option.bind_eq_some_iff.1 hloop
    rw [ofDmaGetMaxCpuAddress_succ fuel'' rfl] at hsub
    obtain ⟨m', hself, hsub⟩ := Option.bind_eq_some_iff.1 hsub
    have hn : P n := hk₄ _ (by omega) m' hself
    have hbelow : ∀ c ∈ below, P c := hk₁ _ _ _ n m' sub (by omega) (by omega) (by omega) hsub
    have hrest : ∀ c ∈ rest, P c := hk₂ _ _ _ np _ limit (by omega) (by omega) (by omega) hloop
    exact List.forall_mem_append.2 ⟨List.forall_mem_cons.2 ⟨hn, hbelow⟩, hrest⟩

/-! ### The limit of a node -/

/-- The entries of a node were read, if it has any. -/
def EntriesRead (translate : Translator) (s : DevTree) (parser : ℕ → RangeParser) (entries : ℕ → List Range) (n : ℕ) : Prop :=
  Constrained s n → ReadsAs translate (parser n) 0 (entries n)

theorem ofGetProperty_returns {fuel np : ℕ} {name : String} {value : Option (Bytes × ℕ)}
    (h : ofGetProperty fuel s np name = some value) : Returns (fun fuel => ofGetProperty fuel s np name) value := by
  obtain ⟨found, hfound, rfl⟩ := Option.map_eq_some_iff.1 h
  obtain ⟨slot, hslot, rfl⟩ := Option.map_eq_some_iff.1 hfound
  refine ⟨fuel, fun fuel' hle => ?_⟩
  have hwalk : walkProps s (fun pp => (s.prop pp).name = name) fuel' (.properties np) = some slot := walk_mono hslot hle
  simp only [ofGetProperty, ofFindProperty, hwalk, Option.map_some]

theorem parserInit_property {bus : OfBus} {before : ℤ → UInt8} {fuel : ℕ} {name : String} {p : RangeParser} {ret : ℤ}
    (h : parserInit fuel s bus before n name = some (p, ret)) :
    ∃ value, Returns (fun fuel => ofGetProperty fuel s n name) value ∧ (value.isSome → p.range = some 0) := by
  simp only [parserInit, Option.bind_eq_some_iff, Option.map_eq_some_iff] at h
  obtain ⟨pna, -, na, -, ns, -, value, hvalue, h⟩ := h
  refine ⟨value, ofGetProperty_returns hvalue, fun hsome => ?_⟩
  obtain ⟨value, rfl⟩ := Option.isSome_iff_exists.1 hsome
  obtain ⟨rfl, -⟩ := Prod.mk.inj h
  rfl

/-- A node is constrained or not, and `dmaNodeLimit` sees which. -/
theorem dmaNodeLimit_cases (phys64 : Bool) (translate : Translator) {ret : ℤ}
    (hparser : Returns (fun fuel => ofDmaRangeParserInit fuel s around n) (parser n, ret)) :
    ¬ Constrained s n ∧ Returns (fun fuel => dmaNodeLimit phys64 translate fuel s around n) (PHYS_ADDR_MAX phys64) ∨
    Constrained s n ∧ (parser n).range = some 0 ∧
      ∃ k, ∀ fuel, k ≤ fuel → dmaNodeLimit phys64 translate fuel s around n =
        (forEachOfRange translate fuel (parser n)).map fun ranges => min (PHYS_ADDR_MAX phys64) (maxCpuEnd ranges 0) := by
  obtain ⟨k, hk⟩ := hparser
  obtain ⟨value, ⟨k', hk'⟩, hrange⟩ := parserInit_property (hk k (le_refl k))
  by_cases hvalue : ∃ bytes len, value = some (bytes, len) ∧ len ≠ 0
  · obtain ⟨bytes, len, rfl, hlen⟩ := hvalue
    refine .inr ⟨⟨bytes, len, ⟨k', hk'⟩, hlen⟩, hrange rfl, max k k', fun fuel hfuel => ?_⟩
    have hprop : ofGetProperty fuel s n "dma-ranges" = some (some (bytes, len)) := hk' fuel (by omega)
    have hinit : ofDmaRangeParserInit fuel s around n = some (parser n, ret) := hk fuel (by omega)
    have hmin : ∀ m m' : ℕ, (if m > m' then m' else m) = min m m' := fun m m' => by
      split_ifs <;> omega
    simp only [dmaNodeLimit, hprop, hinit, Option.bind_some, hlen, ne_eq, not_false_eq_true, if_true, hmin]
  · refine .inl ⟨?_, k', fun fuel hfuel => ?_⟩
    · rintro ⟨bytes, len, hreturns, hlen⟩
      exact hvalue ⟨bytes, len, Returns.unique ⟨k', hk'⟩ hreturns, hlen⟩
    · have hprop : ofGetProperty fuel s n "dma-ranges" = some value := hk' fuel hfuel
      simp only [dmaNodeLimit, hprop, Option.bind_some]
      cases value with
      | none => rfl
      | some value =>
        obtain ⟨bytes, len⟩ := value
        have hlen : len = 0 := by
          by_contra hlen
          exact hvalue ⟨bytes, len, rfl, hlen⟩
        simp [hlen]

theorem dmaNodeLimit_returns {ret : ℤ} (hparser : Returns (fun fuel => ofDmaRangeParserInit fuel s around n) (parser n, ret))
    (hread : EntriesRead translate s parser entries n) :
    ∃ limit, Returns (fun fuel => dmaNodeLimit phys64 translate fuel s around n) limit ∧
      ∀ a : ℤ, a ≤ limit ↔ a ≤ PHYS_ADDR_MAX phys64 ∧ (Constrained s n →
        a ≤ 0 ∨ ∃ range ∈ merge (entries n), a < Range.next range.cpuAddr range.size) := by
  obtain ⟨hfree, hlimit⟩ | ⟨hconstrained, hstart, k, hk⟩ := dmaNodeLimit_cases phys64 translate hparser
  · exact ⟨_, hlimit, fun a => by simp [hfree]⟩
  · obtain ⟨k', hk'⟩ := (forEachOfRange_start_iff hstart).2 ⟨entries n, hread hconstrained, rfl⟩
    refine ⟨min (PHYS_ADDR_MAX phys64) (maxCpuEnd (merge (entries n)) 0), ⟨max k k', fun fuel hfuel => ?_⟩, fun a => ?_⟩
    · have hranges : forEachOfRange translate fuel (parser n) = some (merge (entries n)) := hk' fuel (by omega)
      have hlimit := hk fuel (by omega)
      rw [hranges] at hlimit
      exact hlimit
    · have hend := le_maxCpuEnd_iff (merge (entries n)) 0 a
      have hmin : ∀ m m' : ℕ, a ≤ (min m m' : ℕ) ↔ a ≤ m ∧ a ≤ m' := fun m m' => by omega
      rw [hmin, hend]
      simp [hconstrained]

/-- A limit is only returned if the entries could be read. -/
theorem of_dmaNodeLimit (phys64 : Bool) (translate : Translator) {ret : ℤ}
    (hparser : Returns (fun fuel => ofDmaRangeParserInit fuel s around n) (parser n, ret)) :
    ∃ k, ∀ fuel, k ≤ fuel → ∀ limit, dmaNodeLimit phys64 translate fuel s around n = some limit →
      ∃ es, Constrained s n → ReadsAs translate (parser n) 0 es := by
  obtain ⟨hfree, -⟩ | ⟨hconstrained, hstart, k, hk⟩ := dmaNodeLimit_cases phys64 translate hparser
  · exact ⟨0, fun fuel _ limit _ => ⟨[], fun h => absurd h hfree⟩⟩
  · refine ⟨k, fun fuel hfuel limit hlimit => ?_⟩
    rw [hk fuel hfuel] at hlimit
    obtain ⟨ranges, hranges, -⟩ := Option.map_eq_some_iff.1 hlimit
    obtain ⟨es, hes⟩ := ReadsAs.of_start hstart hranges
    exact ⟨es, fun _ => hes⟩

/-! ### The tree -/

/-- Each of the nodes has its parser. -/
def ParsersAre (s : DevTree) (around : Surroundings) (parser : ℕ → RangeParser) (nodes : List ℕ) : Prop :=
  ∀ n ∈ nodes, ∃ ret, Returns (fun fuel => ofDmaRangeParserInit fuel s around n) (parser n, ret)

/-- What the code returns if all entries can be read, as numbers below it. -/
theorem ofDmaGetMaxCpuAddress_returns (phys64 : Bool) {start : Option ℕ} (hstart : (start.orElse fun _ => s.root) = some np)
    (hbelow : AvailableBelow s (.child np) below) (hparser : ParsersAre s around parser (np :: below))
    (hread : ∀ n ∈ np :: below, EntriesRead translate s parser entries n) :
    ∃ r, Returns (fun fuel => ofDmaGetMaxCpuAddress phys64 translate s around fuel start) r ∧
      ∀ a : ℤ, a ≤ r ↔ a ≤ PHYS_ADDR_MAX phys64 ∧ ∀ n ∈ np :: below, Constrained s n →
        a ≤ 0 ∨ ∃ range ∈ merge (entries n), a < Range.next range.cpuAddr range.size := by
  have hlimit : ∀ n, ∃ limit, n ∈ np :: below →
      Returns (fun fuel => dmaNodeLimit phys64 translate fuel s around n) limit ∧
        ∀ a : ℤ, a ≤ limit ↔ a ≤ PHYS_ADDR_MAX phys64 ∧ (Constrained s n →
          a ≤ 0 ∨ ∃ range ∈ merge (entries n), a < Range.next range.cpuAddr range.size) := by
    intro n
    by_cases hn : n ∈ np :: below
    · obtain ⟨ret, hret⟩ := hparser n hn
      obtain ⟨limit, hlimit⟩ := dmaNodeLimit_returns hret (hread n hn)
      exact ⟨limit, fun _ => hlimit⟩
    · exact ⟨0, fun h => absurd h hn⟩
  choose limit hlimit using hlimit
  obtain ⟨k, hk⟩ := (hlimit np List.mem_cons_self).1
  obtain ⟨k', hk'⟩ := minOverLink_returns hbelow fun n hn => (hlimit n (List.mem_cons_of_mem np hn)).1
  refine ⟨minLimit limit (limit np) below, ⟨k + k' + 1, fun fuel hfuel => ?_⟩, fun a => ?_⟩
  · obtain ⟨fuel, rfl⟩ := Nat.exists_eq_add_of_le' (Nat.le_of_add_left_le hfuel : 1 ≤ fuel)
    have hself : dmaNodeLimit phys64 translate (fuel + 1) s around np = some (limit np) := hk _ (by omega)
    have hloop := hk' (fuel + 1) (fuel + 1) fuel np (limit np) (by omega) (by omega) (by omega)
    simp only [ofDmaGetMaxCpuAddress_succ fuel hstart, hself, Option.bind_some, hloop]
  · rw [le_minLimit_iff, ← List.forall_mem_cons (p := fun n => a ≤ limit n)]
    constructor
    · intro ha
      have hnode := fun n hn => ((hlimit n hn).2 a).1 (ha n hn)
      exact ⟨(hnode np List.mem_cons_self).1, fun n hn => (hnode n hn).2⟩
    · rintro ⟨hmax, ha⟩ n hn
      exact ((hlimit n hn).2 a).2 ⟨hmax, ha n hn⟩

/-- If the code returns, then all entries could be read. -/
theorem of_ofDmaGetMaxCpuAddress {start : Option ℕ} {r : ℕ} (hstart : (start.orElse fun _ => s.root) = some np)
    (hbelow : AvailableBelow s (.child np) below) (hparser : ParsersAre s around parser (np :: below))
    (h : Returns (fun fuel => ofDmaGetMaxCpuAddress phys64 translate s around fuel start) r) :
    ∃ entries, ∀ n ∈ np :: below, EntriesRead translate s parser entries n := by
  have hnode : ∀ n ∈ np :: below, ∃ es, Constrained s n → ReadsAs translate (parser n) 0 es := by
    obtain ⟨k, hk⟩ := h
    obtain ⟨ret, hret⟩ := hparser np List.mem_cons_self
    obtain ⟨k₁, hk₁⟩ := of_dmaNodeLimit phys64 translate hret
    obtain ⟨k₂, hk₂⟩ := of_minOverLink phys64 translate hbelow fun n hn => by
      obtain ⟨ret, hret⟩ := hparser n (List.mem_cons_of_mem np hn)
      exact of_dmaNodeLimit phys64 translate hret
    have hrun := hk (k + k₁ + k₂ + 1) (by omega)
    simp only [ofDmaGetMaxCpuAddress_succ _ hstart] at hrun
    obtain ⟨m, hself, hloop⟩ := Option.bind_eq_some_iff.1 hrun
    exact List.forall_mem_cons.2 ⟨hk₁ _ (by omega) m hself, hk₂ _ _ _ np m r (by omega) (by omega) (by omega) hloop⟩
  have hentries : ∀ n, ∃ es, n ∈ np :: below → Constrained s n → ReadsAs translate (parser n) 0 es := by
    intro n
    by_cases hn : n ∈ np :: below
    · obtain ⟨es, hes⟩ := hnode n hn
      exact ⟨es, fun _ => hes⟩
    · exact ⟨[], fun h => absurd h hn⟩
  choose entries hentries using hentries
  exact ⟨entries, hentries⟩

/-- A limit is what the code returns exactly if it is kept. -/
theorem limitKept_iff {r : ℕ} {a : ℤ}
    (hr : ∀ a : ℤ, a ≤ r ↔ a ≤ PHYS_ADDR_MAX phys64 ∧ ∀ n ∈ nodes, Constrained s n →
      a ≤ 0 ∨ ∃ range ∈ merge (entries n), a < Range.next range.cpuAddr range.size) :
    (r : ℤ) = a ↔ LimitKept phys64 s entries nodes a := by
  constructor
  · rintro rfl
    obtain ⟨hmax, hreached⟩ := (hr r).1 (le_refl _)
    refine ⟨hmax, hreached, ?_⟩
    by_contra hfurther
    obtain ⟨hne, hnone⟩ := not_or.1 hfurther
    -- else the number after it were a bound as well
    have hnext : (r + 1 : ℤ) ≤ r := by
      refine (hr (r + 1)).2 ⟨by omega, fun n hn hconstrained => ?_⟩
      by_contra hbeyond
      obtain ⟨-, hbeyond⟩ := not_or.1 hbeyond
      refine hnone ⟨Int.natCast_nonneg r, n, hn, hconstrained, fun range hrange => ?_⟩
      by_contra hlt
      exact hbeyond ⟨range, hrange, by omega⟩
    omega
  · rintro ⟨hmax, hreached, hbounded⟩
    have hle : a ≤ r := (hr a).2 ⟨hmax, hreached⟩
    obtain ⟨hrmax, hrreached⟩ := (hr r).1 (le_refl _)
    obtain rfl | ⟨hnonneg, n, hn, hconstrained, hends⟩ := hbounded
    · omega
    · obtain hzero | ⟨range, hrange, hlt⟩ := hrreached n hn hconstrained
      · omega
      · have hend := hends range hrange
        omega

/-- The code returns the tightest limit exactly if the entries of all nodes can be read, and
the limit is kept. -/
theorem ofDmaGetMaxCpuAddress_tightest (phys64 : Bool) (translate : Translator) (s : DevTree) (around : Surroundings)
    (start : Option ℕ) (np : ℕ) (below : List ℕ) (parser : ℕ → RangeParser)
    (hstart : (start.orElse fun _ => s.root) = some np) (hbelow : AvailableBelow s (.child np) below)
    (hparser : ParsersAre s around parser (np :: below)) :
    (∃ r : ℕ, Returns (fun fuel => ofDmaGetMaxCpuAddress phys64 translate s around fuel start) r ∧
        IsTightest phys64 (nodeLimits translate s parser (np :: below)) r) ↔
      ∃ entries, (∀ n ∈ np :: below, EntriesRead translate s parser entries n) ∧
        ∃ a, IsTightest phys64 (nodeLimits translate s parser (np :: below)) a ∧
          LimitKept phys64 s entries (np :: below) a := by
  constructor
  · rintro ⟨r, hreturns, htight⟩
    obtain ⟨entries, hread⟩ := of_ofDmaGetMaxCpuAddress hstart hbelow hparser hreturns
    obtain ⟨r', hreturns', hr'⟩ := ofDmaGetMaxCpuAddress_returns phys64 hstart hbelow hparser hread
    obtain rfl := hreturns.unique hreturns'
    exact ⟨entries, hread, r, htight, (limitKept_iff hr').1 rfl⟩
  · rintro ⟨entries, hread, a, htight, hkept⟩
    obtain ⟨r, hreturns, hr⟩ := ofDmaGetMaxCpuAddress_returns phys64 hstart hbelow hparser hread
    obtain rfl := (limitKept_iff hr).2 hkept
    exact ⟨r, hreturns, htight⟩

/-! ### Ranges without wrapping -/

/-- The entries of a node are translated and end below `PHYS_ADDR_MAX`. -/
structure EntriesPlain (phys64 : Bool) (es : List Range) : Prop where
  nonempty : es ≠ []
  translated : ∀ e ∈ es, e.cpuAddr ≠ OF_BAD_ADDR
  positive : ∀ e ∈ es, 0 < e.cpuAddr + e.size
  inside : ∀ e ∈ es, e.cpuAddr + e.size ≤ PHYS_ADDR_MAX phys64

theorem lt_of_le_PHYS_ADDR_MAX {a : ℕ} (h : a ≤ PHYS_ADDR_MAX phys64) : a < 2 ^ 64 := by
  unfold PHYS_ADDR_MAX at h
  split_ifs at h <;> omega

/-- Merging keeps the ends that matter: a range ends where one of its entries does, and where
an entry is continued the range goes on. -/
theorem mergeFrom_ends {range : Range} {es : List Range} (hinside : ∀ e ∈ range :: es, e.cpuAddr + e.size < 2 ^ 64) (a : ℕ) :
    (∃ r ∈ mergeFrom range es, a < Range.next r.cpuAddr r.size) ↔ ∃ e ∈ range :: es, a < e.cpuAddr + e.size := by
  induction es generalizing range with
  | nil =>
    have hnext : Range.next range.cpuAddr range.size = range.cpuAddr + range.size :=
      Nat.mod_eq_of_lt (hinside range List.mem_cons_self)
    simp [mergeFrom, hnext]
  | cons e es ih =>
    obtain ⟨hrange, he, hes⟩ : range.cpuAddr + range.size < 2 ^ 64 ∧ e.cpuAddr + e.size < 2 ^ 64 ∧
        ∀ x ∈ es, x.cpuAddr + x.size < 2 ^ 64 := by
      simpa only [List.forall_mem_cons] using hinside
    have hnext : Range.next range.cpuAddr range.size = range.cpuAddr + range.size := Nat.mod_eq_of_lt hrange
    rw [mergeFrom]
    split_ifs with hjoin
    · have hcpu : e.cpuAddr = range.cpuAddr + range.size := hjoin.2.2.trans hnext
      have hgrow : (range.grow e).cpuAddr + (range.grow e).size = e.cpuAddr + e.size := by
        simp only [Range.grow, Range.next] at he ⊢
        omega
      rw [ih (List.forall_mem_cons.2 ⟨by omega, hes⟩)]
      simp only [List.mem_cons, exists_eq_or_imp, hgrow]
      constructor
      · exact .inr
      · rintro (hlt | hrest)
        · exact .inl (by omega)
        · exact hrest
    · have htail := ih (List.forall_mem_cons.2 ⟨he, hes⟩)
      simp only [List.mem_cons, exists_eq_or_imp, hnext] at htail ⊢
      rw [htail]

theorem merge_ends {es : List Range} (hplain : EntriesPlain phys64 es) (a : ℕ) :
    (∃ r ∈ merge es, a < Range.next r.cpuAddr r.size) ↔ ∃ e ∈ es, a < e.cpuAddr + e.size := by
  obtain ⟨e, es, rfl⟩ := List.exists_cons_of_ne_nil hplain.nonempty
  exact mergeFrom_ends (fun e he => lt_of_le_PHYS_ADDR_MAX (hplain.inside e he)) a

/-- Where nothing wraps and all ranges are translated, the code returns the tightest limit. -/
theorem ofDmaGetMaxCpuAddress_of_plain {start : Option ℕ} (hstart : (start.orElse fun _ => s.root) = some np)
    (hbelow : AvailableBelow s (.child np) below) (hparser : ParsersAre s around parser (np :: below))
    (hread : ∀ n ∈ np :: below, Constrained s n → ReadsAs translate (parser n) 0 (entries n) ∧
      (parser n).EntriesAre translate (entries n) ∧ EntriesPlain phys64 (entries n)) :
    ∃ r : ℕ, Returns (fun fuel => ofDmaGetMaxCpuAddress phys64 translate s around fuel start) r ∧
      IsTightest phys64 (nodeLimits translate s parser (np :: below)) r := by
  obtain ⟨r, hreturns, hr⟩ := ofDmaGetMaxCpuAddress_returns phys64 hstart hbelow hparser fun n hn hc => (hread n hn hc).1
  obtain ⟨hmax, hreached, hbounded⟩ := (limitKept_iff hr).1 rfl
  -- each node has an entry that ends beyond the limit
  have hentry : ∀ n ∈ np :: below, Constrained s n → ∃ e ∈ entries n, r < e.cpuAddr + e.size := by
    intro n hn hc
    obtain ⟨-, -, hplain⟩ := hread n hn hc
    obtain hzero | ⟨range, hrange, hbeyond⟩ := hreached n hn hc
    · obtain ⟨e, es, hes⟩ := List.exists_cons_of_ne_nil hplain.nonempty
      have he : e ∈ entries n := hes ▸ List.mem_cons_self
      have hpositive := hplain.positive e he
      exact ⟨e, he, by omega⟩
    · exact (merge_ends hplain r).1 ⟨range, hrange, by omega⟩
  refine ⟨r, hreturns, ?_⟩
  by_cases hnone : ∃ n ∈ np :: below, Constrained s n
  · obtain ⟨n, hn, hc⟩ := hnone
    have hlt : r < PHYS_ADDR_MAX phys64 := by
      obtain ⟨e, he, hlt⟩ := hentry n hn hc
      exact hlt.trans_le ((hread n hn hc).2.2.inside e he)
    obtain heq | ⟨-, n, hn, hc, hends⟩ := hbounded
    · omega
    refine .inl ⟨?_, ?_⟩
    · obtain ⟨-, hes, hplain⟩ := hread n hn hc
      obtain ⟨e, he, hlt⟩ := hentry n hn hc
      -- no entry ends further than where the last merged range does
      have hlast : ∀ e ∈ entries n, e.cpuAddr + e.size ≤ r + 1 := by
        intro e he
        by_contra hbeyond
        obtain ⟨range, hrange, hfurther⟩ := (merge_ends hplain (r + 1)).2 ⟨e, he, not_le.1 hbeyond⟩
        have hend := hends range hrange
        omega
      refine ⟨n, hn, hc, entries n, hes, ⟨e, he, hplain.translated e he, ?_⟩, ?_⟩
      · have hle := hlast e he
        omega
      · rintro a ⟨e', he', -, rfl⟩
        have hle := hlast e' he'
        omega
    · rintro a ⟨n, hn, hc, es, hes, hgreatest⟩
      obtain ⟨-, hes', hplain⟩ := hread n hn hc
      obtain rfl := hes.unique hes'
      obtain ⟨e, he, hlt⟩ := hentry n hn hc
      have hle := hgreatest.2 ⟨e, he, hplain.translated e he, rfl⟩
      omega
  · have hempty : nodeLimits translate s parser (np :: below) = ∅ := by
      refine Set.eq_empty_iff_forall_notMem.2 fun a => ?_
      rintro ⟨n, hn, hc, -⟩
      exact hnone ⟨n, hn, hc⟩
    obtain heq | ⟨-, n, hn, hc, -⟩ := hbounded
    · exact .inr ⟨hempty, heq⟩
    · exact absurd ⟨n, hn, hc⟩ hnone

/-! ### A bus with one window -/

/-- A bus `1` below the root `0`, with its `dma-ranges`. -/
def dmaBus (count : ℕ) (ranges : List ℕ) : DevTree :=
  { oneBus count count count count ranges with
    prop := fun p =>
      if p = 14 then ⟨"dma-ranges", 4 * ranges.length, cellBytes ranges, none⟩
      else (oneBus count count count count ranges).prop p }

/-- All buses are default buses. -/
def plainSurroundings : Surroundings := ⟨fun _ => .default, fun _ _ => 0⟩

/-- The parsers of the root, which has no `dma-ranges`, and of the bus. -/
def dmaBusParser (count : ℕ) (ranges : List ℕ) (n : ℕ) : RangeParser :=
  if n = 0 then
    { node := 0, bus := .default, range := none, end_ := 0, na := toInt (be32ToCpup (smallCell count)),
      ns := toInt (be32ToCpup (smallCell count)), pna := toInt (be32ToCpup (smallCell count)), dma := true,
      byte := fun _ => 0 }
  else { oneBusParser count count count ranges with dma := true }

section

variable {count : ℕ} {ranges : List ℕ}

theorem dmaBus_root_props (name : String) : Returns (fun fuel => ofGetProperty fuel (dmaBus count ranges) 0 name)
    (([10, 11].find? fun p => ((dmaBus count ranges).prop p).name = name).map fun p =>
      (((dmaBus count ranges).prop p).value, ((dmaBus count ranges).prop p).length)) :=
  ofGetProperty_chain name ⟨rfl, rfl, rfl⟩

theorem dmaBus_bus_props (name : String) : Returns (fun fuel => ofGetProperty fuel (dmaBus count ranges) 1 name)
    (([12, 13, 14].find? fun p => ((dmaBus count ranges).prop p).name = name).map fun p =>
      (((dmaBus count ranges).prop p).value, ((dmaBus count ranges).prop p).length)) :=
  ofGetProperty_chain name ⟨rfl, rfl, rfl, rfl⟩

theorem dmaBus_parsers : ParsersAre (dmaBus count ranges) plainSurroundings (dmaBusParser count ranges) [0, 1] := by
  have hroot : Returns (fun fuel => ofGetProperty fuel (dmaBus count ranges) 0 "#address-cells") (some (smallCell count, 4)) :=
    dmaBus_root_props "#address-cells"
  have hrootSize : Returns (fun fuel => ofGetProperty fuel (dmaBus count ranges) 0 "#size-cells") (some (smallCell count, 4)) :=
    dmaBus_root_props "#size-cells"
  have hbus : Returns (fun fuel => ofGetProperty fuel (dmaBus count ranges) 1 "#address-cells") (some (smallCell count, 4)) :=
    dmaBus_bus_props "#address-cells"
  have hbusSize : Returns (fun fuel => ofGetProperty fuel (dmaBus count ranges) 1 "#size-cells") (some (smallCell count, 4)) :=
    dmaBus_bus_props "#size-cells"
  have hnone : Returns (fun fuel => ofGetProperty fuel (dmaBus count ranges) 0 "dma-ranges") none :=
    dmaBus_root_props "dma-ranges"
  have hranges : Returns (fun fuel => ofGetProperty fuel (dmaBus count ranges) 1 "dma-ranges")
      (some (cellBytes ranges, 4 * ranges.length)) :=
    dmaBus_bus_props "dma-ranges"
  intro n hn
  obtain rfl | hn := List.mem_cons.1 hn
  · exact ⟨_, parserInit_returns .default (fun _ => 0) (ofBusNCells_own hroot (le_refl 4)) (ofBusNCells_own hroot (le_refl 4))
      (ofBusNCells_own hrootSize (le_refl 4)) hnone⟩
  · obtain rfl := List.mem_singleton.1 hn
    have hinit := parserInit_returns .default (fun _ => 0) (ofBusNCells_own hroot (le_refl 4))
      (ofBusNCells_own hbus (le_refl 4)) (ofBusNCells_own hbusSize (le_refl 4)) hranges
    rw [Option.elim_some, Nat.mul_div_cancel_left _ (by decide)] at hinit
    exact ⟨0, hinit⟩

theorem dmaBus_below : AvailableBelow (dmaBus count ranges) (.child 0) [1] := by
  have hstatus : Returns (fun fuel => ofGetProperty fuel (dmaBus count ranges) 1 "status") none := dmaBus_bus_props "status"
  obtain ⟨k, hk⟩ := hstatus
  have havailable : Returns (fun fuel => ofDeviceIsAvailable fuel (dmaBus count ranges) 1) true := by
    refine ⟨k, fun fuel hfuel => ?_⟩
    have hnone : ofGetProperty fuel (dmaBus count ranges) 1 "status" = some none := hk fuel hfuel
    simp only [ofDeviceIsAvailable, hnone, Option.map_some]
  exact .child rfl havailable (.none rfl) (.none rfl)

theorem dmaBus_constrained (hranges : ranges ≠ []) : Constrained (dmaBus count ranges) 1 :=
  ⟨_, _, dmaBus_bus_props "dma-ranges", Nat.mul_ne_zero (by decide) (List.length_pos_of_ne_nil hranges).ne'⟩

theorem dmaBus_not_constrained : ¬ Constrained (dmaBus count ranges) 0 := by
  rintro ⟨value, len, hget, -⟩
  have hnone : Returns (fun fuel => ofGetProperty fuel (dmaBus count ranges) 0 "dma-ranges") none :=
    dmaBus_root_props "dma-ranges"
  exact absurd (hget.unique hnone) (by simp)

/-- With one window that is translated there is one limit. -/
theorem dmaBus_nodeLimits {e : Range} (hranges : ranges ≠ [])
    (hes : (dmaBusParser count ranges 1).EntriesAre translate [e]) (hcpu : e.cpuAddr ≠ OF_BAD_ADDR) :
    nodeLimits translate (dmaBus count ranges) (dmaBusParser count ranges) [0, 1] = {(e.cpuAddr + e.size - 1 : ℤ)} := by
  have hlast : lastAddresses [e] = {(e.cpuAddr + e.size - 1 : ℤ)} := by
    ext a
    simp [lastAddresses, hcpu]
  ext a
  constructor
  · rintro ⟨n, hn, hconstrained, es, hes', hgreatest⟩
    obtain rfl | hn := List.mem_cons.1 hn
    · exact absurd hconstrained dmaBus_not_constrained
    · obtain rfl := List.mem_singleton.1 hn
      rw [hes'.unique hes, hlast] at hgreatest
      exact hgreatest.1
  · rintro rfl
    exact ⟨1, by simp, dmaBus_constrained hranges, [e], hes, hlast ▸ isGreatest_singleton⟩

theorem dmaBus_read {e : Range} (hreads : ReadsAs translate (dmaBusParser count ranges 1) 0 [e]) :
    ∀ n ∈ [0, 1], EntriesRead translate (dmaBus count ranges) (dmaBusParser count ranges) (fun _ => [e]) n := by
  intro n hn hconstrained
  obtain rfl | hn := List.mem_cons.1 hn
  · exact absurd hconstrained dmaBus_not_constrained
  · obtain rfl := List.mem_singleton.1 hn
    exact hreads

end

/-- A window with `0x1000` addresses. -/
def smallWindow : List ℕ := [0, 0x40000000, 0x1000]

theorem smallWindow_entries :
    (dmaBusParser 1 smallWindow 1).EntriesAre (liveTranslator (dmaBus 1 smallWindow)) [⟨IORESOURCE_MEM, 0, 0x40000000, 0x1000⟩] :=
  ⟨by decide, by decide⟩

theorem ofDmaGetMaxCpuAddress_tightest_smallWindow :
    ∃ r : ℕ, Returns (fun fuel => ofDmaGetMaxCpuAddress false (liveTranslator (dmaBus 1 smallWindow)) (dmaBus 1 smallWindow)
        plainSurroundings fuel none) r ∧
      IsTightest false (nodeLimits (liveTranslator (dmaBus 1 smallWindow)) (dmaBus 1 smallWindow) (dmaBusParser 1 smallWindow)
        [0, 1]) r := by
  have hlimits := dmaBus_nodeLimits (by decide) smallWindow_entries (by decide)
  have hreads := (RangeParser.readsAs_iff_entriesAre (by decide) (by decide)).2 smallWindow_entries
  refine (ofDmaGetMaxCpuAddress_tightest false (liveTranslator (dmaBus 1 smallWindow)) (dmaBus 1 smallWindow) plainSurroundings
    none 0 [1] (dmaBusParser 1 smallWindow) rfl dmaBus_below dmaBus_parsers).2 ⟨_, dmaBus_read hreads, 0x40000fff, ?_, ?_⟩
  · rw [hlimits]
    exact .inl isLeast_singleton
  · refine ⟨by decide, fun n _ _ => .inr ⟨_, List.mem_singleton_self _, by decide⟩, .inr ⟨by decide, 1, by decide, ?_, by decide⟩⟩
    exact dmaBus_constrained (by decide)

/-- The upper half of the address space. -/
def upperHalf : List ℕ := [0x80000000, 0, 0x80000000, 0, 0x80000000, 0]

theorem upperHalf_entries :
    (dmaBusParser 2 upperHalf 1).EntriesAre (liveTranslator (dmaBus 2 upperHalf)) [⟨IORESOURCE_MEM, 2 ^ 63, 2 ^ 63, 2 ^ 63⟩] :=
  ⟨by decide, by decide⟩

/-- All of its addresses are reached, and the limit is zero. -/
theorem ofDmaGetMaxCpuAddress_misses_top :
    AvailableBelow (dmaBus 2 upperHalf) (.child 0) [1] ∧
    ParsersAre (dmaBus 2 upperHalf) plainSurroundings (dmaBusParser 2 upperHalf) [0, 1] ∧
    nodeLimits (liveTranslator (dmaBus 2 upperHalf)) (dmaBus 2 upperHalf) (dmaBusParser 2 upperHalf) [0, 1] = {2 ^ 64 - 1} ∧
    Returns (fun fuel => ofDmaGetMaxCpuAddress true (liveTranslator (dmaBus 2 upperHalf)) (dmaBus 2 upperHalf)
      plainSurroundings fuel none) 0 ∧
    ¬ IsTightest true (nodeLimits (liveTranslator (dmaBus 2 upperHalf)) (dmaBus 2 upperHalf) (dmaBusParser 2 upperHalf) [0, 1])
      0 := by
  have hlimits : nodeLimits (liveTranslator (dmaBus 2 upperHalf)) (dmaBus 2 upperHalf) (dmaBusParser 2 upperHalf) [0, 1] =
      {2 ^ 64 - 1} := dmaBus_nodeLimits (by decide) upperHalf_entries (by decide)
  have hreads := (RangeParser.readsAs_iff_entriesAre (by decide) (by decide)).2 upperHalf_entries
  have hstart : ((none : Option ℕ).orElse fun _ => (dmaBus 2 upperHalf).root) = some 0 := rfl
  obtain ⟨r, hreturns, hr⟩ := ofDmaGetMaxCpuAddress_returns true hstart dmaBus_below dmaBus_parsers (dmaBus_read hreads)
  have hzero : r = 0 := by
    obtain hle | ⟨range, hrange, hlt⟩ := ((hr r).1 (le_refl _)).2 1 (by decide) (dmaBus_constrained (by decide))
    · omega
    · obtain rfl := List.mem_singleton.1 hrange
      have hnext : Range.next (2 ^ 63) (2 ^ 63) = 0 := by decide
      simp only [hnext] at hlt
      omega
  refine ⟨dmaBus_below, dmaBus_parsers, hlimits, hzero ▸ hreturns, ?_⟩
  rw [hlimits]
  rintro (hleast | ⟨hempty, -⟩)
  · exact absurd hleast.1 (by decide)
  · exact Set.singleton_ne_empty _ hempty

end GfpDrivers.Of
