import GfpDrivers.ResourceTree.Allocate
import GfpDrivers.ResourceTree.IomemWalk

/-!
Questions about a region of the I/O memory. `region_intersects` counts the resources
right below the root that overlap it, and those below them are not asked.
`iomem_is_exclusive` looks at resources of every depth, and leaves out those below a resource
that ends before the window. It means to look at the page of an address, but with the
`PAGE_MASK` of this tree, which keeps the offset, it looks at the bytes from that offset on.
-/

namespace GfpDrivers.ResourceTree

open Lib

variable {h : Heap} {root fuel start size flags desc addr n : ℕ} {p e : Option ℕ} {T K : Forest ℕ} {cs es : List ℕ}
  {strict : Bool}

/-! ### Regions -/

/-- What `region_intersects` returns: `REGION_INTERSECTS`, `REGION_DISJOINT`, `REGION_MIXED`. -/
inductive Region where
  | intersects
  | disjoint
  | mixed
deriving DecidableEq

/-- `resource_overlaps` -/
def resourceOverlaps (r₁ r₂ : Resource) : Bool := r₁.start ≤ r₂.end_ && r₂.start ≤ r₁.end_

/-- The loop of `__region_intersects`, which counts in `type` and `other`. -/
def regionLoop (h : Heap) (res : Resource) (flags desc : ℕ) : ℕ → Option ℕ → ℕ → ℕ → Option (ℕ × ℕ)
  | 0, _, _, _ => none
  | _ + 1, none, type, other => some (type, other)
  | rounds + 1, some p, type, other =>
      let isType := (h p).flags &&& flags = flags ∧ (desc = IORES_DESC_NONE ∨ desc = (h p).desc)
      if resourceOverlaps (h p) res then
        if isType then regionLoop h res flags desc rounds (h p).sibling (type + 1) other
        else regionLoop h res flags desc rounds (h p).sibling type (other + 1)
      else regionLoop h res flags desc rounds (h p).sibling type other

/-- `__region_intersects`, and so `region_intersects`. -/
def doRegionIntersects (fuel : ℕ) (h : Heap) (iomem start size flags desc : ℕ) : Option Region :=
  let res := { Resource.zero with start := start, end_ := regionEnd start size }
  (regionLoop h res flags desc fuel (h iomem).child 0 0).map fun counts =>
    if counts.1 = 0 then .disjoint else if counts.2 = 0 then .intersects else .mixed

/-- A wanted resource overlaps the region from `start` on. -/
def Touches (h : Heap) (start size flags desc a : ℕ) : Prop :=
  (h a).Wanted flags desc ∧ (h a).start ≤ start + size - 1 ∧ start ≤ (h a).end_

/-- The loop counts the wanted ones among the siblings that overlap the region. -/
theorem regionLoop_eq (res : Resource) (flags desc : ℕ) (hp : Siblings h p cs none) (hn : cs.length < n)
    (type other : ℕ) :
    ∃ others, regionLoop h res flags desc n p type other =
      some (type + cs.countP fun a => resourceOverlaps (h a) res ∧ (h a).Wanted flags desc, others) := by
  induction cs generalizing p n type other with
  | nil =>
    obtain ⟨n, rfl⟩ := Nat.exists_eq_add_one_of_ne_zero (show n ≠ 0 by omega)
    have hp' : p = none := hp
    rw [hp']
    exact ⟨other, rfl⟩
  | cons a cs ih =>
    obtain ⟨n, rfl⟩ := Nat.exists_eq_add_one_of_ne_zero (show n ≠ 0 by omega)
    obtain ⟨hpa, hrest⟩ := hp
    have ih' := ih (n := n) hrest (by simpa using hn)
    rw [hpa, regionLoop]
    by_cases hover : resourceOverlaps (h a) res
    · rw [if_pos hover]
      by_cases htype : (h a).Wanted flags desc
      · have htype' : (h a).flags &&& flags = flags ∧ (desc = IORES_DESC_NONE ∨ desc = (h a).desc) := htype
        obtain ⟨others, hrun⟩ := ih' (type + 1) other
        refine ⟨others, ?_⟩
        rw [if_pos htype', hrun, List.countP_cons_of_pos (by simp [hover, htype]), Nat.add_right_comm, Nat.add_assoc]
      · have htype' : ¬((h a).flags &&& flags = flags ∧ (desc = IORES_DESC_NONE ∨ desc = (h a).desc)) := htype
        obtain ⟨others, hrun⟩ := ih' type (other + 1)
        refine ⟨others, ?_⟩
        rw [if_neg htype', hrun, List.countP_cons_of_neg (by simp [htype])]
    · obtain ⟨others, hrun⟩ := ih' type other
      refine ⟨others, ?_⟩
      rw [if_neg hover, hrun, List.countP_cons_of_neg (by simp [hover])]

/-- Only the resources right below the root are asked. -/
theorem Iomem.doRegionIntersects (hio : Iomem h root T) (hfuel : T.nodes.length < fuel) (hsize : 0 < size)
    (hend : start + size - 1 < 2 ^ 64) (flags desc : ℕ) :
    ∃ r, ResourceTree.doRegionIntersects fuel h root start size flags desc = some r ∧
      (r = .disjoint ↔ ∀ a ∈ T.roots, ¬Touches h start size flags desc a) := by
  obtain ⟨hf, -⟩ := hio.wellFormed.at (.here .nil)
  have hlen := Forest.length_roots_le (F := T)
  rw [ResourceTree.doRegionIntersects, regionEnd_of_le hsize (by omega)]
  obtain ⟨others, hrun⟩ := regionLoop_eq { Resource.zero with start := start, end_ := start + size - 1 } flags
    desc hf.chain (n := fuel) (by omega) 0 0
  rw [hrun, Option.map_some]
  refine ⟨_, rfl, ?_⟩
  have hzero : (T.roots.countP fun a =>
      resourceOverlaps (h a) { Resource.zero with start := start, end_ := start + size - 1 } ∧ (h a).Wanted flags desc) = 0 ↔
      ∀ a ∈ T.roots, ¬Touches h start size flags desc a := by
    rw [List.countP_eq_zero]
    refine forall₂_congr fun a _ => ?_
    simp only [resourceOverlaps, Touches, Bool.and_eq_true, decide_eq_true_eq]
    tauto
  rw [← hzero, Nat.zero_add]
  split_ifs with hnone hother
  · exact ⟨fun _ => hnone, fun _ => rfl⟩
  · exact ⟨fun heq => (by cases heq), fun hzero => absurd hzero hnone⟩
  · exact ⟨fun heq => (by cases heq), fun hzero => absurd hzero hnone⟩

/-- **`region_intersects`.** It returns `REGION_DISJOINT` exactly if no wanted resource of the
whole tree overlaps the region, if and only if none of them hides below a resource: when some
wanted resource overlaps it, one right below the root does. -/
theorem region_disjoint_iff (fuel root start size flags desc : ℕ) (h : Heap) (T : Forest ℕ) (hio : Iomem h root T)
    (hfuel : T.nodes.length < fuel) (hsize : 0 < size) (hend : start + size - 1 < 2 ^ 64) :
    (doRegionIntersects fuel h root start size flags desc = some .disjoint ↔
        ∀ a ∈ T.nodes, ¬Touches h start size flags desc a) ↔
      ((∃ a ∈ T.nodes, Touches h start size flags desc a) → ∃ a ∈ T.roots, Touches h start size flags desc a) := by
  obtain ⟨r, hrun, hr⟩ := hio.doRegionIntersects hfuel hsize hend flags desc
  rw [hrun, Option.some.injEq, hr]
  have hsub : ∀ a ∈ T.roots, a ∈ T.nodes := fun a ha => Forest.roots_subset_nodes ha
  constructor
  · rintro hiff ⟨a, ha, htouch⟩
    by_contra hnone
    exact hiff.mp (fun b hb hb' => hnone ⟨b, hb, hb'⟩) a ha htouch
  · intro htop
    refine ⟨fun hroots a ha htouch => ?_, fun hall a ha => hall a (hsub a ha)⟩
    obtain ⟨b, hb, hb'⟩ := htop ⟨a, ha, htouch⟩
    exact hroots b hb hb'

theorem region_disjoint_adjacent :
    doRegionIntersects 3 adjacentHeap 0 0x3000 0x1000 0x200 0 = some .disjoint ↔
      ∀ a ∈ adjacentTree.nodes, ¬Touches adjacentHeap 0x3000 0x1000 0x200 0 a := by
  refine (region_disjoint_iff 3 0 0x3000 0x1000 0x200 0 adjacentHeap adjacentTree adjacentHeap_iomem (by decide)
    (by decide) (by decide)).mpr ?_
  rintro ⟨a, ha, htouch⟩
  exact ⟨a, ha, htouch⟩

/-- A bridge window, and System RAM below it. -/
def hiddenHeap : Heap := fun a =>
  if a = 0 then ⟨0, 2 ^ 64 - 1, 0x200, 0, none, none, some 1⟩
  else if a = 1 then ⟨0x1000, 0x8fff, 0x200, 0, some 0, none, some 2⟩
  else ⟨0x2000, 0x2fff, 0x81000200, 0, some 1, none, none⟩

def hiddenTree : Forest ℕ := .cons 1 (.cons 2 .nil .nil) .nil

theorem hiddenHeap_iomem : Iomem hiddenHeap 0 hiddenTree where
  wellFormed :=
    { nodup := by decide
      family := by
        refine ⟨⟨⟨rfl, rfl⟩, ?_, ?_, ?_, ?_, ?_⟩, ⟨⟨⟨rfl, rfl⟩, ?_, ?_, ?_, ?_, ?_⟩,
          ⟨⟨rfl, ?_, ?_, ?_, ?_, ?_⟩, trivial, trivial⟩, trivial⟩, trivial⟩
        all_goals simp [hiddenHeap, hiddenTree] }
  parent := rfl
  sibling := rfl
  end_lt := by decide

/-- The System RAM overlaps the region, which is called disjoint from it. -/
theorem hidden_ram : Iomem hiddenHeap 0 hiddenTree ∧
    doRegionIntersects 3 hiddenHeap 0 0x2000 0x1000 IORESOURCE_SYSTEM_RAM IORES_DESC_NONE = some .disjoint ∧
    ¬∀ a ∈ hiddenTree.nodes, ¬Touches hiddenHeap 0x2000 0x1000 IORESOURCE_SYSTEM_RAM IORES_DESC_NONE a := by
  refine ⟨hiddenHeap_iomem, by decide, fun hnone => hnone 2 (by decide) ⟨by decide, by decide, by decide⟩⟩

/-! ### Exclusive resources -/

def IORESOURCE_EXCLUSIVE : ℕ := 0x08000000

/-- `CONFIG_IO_STRICT_DEVMEM` is not set. -/
def CONFIG_IO_STRICT_DEVMEM : Bool := false

def PAGE_MASK : ℕ := PAGE_SIZE - 1

/-- The step of `for_each_resource`. -/
def forEachNext (h : Heap) (fuel : ℕ) (skipChildren : Bool) (p : ℕ) : Option (Option ℕ) :=
  if skipChildren then nextResourceSkipChildren h fuel p else nextResource h fuel p

/-- The loop of `iomem_is_exclusive`. -/
def exclusiveLoop (h : Heap) (fuel addr size : ℕ) (strictIomemChecks : Bool) : ℕ → Option ℕ → Option Bool
  | 0, _ => none
  | _ + 1, none => some false
  | rounds + 1, some p =>
      let exclusiveSystemRam := IORESOURCE_SYSTEM_RAM ||| IORESOURCE_EXCLUSIVE
      if (addr + size) % 2 ^ 64 ≤ (h p).start then some false
      else if (h p).end_ < addr then
        (forEachNext h fuel true p).bind (exclusiveLoop h fuel addr size strictIomemChecks rounds)
      else if (h p).flags &&& exclusiveSystemRam = exclusiveSystemRam then some true
      else if ¬strictIomemChecks ∨ (h p).flags &&& IORESOURCE_BUSY = 0 then
        (forEachNext h fuel false p).bind (exclusiveLoop h fuel addr size strictIomemChecks rounds)
      else if CONFIG_IO_STRICT_DEVMEM ∨ (h p).flags &&& IORESOURCE_EXCLUSIVE ≠ 0 then some true
      else (forEachNext h fuel false p).bind (exclusiveLoop h fuel addr size strictIomemChecks rounds)

/-- `iomem_is_exclusive` -/
def iomemIsExclusive (fuel : ℕ) (h : Heap) (iomem : ℕ) (strictIomemChecks : Bool) (addr : ℕ) : Option Bool :=
  exclusiveLoop h fuel (addr &&& PAGE_MASK) PAGE_SIZE strictIomemChecks fuel (h iomem).child

/-- System RAM that is exclusive; with strict checks also what is busy and exclusive. -/
def Resource.Exclusive (strict : Bool) (r : Resource) : Prop :=
  r.flags &&& (IORESOURCE_SYSTEM_RAM ||| IORESOURCE_EXCLUSIVE) = IORESOURCE_SYSTEM_RAM ||| IORESOURCE_EXCLUSIVE ∨
    strict = true ∧ r.flags &&& IORESOURCE_BUSY ≠ 0 ∧ r.flags &&& IORESOURCE_EXCLUSIVE ≠ 0

instance Resource.decidableExclusive (strict : Bool) (r : Resource) : Decidable (r.Exclusive strict) :=
  inferInstanceAs (Decidable (_ ∨ _))

/-- An exclusive resource overlaps the bytes from `lo` on, as many as a page has. -/
def ExclusiveAt (h : Heap) (strict : Bool) (lo a : ℕ) : Prop :=
  (h a).start < lo + PAGE_SIZE ∧ lo ≤ (h a).end_ ∧ (h a).Exclusive strict

instance decidableExclusiveAt (strict : Bool) (lo a : ℕ) : Decidable (ExclusiveAt h strict lo a) :=
  inferInstanceAs (Decidable (_ ∧ _ ∧ _))

/-- At a resource that reaches into the window, the search ends or goes on below it. -/
theorem exclusiveLoop_reach {a : ℕ} {c : Option ℕ} (hlimit : (addr + size) % 2 ^ 64 = addr + size)
    (hstart : (h a).start < addr + size) (hend : addr ≤ (h a).end_) (hnext : nextResource h fuel a = some c) :
    exclusiveLoop h fuel addr size strict (n + 1) (some a) =
      if (h a).Exclusive strict then some true else exclusiveLoop h fuel addr size strict n c := by
  rw [exclusiveLoop, hlimit, if_neg (not_le.mpr hstart), if_neg (not_lt.mpr hend)]
  simp only [forEachNext, Bool.false_eq_true, if_false, hnext, Option.bind_some]
  by_cases hram : (h a).flags &&& (IORESOURCE_SYSTEM_RAM ||| IORESOURCE_EXCLUSIVE) =
      IORESOURCE_SYSTEM_RAM ||| IORESOURCE_EXCLUSIVE
  · rw [if_pos hram, if_pos (.inl hram)]
  · rw [if_neg hram]
    by_cases hbusy : strict = true ∧ (h a).flags &&& IORESOURCE_BUSY ≠ 0
    · rw [if_neg (by tauto)]
      by_cases hexcl : (h a).flags &&& IORESOURCE_EXCLUSIVE ≠ 0
      · rw [if_pos (.inr hexcl), if_pos (.inr ⟨hbusy.1, hbusy.2, hexcl⟩)]
      · have hno : ¬(h a).Exclusive strict := fun hex => hex.elim hram fun hex => hexcl hex.2.2
        rw [if_neg (by simpa [CONFIG_IO_STRICT_DEVMEM] using hexcl), if_neg hno]
    · have hno : ¬(h a).Exclusive strict := fun hex => hex.elim hram fun hex => hbusy ⟨hex.1, hex.2.1⟩
      rw [if_pos (by tauto), if_neg hno]

/-- **The pruned search.** It goes over a forest and on to `es`. What it leaves out below a
resource ends no later than that resource, and what comes after a resource does not start
before it. -/
theorem exclusiveLoop_eq (strict : Bool) (hlimit : (addr + PAGE_SIZE) % 2 ^ 64 = addr + PAGE_SIZE) (hleads : Leads h fuel K p e)
    (hall : K.All (Family h)) (hsorted : (K.nodes ++ es).Pairwise fun a b => (h a).start ≤ (h b).start)
    (he : ∀ n, es.length < n →
      exclusiveLoop h fuel addr PAGE_SIZE strict n e = some (es.any fun a => ExclusiveAt h strict addr a))
    (hn : (K.nodes ++ es).length < n) :
    exclusiveLoop h fuel addr PAGE_SIZE strict n p =
      some ((K.nodes ++ es).any fun a => ExclusiveAt h strict addr a) := by
  induction K generalizing p e es n with
  | nil =>
    have hp : p = e := hleads
    rw [hp]
    exact he n hn
  | cons a kids rest ihk ihr =>
    obtain ⟨hp, c, m, hnext, hskip, hkids, hrest⟩ := hleads
    obtain ⟨hf, hk, hr⟩ := hall
    simp only [Forest.nodes_cons, List.cons_append, List.append_assoc, List.length_cons] at hsorted hn ⊢
    obtain ⟨hfirst, hsorted⟩ := List.pairwise_cons.mp hsorted
    obtain ⟨n, rfl⟩ := Nat.exists_eq_add_one_of_ne_zero (show n ≠ 0 by omega)
    have hafter : ∀ n, (rest.nodes ++ es).length < n → exclusiveLoop h fuel addr PAGE_SIZE strict n m =
        some ((rest.nodes ++ es).any fun a => ExclusiveAt h strict addr a) := fun n hn =>
      ihr hrest hr (List.pairwise_append.mp hsorted).2.1 he hn
    rw [hp]
    by_cases hbehind : addr + PAGE_SIZE ≤ (h a).start
    · have hnone : ∀ b ∈ a :: (kids.nodes ++ (rest.nodes ++ es)), ¬ExclusiveAt h strict addr b := by
        intro b hb hex
        have hle : (h a).start ≤ (h b).start := by
          rcases List.mem_cons.mp hb with rfl | hb
          · exact le_rfl
          · exact hfirst b hb
        exact absurd hex.1 (not_lt.mpr (hbehind.trans hle))
      rw [exclusiveLoop, hlimit, if_pos hbehind, List.any_eq_false.mpr]
      simpa using hnone
    · rw [List.any_cons]
      by_cases hbefore : (h a).end_ < addr
      · have hinside : ∀ b ∈ kids.nodes, ¬ExclusiveAt h strict addr b := by
          intro b hb hex
          obtain ⟨d, hd, -, -, hend⟩ := inside_roots hk hf.valid b hb
          have := (hf.inside d hd).2
          have := hex.2.1
          omega
        have ha : ¬ExclusiveAt h strict addr a := fun hex => absurd hex.2.1 (not_le.mpr hbefore)
        have hlen : (rest.nodes ++ es).length < n := by
          rw [List.length_append] at hn
          omega
        have hskipped : ((kids.nodes ++ (rest.nodes ++ es)).any fun b => decide (ExclusiveAt h strict addr b)) =
            (rest.nodes ++ es).any fun b => decide (ExclusiveAt h strict addr b) := by
          rw [List.any_append, List.any_eq_false.mpr (by simpa using hinside), Bool.false_or]
        rw [exclusiveLoop, hlimit, if_neg hbehind, if_pos hbefore, forEachNext, if_pos rfl, hskip, Option.bind_some,
          hafter n hlen, decide_eq_false ha, Bool.false_or, hskipped]
      · have hstart := not_le.mp hbehind
        have hend := not_lt.mp hbefore
        rw [exclusiveLoop_reach hlimit hstart hend hnext]
        by_cases hex : (h a).Exclusive strict
        · rw [if_pos hex, decide_eq_true (show ExclusiveAt h strict addr a from ⟨hstart, hend, hex⟩), Bool.true_or]
        · rw [if_neg hex, decide_eq_false fun hat : ExclusiveAt h strict addr a => hex hat.2.2, Bool.false_or]
          exact ihk hkids hk hsorted hafter (by omega)

theorem and_pageMask : addr &&& PAGE_MASK = addr % PAGE_SIZE := Nat.and_two_pow_sub_one_eq_mod addr 12

/-- What the search finds: an exclusive resource in the bytes from the offset of `addr` on. -/
theorem Iomem.iomemIsExclusive (hio : Iomem h root T) (hfuel : T.nodes.length < fuel) (strict : Bool) (addr : ℕ) :
    ResourceTree.iomemIsExclusive fuel h root strict addr =
      some (T.nodes.any fun a => ExclusiveAt h strict (addr % PAGE_SIZE) a) := by
  have hsorted : (T.nodes ++ []).Pairwise fun a b => (h a).start ≤ (h b).start := by
    rw [List.append_nil]
    exact (List.pairwise_map.mp hio.precedes).imp fun hab => hab.1
  have hlt : addr % PAGE_SIZE < PAGE_SIZE := Nat.mod_lt _ (by decide)
  have hlimit : (addr % PAGE_SIZE + PAGE_SIZE) % 2 ^ 64 = addr % PAGE_SIZE + PAGE_SIZE := by
    simp only [PAGE_SIZE] at hlt ⊢
    omega
  have hrun := exclusiveLoop_eq strict (n := fuel) hlimit (hio.leads hfuel)
    (hio.wellFormed.at (.here .nil)).2 hsorted
    (fun n hn => by
      obtain ⟨n, rfl⟩ := Nat.exists_eq_add_one_of_ne_zero (show n ≠ 0 by omega)
      rfl) (by simpa using hfuel)
  rw [ResourceTree.iomemIsExclusive, and_pageMask, hrun, List.append_nil]

/-- **`iomem_is_exclusive`.** It says of the page of `addr` whether an exclusive resource
overlaps it, if and only if that is the same for the page and for the bytes from the offset
of `addr` in it on. -/
theorem exclusive_iff (fuel root addr : ℕ) (strict : Bool) (h : Heap) (T : Forest ℕ) (hio : Iomem h root T)
    (hfuel : T.nodes.length < fuel) :
    (iomemIsExclusive fuel h root strict addr = some true ↔
        ∃ a ∈ T.nodes, ExclusiveAt h strict (addr - addr % PAGE_SIZE) a) ↔
      ((∃ a ∈ T.nodes, ExclusiveAt h strict (addr % PAGE_SIZE) a) ↔
        ∃ a ∈ T.nodes, ExclusiveAt h strict (addr - addr % PAGE_SIZE) a) := by
  rw [hio.iomemIsExclusive hfuel strict addr, Option.some.injEq, List.any_eq_true]
  simp only [decide_eq_true_eq]

theorem exclusive_adjacent :
    iomemIsExclusive 3 adjacentHeap 0 true 0x2010 = some true ↔
      ∃ a ∈ adjacentTree.nodes, ExclusiveAt adjacentHeap true 0x2000 a :=
  (exclusive_iff 3 0 0x2010 true adjacentHeap adjacentTree adjacentHeap_iomem (by decide)).mpr (by decide)

/-- Exclusive System RAM after another resource. -/
def exclusiveHeap : Heap := Function.update adjacentHeap 2 ⟨0x2000, 0x2fff, 0x89000200, 0, some 0, none, none⟩

theorem exclusiveHeap_iomem : Iomem exclusiveHeap 0 adjacentTree where
  wellFormed :=
    { nodup := by decide
      family := by
        refine ⟨⟨⟨rfl, rfl, rfl⟩, ?_, ?_, ?_, ?_, ?_⟩, ⟨⟨rfl, ?_, ?_, ?_, ?_, ?_⟩, trivial,
          ⟨rfl, ?_, ?_, ?_, ?_, ?_⟩, trivial, trivial⟩, trivial⟩
        all_goals simp [exclusiveHeap, adjacentHeap, adjacentTree] }
  parent := rfl
  sibling := rfl
  end_lt := by decide

/-- The page at `0x2000` is exclusive, and is not called so. -/
theorem exclusive_page_missed : Iomem exclusiveHeap 0 adjacentTree ∧
    iomemIsExclusive 3 exclusiveHeap 0 false 0x2000 = some false ∧
      ∃ a ∈ adjacentTree.nodes, ExclusiveAt exclusiveHeap false 0x2000 a :=
  ⟨exclusiveHeap_iomem, by decide, 2, by decide, by decide⟩

end GfpDrivers.ResourceTree
