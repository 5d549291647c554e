import GfpDrivers.Of.WalkRounds
import Mathlib.Data.Finite.Prod
import Mathlib.Order.Lattice.Nat

/-!
The walks along interrupt parents, interrupt maps and maps of phandles are among finitely many places,
if the tree is finite. So the calls return unless a walk comes back to a place where it has been.
-/

namespace GfpDrivers.Of

open Lib Relation

variable {v : TreeView} {stray : ℕ → ℤ → ℕ} {names : NexusNames} {initial : ℕ → ℕ} {addr : Option Bytes} {nodes : Set ℕ}
  {np p child fuel rounds addrsize : ℕ} {l : IrqLevel} {out : PhandleArgs} {lines : List MapLine × MapStop} {line : MapLine}

/-! ### Finitely many places -/

section Finite

/-- The maps of finitely many nodes are not longer than some bound. -/
theorem exists_map_bound (hnodes : nodes.Finite) (v : TreeView) (name : String) :
    ∃ bound, ∀ c ∈ nodes, ∀ map mapLen, v.ofGetProperty c name = some (map, mapLen) → mapLen / 4 ≤ bound := by
  obtain ⟨bound, hbound⟩ := (hnodes.image fun c => ((v.ofGetProperty c name).map fun p => p.2 / 4).getD 0).bddAbove
  refine ⟨bound, fun c hc map mapLen hprop => ?_⟩
  have hle := hbound (Set.mem_image_of_mem _ hc)
  simpa [hprop] using hle

theorem nexus_finite (h : v.FiniteTree nodes) {l : NexusLevel} (hl : l.cur ∈ nodes) :
    {l' | ReflTransGen (NexusStep v stray names initial) l l'}.Finite := by
  obtain ⟨bound, hbound⟩ := exists_map_bound h.finite v names.map
  let place (x : ℕ × ℕ × ℕ × ℕ) : NexusLevel := ⟨x.1, x.2.1, .map x.2.2.1 names.map x.2.2.2⟩
  have hplaces : (place '' (nodes ×ˢ Set.Iic maxPhandleArgs ×ˢ nodes ×ˢ Set.Iic bound)).Finite :=
    ((h.finite.prod ((Set.finite_Iic _).prod (h.finite.prod (Set.finite_Iic _)))).image place)
  refine finite_of_closed (hplaces.insert l) (Set.mem_insert l _) fun l' hl' l'' hstep => Set.mem_insert_of_mem _ ?_
  have hcur : l'.cur ∈ nodes := by
    rcases hl' with rfl | ⟨x, hx, rfl⟩
    · exact hl
    · exact hx.1
  obtain ⟨hlines, haccept⟩ := hstep
  rename_i lines line
  obtain ⟨map, mapLen, hprop, hin⟩ := nodeLines_inMap hlines
  have hline := hin line (acceptingLine_mem haccept)
  obtain ⟨handle, hhandle⟩ := hline.found
  have hend := hline.le_end
  refine ⟨(line.node, line.newSpec.length, l'.cur, line.start), ⟨h.phandle handle _ hhandle, hline.newSpec_le, hcur, ?_⟩, rfl⟩
  exact (Nat.le_of_add_right_le hend).trans (hbound _ hcur map mapLen hprop)

/-- The node of a place. -/
def IrqPlace.ipar : IrqPlace → ℕ
  | .level l => l.ipar
  | .climb l => l.ipar

/-- The specifier of a place: its sizes, and where it is. -/
def IrqPlace.specifier : IrqPlace → ℕ × ℕ × CellPtr
  | .level l => (l.addrsize, l.intsize, l.matchArray)
  | .climb l => (l.addrsize, l.intsize, l.matchArray)

theorem irq_finite (h : v.FiniteTree nodes) (hl : l.ipar ∈ nodes) :
    {place | ReflTransGen (IrqStep v stray initial addr) (.level l) place}.Finite := by
  obtain ⟨bound, hbound⟩ := exists_map_bound h.finite v "interrupt-map"
  let cellsOf (n : ℕ) : ℕ × ℕ := ((interruptCells v n).toOption.getD (0, 0))
  let along (x : ℕ × ℕ × ℕ) : ℕ × ℕ × CellPtr :=
    ((cellsOf x.1).2, (cellsOf x.1).1, .map x.2.1 "interrupt-map" ((x.2.2 : ℤ) - (cellsOf x.1).2 - (cellsOf x.1).1))
  have halong : (along '' (nodes ×ˢ nodes ×ˢ Set.Iic bound)).Finite :=
    (h.finite.prod (h.finite.prod (Set.finite_Iic _))).image along
  let level (x : ℕ × ℕ × ℕ × CellPtr) : IrqPlace := .level ⟨x.1, x.2.1, x.2.2.1, x.2.2.2⟩
  let climb (x : ℕ × ℕ × ℕ × CellPtr) : IrqPlace := .climb ⟨x.1, x.2.1, x.2.2.1, x.2.2.2⟩
  let specs := insert (l.addrsize, l.intsize, l.matchArray) (along '' (nodes ×ˢ nodes ×ˢ Set.Iic bound))
  have hspecs : specs.Finite := halong.insert _
  have hfin := h.finite.prod hspecs
  have hclosed : ∀ place, place.ipar ∈ nodes ∧ place.specifier ∈ specs →
      place ∈ level '' (nodes ×ˢ specs) ∪ climb '' (nodes ×ˢ specs) := fun place hplace => by
    cases place with
    | level l => exact Or.inl ⟨(l.ipar, l.addrsize, l.intsize, l.matchArray), hplace, rfl⟩
    | climb l => exact Or.inr ⟨(l.ipar, l.addrsize, l.intsize, l.matchArray), hplace, rfl⟩
  refine ((hfin.image level).union (hfin.image climb)).subset fun place hplace => hclosed place ?_
  induction hplace with
  | refl => exact ⟨hl, Set.mem_insert _ _⟩
  | tail _ hstep ih =>
    cases hstep with
    | up => exact ih
    | further hirq => exact ⟨h.irqParent ih.1 hirq, ih.2⟩
    | arrive hirq => exact ⟨h.irqParent ih.1 hirq, ih.2⟩
    | map hgo hlines haccept hcells =>
      rename_i l' lines line newintsize newaddrsize _ _
      obtain ⟨map, mapLen, hprop, hin⟩ := nodeLines_inMap hlines
      have hline := hin line (acceptingLine_mem haccept)
      obtain ⟨handle, hhandle⟩ := hline.found
      have hnode : line.node ∈ nodes := h.phandle handle _ hhandle
      refine ⟨hnode, Set.mem_insert_of_mem _ ⟨(line.node, l'.ipar, line.start + line.newSpec.length), ⟨hnode, ih.1, ?_⟩, ?_⟩⟩
      · exact hline.le_end.trans (hbound _ ih.1 map mapLen hprop)
      · simp only [along, cellsOf, hcells]
        rfl

end Finite

/-! ### The three functions -/

theorem acc_iff_of_nodes {r : ℕ → ℕ → Prop} (h : v.FiniteTree nodes) (hnp : np ∈ nodes)
    (hr : ∀ a b, r a b → irqParent v a = some b) : Acc (flip r) np ↔ ¬ Recurs r np :=
  acc_iff_not_recurs (finite_of_closed h.finite hnp fun a ha b hab => h.irqParent ha (hr a b hab))

/-- In a finite tree each of the functions returns exactly if its walk does not come back to a place where it
has been: that up the interrupt parents for `of_irq_find_parent`; that up the interrupt parents to a node with a
number of cells, and from there along maps and interrupt parents with a specifier, for `of_irq_parse_raw`; and that
along maps with a specifier, from the entry of the list, for `of_parse_phandle_with_args_map`. -/
theorem resolution_ends_iff (v : TreeView) (stray : ℕ → ℤ → ℕ) (nodes : Set ℕ) (h : v.FiniteTree nodes) :
    (∀ child ∈ nodes, Ending (fun fuel => (ofIrqFindParent fuel v (some child)).result) ↔ ¬ Recurs (ParentStep v) child) ∧
    (∀ (addr : Option Bytes) (out : PhandleArgs), ∀ np ∈ nodes, out.np = some np →
      (Ending (fun fuel => (ofIrqParseRaw fuel v stray addr out).result) ↔
        ¬ Recurs (SeekStep v) np ∧ ∀ ipar addrsize, IrqStart v np out ipar addrsize →
          ¬ Recurs (IrqStep v stray (irqMatchArray addr out addrsize out.argsCount) addr)
            (.level ⟨ipar, addrsize, out.argsCount, .initialMatchArray⟩))) ∧
    (∀ (alloc : Fin 4 → Bool) (np : ℕ) (listName stemName : String) (index : ℤ) (out : PhandleArgs),
      Ending (fun fuel => (ofParsePhandleWithArgsMap fuel v stray alloc np listName stemName index out).result) ↔
        (0 ≤ index → (∀ k, alloc k = true) →
          ∀ e ∈ calledEntry v np listName stemName index.toNat, e.phandle ≠ 0 → ∀ c ∈ e.node,
            ¬ Recurs (NexusStep v stray (nexusNames stemName) (nexusMatchArray (e.fill out).args e.args.length))
              ⟨c, e.args.length, .initialMatchArray⟩)) := by
  refine ⟨fun child hchild => ?_, fun addr out np hnp hout => ?_, fun alloc np listName stemName index out => ?_⟩
  · rw [ofIrqFindParent_ending_iff, acc_iff_of_nodes h hchild fun a b hab => hab.1]
  · rw [ofIrqParseRaw_ending_iff h hnp hout, acc_iff_of_nodes h hnp fun a b hab => hab.2]
    refine and_congr_right fun _ => forall₂_congr fun ipar addrsize => forall_congr' fun hstart => ?_
    exact acc_iff_not_recurs (irq_finite h (h.seek hnp hstart.seek))
  · rw [ofParsePhandleWithArgsMap_ending_iff]
    refine forall₂_congr fun _ _ => forall₂_congr fun e hentry => forall_congr' fun hph => forall₂_congr fun c hc => ?_
    obtain ⟨c', hc', hhandle, -⟩ := referenceList_node e (List.mem_of_getElem? hentry) hph
    obtain rfl := Option.some.inj (hc.symm.trans hc')
    exact acc_iff_not_recurs (nexus_finite h (h.phandle _ _ hhandle))

/-! ### Live trees -/

/-- Going up from a node of a forest comes to an end if it does from the roots. -/
theorem acc_parent_of_roots {s : DevTree} {F : Forest ℕ} (h : F.All (Family s))
    (hroots : ∀ n ∈ F.roots, Acc (fun p c => (s.node c).parent = some p) n) :
    ∀ n ∈ F.nodes, Acc (fun p c => (s.node c).parent = some p) n := by
  induction F with
  | nil => simp
  | cons a K F ihK ihF =>
    obtain ⟨hfam, hK, hF⟩ := h
    rw [Forest.roots_cons, List.forall_mem_cons] at hroots
    rw [Forest.nodes_cons, List.forall_mem_cons]
    have hkids : ∀ n ∈ K.roots, Acc (fun p c => (s.node c).parent = some p) n := fun n hn =>
      ⟨_, fun p hp => Option.some.inj ((hfam.parent n hn).symm.trans hp) ▸ hroots.1⟩
    exact ⟨hroots.1, List.forall_mem_append.mpr ⟨ihK hK hkids, ihF hF hroots.2⟩⟩

theorem CacheOk.finiteTree {s : DevTree} {r : ℕ} {K : Forest ℕ} (h : CacheOk s r K) (hv : v.Shows s) :
    v.FiniteTree {n | n ∈ (Forest.cons r K .nil).nodes} where
  finite := List.finite_toSet _
  parent n hn p hp := by
    rw [hv.parent] at hp
    rcases Forest.root_or_below hn with hroot | ⟨q, L, hat, hL⟩
    · obtain rfl : n = r := by simpa using hroot
      exact absurd (h.forest.parent.symm.trans hp) (by simp)
    · obtain rfl := Option.some.inj (((hat.all h.forest.family).1.parent n hL).symm.trans hp)
      exact hat.mem
  phandle handle n hn := by
    by_cases hzero : handle = 0
    · rw [hzero, v.find_zero] at hn
      exact absurd hn (by simp)
    · rw [hv.find_eq h hzero] at hn
      exact List.mem_of_find?_eq_some hn
  up n hn := by
    simp only [hv.parent]
    refine acc_parent_of_roots h.forest.family (fun n hn => ⟨_, fun p hp => ?_⟩) n hn
    obtain rfl : n = r := by simpa using hn
    exact absurd (h.forest.parent.symm.trans hp) (by simp)

/-! ### Two interrupt parents of each other -/

/-- The nodes 1 and 2 below the node 0 are the interrupt parents of each other. -/
def crossedParents : TreeView where
  ofGetProperty np name :=
    if np = 1 ∧ name = "interrupt-parent" then some (cellBytes [2], 4)
    else if np = 2 ∧ name = "interrupt-parent" then some (cellBytes [1], 4)
    else none
  fullName _ := ""
  ofGetParent np := if np = 0 then none else some 0
  ofFindNodeByPhandle handle := if handle = 1 ∨ handle = 2 then some handle else none
  find_zero := rfl

theorem crossedParents_finite : crossedParents.FiniteTree {0, 1, 2} where
  finite := Set.toFinite _
  parent np _ p hp := by
    simp only [crossedParents] at hp
    split_ifs at hp
    · simp at hp
    · exact Or.inl (Option.some.inj hp).symm
  phandle handle np hnp := by
    simp only [crossedParents] at hnp
    split_ifs at hnp with h
    · obtain rfl := Option.some.inj hnp
      exact Or.inr (by simpa using h)
    · simp at hnp
  up np _ := by
    have hroot : Acc (fun p c => crossedParents.ofGetParent c = some p) 0 := ⟨_, fun p hp => absurd hp (by simp [crossedParents])⟩
    refine ⟨_, fun p hp => ?_⟩
    simp only [crossedParents] at hp
    split_ifs at hp
    exact Option.some.inj hp ▸ hroot

/-- The search from the root ends. -/
theorem crossedParents_root : Ending fun fuel => (ofIrqFindParent fuel crossedParents (some 0)).result := by
  refine ((resolution_ends_iff crossedParents (fun _ _ => 0) {0, 1, 2} crossedParents_finite).1 0 (by simp)).mpr fun hrec => ?_
  obtain ⟨p, ⟨hp, -⟩, -⟩ := hrec.exists_step
  have hnone : irqParent crossedParents 0 = none := by decide
  exact absurd (hnone.symm.trans hp) (by simp)

/-- The search from one of the two never does. -/
theorem crossedParents_circle :
    crossedParents.FiniteTree {0, 1, 2} ∧ ∀ fuel, (ofIrqFindParent fuel crossedParents (some 1)).result = none := by
  refine ⟨crossedParents_finite, fun fuel => ?_⟩
  have hto : ParentStep crossedParents 1 2 := by
    refine ⟨by decide, by decide⟩
  have hback : ParentStep crossedParents 2 1 := by
    refine ⟨by decide, by decide⟩
  cases hrun : (ofIrqFindParent fuel crossedParents (some 1)).result with
  | none => rfl
  | some q =>
    rw [ofIrqFindParent_result] at hrun
    exact absurd ⟨1, .refl, .tail (.single hto) hback⟩ (not_recurs_of_acc (acc_of_findParentLoop hrun))

end GfpDrivers.Of
