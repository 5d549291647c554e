import GfpDrivers.Lib.Forest
import GfpDrivers.ResourceTree.Resource

/-!
Well-formed resource trees. The tree is a root and a forest of resources below
it; each resource with its list of children is a `Family`, and a tree is
well formed if all its families are and no resource occurs twice.

Every operation on the tree changes the children of one resource, and
nothing above it. `WellFormed.replace` is what such a change has to show.
-/

namespace GfpDrivers.ResourceTree

open Lib

/-- `cs` is the list of the children of `n`. They are ordered by their start and
pairwise disjoint, each of them has a range that is not empty and lies inside
the range of `n`, and each of them has `n` as its parent. -/
structure Family (h : Heap) (n : ℕ) (cs : List ℕ) : Prop where
  chain : Path (fun c => (h c).sibling) (h n).child cs none
  parent : ∀ c ∈ cs, (h c).parent = some n
  ordered : cs.Pairwise fun a b => (h a).start < (h b).start
  disjoint : cs.Pairwise fun a b => (h a).end_ < (h b).start ∨ (h b).end_ < (h a).start
  valid : ∀ c ∈ cs, (h c).start ≤ (h c).end_
  inside : ∀ c ∈ cs, (h n).start ≤ (h c).start ∧ (h c).end_ ≤ (h n).end_

/-- The forest with the only root `root`, and `T` below it. -/
def tree (root : ℕ) (T : Forest ℕ) : Forest ℕ := .cons root T .nil

/-- The links of `root` and of what is below it make the tree `T`. -/
structure WellFormed (h : Heap) (root : ℕ) (T : Forest ℕ) : Prop where
  nodup : (tree root T).nodes.Nodup
  family : (tree root T).All (Family h)

/-- `T'` is the tree `T` with `K'` in the place of `K` below `q`. -/
def Replaced (root q : ℕ) (K K' T T' : Forest ℕ) : Prop := Forest.Replace q K K' (tree root T) (tree root T')

/-- The resources that the links lead to from the root. -/
inductive InTree (h : Heap) (root : ℕ) : ℕ → Prop
  | root : InTree h root root
  | child {n c : ℕ} : InTree h root n → (h n).child = some c → InTree h root c
  | sibling {n c : ℕ} : InTree h root n → n ≠ root → (h n).sibling = some c → InTree h root c

variable {h h' : Heap} {root n q a : ℕ} {cs ds es ms : List ℕ} {T K K' : Forest ℕ}

/-! ### Families -/

theorem Family.before (hf : Family h n cs) : cs.Pairwise fun a b => (h a).end_ < (h b).start := by
  have hboth := hf.ordered.and hf.disjoint
  refine hboth.imp_of_mem ?_
  intro a b ha hb hab
  have := hf.valid a ha
  have := hf.valid b hb
  omega

theorem Family.nodup (hf : Family h n cs) : cs.Nodup := by
  refine hf.ordered.imp ?_
  rintro a b hab rfl
  exact absurd hab (Nat.lt_irrefl _)

/-- `new` has a range that is not empty and lies inside the range of `q`. -/
def Fits (h : Heap) (q new : ℕ) : Prop :=
  (h new).start ≤ (h new).end_ ∧ (h q).start ≤ (h new).start ∧ (h new).end_ ≤ (h q).end_

/-- What a family says about the ranges: those of `cs` lie one after the other
inside the range of `n`. -/
structure Ranges (h : Heap) (n : ℕ) (cs : List ℕ) : Prop where
  before : cs.Pairwise fun a b => (h a).end_ < (h b).start
  fits : ∀ c ∈ cs, Fits h n c

theorem Family.ranges (hf : Family h n cs) : Ranges h n cs :=
  ⟨hf.before, fun c hc => ⟨hf.valid c hc, hf.inside c hc⟩⟩

/-- A family from its links and from ranges that are known in an earlier heap. -/
theorem Family.of_ranges (hr : Ranges h n cs)
    (hstart : ∀ a, (h' a).start = (h a).start) (hend : ∀ a, (h' a).end_ = (h a).end_)
    (hchain : Path (fun c => (h' c).sibling) (h' n).child cs none)
    (hparent : ∀ c ∈ cs, (h' c).parent = some n) : Family h' n cs where
  chain := hchain
  parent := hparent
  ordered := hr.before.imp_of_mem fun {a b} ha hb hab => by
    have := (hr.fits a ha).1
    simp only [hstart]
    omega
  disjoint := hr.before.imp fun {a b} hab => .inl (by simpa only [hstart, hend] using hab)
  valid := fun c hc => by simpa only [hstart, hend] using (hr.fits c hc).1
  inside := fun c hc => by simpa only [hstart, hend] using (hr.fits c hc).2

theorem Ranges.nil : Ranges h n [] := ⟨.nil, by simp⟩

theorem Ranges.sublist (hr : Ranges h n cs) (hsub : ds.Sublist cs) : Ranges h n ds :=
  ⟨hr.before.sublist hsub, fun c hc => hr.fits c (hsub.subset hc)⟩

theorem Ranges.insert (hr : Ranges h n (ds ++ es)) (ha : Fits h n a)
    (hds : ∀ d ∈ ds, (h d).end_ < (h a).start) (hes : ∀ e ∈ es, (h a).end_ < (h e).start) :
    Ranges h n (ds ++ a :: es) := by
  obtain ⟨hbds, hbes, hcross⟩ := List.pairwise_append.mp hr.before
  refine ⟨List.pairwise_append.mpr ⟨hbds, List.pairwise_cons.mpr ⟨hes, hbes⟩, ?_⟩, ?_⟩
  · intro d hd e he
    rcases List.mem_cons.mp he with rfl | he
    · exact hds d hd
    · exact hcross d hd e he
  · intro c hc
    rcases List.mem_cons.mp (List.perm_middle.mem_iff.mp hc) with rfl | hc
    · exact ha
    · exact hr.fits c hc

/-- The range of `a` may be exchanged for ranges inside it. -/
theorem Ranges.splice (hr : Ranges h n (ds ++ a :: es)) (hms : Ranges h a ms) :
    Ranges h n (ds ++ (ms ++ es)) := by
  obtain ⟨hbds, hbes, hcross⟩ := List.pairwise_append.mp hr.before
  obtain ⟨haes, hbes⟩ := List.pairwise_cons.mp hbes
  have ha := hr.fits a (by simp)
  refine ⟨?_, ?_⟩
  · rw [List.pairwise_append, List.pairwise_append]
    refine ⟨hbds, ⟨hms.before, hbes, fun m hm e he => ?_⟩, fun d hd c hc => ?_⟩
    · exact Nat.lt_of_le_of_lt (hms.fits m hm).2.2 (haes e he)
    · rcases List.mem_append.mp hc with hc | hc
      · exact Nat.lt_of_lt_of_le (hcross d hd a (by simp)) (hms.fits c hc).2.1
      · exact hcross d hd c (by simp [hc])
  · intro c hc
    simp only [List.mem_append] at hc
    rcases hc with hc | hc | hc
    · exact hr.fits c (by simp [hc])
    · have hc' := hms.fits c hc
      exact ⟨hc'.1, Nat.le_trans ha.2.1 hc'.2.1, Nat.le_trans hc'.2.2 ha.2.2⟩
    · exact hr.fits c (by simp [hc])

theorem Family.of_eq (hf : Family h n cs) (hn : h' n = h n) (hcs : ∀ c ∈ cs, h' c = h c) : Family h' n cs where
  chain := by
    rw [hn]
    exact hf.chain.congr fun c hc => by rw [hcs c hc]
  parent := fun c hc => (congrArg Resource.parent (hcs c hc)).trans (hf.parent c hc)
  ordered := hf.ordered.imp_of_mem fun ha hb hab => by rwa [hcs _ ha, hcs _ hb]
  disjoint := hf.disjoint.imp_of_mem fun ha hb hab => by rwa [hcs _ ha, hcs _ hb]
  valid := fun c hc => by
    rw [hcs c hc]
    exact hf.valid c hc
  inside := fun c hc => by
    rw [hcs c hc, hn]
    exact hf.inside c hc

/-- A family is given by the ranges, by the first child, and by the links of the
children. -/
theorem Family.congr (hf : Family h n cs) (hchild : (h' n).child = (h n).child)
    (hstart : ∀ a, (h' a).start = (h a).start) (hend : ∀ a, (h' a).end_ = (h a).end_)
    (hlinks : ∀ c ∈ cs, (h' c).sibling = (h c).sibling ∧ (h' c).parent = (h c).parent) :
    Family h' n cs where
  chain := by
    rw [hchild]
    exact hf.chain.congr fun c hc => (hlinks c hc).1
  parent := fun c hc => (hlinks c hc).2.trans (hf.parent c hc)
  ordered := by simpa only [hstart] using hf.ordered
  disjoint := by simpa only [hstart, hend] using hf.disjoint
  valid := by simpa only [hstart, hend] using hf.valid
  inside := by simpa only [hstart, hend] using hf.inside

/-! ### Trees -/

@[simp] theorem mem_tree : a ∈ (tree root T).nodes ↔ a = root ∨ a ∈ T.nodes := by
  simp [tree]

theorem Replaced.length {T' : Forest ℕ} (hr : Replaced root q K K' T T') :
    T'.nodes.length + K.nodes.length = T.nodes.length + K'.nodes.length := by
  obtain ⟨cs, hperm, hperm'⟩ := hr.nodes_perm
  have hlen := hperm.length_eq
  have hlen' := hperm'.length_eq
  simp only [tree, Forest.nodes_cons, Forest.nodes_nil, List.append_nil, List.length_cons, List.length_append] at hlen hlen'
  omega

theorem Replaced.length_insert {T' F M G : Forest ℕ} (hr : Replaced root q (F ++ (M ++ G)) (F ++ .cons a M G) T T') :
    T'.nodes.length = T.nodes.length + 1 := by
  have hlen := hr.length
  rw [(Forest.nodes_middle (F := F)).length_eq, List.length_cons] at hlen
  omega

theorem Replaced.perm_insert {T' F G : Forest ℕ} (hr : Replaced root q (F ++ G) (F ++ .cons a .nil G) T T') :
    (tree root T').nodes.Perm (a :: (tree root T).nodes) := by
  obtain ⟨cs, hperm, hperm'⟩ := hr.nodes_perm
  have hmid : (F ++ .cons a .nil G).nodes.Perm (a :: (F ++ G).nodes) := Forest.nodes_middle
  refine hperm'.trans (((hmid.append_right cs).cons q).trans ?_)
  exact (List.Perm.swap a q _).trans (hperm.symm.cons a)

theorem WellFormed.at (hwf : WellFormed h root T) (hq : (tree root T).At q K) :
    Family h q K.roots ∧ K.All (Family h) := hq.all hwf.family

/-- Every resource below the root is a child of the resource it has as its
parent. -/
theorem WellFormed.exists_parent (hwf : WellFormed h root T) (ha : a ∈ (tree root T).nodes)
    (hne : a ≠ root) :
    ∃ q K, (tree root T).At q K ∧ a ∈ K.roots ∧ (h a).parent = some q := by
  rcases Forest.root_or_below ha with hroot | ⟨q, K, hK, haK⟩
  · simp [tree, hne] at hroot
  · exact ⟨q, K, hK, haK, (hwf.at hK).1.parent a haK⟩

theorem inTree_of_path {p : Option ℕ} (hp : Path (fun c => (h c).sibling) p cs none)
    (hroot : root ∉ cs) (hstart : ∀ c, p = some c → InTree h root c) :
    ∀ c ∈ cs, InTree h root c := by
  induction cs generalizing p with
  | nil => simp
  | cons c cs ih =>
    rw [List.mem_cons, not_or] at hroot
    have hc := hstart c hp.1
    intro d hd
    rcases List.mem_cons.mp hd with rfl | hd
    · exact hc
    · exact ih hp.2 hroot.2 (fun e he => hc.sibling (fun h => hroot.1 h.symm) he) d hd

theorem inTree_of_all (hall : K.All (Family h)) (hroot : root ∉ K.nodes)
    (hroots : ∀ c ∈ K.roots, InTree h root c) : ∀ c ∈ K.nodes, InTree h root c := by
  induction K with
  | nil => simp
  | cons b kids rest ihk ihr =>
    obtain ⟨hf, hk, hr⟩ := hall
    simp only [Forest.nodes_cons, List.mem_cons, List.mem_append, not_or] at hroot
    have hb := hroots b (by simp)
    have hkids := inTree_of_path hf.chain (fun h => hroot.2.1 (Forest.roots_subset_nodes h))
      fun c hc => hb.child hc
    intro c hc
    simp only [Forest.nodes_cons, List.mem_cons, List.mem_append] at hc
    rcases hc with rfl | hc | hc
    · exact hb
    · exact ihk hk hroot.2.1 hkids c hc
    · exact ihr hr hroot.2.2 (fun d hd => hroots d (by simp [hd])) c hc

theorem WellFormed.inTree_iff (hwf : WellFormed h root T) :
    InTree h root a ↔ a ∈ (tree root T).nodes := by
  refine ⟨fun ha => ?_, fun ha => ?_⟩
  · induction ha with
    | root => simp
    | @child n c _ hc ih =>
      obtain ⟨K, hK⟩ := Forest.exists_at ih
      have hmem := (hwf.at hK).1.chain.mem_of_start hc
      simp only [reduceCtorEq, or_false] at hmem
      exact hK.subset (Forest.roots_subset_nodes hmem)
    | @sibling n c _ hn hc ih =>
      obtain ⟨q, K, hK, hnK, -⟩ := hwf.exists_parent ih hn
      have hmem := (hwf.at hK).1.chain.mem_of_link hnK hc
      simp only [reduceCtorEq, or_false] at hmem
      exact hK.subset (Forest.roots_subset_nodes hmem)
  · have hnod : root ∉ T.nodes := by
      have hnod := hwf.nodup
      simp only [tree, Forest.nodes_cons, Forest.nodes_nil, List.append_nil,
        List.nodup_cons] at hnod
      exact hnod.1
    obtain ⟨hf, hall, -⟩ := hwf.family
    rw [mem_tree] at ha
    rcases ha with rfl | ha
    · exact .root
    · refine inTree_of_all hall hnod ?_ a ha
      exact inTree_of_path hf.chain (fun h => hnod (Forest.roots_subset_nodes h))
        fun c hc => InTree.root.child hc

/-- **Changing the children of one resource.** The new children may be resources
that were below `q` before or that were not in the tree; outside of what
is below `q` no link has changed but the first child of `q`. -/
theorem WellFormed.replace (hwf : WellFormed h root T) (hq : (tree root T).At q K)
    (hnod : K'.nodes.Nodup) (hnew : ∀ a ∈ K'.nodes, a ∈ K.nodes ∨ a ∉ (tree root T).nodes)
    (hf : Family h' q K'.roots) (hall : K'.All (Family h'))
    (hstart : ∀ a, (h' a).start = (h a).start) (hend : ∀ a, (h' a).end_ = (h a).end_)
    (hlinks : ∀ a ∈ (tree root T).nodes, a ∉ K.nodes →
      (h' a).sibling = (h a).sibling ∧ (h' a).parent = (h a).parent ∧
        (a ≠ q → (h' a).child = (h a).child)) :
    ∃ T', Replaced root q K K' T T' ∧ WellFormed h' root T' := by
  obtain ⟨W, hW⟩ := hq.replace K'
  have hroots := hW.roots_eq
  have hW' : ∃ T', W = tree root T' := by
    cases hW with
    | here rest => exact ⟨K', rfl⟩
    | @kids kids kids' a rest hr => exact ⟨kids', rfl⟩
    | rest a kids hr => cases hr
  obtain ⟨T', rfl⟩ := hW'
  obtain ⟨cs, hperm, hperm'⟩ := hW.nodes_perm
  refine ⟨T', hW, ?_, hW.all hwf.nodup hwf.family hf hall ?_⟩
  · have hnod' := hperm.nodup_iff.mp hwf.nodup
    rw [hperm'.nodup_iff]
    simp only [List.nodup_cons, List.nodup_append, List.mem_append, not_or] at hnod' ⊢
    obtain ⟨⟨hqK, hqcs⟩, -, hcs, hKcs⟩ := hnod'
    refine ⟨⟨fun hqK' => ?_, hqcs⟩, hnod, hcs, ?_⟩
    · exact (hnew q hqK').elim hqK fun h => h hq.mem
    · rintro b hb c hc rfl
      refine (hnew b hb).elim (fun hbK => hKcs b hbK b hc rfl) fun h => h ?_
      exact hperm.mem_iff.mpr (by simp [hc])
  · intro n cs hn hnK hcs hfn
    rw [List.mem_cons, not_or] at hnK
    refine hfn.congr ((hlinks n hn hnK.2).2.2 hnK.1) hstart hend fun c hc => ?_
    exact ⟨(hlinks c (hcs c hc).1 (hcs c hc).2).1, (hlinks c (hcs c hc).1 (hcs c hc).2).2.1⟩

end GfpDrivers.ResourceTree
