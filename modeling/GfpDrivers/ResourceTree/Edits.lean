import GfpDrivers.ResourceTree.Slots

/-!
The four ways in which the operations rewrite the children of a resource: a
new child is linked in, a child is unlinked with all that is below it, a
child is replaced by its own children, and a run of children is put below
a new one. Each of them takes a well-formed tree to a well-formed tree.
-/

namespace GfpDrivers.ResourceTree

open Lib

variable {h h' : Heap} {root q new old : ℕ} {ds es ms : List ℕ} {T K : Forest ℕ}

/-- Below the roots of a forest the families stay, if only the links of those
roots are written. -/
theorem all_below {F : Forest ℕ} (hall : F.All (Family h)) (hnod : F.nodes.Nodup)
    (hstart : ∀ a, (h' a).start = (h a).start) (hend : ∀ a, (h' a).end_ = (h a).end_)
    (hchild : ∀ a ∈ F.nodes, (h' a).child = (h a).child)
    (hlinks : ∀ a ∈ F.nodes, a ∉ F.roots →
      (h' a).sibling = (h a).sibling ∧ (h' a).parent = (h a).parent) : F.All (Family h') :=
  hall.inner hnod fun n _ hn hcs hf =>
    hf.congr (hchild n hn) hstart hend fun c hc => hlinks c (hcs c hc).1 (hcs c hc).2

/-- A new resource among the children of `q`, with some of the old children
below it. -/
theorem WellFormed.insertNode {F M G : Forest ℕ} (hwf : WellFormed h root T)
    (hq : (tree root T).At q (F ++ (M ++ G))) (hnew : new ∉ (tree root T).nodes)
    (hstart : ∀ a, (h' a).start = (h a).start) (hend : ∀ a, (h' a).end_ = (h a).end_)
    (hchild : ∀ a ∈ (tree root T).nodes, a ≠ q → (h' a).child = (h a).child)
    (hlinks : ∀ a ∈ (tree root T).nodes, a ∉ F.roots → a ∉ M.roots →
      (h' a).sibling = (h a).sibling ∧ (h' a).parent = (h a).parent)
    (hfq : Family h' q (F.roots ++ new :: G.roots)) (hfnew : Family h' new M.roots) :
    ∃ T', Replaced root q (F ++ (M ++ G)) (F ++ .cons new M G) T T' ∧ WellFormed h' root T' := by
  obtain ⟨hqK, hKnod⟩ := hq.nodup hwf.nodup
  have hbelow : (F ++ (M ++ G)).All (Family h') := by
    refine all_below (hwf.at hq).2 hKnod hstart hend (fun a ha => ?_) fun a ha haK => ?_
    · exact hchild a (hq.subset ha) (ne_of_mem_of_not_mem ha hqK)
    · simp only [Forest.roots_append, List.mem_append, not_or] at haK
      exact hlinks a (hq.subset ha) haK.1 haK.2.1
  have hperm : (F ++ .cons new M G).nodes.Perm (new :: (F ++ (M ++ G)).nodes) :=
    Forest.nodes_middle
  have hall : (F ++ .cons new M G).All (Family h') := by
    simp only [Forest.all_append, Forest.all_cons] at hbelow ⊢
    exact ⟨hbelow.1, hfnew, hbelow.2⟩
  refine hwf.replace hq (hperm.nodup_iff.mpr (List.nodup_cons.mpr ⟨fun h => hnew (hq.subset h), hKnod⟩)) ?_
    (by simpa using hfq) hall hstart hend ?_
  · intro a ha
    rcases List.mem_cons.mp (hperm.mem_iff.mp ha) with rfl | ha
    · exact .inr hnew
    · exact .inl ha
  · intro a ha haK
    simp only [Forest.nodes_append, List.mem_append, not_or] at haK
    obtain ⟨hsib, hpar⟩ := hlinks a ha (fun h => haK.1 (Forest.roots_subset_nodes h))
      fun h => haK.2.1 (Forest.roots_subset_nodes h)
    exact ⟨hsib, hpar, hchild a ha⟩

/-- A resource that goes from the children of `q`, with what is below it or in
exchange for its children. -/
theorem WellFormed.dropNode (hwf : WellFormed h root T) (hq : (tree root T).At q K)
    (K' : Forest ℕ) (hsub : K'.nodes.Sublist K.nodes) (hold : old ∈ K.nodes)
    (hold' : old ∉ K'.nodes) (hall : K'.All (Family h))
    (hstart : ∀ a, (h' a).start = (h a).start) (hend : ∀ a, (h' a).end_ = (h a).end_)
    (hchild : ∀ a ≠ q, (h' a).child = (h a).child)
    (hlinks : ∀ a ≠ old, a ∉ K'.roots →
      (h' a).sibling = (h a).sibling ∧ (h' a).parent = (h a).parent)
    (hf : Family h' q K'.roots) :
    ∃ T', Replaced root q K K' T T' ∧ WellFormed h' root T' := by
  obtain ⟨hqK, hKnod⟩ := hq.nodup hwf.nodup
  have hnod := hKnod.sublist hsub
  have hbelow : K'.All (Family h') := by
    refine all_below hall hnod hstart hend (fun a ha => ?_) fun a ha => ?_
    · exact hchild a (ne_of_mem_of_not_mem (hsub.subset ha) hqK)
    · exact hlinks a (ne_of_mem_of_not_mem ha hold')
  refine hwf.replace hq hnod (fun a ha => .inl (hsub.subset ha)) hf hbelow hstart hend ?_
  intro a _ haK
  obtain ⟨hsib, hpar⟩ := hlinks a (ne_of_mem_of_not_mem hold haK).symm fun h =>
    haK (hsub.subset (Forest.roots_subset_nodes h))
  exact ⟨hsib, hpar, hchild a⟩

/-! ### Linking a new child -/

theorem linkNew_path (hds : Siblings h (h q).child (ds ++ es) none)
    (hnod : (ds ++ new :: es).Nodup) (hqc : q ∉ ds) :
    Siblings (linkNew h ((Slot.child q).after ds) q new)
      (linkNew h ((Slot.child q).after ds) q new q).child (ds ++ new :: es) none := by
  obtain ⟨m, hpre, hpost⟩ := path_append.mp hds
  have hread : ((Slot.child q).after ds).read h = m := read_after hpre
  obtain ⟨hnew, -⟩ := List.nodup_cons.mp (List.nodup_middle.mp hnod)
  rw [List.mem_append, not_or] at hnew
  -- `new` is linked to the rest first, which no path goes through yet.
  have hframe : ∀ c ≠ new, (Slot.write h m (.sibling new) c).sibling = (h c).sibling := by
    intro c hc
    rw [write_of_ne hc]
  have hpre' : Siblings (Slot.write h m (.sibling new)) (Slot.write h m (.sibling new) q).child
      ds m := by
    rw [write_sibling_child]
    exact hpre.congr fun c hc => hframe c fun hcn => hnew.1 (hcn ▸ hc)
  have hpost' : Siblings (Slot.write h m (.sibling new)) (some new) (new :: es) none := by
    refine ⟨rfl, ?_⟩
    simp only [write_sibling_self]
    exact hpost.congr fun c hc => hframe c fun hcn => hnew.2 (hcn ▸ hc)
  have hsplice := path_splice hpre' hpost' hqc hnod
  simp only [linkNew, hread, setParent_child]
  exact hsplice.congr fun c _ => setParent_sibling

/-- `new` fits in `q`, between the children `F` and `G`. -/
structure Gap (h : Heap) (q new : ℕ) (F G : Forest ℕ) : Prop where
  fits : Fits h q new
  before : ∀ d ∈ F.roots, (h d).end_ < (h new).start
  after : ∀ e ∈ G.roots, (h new).end_ < (h e).start

/-- The children of `q` after `new` is put between `ds` and `es`. -/
theorem Family.linkNew (hf : Family h q (ds ++ es)) (hnew : new ∉ ds ++ es) (hq : q ∉ ds) (hfits : Fits h q new)
    (hds : ∀ d ∈ ds, (h d).end_ < (h new).start) (hes : ∀ e ∈ es, (h new).end_ < (h e).start) :
    Family (linkNew h ((Slot.child q).after ds) q new) q (ds ++ new :: es) := by
  refine Family.of_ranges (hf.ranges.insert hfits hds hes) (by simp [ResourceTree.linkNew])
    (by simp [ResourceTree.linkNew]) ?_ ?_
  · exact linkNew_path hf.chain (List.nodup_middle.mpr (List.nodup_cons.mpr ⟨hnew, hf.nodup⟩)) hq
  · intro c hc
    by_cases hcn : c = new
    · simp [hcn, ResourceTree.linkNew]
    · simp only [ResourceTree.linkNew]
      rw [setParent_of_ne hcn, write_parent, write_parent]
      exact hf.parent c (by simpa [hcn] using hc)

theorem WellFormed.linkNew {F G : Forest ℕ} (hwf : WellFormed h root T) (hq : (tree root T).At q (F ++ G))
    (hnew : new ∉ (tree root T).nodes) (hchild : (h new).child = none) (hgap : Gap h q new F G) :
    ∃ T', Replaced root q (F ++ G) (F ++ .cons new .nil G) T T' ∧
      WellFormed (linkNew h ((Slot.child q).after F.roots) q new) root T' := by
  obtain ⟨hf, -⟩ := hwf.at hq
  obtain ⟨hqK, -⟩ := hq.nodup hwf.nodup
  rw [Forest.roots_append] at hf
  have hroots : ∀ a ∈ F.roots ++ G.roots, a ∈ (F ++ G).nodes := fun a ha =>
    Forest.roots_subset_nodes ((Forest.roots_append (F := F)) ▸ ha)
  have hnroots : new ∉ F.roots ++ G.roots := fun hmem => hnew (hq.subset (hroots _ hmem))
  set h' := ResourceTree.linkNew h ((Slot.child q).after F.roots) q new with hh'
  have hstart : ∀ a, (h' a).start = (h a).start := by simp [hh', ResourceTree.linkNew]
  have hend : ∀ a, (h' a).end_ = (h a).end_ := by simp [hh', ResourceTree.linkNew]
  have hfirst : ∀ a ≠ q, (h' a).child = (h a).child := by
    intro a ha
    simp only [hh', ResourceTree.linkNew, setParent_child]
    rw [write_after_child ha, write_sibling_child]
  have hpar : ∀ a ≠ new, (h' a).parent = (h a).parent := by
    intro a ha
    simp only [hh', ResourceTree.linkNew]
    rw [setParent_of_ne ha, write_parent, write_parent]
  have hsib : ∀ a ≠ new, a ∉ F.roots → (h' a).sibling = (h a).sibling := by
    intro a ha haF
    simp only [hh', ResourceTree.linkNew, setParent_sibling]
    rw [write_after_sibling haF, write_of_ne ha]
  have hfam : Family h' q (F.roots ++ new :: G.roots) :=
    hf.linkNew hnroots (fun h => hqK (hroots q (by simp [h]))) hgap.fits hgap.before hgap.after
  have hleaf : Family h' new [] := by
    refine Family.of_ranges .nil hstart hend ?_ (by simp)
    exact (hfirst new (ne_of_mem_of_not_mem hq.mem hnew).symm).trans hchild
  refine hwf.insertNode (M := .nil) hq hnew hstart hend (fun a _ => hfirst a) ?_ hfam hleaf
  intro a ha haF _
  have hne := ne_of_mem_of_not_mem ha hnew
  exact ⟨hsib a hne haF, hpar a hne⟩

/-! ### Unlinking a child -/

/-- `h'` is the heap after the child `old` is unlinked. What else is written in
`old` does not matter, apart from the fields named here. -/
theorem WellFormed.unlink {F L G : Forest ℕ} (hwf : WellFormed h root T) (h' : Heap)
    (hq : (tree root T).At q (F ++ .cons old L G))
    (hh : ∀ a ≠ old, h' a = ((Slot.child q).after F.roots).write h (h old).sibling a)
    (hold : (h' old).start = (h old).start ∧ (h' old).end_ = (h old).end_ ∧
      (h' old).child = (h old).child) :
    ∃ T', Replaced root q (F ++ .cons old L G) (F ++ G) T T' ∧ WellFormed h' root T' := by
  obtain ⟨hf, hall⟩ := hwf.at hq
  obtain ⟨hqK, hKnod⟩ := hq.nodup hwf.nodup
  have hqroots : q ∉ F.roots ++ old :: G.roots := fun hmem =>
    hqK (Forest.roots_subset_nodes (by simpa using hmem))
  simp only [Forest.roots_append, Forest.roots_cons] at hf
  have hnod := hf.nodup
  obtain ⟨holdm, hnod'⟩ := List.nodup_cons.mp (List.nodup_middle.mp hnod)
  have hqo : q ≠ old := fun h => hqroots (by simp [h])
  have hstart : ∀ a, (h' a).start = (h a).start := by
    intro a
    by_cases ha : a = old
    · rw [ha, hold.1]
    · rw [hh a ha, write_start]
  have hend : ∀ a, (h' a).end_ = (h a).end_ := by
    intro a
    by_cases ha : a = old
    · rw [ha, hold.2.1]
    · rw [hh a ha, write_end]
  have hfirst : ∀ a ≠ q, (h' a).child = (h a).child := by
    intro a haq
    by_cases ha : a = old
    · rw [ha, hold.2.2]
    · rw [hh a ha, write_after_child haq]
  have hlinks : ∀ a ≠ old, a ∉ F.roots →
      (h' a).sibling = (h a).sibling ∧ (h' a).parent = (h a).parent := by
    intro a ha haF
    rw [hh a ha, write_after_sibling haF, write_parent]
    exact ⟨rfl, rfl⟩
  have hfam : Family h' q (F.roots ++ G.roots) := by
    have hsub : (F.roots ++ G.roots).Sublist (F.roots ++ old :: G.roots) :=
      (List.sublist_cons_self ..).append_left _
    have hne : ∀ c ∈ F.roots ++ G.roots, c ≠ old := fun c hc => ne_of_mem_of_not_mem hc holdm
    refine Family.of_ranges (hf.ranges.sublist hsub) hstart hend ?_ ?_
    · obtain ⟨m, hpre, hpost⟩ := path_append.mp hf.chain
      have hsplice := path_splice hpre hpost.2 (fun h => hqroots (by simp [h])) hnod'
      rw [hh q hqo]
      exact hsplice.congr fun c hc => by rw [hh c (hne c hc)]
    · intro c hc
      rw [hh c (hne c hc), write_parent]
      exact hf.parent c (hsub.subset hc)
  have hsub : (F ++ G).nodes.Sublist (F ++ (L ++ G)).nodes := by
    simp only [Forest.nodes_append]
    exact (List.sublist_append_right ..).append_left _
  have hperm : (F ++ .cons old L G).nodes.Perm (old :: (F ++ (L ++ G)).nodes) :=
    Forest.nodes_middle
  have hold' := (List.nodup_cons.mp (hperm.nodup_iff.mp hKnod)).1
  simp only [Forest.all_append, Forest.all_cons] at hall
  refine hwf.dropNode hq (F ++ G) ?_ (by simp) (fun h => hold' (hsub.subset h)) ?_ hstart hend
    hfirst ?_ (by simpa using hfam)
  · simp only [Forest.nodes_append, Forest.nodes_cons]
    exact ((List.sublist_append_right ..).cons old).append_left _
  · exact Forest.all_append.mpr ⟨hall.1, hall.2.2.2⟩
  · intro a ha haK
    exact hlinks a ha fun h => haK (by simp [h])

/-! ### Replacing a child by its children -/

/-- The heap after the children `ms`, of which `last` is the last one, of `old`
are handed to `q` and linked in the place of `old`. -/
def hoisted (h : Heap) (q old : ℕ) (ds ms : List ℕ) (last : ℕ) : Heap :=
  let h₁ := setParents h ms (some q)
  let h₂ := ((Slot.child q).after ds).write h₁ (h old).child
  setParent (Slot.write h₂ (h old).sibling (.sibling last)) old none

section

variable {last : ℕ}

theorem hoisted_path (hq : Siblings h (h q).child (ds ++ old :: es) none)
    (hold : Siblings h (h old).child (ms ++ [last]) none)
    (hnod : (ds ++ (ms ++ [last] ++ es)).Nodup) (hqd : q ∉ ds) (holdm : old ∉ ms ++ [last])
    (hne : old ≠ q) :
    Siblings (hoisted h q old ds (ms ++ [last]) last)
      (hoisted h q old ds (ms ++ [last]) last q).child (ds ++ (ms ++ [last] ++ es)) none := by
  obtain ⟨m, hpre, -, hpost⟩ := path_append.mp hq
  obtain ⟨hdn, hmen, hdisj⟩ := List.nodup_append.mp hnod
  set h₁ := setParents h (ms ++ [last]) (some q) with hh₁
  set h₂ := ((Slot.child q).after ds).write h₁ (h old).child with hh₂
  have hsib₂ : ∀ c ∈ ms ++ [last] ++ es, (h₂ c).sibling = (h c).sibling := by
    intro c hc
    rw [hh₂, write_after_sibling fun hcd => hdisj c hcd c hc rfl, hh₁, setParents_sibling]
  have hchild₂ : (h₂ old).child = (h old).child := by
    rw [hh₂, write_after_child hne, hh₁, setParents_child]
  have hds : Siblings h₂ (h₂ q).child ds (h old).child := by
    refine path_write (p := .child q) (e := m) ?_ hqd hdn
    have hstart : (Slot.child q).read h₁ = (h q).child := setParents_child
    rw [hstart]
    exact hpre.congr fun c _ => setParents_sibling
  have hms : Siblings h₂ (h₂ old).child (ms ++ [last]) none := by
    rw [hchild₂]
    exact hold.congr fun c hc => hsib₂ c (List.mem_append_left es hc)
  have hes : Siblings h₂ (h old).sibling es none :=
    hpost.congr fun c hc => hsib₂ c (List.mem_append_right _ hc)
  -- The last child is linked to what came after `old`.
  have hsplice := path_splice hms hes holdm hmen
  rw [Slot.after_concat, write_sibling_child, hchild₂] at hsplice
  have hlast : last ∉ ds := fun hl => hdisj last hl last (by simp) rfl
  simp only [hoisted, setParent_child, write_sibling_child]
  refine path_append.mpr ⟨(h old).child, hds.congr fun c hc => ?_, hsplice.congr fun c _ => ?_⟩
  · rw [setParent_sibling, write_of_ne]
    rintro rfl
    exact hlast hc
  · rw [setParent_sibling]

theorem hoisted_child {a : ℕ} (ha : a ≠ q) :
    (hoisted h q old ds ms last a).child = (h a).child := by
  simp only [hoisted, setParent_child, write_sibling_child]
  rw [write_after_child ha, setParents_child]

theorem hoisted_sibling {a : ℕ} (had : a ∉ ds) (hal : a ≠ last) :
    (hoisted h q old ds ms last a).sibling = (h a).sibling := by
  simp only [hoisted, setParent_sibling]
  rw [write_of_ne hal, write_after_sibling had, setParents_sibling]

theorem hoisted_parent {a : ℕ} (hao : a ≠ old) (ham : a ∉ ms) :
    (hoisted h q old ds ms last a).parent = (h a).parent := by
  simp only [hoisted]
  rw [setParent_of_ne hao, write_parent, write_parent, setParents_of_not_mem ham]

theorem hoisted_parent_of_mem {a : ℕ} (hao : a ≠ old) (ham : a ∈ ms) :
    (hoisted h q old ds ms last a).parent = some q := by
  simp only [hoisted]
  rw [setParent_of_ne hao, write_parent, write_parent, setParents_parent_of_mem ham]

/-- `remove_resource` of a resource with children. -/
theorem WellFormed.hoisted {L : Forest ℕ} {F G : Forest ℕ} (hwf : WellFormed h root T)
    (hq : (tree root T).At q (F ++ .cons old L G)) (hL : L.roots = ms ++ [last]) :
    ∃ T', Replaced root q (F ++ .cons old L G) (F ++ (L ++ G)) T T' ∧
      WellFormed (hoisted h q old F.roots L.roots last) root T' := by
  obtain ⟨hf, hall⟩ := hwf.at hq
  obtain ⟨hfo, -⟩ := hwf.at hq.root
  obtain ⟨hqK, hKnod⟩ := hq.nodup hwf.nodup
  simp only [Forest.all_append, Forest.all_cons] at hall
  simp only [Forest.roots_append, Forest.roots_cons] at hf
  have hlast : last ∈ L.roots := by simp [hL]
  have hperm : (F ++ .cons old L G).nodes.Perm (old :: (F ++ (L ++ G)).nodes) :=
    Forest.nodes_middle
  obtain ⟨hold, hnod⟩ := List.nodup_cons.mp (hperm.nodup_iff.mp hKnod)
  -- The children of `q` afterwards are resources that were below `q`, without `old`.
  have hroots : ∀ c ∈ F.roots ++ (L.roots ++ G.roots), c ∈ (F ++ (L ++ G)).nodes := by
    intro c hc
    exact Forest.roots_subset_nodes (by simpa using hc)
  have hrn : (F.roots ++ (L.roots ++ G.roots)).Nodup := by
    simpa using hnod.sublist Forest.roots_sublist_nodes
  have hne : ∀ c ∈ F.roots ++ (L.roots ++ G.roots), c ≠ old := fun c hc =>
    ne_of_mem_of_not_mem (hroots c hc) hold
  have hstart : ∀ a, (ResourceTree.hoisted h q old F.roots L.roots last a).start = (h a).start := by
    simp [ResourceTree.hoisted]
  have hend : ∀ a, (ResourceTree.hoisted h q old F.roots L.roots last a).end_ = (h a).end_ := by
    simp [ResourceTree.hoisted]
  refine hwf.dropNode hq (F ++ (L ++ G)) ?_ (by simp) hold ?_ hstart hend
    (fun a => hoisted_child) ?_ ?_
  · simp only [Forest.nodes_append, Forest.nodes_cons]
    exact (List.sublist_cons_self ..).append_left _
  · simp [hall.1, hall.2.2]
  · intro a hao haK
    simp only [Forest.roots_append, List.mem_append, not_or] at haK
    exact ⟨hoisted_sibling haK.1 (ne_of_mem_of_not_mem hlast haK.2.1).symm,
      hoisted_parent hao haK.2.1⟩
  · simp only [Forest.roots_append]
    refine Family.of_ranges (hf.ranges.splice hfo.ranges) hstart hend ?_ ?_
    · rw [hL] at hfo hrn ⊢
      refine hoisted_path hf.chain hfo.chain hrn ?_ ?_ ?_
      · exact fun h => hqK (by simp [Forest.roots_subset_nodes h])
      · exact fun h => hne old (by simp [hL ▸ h]) rfl
      · exact fun h => hqK (by simp [h])
    · intro c hc
      by_cases hcL : c ∈ L.roots
      · exact hoisted_parent_of_mem (hne c hc) hcL
      · rw [hoisted_parent (hne c hc) hcL]
        refine hf.parent c ?_
        simp only [List.mem_append, List.mem_cons] at hc ⊢
        tauto

/-! ### Putting children below a new one -/

/-- The heap after `new` has been given the children `ms` of `q`, of which `first`
is the first and `last` the last one, and before `new` itself is linked. -/
def adopted (h : Heap) (q new : ℕ) (ms : List ℕ) (first last : ℕ) : Heap :=
  let h₁ := setParent h new (some q)
  let h₂ := Slot.write h₁ (h last).sibling (.sibling new)
  let h₃ := Slot.write h₂ (some first) (.child new)
  let h₄ := Slot.write h₃ none (.sibling last)
  setParents h₄ ms (some new)

variable {first : ℕ}

theorem adopted_child {a : ℕ} (ha : a ≠ new) :
    (adopted h q new ms first last a).child = (h a).child := by
  simp only [adopted, setParents_child, write_sibling_child]
  rw [write_of_ne ha, write_sibling_child, setParent_child]

theorem adopted_child_new : (adopted h q new ms first last new).child = some first := by
  simp [adopted]

theorem adopted_sibling {a : ℕ} (ha : a ≠ new) (ha' : a ≠ last) :
    (adopted h q new ms first last a).sibling = (h a).sibling := by
  simp only [adopted, setParents_sibling]
  rw [write_of_ne ha', write_child_sibling, write_of_ne ha, setParent_sibling]

theorem adopted_sibling_new (hne : new ≠ last) :
    (adopted h q new ms first last new).sibling = (h last).sibling := by
  simp only [adopted, setParents_sibling]
  rw [write_of_ne hne, write_child_sibling, write_sibling_self]

theorem adopted_parent {a : ℕ} (ha : a ≠ new) (ha' : a ∉ ms) :
    (adopted h q new ms first last a).parent = (h a).parent := by
  simp only [adopted]
  rw [setParents_of_not_mem ha', write_parent, write_parent, write_parent, setParent_of_ne ha]

theorem adopted_parent_new (hnew : new ∉ ms) :
    (adopted h q new ms first last new).parent = some q := by
  simp only [adopted]
  rw [setParents_of_not_mem hnew, write_parent, write_parent, write_parent, setParent_parent_self]

theorem adopted_parent_of_mem {a : ℕ} (ha : a ∈ ms) :
    (adopted h q new ms first last a).parent = some new := by
  simp only [adopted]
  rw [setParents_parent_of_mem ha]

/-- The three parts of the list of `q` after the adoption. -/
theorem adopted_paths (hq : Siblings h (h q).child (ds ++ (ms ++ [last]) ++ es) none)
    (hfirst : (ms ++ [last]).head? = some first) (hnod : (ds ++ (ms ++ [last]) ++ es).Nodup)
    (hnew : new ∉ ds ++ (ms ++ [last]) ++ es) :
    Siblings (adopted h q new (ms ++ [last]) first last) (h q).child ds (some first) ∧
      Siblings (adopted h q new (ms ++ [last]) first last) (some first) (ms ++ [last]) none ∧
      Siblings (adopted h q new (ms ++ [last]) first last) (some new) (new :: es) none := by
  obtain ⟨m₂, hdm, hes⟩ := path_append.mp hq
  obtain ⟨m₁, hds, hms⟩ := path_append.mp hdm
  have hm₁ : m₁ = some first := by
    cases ms with
    | nil => exact hms.1.trans hfirst
    | cons c ms => exact hms.1.trans hfirst
  have hm₂ : (h last).sibling = m₂ := by
    obtain ⟨m, -, -, hm⟩ := path_append.mp hms
    exact hm
  subst hm₁
  simp only [List.mem_append, List.mem_singleton, not_or] at hnew
  obtain ⟨⟨hnd, hnm, hnl⟩, hne⟩ := hnew
  have hlast := hnod
  simp only [List.nodup_append, List.mem_append, List.mem_singleton] at hlast
  refine ⟨hds.congr fun c hc => ?_, ?_, rfl, ?_⟩
  · refine adopted_sibling ?_ ?_
    · rintro rfl
      exact hnd hc
    · rintro rfl
      exact hlast.1.2.2 c hc c (.inr rfl) rfl
  · obtain ⟨m, hms', hml, -⟩ := path_append.mp hms
    refine path_append.mpr ⟨m, hms'.congr fun c hc => ?_, hml, ?_⟩
    · refine adopted_sibling ?_ ?_
      · rintro rfl
        exact hnm hc
      · rintro rfl
        exact hlast.1.2.1.2.2 c hc c rfl rfl
    · simp [Lib.Path, adopted]
  · simp only [adopted_sibling_new hnl, hm₂]
    refine hes.congr fun c hc => adopted_sibling ?_ ?_
    · rintro rfl
      exact hne hc
    · rintro rfl
      exact hlast.2.2 c (.inr (.inr rfl)) c hc rfl

/-- The loops of `insertAbove` find the link to `first`. -/
theorem insertAbove_eq (fuel : ℕ)
    (hq : Siblings h (h q).child (ds ++ (ms ++ [last]) ++ es) none)
    (hfirst : (ms ++ [last]).head? = some first) (hnod : (ds ++ (ms ++ [last]) ++ es).Nodup)
    (hnq : new ≠ q) (hnew : new ∉ ds ++ (ms ++ [last]) ++ es)
    (hfuel : (ds ++ (ms ++ [last])).length < fuel) :
    insertAbove fuel h q new first last = some (((Slot.child q).after ds).write
      (adopted h q new (ms ++ [last]) first last) (some new)) := by
  obtain ⟨hds, hms, -⟩ := adopted_paths hq hfirst hnod hnew
  rw [List.length_append] at hfuel
  have hadopt : adoptChildren new fuel (Slot.write (Slot.write (Slot.write
      (setParent h new (some q)) (h last).sibling (.sibling new)) (some first) (.child new)) none
      (.sibling last)) (some first) = some (adopted h q new (ms ++ [last]) first last) :=
    adoptChildren_eq (hms.congr fun c _ => setParents_sibling.symm) (by omega)
  have hmem : first ∈ ms ++ [last] := List.mem_of_head? hfirst
  simp only [insertAbove, setParent_sibling]
  rw [hadopt, Option.bind_some, adopted_child hnq.symm]
  cases List.eq_nil_or_concat ds with
  | inl hnil =>
    subst hnil
    have hchild : (h q).child = some first := hds
    rw [if_pos hchild]
    rfl
  | inr hconcat =>
    obtain ⟨ds, d, rfl⟩ := hconcat
    rw [List.concat_eq_append] at hds hnod hfuel ⊢
    have hfd : first ∉ ds ++ [d] := by
      intro hf
      rw [List.append_assoc] at hnod
      exact (List.nodup_append.mp hnod).2.2 first hf first (List.mem_append_left es hmem) rfl
    have hstart : ∃ next, (h q).child = some next ∧ next ∈ ds ++ [d] := by
      cases ds with
      | nil => exact ⟨d, hds.1, by simp⟩
      | cons c ds => exact ⟨c, hds.1, by simp⟩
    obtain ⟨next, hnext, hnmem⟩ := hstart
    have hne : (h q).child ≠ some first := by
      rw [hnext]
      intro h
      exact hfd (Option.some.inj h ▸ hnmem)
    rw [hnext] at hds
    rw [if_neg hne, hnext, Option.bind_some]
    have hbefore := siblingBefore_eq hds hfd (by
      rw [List.length_append] at hfuel
      omega : _ < fuel)
    rw [hbefore, Option.map_some, Slot.after_concat]

/-- `insert_resource` where `new` covers some of the children of `q`. -/
theorem WellFormed.insertAbove {F M G : Forest ℕ} (hwf : WellFormed h root T)
    (hq : (tree root T).At q (F ++ (M ++ G))) (hM : M.roots = ms ++ [last])
    (hfirst : M.roots.head? = some first) (hnew : new ∉ (tree root T).nodes)
    (hgap : Gap h q new F G)
    (hcover : ∀ c ∈ M.roots, (h new).start ≤ (h c).start ∧ (h c).end_ ≤ (h new).end_) :
    ∃ T', Replaced root q (F ++ (M ++ G)) (F ++ .cons new M G) T T' ∧
      WellFormed (((Slot.child q).after F.roots).write (adopted h q new M.roots first last) (some new)) root T' := by
  obtain ⟨hf, -⟩ := hwf.at hq
  obtain ⟨hqK, -⟩ := hq.nodup hwf.nodup
  simp only [Forest.roots_append] at hf
  have hroots : ∀ c ∈ F.roots ++ (M.roots ++ G.roots), c ∈ (F ++ (M ++ G)).nodes := by
    intro c hc
    exact Forest.roots_subset_nodes (by simpa using hc)
  have hne : ∀ a ∈ (tree root T).nodes, a ≠ new := fun a ha => ne_of_mem_of_not_mem ha hnew
  have hnroots : new ∉ F.roots ++ (M.roots ++ G.roots) := fun hmem =>
    hnew (hq.subset (hroots _ hmem))
  have hlast : last ∈ M.roots := by simp [hM]
  have hpaths := adopted_paths (q := q) (h := h) (by simpa [hM] using hf.chain)
    (hM ▸ hfirst) (by simpa [hM] using hf.nodup) (by simpa [hM] using hnroots)
  rw [← hM] at hpaths
  obtain ⟨hds, hms, hes⟩ := hpaths
  set h₁ := adopted h q new M.roots first last with hh₁
  set h' := ((Slot.child q).after F.roots).write h₁ (some new) with hh'
  have hstart : ∀ a, (h' a).start = (h a).start := by simp [hh', hh₁, adopted]
  have hend : ∀ a, (h' a).end_ = (h a).end_ := by simp [hh', hh₁, adopted]
  have hsub : (F.roots ++ G.roots).Sublist (F.roots ++ (M.roots ++ G.roots)) :=
    (List.sublist_append_right ..).append_left _
  have hsubM : M.roots.Sublist (F.roots ++ (M.roots ++ G.roots)) :=
    (List.sublist_append_left ..).trans (List.sublist_append_right ..)
  obtain ⟨-, hMGn, hFM⟩ := List.nodup_append.mp hf.nodup
  have hMF : ∀ c ∈ M.roots, c ∉ F.roots := fun c hc hcF =>
    hFM c hcF c (List.mem_append_left _ hc) rfl
  have hMG : ∀ c ∈ M.roots, c ∉ G.roots := fun c hc hcG =>
    (List.nodup_append.mp hMGn).2.2 c hc c hcG rfl
  have hfamq : Family h' q (F.roots ++ new :: G.roots) := by
    have hranges := (hf.ranges.sublist hsub).insert hgap.fits hgap.before hgap.after
    refine Family.of_ranges hranges hstart hend ?_ ?_
    · rw [← adopted_child (hne q hq.mem)] at hds
      refine path_splice hds hes (fun h => hqK (hroots q (by simp [h]))) ?_
      refine List.nodup_middle.mpr (List.nodup_cons.mpr ⟨?_, hf.nodup.sublist hsub⟩)
      exact fun h => hnroots (hsub.subset h)
    · intro c hc
      rw [hh', write_parent, hh₁]
      rcases List.mem_cons.mp (List.perm_middle.mem_iff.mp hc) with rfl | hc
      · exact adopted_parent_new fun h => hnroots (hsubM.subset h)
      · have hcM : c ∉ M.roots := fun h =>
          (List.mem_append.mp hc).elim (hMF c h) (hMG c h)
        have hcn := ne_of_mem_of_not_mem (hsub.subset hc) hnroots
        rw [adopted_parent hcn hcM]
        exact hf.parent c (hsub.subset hc)
  have hfamnew : Family h' new M.roots := by
    have hranges : Ranges h new M.roots :=
      ⟨hf.ranges.before.sublist hsubM, fun c hc => ⟨hf.valid c (hsubM.subset hc), hcover c hc⟩⟩
    refine Family.of_ranges hranges hstart hend ?_ ?_
    · have hchild : (h' new).child = some first := by
        rw [hh', write_after_child (hne q hq.mem).symm, hh₁, adopted_child_new]
      rw [hchild]
      exact hms.congr fun c hc => write_after_sibling (hMF c hc)
    · intro c hc
      rw [hh', write_parent, hh₁, adopted_parent_of_mem hc]
  refine hwf.insertNode hq hnew hstart hend ?_ ?_ hfamq hfamnew
  · intro a ha haq
    rw [hh', write_after_child haq, hh₁, adopted_child (hne a ha)]
  · intro a ha haF haM
    have hal : a ≠ last := (ne_of_mem_of_not_mem hlast haM).symm
    rw [hh', write_after_sibling haF, write_parent, hh₁, adopted_sibling (hne a ha) hal,
      adopted_parent (hne a ha) haM]
    exact ⟨rfl, rfl⟩

end

end GfpDrivers.ResourceTree
