import GfpDrivers.ResourceTree.Invariant

/-!
`remove_resource` undoes `insert_resource`: at whatever depth `new` was put,
and however many resources it took over, all links are as before.
-/

namespace GfpDrivers.ResourceTree

open Lib

variable {h h₁ : Heap} {root q new fuel : ℕ} {T K F M G : Forest ℕ}

theorem adopted_of_not_mem {ms : List ℕ} {first last a : ℕ} (ha : a ≠ new) (ham : a ∉ ms) (hlast : a ≠ last) :
    adopted h q new ms first last a = h a := by
  simp only [adopted]
  rw [setParents_of_not_mem ham, write_of_ne hlast, write_of_ne ha, write_of_ne ha, setParent_of_ne ha]

/-- The link behind `F` belongs to `q` or to a resource of `F`. -/
theorem owner_after_ne {a : ℕ} (hq : (tree root T).At q (F ++ (M ++ G))) (hwf : WellFormed h root T) (ha : a ∈ M.roots) :
    a ≠ ((Slot.child q).after F.roots).owner := by
  obtain ⟨hqK, hKnod⟩ := hq.nodup hwf.nodup
  have haM := Forest.roots_subset_nodes ha
  rintro rfl
  rcases List.mem_cons.mp (Slot.owner_after (.child q) F.roots) with howner | howner
  · rw [howner] at haM
    have hqM : q ∈ M.nodes := haM
    exact hqK (by simp [hqM])
  · simp only [Forest.nodes_append, List.nodup_append, List.mem_append] at hKnod
    exact hKnod.2.2 _ (Forest.roots_subset_nodes howner) _ (.inl haM) rfl

theorem linkNew_unlinked {p : Slot} {a : ℕ} (ha : a ≠ new) (hp : p.owner ≠ new) :
    setParent (p.write (linkNew h p q new) (linkNew h p q new new).sibling) new none a = h a := by
  have hsib : (linkNew h p q new new).sibling = p.read h := by
    simp only [linkNew, setParent_sibling]
    rw [write_of_ne hp.symm, write_sibling_self]
  rw [setParent_of_ne ha, hsib]
  refine write_read (v := some new) ?_
  rw [linkNew, setParent_of_ne ha]
  exact write_congr (write_of_ne ha)

/-- A resource takes over some others and hands them back. -/
theorem adopted_hoisted {ms : List ℕ} {first last a : ℕ} (hwf : WellFormed h root T)
    (hq : (tree root T).At q (F ++ (M ++ G))) (hnew : new ∉ (tree root T).nodes) (hM : M.roots = ms ++ [last])
    (hfirst : M.roots.head? = some first) (ha : a ≠ new) :
    hoisted (((Slot.child q).after F.roots).write (adopted h q new M.roots first last) (some new)) q new F.roots M.roots
      last a = h a := by
  obtain ⟨hf, -⟩ := hwf.at hq
  simp only [Forest.roots_append] at hf
  obtain ⟨m, hpre, hpost⟩ := path_append.mp hf.chain
  have hnewM : new ∉ M.roots := fun hmem => hnew (hq.subset (by simp [Forest.roots_subset_nodes hmem]))
  have hnewF : new ∉ F.roots := fun hmem => hnew (hq.subset (by simp [Forest.roots_subset_nodes hmem]))
  have hnewq : new ≠ q := fun hnq => hnew (hnq ▸ hq.mem)
  have hlast : last ∈ M.roots := by simp [hM]
  have hread : ((Slot.child q).after F.roots).read h = some first := by
    rw [read_after (p := .child q) hpre]
    cases hroots : M.roots with
    | nil => simp [hroots] at hlast
    | cons c cs =>
      rw [hroots] at hpost hfirst
      exact hpost.1.trans hfirst
  have hchild : (((Slot.child q).after F.roots).write (adopted h q new M.roots first last) (some new) new).child =
      some first := by
    rw [write_after_child hnewq, adopted_child_new]
  have hsib : (((Slot.child q).after F.roots).write (adopted h q new M.roots first last) (some new) new).sibling =
      (h last).sibling := by
    rw [write_after_sibling hnewF, adopted_sibling_new (ne_of_mem_of_not_mem hlast hnewM).symm]
  simp only [hoisted]
  rw [setParent_of_ne ha, hchild, hsib]
  by_cases haM : a ∈ M.roots
  · -- what was taken over has its parent and its sibling back
    have howner := owner_after_ne hq hwf haM
    have hparent : (h a).parent = some q := hf.parent a (by simp [haM])
    have hadopted : adopted h q new M.roots first last a =
        { Slot.write h none (.sibling last) a with parent := some new } := by
      simp only [adopted, setParents, haM, if_true]
      rw [write_congr (h := h)]
      rw [write_of_ne ha, write_of_ne ha, setParent_of_ne ha]
    have hback : ((Slot.child q).after F.roots).write (setParents (((Slot.child q).after F.roots).write
        (adopted h q new M.roots first last) (some new)) M.roots (some q)) (some first) a =
        Slot.write h none (.sibling last) a := by
      rw [write_of_ne howner]
      simp only [setParents, haM, if_true]
      rw [write_of_ne howner, hadopted, ← hparent, ← write_parent (p := .sibling last) (v := none) (h := h)]
    exact write_read hback
  · have hal : a ≠ last := (ne_of_mem_of_not_mem hlast haM).symm
    rw [write_of_ne hal, ← hread]
    refine write_read (v := some new) ?_
    rw [setParents_of_not_mem haM]
    exact write_congr (adopted_of_not_mem ha haM hal)

theorem Inserted.remove (hwf : WellFormed h root T) (hq : (tree root T).At q (F ++ (M ++ G)))
    (hnew : new ∉ (tree root T).nodes) (hins : Inserted h q new F M h₁) (hf : Family h₁ q (F.roots ++ new :: G.roots))
    (hfnew : Family h₁ new M.roots) (hfuel : F.roots.length + M.roots.length < fuel) :
    ∃ h₂, removeResource fuel h₁ new = some (h₂, 0) ∧ ∀ a ≠ new, h₂ a = h a := by
  cases hins with
  | leaf =>
    refine ⟨_, hf.doReleaseResource_unlink (.inl hfnew.chain) (by omega), fun a ha => ?_⟩
    refine linkNew_unlinked ha fun howner => ?_
    rcases List.mem_cons.mp (Slot.owner_after (.child q) F.roots) with hmem | hmem
    · exact hnew ((howner.symm.trans hmem) ▸ hq.mem)
    · exact hnew (hq.subset (by simp [Forest.roots_subset_nodes (howner ▸ hmem)]))
  | @above M ms first last hM hfirst =>
    exact ⟨_, hf.doReleaseResource_hoist hfnew.chain hM hfuel, fun a ha => adopted_hoisted hwf hq hnew hM hfirst ha⟩

/-- **`insert_resource` and `remove_resource`.** An insertion fails exactly if `new` is not inside
its parent or overlaps some resource below it partly; else removing `new` at once restores the tree. -/
theorem remove_undoes_insert (hwf : WellFormed h root T) (hq : (tree root T).At q K) (hnew : new ∉ (tree root T).nodes)
    (hchild : (h new).child = none) (hvalid : (h new).start ≤ (h new).end_) (hfuel : T.nodes.length + 1 < fuel) :
    ∃ h₁ rc, insertResource fuel h q new = some (h₁, rc) ∧ (rc = 0 ∨ rc = -EBUSY) ∧
      (rc = -EBUSY ↔
        ¬((h q).start ≤ (h new).start ∧ (h new).end_ ≤ (h q).end_) ∨ ∃ a ∈ K.nodes, PartlyOverlaps (h a) (h new)) ∧
      (rc = 0 → ∃ h₂, removeResource fuel h₁ new = some (h₂, 0) ∧ WellFormed h₂ root T ∧ ∀ a ≠ new, h₂ a = h a) := by
  have hbusy : (0 : ℤ) ≠ -EBUSY := by decide
  rcases hwf.insertResourceConflict hq hnew hchild hfuel with
    ⟨q', F, M, G, h₁, T', hq', hins, hfits, hclean, hrun, hT', hwf'⟩ | ⟨c, hcause, hrun⟩
  · refine ⟨h₁, 0, by rw [insertResource, hrun]; rfl, .inl rfl, ⟨fun hrc => absurd hrc hbusy, ?_⟩, fun _ => ?_⟩
    · rintro (hout | hover)
      · exact absurd hfits.2 hout
      · exact absurd hover hclean
    · have hat := Forest.Replace.at_right hT'
      obtain ⟨hf, -⟩ := hwf'.at hat
      obtain ⟨hfnew, -⟩ := hwf'.at hat.root
      have hlen := length_below_le hq'
      have hlenF := Forest.length_roots_le (F := F)
      have hlenM := Forest.length_roots_le (F := M)
      simp only [Forest.nodes_append, List.length_append] at hlen
      rw [Forest.roots_append, Forest.roots_cons] at hf
      have hfuel' : F.roots.length + M.roots.length < fuel := by omega
      obtain ⟨h₂, hremove, hsame⟩ := hins.remove hwf hq' hnew hf hfnew hfuel'
      exact ⟨h₂, hremove, hwf.congr fun a ha => hsame a (ne_of_mem_of_not_mem ha hnew), hsame⟩
  · refine ⟨h, -EBUSY, by rw [insertResource, hrun]; rfl, .inr rfl, ⟨fun _ => ?_, fun _ => rfl⟩, fun hrc => absurd hrc.symm hbusy⟩
    rcases hcause with hfits | ⟨hover, -⟩
    · exact .inl fun hin => hfits ⟨hvalid, hin⟩
    · exact .inr hover

theorem cover_inserted_and_removed :
    ∃ h₁ h₂, insertResource 5 coverHeap 0 2 = some (h₁, 0) ∧ removeResource 5 h₁ 2 = some (h₂, 0) ∧
      ∀ a ≠ 2, h₂ a = coverHeap a := by
  obtain ⟨h₁, rc, hrun, hrc, hiff, hback⟩ :=
    @remove_undoes_insert coverHeap 0 0 2 5 (.cons 1 .nil .nil) (.cons 1 .nil .nil) coverHeap_wellFormed (.here .nil) (by decide) rfl
      (by decide) (by decide)
  have hok : rc = 0 := by
    refine hrc.resolve_right fun hbusy => ?_
    rcases hiff.mp hbusy with hout | ⟨a, ha, hover⟩
    · exact hout (by decide)
    · have ha1 : a = 1 := by simpa using ha
      subst ha1
      exact hover.2.2.2 (by decide)
  subst hok
  obtain ⟨h₂, hremove, -, hsame⟩ := hback rfl
  exact ⟨h₁, h₂, hrun, hremove, hsame⟩

end GfpDrivers.ResourceTree
