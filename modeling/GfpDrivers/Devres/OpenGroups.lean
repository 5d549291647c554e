import GfpDrivers.Devres.ReleaseGroup

/-!
The devres operations on a device whose list is known, for groups that hold entries only: what the list is
afterwards, and that the ids of the groups stay.
-/

namespace GfpDrivers.Devres

open Lib List

/-- The list of the device, where every group is opened before it is closed. -/
structure DevList (d : Dev) (xs : List DevNode) : Prop where
  listed : Listed d.links xs
  todo : DevNode.todo ∉ xs
  grouped : Grouped xs

/-- The nodes of some entries. -/
def regs (rs : List ℕ) : List DevNode := rs.map .reg

variable {d : Dev} {xs pre mid post : List DevNode} {g r fuel : ℕ} {rs : List ℕ} {id : Option GroupId} {gid : GroupId}

@[simp] theorem regs_nil : regs [] = [] := rfl

@[simp] theorem regs_append (rs rs' : List ℕ) : regs (rs ++ rs') = regs rs ++ regs rs' := map_append

theorem opn_not_mem_regs : DevNode.opn g ∉ regs rs := by simp [regs]

theorem cls_not_mem_regs : DevNode.cls g ∉ regs rs := by simp [regs]

theorem filter_isMarker_regs : (regs rs).filter (·.isMarker) = [] := by
  refine filter_eq_nil_iff.mpr fun x hx => ?_
  obtain ⟨r, -, rfl⟩ := mem_map.mp hx
  exact Bool.false_ne_true

theorem groupMatches_regs {y : DevNode} (hy : y ∈ regs rs) : groupMatches d id y = none := by
  obtain ⟨r, -, rfl⟩ := mem_map.mp hy
  rfl

/-! ### Adding -/

theorem DevList.add (h : DevList d xs) (hr : DevNode.reg r ∉ xs) (release : ℕ) :
    ∃ d', devresAdd (allocDr d r release) r = some d' ∧ DevList d' (xs ++ [.reg r]) ∧ d'.id = d.id := by
  have hempty : (d.links.init (.reg r)).isEmpty (.reg r) = true := by simp [Links.isEmpty, Links.init]
  refine ⟨{ allocDr d r release with links := (d.links.init (.reg r)).addTail (.reg r) .head }, ?_, ⟨?_, ?_, ?_⟩, rfl⟩
  · simp [devresAdd, addDr, allocDr, hempty]
  · exact (h.listed.init (by simpa using hr)).addTail (by simpa using hr) (by simp)
  · simpa using h.todo
  · exact h.grouped.concat hr (by simp) (by simp)

theorem DevList.openGroup (h : DevList d xs) (hg : DevNode.opn g ∉ xs) (id : Option GroupId) :
    ∃ d', devresOpenGroup d id (some g) = some (d', some (id.getD (.addr g))) ∧ DevList d' (xs ++ [.opn g]) ∧
      d'.id = Function.update d.id g (id.getD (.addr g)) := by
  have hcls : DevNode.cls g ∉ xs := fun hmem => hg (h.grouped.paired g hmem)
  have hempty : ((d.links.init (.opn g)).init (.cls g)).isEmpty (.opn g) = true := by simp [Links.isEmpty, Links.init]
  refine ⟨{ d with
      links := ((d.links.init (.opn g)).init (.cls g)).addTail (.opn g) .head
      id := Function.update d.id g (id.getD (.addr g)) }, ?_, ⟨?_, ?_, ?_⟩, rfl⟩
  · simp [devresOpenGroup, addDr, hempty]
  · refine ((h.listed.init (by simpa using hg)).init (by simpa using hcls)).addTail (by simpa using hg) fun g' hg' => ?_
    rw [← DevNode.opn.inj hg']
    exact Links.isList_init _ _
  · simpa using h.todo
  · refine h.grouped.concat hg (by simp) fun g' hg' => ?_
    rw [← DevNode.opn.inj hg']
    exact hcls

/-! ### Finding -/

theorem DevList.isEmpty_cls (h : DevList d xs) (hg : DevNode.opn g ∈ xs) (hcls : DevNode.cls g ∉ xs) :
    d.links.isEmpty (.cls g) = true := by
  have halone := (Links.isList_nil_iff.mp (h.listed.opened g hg hcls)).1
  simp [Links.isEmpty, halone]

/-- The group that is found is the last one that matches. -/
theorem DevList.findGroup_last (h : DevList d (pre ++ .opn g :: mid)) (hfuel : (pre ++ .opn g :: mid).length < fuel)
    (hg : groupMatches d id (.opn g) = some g) (hmid : ∀ y ∈ mid, groupMatches d id y = none) :
    findGroup fuel d id = some (some g) := by
  rw [findGroup_eq id h.listed.head hfuel, reverse_append, reverse_cons, append_assoc,
    List.findSome?_append, List.findSome?_eq_none_iff.mpr fun y hy => hmid y (mem_reverse.mp hy), Option.none_or,
    singleton_append, List.findSome?_cons, hg]

theorem DevList.findGroup_open (h : DevList d (pre ++ .opn g :: mid)) (hfuel : (pre ++ .opn g :: mid).length < fuel)
    (hcls : DevNode.cls g ∉ pre ++ .opn g :: mid) (hclosed : ∀ g', DevNode.opn g' ∈ mid → DevNode.cls g' ∈ mid) :
    findGroup fuel d none = some (some g) := by
  refine h.findGroup_last hfuel ?_ fun y hy => ?_
  · rw [groupMatches]
    exact if_pos (h.isEmpty_cls (by simp) hcls)
  · cases y with
    | opn g' =>
      have hmem : DevNode.cls g' ∈ pre ++ .opn g :: mid := by simp [hclosed g' hy]
      exact if_neg (by simp [h.listed.head.isEmpty_of_mem hmem])
    | head => rfl
    | todo => rfl
    | reg r => rfl
    | cls g' => rfl

/-! ### Closing and removing -/

theorem DevList.closeGroup (h : DevList d (pre ++ .opn g :: mid)) (hfuel : (pre ++ .opn g :: mid).length < fuel)
    (hcls : DevNode.cls g ∉ pre ++ .opn g :: mid) (hclosed : ∀ g', DevNode.opn g' ∈ mid → DevNode.cls g' ∈ mid) :
    ∃ d', devresCloseGroup fuel d none = some d' ∧ DevList d' (pre ++ .opn g :: mid ++ [.cls g]) ∧ d'.id = d.id := by
  have hempty := h.isEmpty_cls (by simp) hcls
  refine ⟨{ d with links := d.links.addTail (.cls g) .head }, ?_, ⟨?_, ?_, ?_⟩, rfl⟩
  · rw [devresCloseGroup, h.findGroup_open hfuel hcls hclosed]
    exact if_pos hempty
  · exact h.listed.addTail (by simpa using hcls) (by simp)
  · simpa using h.todo
  · refine h.grouped.concat hcls (fun g' hg' => ?_) (by simp)
    rw [← DevNode.cls.inj hg']
    simp

/-- The latest open group is removed, and the nodes behind it stay. -/
theorem DevList.removeGroup (h : DevList d (pre ++ .opn g :: mid)) (hfuel : (pre ++ .opn g :: mid).length < fuel)
    (hcls : DevNode.cls g ∉ pre ++ .opn g :: mid) (hclosed : ∀ g', DevNode.opn g' ∈ mid → DevNode.cls g' ∈ mid) :
    ∃ d', devresRemoveGroup fuel d none = some (d', some g) ∧ DevList d' (pre ++ mid) ∧ d'.id = d.id := by
  have hfilter : (pre ++ .opn g :: mid).filter (fun y => nodeToGroup y ≠ some g) = pre ++ mid := by
    have hnodup := h.grouped.nodup
    rw [nodup_middle, nodup_cons] at hnodup
    rw [filter_group_append_cons rfl, filter_group_eq_self hnodup.1 fun hmem => hcls ?_]
    simp only [mem_append, mem_cons] at hmem ⊢
    tauto
  have hsub : (pre ++ mid).Sublist (pre ++ .opn g :: mid) := (sublist_cons_self ..).append_left pre
  have hlisted := h.listed.remove_group h.grouped (by simp : DevNode.opn g ∈ pre ++ .opn g :: mid)
  rw [hfilter] at hlisted
  refine ⟨{ d with links := (d.links.delInit (.opn g)).delInit (.cls g) }, ?_, ⟨hlisted, ?_, ?_⟩, rfl⟩
  · rw [devresRemoveGroup, h.findGroup_open hfuel hcls hclosed]
    rfl
  · exact fun hmem => h.todo (hsub.subset hmem)
  · refine h.grouped.sublist hsub fun g' hg' => ?_
    have hopn := h.grouped.paired g' (hsub.subset hg')
    rw [← hfilter, mem_filter] at hg' ⊢
    exact ⟨hopn, hg'.2⟩

/-! ### Releasing -/

theorem DevList.release_span {rest : List DevNode} {last : DevNode} (h : DevList d (pre ++ rest ++ post))
    (hfuel : rest.length < fuel) (hlast : last = post.headD .head)
    (hgone : kept (pre ++ rest.filter (·.isMarker) ++ post) (rest.filter (·.isMarker)) = []) :
    ∃ d' cnt, ((removeNodes fuel { d with links := d.links.init .todo } (rest.headD last) last).bind fun (d, cnt) =>
        (releaseNodes fuel d).map (·, (cnt : ℤ))) = some (d', cnt) ∧ DevList d' (pre ++ post) ∧ d'.id = d.id := by
  have hlists := h.listed.toLists h.todo
  obtain ⟨d₁, us, hrun, hl, -, hlen, -, hid, -⟩ := removeNodes_spec
    (d := { d with links := d.links.init .todo }) hlast h.grouped hlists hfuel
  have hsplit := length_eq_length_filter_add (l := rest) (·.isMarker)
  have hrel := releaseNodes_spec hl.todo (by
    rw [length_append]
    omega : _ < fuel)
  have hgrouped := h.grouped.filter_isMarker.kept
  have hlisted := hl.toListed
  rw [hgone, append_nil] at hgrouped hlisted
  refine ⟨{ d₁ with calls := d₁.calls ++ (rest.filter (fun x => !x.isMarker) ++ us).reverse },
    ((rest.filter fun x => !x.isMarker).length : ℕ), ?_, ⟨hlisted, fun hmem => h.todo ?_, hgrouped⟩, ?_⟩
  · rw [hrun, Option.bind_some]
    dsimp only
    rw [hrel, Option.map_some]
  · simp only [mem_append] at hmem ⊢
    tauto
  · exact hid

/-- Releasing the latest open group, with entries behind its marker. -/
theorem DevList.releaseOpen (h : DevList d (pre ++ .opn g :: regs rs)) (hfuel : (pre ++ .opn g :: regs rs).length < fuel)
    (hcls : DevNode.cls g ∉ pre ++ .opn g :: regs rs) :
    ∃ d' cnt, devresReleaseGroup fuel d none = some (d', cnt) ∧ DevList d' pre ∧ d'.id = d.id := by
  have hlists := h.listed.toLists h.todo
  have hfind := h.findGroup_open hfuel hcls fun g' hg' => absurd hg' opn_not_mem_regs
  rw [← findGroup_init_todo none h.listed.head hlists.head hfuel] at hfind
  have hempty : (d.links.init .todo).isEmpty (.cls g) = true := by
    have halone := (Links.isList_nil_iff.mp (hlists.toListed.opened g (by simp) hcls)).1
    simp [Links.isEmpty, halone]
  have hmarkers : (DevNode.opn g :: regs rs).filter (·.isMarker) = [.opn g] := by
    rw [filter_cons_of_pos rfl, filter_isMarker_regs]
  have hpre : DevNode.cls g ∉ pre := fun hmem => hcls (mem_append_left _ hmem)
  have hspan : DevList d (pre ++ .opn g :: regs rs ++ []) := by rwa [append_nil]
  have hlen : (DevNode.opn g :: regs rs).length < fuel := by
    rw [length_append] at hfuel
    omega
  obtain ⟨d', cnt, hrun, hd', hid⟩ := hspan.release_span hlen rfl (by
    rw [hmarkers]
    simp [kept, contained, nodeToGroup, hpre])
  refine ⟨d', cnt, ?_, by rwa [append_nil] at hd', hid⟩
  rw [devresReleaseGroup]
  dsimp only
  rw [hfind, Option.bind_some]
  dsimp only
  rw [if_pos hempty]
  exact hrun

/-- Releasing a closed group with entries between its markers, by its id: there is no group behind it. -/
theorem DevList.releaseClosed {rs' : List ℕ} (h : DevList d (pre ++ .opn g :: (regs rs ++ [.cls g] ++ regs rs')))
    (hfuel : (pre ++ DevNode.opn g :: (regs rs ++ [.cls g] ++ regs rs')).length < fuel) (hid : d.id g = gid) :
    ∃ d' cnt, devresReleaseGroup fuel d (some gid) = some (d', cnt) ∧ DevList d' (pre ++ regs rs') ∧ d'.id = d.id := by
  have hlists := h.listed.toLists h.todo
  have hmid : ∀ y ∈ regs rs ++ [.cls g] ++ regs rs', groupMatches d (some gid) y = none := fun y hy => by
    rcases mem_append.mp hy with hy | hy
    · rcases mem_append.mp hy with hy | hy
      · exact groupMatches_regs hy
      · rw [mem_singleton.mp hy]
        rfl
    · exact groupMatches_regs hy
  have hopn : groupMatches d (some gid) (.opn g) = some g := if_pos hid
  have hfind := h.findGroup_last hfuel hopn hmid
  rw [← findGroup_init_todo (some gid) h.listed.head hlists.head hfuel] at hfind
  have hsplit : pre ++ DevNode.opn g :: (regs rs ++ [.cls g] ++ regs rs') =
      pre ++ .opn g :: (regs rs ++ [.cls g]) ++ regs rs' := by
    simp
  have hmarkers : (DevNode.opn g :: (regs rs ++ [.cls g])).filter (·.isMarker) = [.opn g, .cls g] := by
    rw [filter_cons_of_pos rfl, filter_append, filter_isMarker_regs]
    rfl
  rw [hsplit] at h hfuel hlists
  have hnotEmpty : (d.links.init .todo).isEmpty (.cls g) = false := hlists.head.isEmpty_of_mem (by simp)
  have hnext : (d.links.init .todo).next (.cls g) = (regs rs').headD .head := by
    have hhead := hlists.head
    rw [← cons_append, ← append_assoc, append_assoc, singleton_append] at hhead
    exact hhead.next_eq
  have hlen : (DevNode.opn g :: (regs rs ++ [.cls g])).length < fuel := by
    rw [length_append, length_append] at hfuel
    omega
  obtain ⟨d', cnt, hrun, hd', hsame⟩ := h.release_span hlen rfl (by
    rw [hmarkers]
    simp [kept, contained, nodeToGroup])
  refine ⟨d', cnt, ?_, hd', hsame⟩
  rw [devresReleaseGroup]
  dsimp only
  rw [hfind, Option.bind_some]
  dsimp only
  rw [if_neg (by simp [hnotEmpty]), hnext]
  exact hrun

end GfpDrivers.Devres
