import GfpDrivers.Devres.RemoveNodes
import GfpDrivers.Lib.Runs

/-!
Runs of the devres operations on one device, and what `devres_release_all`
does at the end of one.

Beside the device a run keeps two lists that are not read from its links:
the entries that were added and have not been removed, destroyed or released
since, in the order in which they were added, and the groups that are
allocated. Both follow from what the calls returned and from the release
functions they called.
-/

namespace GfpDrivers.Devres

open Lib List

structure DevSys where
  dev : Dev
  live : List ℕ
  groups : List ℕ

inductive DevAct where
  | add (r release : ℕ)
  | remove (release : ℕ) (matches' : ℕ → Bool)
  | destroy (release : ℕ) (matches' : ℕ → Bool)
  | release (release : ℕ) (matches' : ℕ → Bool)
  | openGroup (id : Option GroupId) (grp : Option ℕ)
  | closeGroup (id : Option GroupId)
  | removeGroup (id : Option GroupId)
  | releaseGroup (id : Option GroupId)

namespace DevSys

/-- A device right after its list head has been initialised. -/
def start (d : Dev) : DevSys := ⟨deviceInit d, [], []⟩

/-- The entry that a call returned or freed is registered no more. -/
def forget (s : DevSys) (d : Dev) (res : Option ℕ) : DevSys :=
  ⟨d, s.live.filter fun r => some r ≠ res, s.groups⟩

/-- The nodes whose release function a call has called are gone. -/
def forgetReleased (s : DevSys) (d : Dev) : DevSys :=
  let calls := d.calls.drop s.dev.calls.length
  ⟨d, s.live.filter fun r => DevNode.reg r ∉ calls, s.groups.filter fun g => DevNode.opn g ∉ calls⟩

def step (fuel : ℕ) (s : DevSys) : DevAct → Option DevSys
  | .add r release =>
      (devresAdd (allocDr s.dev r release) r).map fun d => ⟨d, s.live ++ [r], s.groups⟩
  | .remove release matches' =>
      (devresRemove fuel s.dev release matches').map fun (d, res) => s.forget d res
  | .destroy release matches' =>
      (devresDestroy fuel s.dev release matches').map fun (d, res, _) => s.forget d res
  | .release release matches' =>
      (devresRelease fuel s.dev release matches').map fun (d, res, _) => s.forget d res
  | .openGroup id grp =>
      (devresOpenGroup s.dev id grp).map fun (d, _) => ⟨d, s.live, grp.toList ++ s.groups⟩
  | .closeGroup id => (devresCloseGroup fuel s.dev id).map fun d => ⟨d, s.live, s.groups⟩
  | .removeGroup id =>
      (devresRemoveGroup fuel s.dev id).map fun (d, grp) =>
        ⟨d, s.live, s.groups.filter fun g => some g ≠ grp⟩
  | .releaseGroup id => (devresReleaseGroup fuel s.dev id).map fun (d, _) => s.forgetReleased d

/-- What the callers and the allocator promise: an entry is added once, a new
group is not one that is still in use, and no group is closed twice. -/
def Allows (fuel : ℕ) (s : DevSys) : DevAct → Prop
  | .add r _ => r ∉ s.live
  | .openGroup _ grp => ∀ g ∈ grp, g ∉ s.groups
  | .closeGroup id =>
      ∀ g, findGroup fuel s.dev id = some (some g) → s.dev.links.isEmpty (.cls g) = true
  | _ => True

instance decidableAllows (fuel : ℕ) (s : DevSys) : (a : DevAct) → Decidable (s.Allows fuel a)
  | .add r _ => inferInstanceAs (Decidable (r ∉ s.live))
  | .openGroup _ grp => inferInstanceAs (Decidable (∀ g ∈ grp, g ∉ s.groups))
  | .closeGroup id =>
      decidable_of_iff (∀ g ∈ (findGroup fuel s.dev id).join, s.dev.links.isEmpty (.cls g) = true)
        (by simp [Allows, Option.join_eq_some_iff])
  | .remove .. | .destroy .. | .release .. | .removeGroup _ | .releaseGroup _ => isTrue trivial

/-- The list of the device holds the entries that are still registered, in
their order, and the markers of groups that are allocated. -/
structure Registered (s : DevSys) (xs : List DevNode) : Prop where
  listed : Listed s.dev.links xs
  todo : DevNode.todo ∉ xs
  grouped : Grouped xs
  live : s.live = xs.filterMap DevNode.entry?
  groups : ∀ g, DevNode.opn g ∈ xs → g ∈ s.groups

end DevSys

variable {d : Dev} {L : Links DevNode} {x : DevNode} {xs ys zs ts : List DevNode} {g r fuel : ℕ}

/-! ### Searching -/

theorem findDr_eq {release : ℕ} {matches' : ℕ → Bool} (hl : d.links.IsList .head xs)
    (hfuel : xs.length < fuel) :
    findDr fuel d release matches' =
      some (xs.reverse.findSome? (entryMatches d release matches')) := by
  rw [findDr, hl.prev_head]
  exact Links.IsList.findBack_eq (by simpa using hl : d.links.IsList .head (xs ++ [])) hfuel

theorem findGroup_eq (id : Option GroupId) (hl : d.links.IsList .head xs)
    (hfuel : xs.length < fuel) :
    findGroup fuel d id = some (xs.reverse.findSome? (groupMatches d id)) := by
  rw [findGroup, hl.prev_head]
  exact Links.IsList.findBack_eq (by simpa using hl : d.links.IsList .head (xs ++ [])) hfuel

theorem mem_of_entryMatches {release : ℕ} {matches' : ℕ → Bool}
    (h : xs.reverse.findSome? (entryMatches d release matches') = some r) : DevNode.reg r ∈ xs := by
  obtain ⟨x, hx, hr⟩ := exists_of_findSome?_eq_some h
  rw [mem_reverse] at hx
  cases x with
  | reg r' =>
    simp only [entryMatches, Option.ite_none_right_eq_some, Option.some.injEq] at hr
    exact hr.2 ▸ hx
  | head => cases hr
  | todo => cases hr
  | opn g => cases hr
  | cls g => cases hr

theorem mem_of_groupMatches {id : Option GroupId}
    (h : xs.reverse.findSome? (groupMatches d id) = some g) : DevNode.opn g ∈ xs := by
  obtain ⟨x, hx, hg⟩ := exists_of_findSome?_eq_some h
  rw [mem_reverse] at hx
  cases x with
  | opn g' =>
    have hgg : g' = g := by
      cases id with
      | none =>
        simp only [groupMatches, Option.ite_none_right_eq_some, Option.some.injEq] at hg
        exact hg.2
      | some id =>
        simp only [groupMatches, Option.ite_none_right_eq_some, Option.some.injEq] at hg
        exact hg.2
    exact hgg ▸ hx
  | head => cases hg
  | todo => cases hg
  | reg r => cases hg
  | cls g => cases hg

/-! ### Adding nodes and taking them out -/

theorem Listed.init (hl : Listed L xs) (hx : x ∉ DevNode.head :: xs) : Listed (L.init x) xs := by
  refine ⟨hl.head.init hx, fun g hopn hcls => ?_⟩
  by_cases hg : .cls g = x
  · exact hg ▸ Links.isList_init L (.cls g)
  · exact (hl.opened g hopn hcls).of_frame (Links.init_frame hg)

/-- Adding a node at the end of the list; the opening marker of a group is added
while its closing node is in no list. -/
theorem Listed.addTail (hl : Listed L xs) (hx : x ∉ DevNode.head :: xs)
    (hopn : ∀ g, x = .opn g → L.IsList (.cls g) []) :
    Listed (L.addTail x .head) (xs ++ [x]) := by
  refine ⟨hl.head.addTail hx, fun g hg hcls => ?_⟩
  rw [mem_append, mem_singleton, not_or] at hcls
  have halone : L.IsList (.cls g) [] := by
    rcases mem_append.mp hg with hg | hg
    · exact hl.opened g hg hcls.1
    · exact hopn g (mem_singleton.mp hg).symm
  exact halone.of_frame (hl.head.addTail_frame (by simpa using hcls.1) hcls.2)

theorem Grouped.concat (hgr : Grouped xs) (hx : x ∉ xs) (hcls : ∀ g, x = .cls g → DevNode.opn g ∈ xs)
    (hopn : ∀ g, x = .opn g → DevNode.cls g ∉ xs) : Grouped (xs ++ [x]) := by
  refine ⟨?_, ?_, fun g hg => ?_⟩
  · rw [nodup_append]
    refine ⟨hgr.nodup, by simp, ?_⟩
    rintro y hy z hz rfl
    exact hx (mem_singleton.mp hz ▸ hy)
  · rw [pairwise_append]
    refine ⟨hgr.order, by simp, ?_⟩
    rintro y hy z hz g rfl rfl
    exact hopn g (mem_singleton.mp hz).symm hy
  · rw [mem_append]
    rcases mem_append.mp hg with hg | hg
    · exact .inl (hgr.paired g hg)
    · exact .inl (hcls g (mem_singleton.mp hg).symm)

theorem Grouped.sublist (hgr : Grouped xs) (hsub : ys.Sublist xs)
    (hpair : ∀ g, DevNode.cls g ∈ ys → DevNode.opn g ∈ ys) : Grouped ys :=
  ⟨hgr.nodup.sublist hsub, hgr.order.sublist hsub, hpair⟩

/-- `devres_remove_group` takes both markers of the group out. -/
theorem Listed.remove_group (hl : Listed L xs) (hgr : Grouped xs) (hg : DevNode.opn g ∈ xs) :
    Listed ((L.delInit (.opn g)).delInit (.cls g))
      (xs.filter fun y => nodeToGroup y ≠ some g) := by
  obtain ⟨ys, zs, rfl⟩ := append_of_mem hg
  have hl' : Listed (L.delInit (.opn g)) (ys ++ zs) := hl.delInit (by simp)
  have hnod := hgr.nodup
  rw [nodup_middle, nodup_cons] at hnod
  rw [filter_group_append_cons rfl]
  by_cases hcls : DevNode.cls g ∈ ys ++ DevNode.opn g :: zs
  · obtain ⟨as, bs, hsplit⟩ := append_of_mem
      (show DevNode.cls g ∈ ys ++ zs by simpa using hcls)
    rw [hsplit] at hl' hnod ⊢
    have hopn : DevNode.opn g ∉ as ++ bs := fun h => hnod.1 (by
      simp only [mem_append, mem_cons] at h ⊢
      tauto)
    have hcls' : DevNode.cls g ∉ as ++ bs := by
      have := hnod.2
      rw [nodup_middle, nodup_cons] at this
      exact this.1
    rw [filter_group_append_cons rfl, filter_group_eq_self hopn hcls']
    exact hl'.delInit fun g' h => DevNode.cls.inj h ▸ hopn
  · have halone := hl.delInit_alone (x := .opn g) (c := .cls g) (by simp) (by simpa using hcls)
      (hl.opened g (by simp) hcls)
    rw [Links.delInit_of_empty halone, filter_group_eq_self hnod.1 (by simpa using hcls)]
    exact hl'

/-! ### The entries of a list -/

theorem mem_entries : r ∈ xs.filterMap DevNode.entry? ↔ DevNode.reg r ∈ xs := by
  rw [mem_filterMap]
  refine ⟨fun ⟨x, hx, hr⟩ => ?_, fun h => ⟨.reg r, h, rfl⟩⟩
  cases x with
  | reg r' => exact Option.some.inj hr ▸ hx
  | head => cases hr
  | todo => cases hr
  | opn g => cases hr
  | cls g => cases hr

theorem entries_nodup (hnod : xs.Nodup) : (xs.filterMap DevNode.entry?).Nodup := by
  refine hnod.filterMap fun x y r hx hy => ?_
  cases x with
  | reg r' =>
    cases y with
    | reg r'' => rw [← Option.some.inj hx] at hy; exact congrArg _ (Option.some.inj hy).symm
    | head => cases hy
    | todo => cases hy
    | opn g => cases hy
    | cls g => cases hy
  | head => cases hx
  | todo => cases hx
  | opn g => cases hx
  | cls g => cases hx

theorem entry?_of_isMarker (hx : x.isMarker = true) : x.entry? = none := by
  cases x with
  | reg r => cases hx
  | head => cases hx
  | todo => cases hx
  | opn g => rfl
  | cls g => rfl

theorem entries_of_markers (hxs : ∀ x ∈ xs, x.isMarker = true) :
    xs.filterMap DevNode.entry? = [] := by
  rw [filterMap_eq_nil_iff]
  exact fun x hx => entry?_of_isMarker (hxs x hx)

theorem entries_filter (xs : List DevNode) :
    (xs.filter fun x => !x.isMarker).filterMap DevNode.entry? = xs.filterMap DevNode.entry? := by
  rw [filterMap_filter]
  refine filterMap_congr fun x _ => ?_
  cases hx : x.isMarker with
  | true => simp [entry?_of_isMarker hx]
  | false => simp

theorem entries_length (hxs : ∀ x ∈ xs, x ≠ .head ∧ x ≠ .todo) :
    (xs.filter fun x => !x.isMarker).length = (xs.filterMap DevNode.entry?).length := by
  induction xs with
  | nil => rfl
  | cons x xs ih =>
    have ih' := ih fun y hy => hxs y (by simp [hy])
    cases x with
    | head => exact absurd rfl (hxs .head (by simp)).1
    | todo => exact absurd rfl (hxs .todo (by simp)).2
    | reg r => exact congrArg Nat.succ ih'
    | opn g => exact ih'
    | cls g => exact ih'

theorem entries_forget {rest : List DevNode} {p : ℕ → Bool} (hnod : (ys ++ rest ++ zs).Nodup)
    (hp : ∀ r, p r = true ↔ DevNode.reg r ∉ rest) :
    ((ys ++ rest ++ zs).filterMap DevNode.entry?).filter p =
      (ys ++ zs).filterMap DevNode.entry? := by
  simp only [nodup_append, mem_append] at hnod
  obtain ⟨⟨-, -, hyr⟩, -, hyz⟩ := hnod
  have hys : (ys.filterMap DevNode.entry?).filter p = ys.filterMap DevNode.entry? := by
    rw [filter_eq_self]
    intro r hr
    rw [hp]
    exact fun h => hyr _ (mem_entries.mp hr) _ h rfl
  have hrest : (rest.filterMap DevNode.entry?).filter p = [] := by
    rw [filter_eq_nil_iff]
    intro r hr
    rw [hp, not_not]
    exact mem_entries.mp hr
  have hzs : (zs.filterMap DevNode.entry?).filter p = zs.filterMap DevNode.entry? := by
    rw [filter_eq_self]
    intro r hr
    rw [hp]
    exact fun h => hyz _ (.inr h) _ (mem_entries.mp hr) rfl
  rw [filterMap_append, filterMap_append, filter_append, filter_append, hys,
    hrest, hzs, append_nil, filterMap_append]

/-! ### Releasing a span -/

variable {ms pre rest post : List DevNode} {last : DevNode}

theorem kept_sublist : (kept xs ms).Sublist ms := filter_sublist

/-- What `remove_nodes` leaves is grouped again: a group loses both markers or
none. -/
theorem Grouped.kept (hgr : Grouped (pre ++ ms ++ post)) :
    Grouped (pre ++ kept (pre ++ ms ++ post) ms ++ post) := by
  refine hgr.sublist ((kept_sublist.append_left pre).append_right post) fun g hg => ?_
  have hpair := hgr.paired g
  have hnod := hgr.nodup
  have hin : DevNode.opn g ∈ ms → DevNode.opn g ∈ Devres.kept (pre ++ ms ++ post) ms := by
    intro hopn
    rw [Devres.kept, mem_filter]
    refine ⟨hopn, ?_⟩
    simp only [mem_append] at hg
    rcases hg with (hg | hg) | hg
    · have hcls : DevNode.cls g ∉ ms := by
        simp only [append_assoc, nodup_append, mem_append] at hnod
        exact fun h => hnod.2.2 _ hg _ (.inl h) rfl
      simp [nodeToGroup, contained, hg, hcls]
    · exact (mem_filter.mp hg).2
    · have hcls : DevNode.cls g ∉ ms := by
        simp only [nodup_append, mem_append] at hnod
        exact fun h => hnod.2.2 _ (.inr h) _ hg rfl
      simp [nodeToGroup, contained, hg, hcls]
  have hmem : DevNode.cls g ∈ pre ++ ms ++ post := by
    refine ((kept_sublist.append_left pre).append_right post).subset hg
  have hopn := hpair hmem
  simp only [mem_append] at hopn ⊢
  tauto

/-- A list of markers that is taken as a whole leaves nothing. -/
theorem kept_self (hgr : Grouped ms) (hmark : ∀ x ∈ ms, x.isMarker = true) : kept ms ms = [] := by
  rw [kept, filter_eq_nil_iff]
  intro x hx
  have hx' := hmark x hx
  cases x with
  | reg r => cases hx'
  | head => cases hx'
  | todo => cases hx'
  | opn g => simp [nodeToGroup, contained, hx, Classical.em]
  | cls g => simp [nodeToGroup, contained, hx, hgr.paired g hx]

/-- **Releasing a span** calls the release functions of its entries in the
reverse of their order, beside those of markers that are gone afterwards. -/
theorem release_span (hlast : last = post.headD .head) (hgr : Grouped (pre ++ rest ++ post))
    (hl : Lists d.links (pre ++ rest ++ post) []) (hfuel : rest.length < fuel) :
    ∃ d' calls, ((removeNodes fuel d (rest.headD last) last).bind fun (d, cnt) =>
        (releaseNodes fuel d).map (·, (cnt : ℤ))) =
          some (d', ((rest.filterMap DevNode.entry?).length : ℤ)) ∧
      Listed d'.links (pre ++ kept (pre ++ rest.filter (·.isMarker) ++ post)
        (rest.filter (·.isMarker)) ++ post) ∧
      d'.calls = d.calls ++ calls ∧
      calls.filterMap DevNode.entry? = (rest.filterMap DevNode.entry?).reverse ∧
      calls.Nodup ∧
      (∀ g, DevNode.opn g ∈ calls ↔ contained (pre ++ rest.filter (·.isMarker) ++ post)
        (rest.filter (·.isMarker)) g = true) ∧
      ∀ y ∈ pre ++ kept (pre ++ rest.filter (·.isMarker) ++ post)
        (rest.filter (·.isMarker)) ++ post, y ∉ calls := by
  obtain ⟨d₁, us, hrun, hl₁, hus, hlen, hcalls, -, -⟩ := removeNodes_spec hlast hgr hl hfuel
  have hsplit := length_eq_length_filter_add (l := rest) (·.isMarker)
  have hrel := releaseNodes_spec hl₁.todo (by
    rw [length_append]
    omega : _ < fuel)
  refine ⟨{ d₁ with calls := d₁.calls ++ ((rest.filter fun x => !x.isMarker) ++ us).reverse },
    ((rest.filter fun x => !x.isMarker) ++ us).reverse, ?_, hl₁.toListed, by rw [hcalls], ?_,
    nodup_reverse.mpr (nodup_cons.mp hl₁.todo.nodup).2, fun g => ?_, fun y hy => ?_⟩
  · simp only [hrun, Option.bind_some]
    rw [hrel, Option.map_some, entries_length fun x hx => ?_]
    have hx' : x ∈ pre ++ rest ++ post := by simp [hx]
    have hhead := (nodup_cons.mp hl.head.nodup).1
    have hdisj := hl.disjoint x (mem_cons_of_mem _ hx')
    refine ⟨?_, ?_⟩
    · rintro rfl
      exact hhead hx'
    · rintro rfl
      simp at hdisj
  · have hnil : us.filterMap DevNode.entry? = [] := by
      refine entries_of_markers fun u hu => ?_
      obtain ⟨g, rfl⟩ := hus.opened u hu
      rfl
    rw [filterMap_reverse, filterMap_append, hnil, append_nil, entries_filter]
  · rw [mem_reverse, mem_append, hus.mem_iff]
    simp [DevNode.isMarker, nodeToGroup, contained]
  · rw [mem_reverse]
    exact fun h => hl₁.disjoint y (mem_cons_of_mem _ hy) (mem_cons_of_mem _ h)

/-- The lists when a release starts: its own list `todo` is empty. -/
theorem Listed.toLists (hl : Listed L xs) (htodo : DevNode.todo ∉ xs) : Lists (L.init .todo) xs [] := by
  refine ⟨hl.init (by simpa using htodo), Links.isList_init L .todo, ?_, by simp⟩
  rintro y hy hy'
  rw [mem_singleton] at hy'
  subst hy'
  simp at hy
  exact htodo hy

/-- The span that `devres_release_group` releases: from the opening marker of
the group to its closing marker, or to the end of the list. -/
theorem Listed.group_span (hl : Listed L xs) (hgr : Grouped xs) (hg : DevNode.opn g ∈ xs) :
    ∃ pre mid post, xs = pre ++ DevNode.opn g :: mid ++ post ∧
      (if L.isEmpty (.cls g) then DevNode.head else L.next (.cls g)) = post.headD .head ∧
      (DevNode.cls g ∉ xs ∧ post = [] ∨ ∃ mid', mid = mid' ++ [DevNode.cls g]) := by
  obtain ⟨pre, zs, rfl⟩ := append_of_mem hg
  by_cases hcls : DevNode.cls g ∈ pre ++ DevNode.opn g :: zs
  · obtain ⟨mid, post, rfl⟩ := append_of_mem (hgr.cls_after hcls)
    refine ⟨pre, mid ++ [DevNode.cls g], post, by simp, ?_, .inr ⟨mid, rfl⟩⟩
    have hhead := hl.head
    rw [← cons_append, ← append_assoc] at hhead
    rw [hl.head.isEmpty_of_mem hcls, hhead.next_eq]
    rfl
  · have halone := (Links.isList_nil_iff.mp (hl.opened g hg hcls)).1
    refine ⟨pre, zs, [], by simp, ?_, .inl ⟨hcls, rfl⟩⟩
    simp [Links.isEmpty, halone]

/-! ### The steps of a run -/

namespace DevSys

variable {s t : DevSys} {a : DevAct}

theorem Registered.reg_not_mem (h : s.Registered xs) (hr : r ∉ s.live) : DevNode.reg r ∉ xs := by
  rw [h.live, mem_entries] at hr
  exact hr

theorem Registered.head_not_mem (h : s.Registered xs) : DevNode.head ∉ xs :=
  (nodup_cons.mp h.listed.head.nodup).1

theorem Registered.add (h : s.Registered xs) {release : ℕ} (hr : r ∉ s.live) :
    ∃ t, s.step fuel (.add r release) = some t ∧ t.Registered (xs ++ [DevNode.reg r]) := by
  have hmem := h.reg_not_mem hr
  have hempty : (s.dev.links.init (.reg r)).isEmpty (.reg r) = true := by
    simp [Links.isEmpty, Links.init]
  have hstep : s.step fuel (.add r release) = some
      ⟨{ allocDr s.dev r release with
          links := (s.dev.links.init (.reg r)).addTail (.reg r) .head },
        s.live ++ [r], s.groups⟩ := by
    simp [step, devresAdd, addDr, allocDr, hempty]
  refine ⟨_, hstep, ?_, ?_, ?_, ?_, fun g hg => h.groups g ?_⟩
  · exact (h.listed.init (by simpa using hmem)).addTail (by simpa using hmem) (by simp)
  · simpa using h.todo
  · exact h.grouped.concat hmem (by simp) (by simp)
  · rw [h.live, filterMap_append]
    rfl
  · simpa using hg

/-- Removing the entry that `find_dr` finds. -/
theorem Registered.remove (h : s.Registered xs) (hfuel : xs.length < fuel) (release : ℕ)
    (matches' : ℕ → Bool) :
    ∃ d res ys, devresRemove fuel s.dev release matches' = some (d, res) ∧
      (∀ r, res = some r → d.links.isEmpty (.reg r) = true) ∧
      (∀ calls, (s.forget { d with calls := calls } res).Registered ys) ∧
      ys.length ≤ xs.length := by
  rw [devresRemove, findDr_eq h.listed.head hfuel]
  cases hres : xs.reverse.findSome? (entryMatches s.dev release matches') with
  | none =>
    refine ⟨s.dev, none, xs, by simp, by simp, fun calls => ?_, Nat.le_refl _⟩
    exact ⟨h.listed, h.todo, h.grouped, by simpa [forget] using h.live, h.groups⟩
  | some r =>
    obtain ⟨ys, zs, rfl⟩ := append_of_mem (mem_of_entryMatches hres)
    refine ⟨_, some r, ys ++ zs, rfl, ?_, fun calls => ?_, by simp⟩
    · rintro r' hr'
      rw [← Option.some.inj hr']
      simp [Links.isEmpty, Links.delInit, Links.init]
    · have hsub : (ys ++ zs).Sublist (ys ++ DevNode.reg r :: zs) :=
        (sublist_cons_self ..).append_left ys
      refine ⟨h.listed.delInit (by simp), fun hmem => h.todo (hsub.subset hmem), ?_, ?_,
        fun g hg => h.groups g (hsub.subset hg)⟩
      · refine h.grouped.sublist hsub fun g hg => ?_
        simpa using h.grouped.paired g (hsub.subset hg)
      · -- The entry occurs once.
        have hforget := entries_forget (p := fun r' => some r' ≠ some r)
          (by simpa using h.grouped.nodup : (ys ++ [DevNode.reg r] ++ zs).Nodup) (by simp)
        rw [← hforget]
        simp [forget, h.live]

theorem Registered.openGroup (h : s.Registered xs) {id : Option GroupId} {grp : Option ℕ}
    (hgrp : ∀ g ∈ grp, g ∉ s.groups) :
    ∃ t ys, s.step fuel (.openGroup id grp) = some t ∧ t.Registered ys ∧
      ys.length ≤ xs.length + 1 := by
  cases grp with
  | none =>
    exact ⟨_, xs, rfl, ⟨h.listed, h.todo, h.grouped, h.live, h.groups⟩, Nat.le_succ _⟩
  | some g =>
    have hopn : DevNode.opn g ∉ xs := fun hmem => hgrp g rfl (h.groups g hmem)
    have hcls : DevNode.cls g ∉ xs := fun hmem => hopn (h.grouped.paired g hmem)
    have hempty : ((s.dev.links.init (.opn g)).init (.cls g)).isEmpty (.opn g) = true := by
      simp [Links.isEmpty, Links.init]
    have hstep : s.step fuel (.openGroup id (some g)) = some
        ⟨{ s.dev with
            links := ((s.dev.links.init (.opn g)).init (.cls g)).addTail (.opn g) .head
            id := Function.update s.dev.id g (id.getD (.addr g)) },
          s.live, g :: s.groups⟩ := by
      simp [step, devresOpenGroup, addDr, hempty]
    refine ⟨_, xs ++ [DevNode.opn g], hstep, ⟨?_, ?_, ?_, ?_, ?_⟩, by simp⟩
    · refine ((h.listed.init (by simpa using hopn)).init (by simpa using hcls)).addTail
        (by simpa using hopn) fun g' hg' => ?_
      rw [← DevNode.opn.inj hg']
      exact Links.isList_init _ _
    · simpa using h.todo
    · refine h.grouped.concat hopn (by simp) fun g' hg' => ?_
      rw [← DevNode.opn.inj hg']
      exact hcls
    · rw [filterMap_append]
      exact h.live.trans (append_nil _).symm
    · intro g' hg'
      rcases mem_append.mp hg' with hg' | hg'
      · exact mem_cons_of_mem _ (h.groups g' hg')
      · rw [DevNode.opn.inj (mem_singleton.mp hg')]
        exact mem_cons_self ..

theorem Registered.closeGroup (h : s.Registered xs) {id : Option GroupId} (hfuel : xs.length < fuel)
    (hopen : ∀ g, findGroup fuel s.dev id = some (some g) →
      s.dev.links.isEmpty (.cls g) = true) :
    ∃ t ys, s.step fuel (.closeGroup id) = some t ∧ t.Registered ys ∧
      ys.length ≤ xs.length + 1 := by
  have hfind := findGroup_eq id h.listed.head hfuel
  rw [step, devresCloseGroup, hfind]
  cases hres : xs.reverse.findSome? (groupMatches s.dev id) with
  | none => exact ⟨_, xs, rfl, ⟨h.listed, h.todo, h.grouped, h.live, h.groups⟩, Nat.le_succ _⟩
  | some g =>
    have hempty := hopen g (hfind.trans (congrArg some hres))
    have hopn := mem_of_groupMatches hres
    have hcls : DevNode.cls g ∉ xs := by
      intro hmem
      rw [h.listed.head.isEmpty_of_mem hmem] at hempty
      cases hempty
    refine ⟨⟨{ s.dev with links := s.dev.links.addTail (.cls g) .head }, s.live, s.groups⟩,
      xs ++ [DevNode.cls g], by simp [addDr, hempty], ⟨?_, ?_, ?_, ?_, ?_⟩, by simp⟩
    · exact h.listed.addTail (by simpa using hcls) (by simp)
    · simpa using h.todo
    · refine h.grouped.concat hcls (fun g' hg' => ?_) (by simp)
      rw [← DevNode.cls.inj hg']
      exact hopn
    · rw [filterMap_append]
      exact h.live.trans (append_nil _).symm
    · intro g' hg'
      refine h.groups g' ?_
      simpa using hg'

theorem Registered.removeGroup (h : s.Registered xs) {id : Option GroupId}
    (hfuel : xs.length < fuel) :
    ∃ t ys, s.step fuel (.removeGroup id) = some t ∧ t.Registered ys ∧
      ys.length ≤ xs.length := by
  rw [step, devresRemoveGroup, findGroup_eq id h.listed.head hfuel]
  cases hres : xs.reverse.findSome? (groupMatches s.dev id) with
  | none =>
    refine ⟨_, xs, rfl, ⟨h.listed, h.todo, h.grouped, h.live, fun g hg => ?_⟩, Nat.le_refl _⟩
    simpa using h.groups g hg
  | some g =>
    have hopn := mem_of_groupMatches hres
    have hsub : (xs.filter fun y => nodeToGroup y ≠ some g).Sublist xs := filter_sublist
    refine ⟨_, xs.filter fun y => nodeToGroup y ≠ some g, rfl,
      ⟨h.listed.remove_group h.grouped hopn, fun hmem => h.todo (hsub.subset hmem), ?_, ?_, ?_⟩,
      hsub.length_le⟩
    · refine h.grouped.sublist hsub fun g' hg' => ?_
      rw [mem_filter] at hg' ⊢
      exact ⟨h.grouped.paired g' hg'.1, hg'.2⟩
    · rw [filterMap_filter]
      refine h.live.trans (filterMap_congr fun x _ => ?_)
      cases x with
      | reg r => rfl
      | head => rfl
      | todo => rfl
      | opn g' => simp [DevNode.entry?]
      | cls g' => simp [DevNode.entry?]
    · intro g' hg'
      rw [mem_filter] at hg' ⊢
      refine ⟨h.groups g' hg'.1, ?_⟩
      simpa [nodeToGroup] using hg'.2

theorem Registered.releaseGroup (h : s.Registered xs) {id : Option GroupId}
    (hfuel : xs.length < fuel) :
    ∃ t ys, s.step fuel (.releaseGroup id) = some t ∧ t.Registered ys ∧
      ys.length ≤ xs.length := by
  have hlists := h.listed.toLists h.todo
  rw [step, devresReleaseGroup]
  simp only
  rw [findGroup_eq id hlists.head hfuel, Option.bind_some]
  cases hres : xs.reverse.findSome? _ with
  | none =>
    refine ⟨_, xs, rfl, ⟨hlists.toListed, h.todo, h.grouped, ?_, ?_⟩, Nat.le_refl _⟩
    · simpa [forgetReleased] using h.live
    · simpa [forgetReleased] using h.groups
  | some g =>
    have hopn := mem_of_groupMatches hres
    obtain ⟨pre, mid, post, rfl, hlast, -⟩ := hlists.toListed.group_span h.grouped hopn
    obtain ⟨d', calls, hrun, hl, hcalls, hentries, -, -, hgone⟩ :=
      release_span (d := { s.dev with links := s.dev.links.init .todo }) rfl
        h.grouped hlists (by
          simp only [length_append] at hfuel
          omega : _ < fuel)
    have hnew : d'.calls.drop s.dev.calls.length = calls := by
      rw [hcalls]
      exact drop_left
    have hsub : (pre ++ kept (pre ++ (DevNode.opn g :: mid).filter (·.isMarker) ++ post)
        ((DevNode.opn g :: mid).filter (·.isMarker)) ++ post).Sublist
          (pre ++ DevNode.opn g :: mid ++ post) :=
      ((kept_sublist.trans filter_sublist).append_left pre).append_right post
    refine ⟨s.forgetReleased d', _, ?_, ⟨hl, fun hmem => h.todo (hsub.subset hmem),
      h.grouped.filter_isMarker.kept, ?_, ?_⟩, hsub.length_le⟩
    · rw [headD_cons] at hrun
      simp only [hlast]
      rw [hrun]
      rfl
    · have hmarkers : (kept (pre ++ (DevNode.opn g :: mid).filter (·.isMarker) ++ post)
          ((DevNode.opn g :: mid).filter (·.isMarker))).filterMap DevNode.entry? = [] :=
        entries_of_markers fun x hx => (mem_filter.mp (kept_subset hx)).2
      have hcalled : ∀ r, DevNode.reg r ∉ calls ↔ DevNode.reg r ∉ DevNode.opn g :: mid := by
        intro r
        rw [← mem_entries, hentries, mem_reverse, mem_entries]
      have hforget := entries_forget (p := fun r => DevNode.reg r ∉ calls) h.grouped.nodup
        (by simpa using hcalled)
      simp only [forgetReleased, hnew, h.live]
      rw [hforget, filterMap_append, filterMap_append, filterMap_append, hmarkers,
        append_nil]
    · intro g' hg'
      simp only [forgetReleased, hnew, mem_filter, decide_eq_true_eq]
      exact ⟨h.groups g' (hsub.subset hg'), hgone _ hg'⟩

/-- **Every allowed step returns** and keeps the list as it is meant to be. -/
theorem Registered.step (h : s.Registered xs) (hfuel : xs.length < fuel) (ha : s.Allows fuel a) :
    ∃ t ys, s.step fuel a = some t ∧ t.Registered ys ∧ ys.length ≤ xs.length + 1 := by
  cases a with
  | add r release =>
    obtain ⟨t, hstep, ht⟩ := h.add ha
    exact ⟨t, _, hstep, ht, by simp⟩
  | remove release matches' =>
    obtain ⟨d, res, ys, hrun, -, hreg, hlen⟩ := h.remove hfuel release matches'
    refine ⟨s.forget d res, ys, ?_, hreg d.calls, Nat.le_succ_of_le hlen⟩
    simp [DevSys.step, hrun]
  | destroy release matches' =>
    obtain ⟨d, res, ys, hrun, hfree, hreg, hlen⟩ := h.remove hfuel release matches'
    refine ⟨s.forget d res, ys, ?_, hreg d.calls, Nat.le_succ_of_le hlen⟩
    cases res with
    | none => simp [DevSys.step, devresDestroy, hrun]
    | some r => simp [DevSys.step, devresDestroy, hrun, devresFree, hfree r rfl]
  | release release matches' =>
    obtain ⟨d, res, ys, hrun, hfree, hreg, hlen⟩ := h.remove hfuel release matches'
    cases res with
    | none =>
      refine ⟨s.forget d none, ys, ?_, hreg d.calls, Nat.le_succ_of_le hlen⟩
      simp [DevSys.step, devresRelease, hrun]
    | some r =>
      refine ⟨s.forget { d with calls := d.calls ++ [DevNode.reg r] } (some r), ys, ?_,
        hreg (d.calls ++ [DevNode.reg r]), Nat.le_succ_of_le hlen⟩
      simp [DevSys.step, devresRelease, hrun, devresFree, hfree r rfl]
  | openGroup id grp => exact h.openGroup ha
  | closeGroup id => exact h.closeGroup hfuel ha
  | removeGroup id =>
    obtain ⟨t, ys, hstep, ht, hlen⟩ := h.removeGroup hfuel
    exact ⟨t, ys, hstep, ht, Nat.le_succ_of_le hlen⟩
  | releaseGroup id =>
    obtain ⟨t, ys, hstep, ht, hlen⟩ := h.releaseGroup hfuel
    exact ⟨t, ys, hstep, ht, Nat.le_succ_of_le hlen⟩

/-- An allowed run never stops short: no loop runs away and no `BUG_ON` is hit. -/
theorem Registered.run {acts : List DevAct} (h : s.Registered []) (hfuel : acts.length < fuel)
    (hacts : Along (DevSys.step fuel) (Allows fuel) s acts) :
    ∃ t ys, exec (DevSys.step fuel) s acts = some t ∧ t.Registered ys ∧ ys.length < fuel := by
  obtain ⟨t, hrun, ys, ht, hlen⟩ := exec_total_along fuel (n := 0)
    (J := fun n s => ∃ ys, s.Registered ys ∧ ys.length ≤ n)
    (fun n s a hn ⟨xs, hs, hlen⟩ ha => by
      obtain ⟨t, ys, hstep, ht, hlen'⟩ := hs.step (by omega) ha
      exact ⟨t, hstep, ys, ht, by omega⟩)
    ⟨[], h, by simp⟩ (by omega) hacts
  exact ⟨t, ys, hrun, ht, by omega⟩

theorem registered_start (d : Dev) : (start d).Registered [] where
  listed := ⟨Links.isList_init d.links .head, by simp⟩
  todo := by simp
  grouped := ⟨by simp, by simp, by simp⟩
  live := rfl
  groups := by simp

/-- `devres_release_all` releases what is registered. -/
theorem Registered.releaseAll (h : s.Registered xs) (hfuel : xs.length < fuel) :
    ∃ d calls, devresReleaseAll fuel s.dev = some (d, (s.live.length : ℤ)) ∧
      d.calls = s.dev.calls ++ calls ∧ calls.filterMap DevNode.entry? = s.live.reverse ∧
      d.links.IsList .head [] := by
  have hlists := h.listed.toLists h.todo
  have hhead := hlists.head.next_head
  cases xs with
  | nil =>
    have hempty : (s.dev.links.init .todo).isEmpty .head = true := by
      simpa [Links.isEmpty] using hhead
    have hlive : s.live = [] := h.live
    refine ⟨{ s.dev with links := s.dev.links.init .todo }, [], ?_, by simp, ?_, hlists.head⟩
    · simp [devresReleaseAll, hempty, hlive]
    · simp [hlive]
  | cons x xs =>
    have hnonempty : (s.dev.links.init .todo).isEmpty .head = false := by
      have hne : x ≠ .head := by
        rintro rfl
        exact h.head_not_mem (by simp)
      simpa [Links.isEmpty, hhead] using hne
    obtain ⟨d, calls, hrun, hl, hcalls, hentries, -⟩ :=
      release_span (d := { s.dev with links := s.dev.links.init .todo }) rfl
        (by simpa using h.grouped : Grouped ([] ++ (x :: xs) ++ [])) (by simpa using hlists) hfuel
    have hgr : Grouped ((x :: xs).filter (·.isMarker)) := by
      have hgr' := Grouped.filter_isMarker
        (by simpa using h.grouped : Grouped ([] ++ (x :: xs) ++ []))
      simpa using hgr'
    have hkept := kept_self hgr fun y hy => (mem_filter.mp hy).2
    refine ⟨d, calls, ?_, hcalls, by rw [hentries, h.live], ?_⟩
    · simp only [devresReleaseAll, hnonempty, hhead, h.live]
      exact hrun
    · simpa [hkept] using hl.head

end DevSys

/-- **Teardown is in the exact reverse order.** After any allowed run of the
devres operations on a device, `devres_release_all` returns the number of
the entries that are still registered, has called the release function of
each of them once, in the reverse of the order in which they were added,
and has left the list of the device empty. -/
theorem devres_release_all_reverse (fuel : ℕ) (d : Dev) (acts : List DevAct)
    (hfuel : acts.length < fuel)
    (hacts : Along (DevSys.step fuel) (DevSys.Allows fuel) (DevSys.start d) acts) :
    ∃ s d' calls, exec (DevSys.step fuel) (DevSys.start d) acts = some s ∧
      devresReleaseAll fuel s.dev = some (d', (s.live.length : ℤ)) ∧
      d'.calls = s.dev.calls ++ calls ∧
      calls.filterMap DevNode.entry? = s.live.reverse ∧ s.live.Nodup ∧
      d'.links.IsList .head [] := by
  obtain ⟨s, xs, hrun, hs, hlen⟩ := (DevSys.registered_start d).run hfuel hacts
  obtain ⟨d', calls, hrel, hcalls, hentries, hempty⟩ := hs.releaseAll hlen
  refine ⟨s, d', calls, hrun, hrel, hcalls, hentries, ?_, hempty⟩
  rw [hs.live]
  exact entries_nodup hs.grouped.nodup

/-- A device before `device_initialize`, as far as devres is concerned. -/
def blankDev : Dev where
  links := ⟨id, id⟩
  release := fun _ => 0
  id := .addr
  color := fun _ => 0
  calls := []

/-- Two groups that overlap, one that is never closed, and an entry that is
destroyed before the end. -/
def overlappingRun : List DevAct :=
  [.add 0 5, .openGroup none (some 0), .add 1 5, .openGroup (some (.ptr 7)) (some 1),
    .closeGroup (some (.addr 0)), .add 2 6, .openGroup none (some 2), .closeGroup (some (.ptr 7)),
    .destroy 5 (fun _ => true), .add 3 5]

theorem devres_release_all_reverse_overlapping :
    ∃ s d' calls, exec (DevSys.step 11) (DevSys.start blankDev) overlappingRun = some s ∧
      devresReleaseAll 11 s.dev = some (d', 3) ∧ d'.calls = s.dev.calls ++ calls ∧
      calls.filterMap DevNode.entry? = [3, 2, 0] ∧ d'.links.IsList .head [] := by
  obtain ⟨s, d', calls, hrun, hrel, hcalls, hentries, -, hempty⟩ :=
    devres_release_all_reverse 11 blankDev overlappingRun (by decide) (by decide)
  have hlive : (exec (DevSys.step 11) (DevSys.start blankDev) overlappingRun).map (·.live) =
      some [0, 2, 3] := by
    decide
  rw [hrun, Option.map_some, Option.some.injEq] at hlive
  rw [hlive] at hrel hentries
  exact ⟨s, d', calls, hrun, hrel, hcalls, hentries, hempty⟩

end GfpDrivers.Devres
