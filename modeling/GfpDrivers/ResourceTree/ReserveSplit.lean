import GfpDrivers.ResourceTree.InsertRemove

/-!
`reserve_region_with_split` reserves what is left of a range between the children of the
root. A piece in front of a child is linked, and the piece behind the child is kept
until then as the next one.
-/

namespace GfpDrivers.ResourceTree

open Lib

def IORES_DESC_NONE : ℕ := 0

/-- What `__reserve_region_with_split` writes in a resource that it has allocated. -/
def newReserved (h : Heap) (res start end_ type : ℕ) : Heap :=
  Function.update h res
    { Resource.zero with start := start, end_ := end_, flags := type ||| IORESOURCE_BUSY, desc := IORES_DESC_NONE }

/-- The loop of `__reserve_region_with_split`. `alloc k` is what the call number `k` of
`alloc_resource` returns. Both sums stay in `resource_size_t`: an end is increased below
another end, and a start is decreased above another start. -/
def reserveLoop (fuel : ℕ) (alloc : ℕ → Option ℕ) (root type : ℕ) : ℕ → Heap → ℕ → Option ℕ → ℕ → Option Heap
  | 0, _, _, _, _ => none
  | rounds + 1, h, res, next, k =>
      (requestResourceConflict fuel h root res).bind fun
        | (h, none) =>
            match next with
            | none => some h
            | some next => reserveLoop fuel alloc root type rounds h next none k
        | (h, some conflict) =>
            -- the conflict covers the whole area
            if (h conflict).start ≤ (h res).start ∧ (h res).end_ ≤ (h conflict).end_ then some h
            else if (h res).start < (h conflict).start then
              let trimmed := Function.update h res { h res with end_ := (h conflict).start - 1 }
              if (h conflict).end_ < (h res).end_ then
                match alloc k with
                | none => some trimmed
                | some next =>
                    reserveLoop fuel alloc root type rounds
                      (newReserved trimmed next ((h conflict).end_ + 1) (h res).end_ type) res (some next) (k + 1)
              else reserveLoop fuel alloc root type rounds trimmed res next k
            else
              reserveLoop fuel alloc root type rounds (Function.update h res { h res with start := (h conflict).end_ + 1 })
                res next k

/-- `__reserve_region_with_split` -/
def doReserveRegionWithSplit (fuel : ℕ) (alloc : ℕ → Option ℕ) (h : Heap) (root start end_ : ℕ) : Option Heap :=
  match alloc 0 with
  | none => some h
  | some res =>
      reserveLoop fuel alloc root (resourceType (h root)) fuel (newReserved h res start end_ (resourceType (h root))) res none 1

/-- `reserve_region_with_split`. A range that leaves the root is cut. -/
def reserveRegionWithSplit (fuel : ℕ) (alloc : ℕ → Option ℕ) (h : Heap) (root start end_ : ℕ) : Option Heap :=
  if start < (h root).start ∨ (h root).end_ < end_ then
    if (h root).end_ < start ∨ end_ < (h root).start then some h
    else doReserveRegionWithSplit fuel alloc h root (max start (h root).start) (min end_ (h root).end_)
  else doReserveRegionWithSplit fuel alloc h root start end_

variable {h h' h₁ h₂ : Heap} {root new a lo hi type fuel : ℕ} {T T' T₁ T₂ F G : Forest ℕ}

/-! ### Leaves below the root -/

/-- `T'` is `T` with leaves put between its roots. -/
inductive LeavesAdded : Forest ℕ → Forest ℕ → Prop
  | nil : LeavesAdded .nil .nil
  | keep {F F' : Forest ℕ} (a : ℕ) (K : Forest ℕ) : LeavesAdded F F' → LeavesAdded (.cons a K F) (.cons a K F')
  | leaf {F F' : Forest ℕ} (a : ℕ) : LeavesAdded F F' → LeavesAdded F (.cons a .nil F')

theorem WellFormed.nodup_below (hwf : WellFormed h root T) : T.nodes.Nodup :=
  (List.nodup_cons.mp (by simpa [tree] using hwf.nodup)).2

namespace LeavesAdded

theorem refl (F : Forest ℕ) : LeavesAdded F F := by
  induction F with
  | nil => exact .nil
  | cons a kids rest _ ih => exact .keep a kids ih

theorem insert (F G : Forest ℕ) (a : ℕ) : LeavesAdded (F ++ G) (F ++ .cons a .nil G) := by
  induction F with
  | nil => exact .leaf a (refl G)
  | cons b kids rest _ ih => exact .keep b kids ih

theorem trans (h₁ : LeavesAdded T T₁) (h₂ : LeavesAdded T₁ T₂) : LeavesAdded T T₂ := by
  induction h₂ generalizing T with
  | nil => exact h₁
  | keep a K _ ih =>
    cases h₁ with
    | keep _ _ h₁ => exact .keep a K (ih h₁)
    | leaf _ h₁ => exact .leaf a (ih h₁)
  | leaf a _ ih => exact .leaf a (ih h₁)

theorem subset (h : LeavesAdded T T') : T.nodes ⊆ T'.nodes := by
  induction h with
  | nil => exact List.Subset.refl _
  | keep a K _ ih =>
    intro b hb
    rw [Forest.nodes_cons, List.mem_cons, List.mem_append] at hb ⊢
    exact hb.imp_right fun hb => hb.imp_right fun hb => ih hb
  | leaf a _ ih => exact List.subset_cons_of_subset a ih

theorem roots_subset (h : LeavesAdded T T') : T.roots ⊆ T'.roots := by
  induction h with
  | nil => exact List.Subset.refl _
  | keep a K _ ih => exact List.cons_subset_cons a ih
  | leaf a _ ih => exact List.subset_cons_of_subset a ih

/-- A resource that was not a root does not become one. -/
theorem root_of_mem (h : LeavesAdded T T') (hnod : T'.nodes.Nodup) (ha : a ∈ T.nodes) (hroot : a ∈ T'.roots) :
    a ∈ T.roots := by
  induction h with
  | nil => exact hroot
  | @keep F F' b K hF ih =>
    simp only [Forest.nodes_cons, List.nodup_cons, List.nodup_append, List.mem_append, not_or] at hnod
    obtain ⟨⟨-, hout⟩, -, hnod', hdisj⟩ := hnod
    rw [Forest.roots_cons, List.mem_cons] at hroot ⊢
    refine hroot.imp_right fun hroot => ih hnod' ?_ hroot
    rw [Forest.nodes_cons, List.mem_cons, List.mem_append] at ha
    have hmem := Forest.roots_subset_nodes hroot
    rcases ha with rfl | ha | ha
    · exact absurd hmem hout
    · exact absurd rfl (hdisj a ha a hmem)
    · exact ha
  | @leaf F F' b hF ih =>
    rw [Forest.nodes_cons, List.nodup_cons] at hnod
    rw [Forest.roots_cons, List.mem_cons] at hroot
    refine ih hnod.2 ha (hroot.resolve_left ?_)
    rintro rfl
    exact hnod.1 (by simp [hF.subset ha])

end LeavesAdded

/-- From the tree `T` in `h` to the tree `T'` in `h'`, busy leaves inside a range were put below the
root. Of the resources that were there, only children of the root got another sibling. -/
structure Grown (h : Heap) (root : ℕ) (T : Forest ℕ) (lo hi type : ℕ) (h' : Heap) (T' : Forest ℕ) : Prop where
  added : LeavesAdded T T'
  root : ∃ c, h' root = { h root with child := c }
  kept (a : ℕ) : a ∈ T.nodes → ∃ s, h' a = { h a with sibling := s }
  inner (a : ℕ) : a ∈ T.nodes → a ∉ T.roots → h' a = h a
  new (a : ℕ) : a ∈ T'.nodes → a ∉ T.nodes → a ∈ T'.roots ∧ (h' a).child = none ∧
    (h' a).flags = type ||| IORESOURCE_BUSY ∧ lo ≤ (h' a).start ∧ (h' a).end_ ≤ hi

/-- Each address of the range belongs to a child of the root. -/
def Covered (h : Heap) (T : Forest ℕ) (lo hi : ℕ) : Prop :=
  ∀ x, lo ≤ x → x ≤ hi → ∃ c ∈ T.roots, (h c).start ≤ x ∧ x ≤ (h c).end_

namespace Grown

theorem of_same (hsame : ∀ a ∈ (tree root T).nodes, h' a = h a) : Grown h root T lo hi type h' T where
  added := .refl T
  root := ⟨_, hsame root (by simp)⟩
  kept a ha := ⟨_, hsame a (by simp [ha])⟩
  inner a ha _ := hsame a (by simp [ha])
  new _ ha hnot := absurd ha hnot

theorem ranges (hg : Grown h root T lo hi type h' T') (ha : a ∈ T.nodes) :
    (h' a).start = (h a).start ∧ (h' a).end_ = (h a).end_ := by
  obtain ⟨s, hs⟩ := hg.kept a ha
  rw [hs]
  exact ⟨rfl, rfl⟩

theorem trans (h₁₂ : Grown h root T lo hi type h₁ T₁) (h₂₃ : Grown h₁ root T₁ lo hi type h₂ T₂)
    (hnod : T₁.nodes.Nodup) : Grown h root T lo hi type h₂ T₂ where
  added := h₁₂.added.trans h₂₃.added
  root := by
    obtain ⟨c, hc⟩ := h₁₂.root
    obtain ⟨d, hd⟩ := h₂₃.root
    exact ⟨d, by rw [hd, hc]⟩
  kept a ha := by
    obtain ⟨s, hs⟩ := h₁₂.kept a ha
    obtain ⟨t, ht⟩ := h₂₃.kept a (h₁₂.added.subset ha)
    exact ⟨t, by rw [ht, hs]⟩
  inner a ha hroot := by
    rw [h₂₃.inner a (h₁₂.added.subset ha) fun hmem => hroot (h₁₂.added.root_of_mem hnod ha hmem)]
    exact h₁₂.inner a ha hroot
  new a ha hnot := by
    by_cases hmem : a ∈ T₁.nodes
    · obtain ⟨hroot, hchild, hflags, hlo, hhi⟩ := h₁₂.new a hmem hnot
      obtain ⟨s, hs⟩ := h₂₃.kept a hmem
      rw [hs]
      exact ⟨h₂₃.added.roots_subset hroot, hchild, hflags, hlo, hhi⟩
    · exact h₂₃.new a ha hmem

theorem mono {lo' hi' : ℕ} (hg : Grown h root T lo hi type h' T') (hlo : lo' ≤ lo) (hhi : hi ≤ hi') :
    Grown h root T lo' hi' type h' T' where
  added := hg.added
  root := hg.root
  kept := hg.kept
  inner := hg.inner
  new a ha hnot := by
    obtain ⟨hroot, hchild, hflags, hstart, hend⟩ := hg.new a ha hnot
    exact ⟨hroot, hchild, hflags, Nat.le_trans hlo hstart, Nat.le_trans hend hhi⟩

theorem covers {x : ℕ} (hg : Grown h root T lo hi type h' T') (ha : a ∈ T.roots) (hx : (h a).start ≤ x ∧ x ≤ (h a).end_) :
    ∃ c ∈ T'.roots, (h' c).start ≤ x ∧ x ≤ (h' c).end_ := by
  obtain ⟨hstart, hend⟩ := hg.ranges (Forest.roots_subset_nodes ha)
  exact ⟨a, hg.added.roots_subset ha, by rwa [hstart, hend]⟩

end Grown

theorem linkNew_of_ne {p : Slot} {q : ℕ} (ha : a ≠ new) : linkNew h p q new a = p.write h (some new) a := by
  rw [linkNew, setParent_of_ne ha]
  exact write_congr (write_of_ne ha)

theorem Replaced.below_root {K K' : Forest ℕ} (hr : Replaced root root K K' T T') (hnod : (tree root T).nodes.Nodup) :
    T = K ∧ T' = K' := by
  have hroot : root ∉ T.nodes := by
    simp only [tree, Forest.nodes_cons, Forest.nodes_nil, List.append_nil, List.nodup_cons] at hnod
    exact hnod.1
  cases hr with
  | here rest => exact ⟨rfl, rfl⟩
  | kids a rest hr => exact absurd (hr.mem root (by simp)) hroot
  | rest a kids hr => cases hr

/-- A leaf is linked between the children `F` and `G` of the root. -/
theorem grown_linkNew (hnew : new ∉ (tree root (F ++ G)).nodes) (hroot : root ∉ (F ++ G).nodes)
    (hchild : (h new).child = none) (hflags : (h new).flags = type ||| IORESOURCE_BUSY) :
    Grown h root (F ++ G) (h new).start (h new).end_ type (linkNew h ((Slot.child root).after F.roots) root new)
      (F ++ .cons new .nil G) := by
  have hne : ∀ a ∈ (tree root (F ++ G)).nodes, a ≠ new := fun a ha => ne_of_mem_of_not_mem ha hnew
  have hnewroot : new ≠ root := fun heq => hnew (by simp [heq])
  refine ⟨.insert F G new, ?_, fun a ha => ?_, fun a ha hnot => ?_, fun a ha hnot => ?_⟩
  · rw [linkNew_of_ne hnewroot.symm]
    rcases List.eq_nil_or_concat F.roots with hnil | ⟨ds, last, hconcat⟩
    · rw [hnil]
      exact ⟨some new, by simp [Slot.after, Slot.write]⟩
    · rw [List.concat_eq_append] at hconcat
      have hlast : root ≠ last := by
        rintro rfl
        exact hroot (by simp [Forest.roots_subset_nodes (show root ∈ F.roots by simp [hconcat])])
      rw [hconcat, Slot.after_concat, write_of_ne hlast]
      exact ⟨_, rfl⟩
  · have haroot : a ≠ root := ne_of_mem_of_not_mem ha hroot
    rw [linkNew_of_ne (hne a (mem_tree.mpr (.inr ha)))]
    rcases List.eq_nil_or_concat F.roots with hnil | ⟨ds, last, hconcat⟩
    · rw [hnil, Slot.after, write_of_ne haroot]
      exact ⟨_, rfl⟩
    · rw [List.concat_eq_append] at hconcat
      rw [hconcat, Slot.after_concat]
      by_cases hlast : a = last
      · subst hlast
        exact ⟨some new, by simp [Slot.write]⟩
      · rw [write_of_ne hlast]
        exact ⟨_, rfl⟩
  · rw [linkNew_of_ne (hne a (mem_tree.mpr (.inr ha))), write_of_ne]
    intro howner
    rcases List.mem_cons.mp (Slot.owner_after (.child root) F.roots) with hmem | hmem
    · exact ne_of_mem_of_not_mem ha hroot (howner.trans hmem)
    · exact hnot (by simp [howner, hmem])
  · have hanew : a = new := by
      simp only [Forest.nodes_append, Forest.nodes_cons, Forest.nodes_nil, List.mem_append, List.mem_cons, List.not_mem_nil,
        false_or] at ha hnot
      tauto
    subst hanew
    have hchild' : (linkNew h ((Slot.child root).after F.roots) root a a).child = none := by
      rw [linkNew, setParent_child, write_after_child hnewroot, write_sibling_child, hchild]
    refine ⟨by simp, hchild', ?_, ?_, ?_⟩
    · simp [linkNew, hflags]
    · simp [linkNew]
    · simp [linkNew]

/-! ### The loop -/

/-- A resource that was allocated for a part of the range and is not linked yet. -/
structure Pending (h : Heap) (root : ℕ) (T : Forest ℕ) (type res : ℕ) : Prop where
  fresh : res ∉ (tree root T).nodes
  child : (h res).child = none
  flags : (h res).flags = type ||| IORESOURCE_BUSY
  fits : Fits h root res

/-- The calls of `alloc_resource` from number `k` on return resources that are not in use. -/
structure Supplies (alloc : ℕ → Option ℕ) (k : ℕ) (used : List ℕ) : Prop where
  fresh (j : ℕ) : k ≤ j → ∃ a, alloc j = some a ∧ a ∉ used
  distinct (i j : ℕ) : k ≤ i → i < j → alloc i ≠ alloc j

variable {alloc : ℕ → Option ℕ} {k res c : ℕ} {used : List ℕ}

theorem Supplies.next (hs : Supplies alloc k used) :
    ∃ a, alloc k = some a ∧ a ∉ used ∧ Supplies alloc (k + 1) (a :: used) := by
  obtain ⟨a, ha, hnot⟩ := hs.fresh k le_rfl
  refine ⟨a, ha, hnot, fun j hj => ?_, fun i j hi hij => hs.distinct i j (Nat.le_of_succ_le hi) hij⟩
  obtain ⟨b, hb, hnotb⟩ := hs.fresh j (Nat.le_of_succ_le hj)
  refine ⟨b, hb, List.not_mem_cons_of_ne_of_not_mem ?_ hnotb⟩
  rintro rfl
  exact hs.distinct k j le_rfl hj (ha.trans hb.symm)

theorem Supplies.perm {used' : List ℕ} (hs : Supplies alloc k used) (hsub : used' ⊆ used) : Supplies alloc k used' :=
  ⟨fun j hj => (hs.fresh j hj).imp fun _ ha => ⟨ha.1, fun hmem => ha.2 (hsub hmem)⟩, hs.distinct⟩

/-- The children of the root that the loop has not passed when the range starts at `lo`. -/
def ahead (h : Heap) (T : Forest ℕ) (lo : ℕ) : ℕ := T.roots.countP fun c => lo ≤ (h c).end_

/-- Where no child overlaps the range, it is linked, and covers itself. -/
theorem Pending.link (hp : Pending h root T type res) (hwf : WellFormed h root T) (hfuel : T.roots.length < fuel)
    (hapart : ∀ d ∈ T.roots, (h d).end_ < (h res).start ∨ (h res).end_ < (h d).start) :
    ∃ h' T', requestResourceConflict fuel h root res = some (h', none) ∧ WellFormed h' root T' ∧
      Grown h root T (h res).start (h res).end_ type h' T' ∧ T'.nodes.Perm (res :: T.nodes) ∧
      T'.roots.Perm (res :: T.roots) ∧ (h' res).start = (h res).start ∧ (h' res).end_ = (h res).end_ ∧
      ∀ a ∉ res :: (tree root T).nodes, h' a = h a := by
  rcases hwf.requestResourceConflict (.here .nil) hp.fresh hp.child hfuel with
    ⟨F, G, T', rfl, -, hrun, hT', hwf'⟩ | ⟨hnot, -⟩ | ⟨F, a, L, G, rfl, -, -, ha, ha', -⟩
  · obtain ⟨-, rfl⟩ := hT'.below_root hwf.nodup
    have hroot : root ∉ (F ++ G).nodes := by
      have hnod := hwf.nodup
      simp only [tree, Forest.nodes_cons, Forest.nodes_nil, List.append_nil, List.nodup_cons] at hnod
      exact hnod.1
    refine ⟨_, _, hrun, hwf', grown_linkNew hp.fresh hroot hp.child hp.flags, ?_, ?_, ?_, ?_, fun a ha => ?_⟩
    · exact Forest.nodes_middle
    · simp only [Forest.roots_append, Forest.roots_cons]
      exact List.perm_middle
    · simp [linkNew]
    · simp [linkNew]
    · rw [List.mem_cons, not_or] at ha
      rw [linkNew_of_ne ha.1, write_of_ne]
      intro howner
      rcases List.mem_cons.mp (Slot.owner_after (.child root) F.roots) with hmem | hmem
      · exact ha.2 (mem_tree.mpr (.inl (howner.trans hmem)))
      · have hmem' := Forest.roots_subset_nodes hmem
        exact ha.2 (mem_tree.mpr (.inr (by rw [howner]; simp [hmem'])))
  · exact absurd hp.fits hnot
  · have := hapart a (by simp)
    omega

theorem ahead_congr (cs : List ℕ) (hperm : T'.roots.Perm (cs ++ T.roots)) (hcs : ∀ c ∈ cs, (h' c).end_ < lo)
    (hsame : ∀ c ∈ T.roots, (h' c).end_ = (h c).end_) : ahead h' T' lo = ahead h T lo := by
  have hnone : cs.countP (fun c => lo ≤ (h' c).end_) = 0 := by
    refine List.countP_eq_zero.mpr fun c hc => ?_
    have := hcs c hc
    simp only [decide_eq_true_eq]
    omega
  rw [ahead, hperm.countP_eq, List.countP_append, hnone, Nat.zero_add, ahead]
  exact List.countP_congr fun c hc => by rw [hsame c hc]

theorem ahead_lt (hc : c ∈ T.roots) (hlo : lo ≤ (h c).end_) : ahead h T ((h c).end_ + 1) < ahead h T lo := by
  have hle : ∀ cs : List ℕ, cs.countP (fun d => (h c).end_ + 1 ≤ (h d).end_) ≤ cs.countP fun d => lo ≤ (h d).end_ := by
    intro cs
    refine List.countP_mono_left fun d _ hd => ?_
    simp only [decide_eq_true_eq] at hd ⊢
    omega
  obtain ⟨cs, ds, hcs⟩ := List.append_of_mem hc
  have h₁ := hle cs
  have h₂ := hle ds
  have hpassed : ¬(h c).end_ + 1 ≤ (h c).end_ := Nat.not_succ_le_self _
  simp only [ahead, hcs, List.countP_append, List.countP_cons, hpassed, hlo, decide_true, decide_false, if_true,
    Bool.false_eq_true, if_false]
  omega

theorem Pending.update (hp : Pending h root T type res) (hlo : (h root).start ≤ lo) (hhi : hi ≤ (h root).end_) (hvalid : lo ≤ hi) :
    Pending (Function.update h res { h res with start := lo, end_ := hi }) root T type res where
  fresh := hp.fresh
  child := by rw [Function.update_self]; exact hp.child
  flags := by rw [Function.update_self]; exact hp.flags
  fits := by
    have hroot : root ≠ res := fun heq => hp.fresh (mem_tree.mpr (.inl heq.symm))
    rw [Fits, Function.update_self, Function.update_of_ne hroot]
    exact ⟨hvalid, hlo, hhi⟩

theorem Pending.congr (hp : Pending h root T type res) (hsame : ∀ a ∈ res :: (tree root T).nodes, h' a = h a) :
    Pending h' root T type res where
  fresh := hp.fresh
  child := by rw [hsame res (by simp)]; exact hp.child
  flags := by rw [hsame res (by simp)]; exact hp.flags
  fits := by
    rw [Fits, hsame res (by simp), hsame root (by simp)]
    exact hp.fits

/-- `c` is the first child of the root that overlaps the pending resource. -/
structure FirstConflict (fuel : ℕ) (h : Heap) (root : ℕ) (T : Forest ℕ) (res c : ℕ) : Prop where
  mem : c ∈ T.roots
  starts : (h c).start ≤ (h res).end_
  ends : (h res).start ≤ (h c).end_
  others (d : ℕ) : d ∈ T.roots → d = c ∨ (h d).end_ < (h res).start ∨ (h c).end_ < (h d).start
  run : requestResourceConflict fuel h root res = some (h, some c)

theorem Pending.apart_or_conflict (hp : Pending h root T type res) (hwf : WellFormed h root T) (hfuel : T.roots.length < fuel) :
    (∀ d ∈ T.roots, (h d).end_ < (h res).start ∨ (h res).end_ < (h d).start) ∨ ∃ c, FirstConflict fuel h root T res c := by
  rcases hwf.requestResourceConflict (.here .nil) hp.fresh hp.child hfuel with
    ⟨F, G, -, rfl, hgap, -⟩ | ⟨hnot, -⟩ | ⟨F, c, L, G, rfl, -, hF, hc, hc', hrun⟩
  · refine .inl fun d hd => ?_
    rw [Forest.roots_append, List.mem_append] at hd
    exact hd.imp (hgap.before d) (hgap.after d)
  · exact absurd hp.fits hnot
  · refine .inr ⟨c, by simp, hc, hc', fun d hd => ?_, hrun⟩
    obtain ⟨hf, -⟩ := hwf.at (.here .nil)
    rw [Forest.roots_append, Forest.roots_cons] at hf hd
    have hafter := (List.pairwise_cons.mp (List.pairwise_append.mp hf.before).2.1).1
    rcases List.mem_append.mp hd with hd | hd
    · exact .inr (.inl (hF d hd))
    · exact (List.mem_cons.mp hd).imp_right fun hd => .inr (hafter d hd)

/-- What the loop does from here on. -/
def Reserves (fuel : ℕ) (alloc : ℕ → Option ℕ) (root type rounds : ℕ) (h : Heap) (T : Forest ℕ) (res k : ℕ) : Prop :=
  ∃ h' T', reserveLoop fuel alloc root type rounds h res none k = some h' ∧ WellFormed h' root T' ∧
    Grown h root T (h res).start (h res).end_ type h' T' ∧ Covered h' T' (h res).start (h res).end_

variable {rounds : ℕ}

theorem Pending.reserves (hp : Pending h root T type res) (hwf : WellFormed h root T) (hfuel : T.roots.length < fuel)
    (hapart : ∀ d ∈ T.roots, (h d).end_ < (h res).start ∨ (h res).end_ < (h d).start) :
    Reserves fuel alloc root type (rounds + 1) h T res k := by
  obtain ⟨h', T', hrun, hwf', hg, -, hroots, hstart, hend, -⟩ := hp.link hwf hfuel hapart
  refine ⟨h', T', by rw [reserveLoop, hrun]; rfl, hwf', hg, fun x hlo hhi => ⟨res, hroots.mem_iff.mpr (by simp), ?_⟩⟩
  rw [hstart, hend]
  exact ⟨hlo, hhi⟩

namespace FirstConflict

theorem inside (hc : FirstConflict fuel h root T res c) (hwf : WellFormed h root T) :
    (h root).start ≤ (h c).start ∧ (h c).start ≤ (h c).end_ ∧ (h c).end_ ≤ (h root).end_ := by
  obtain ⟨hf, -⟩ := hwf.at (.here .nil)
  obtain ⟨hleft, hright⟩ := hf.inside c hc.mem
  exact ⟨hleft, hf.valid c hc.mem, hright⟩

theorem link_front (hc : FirstConflict fuel h root T res c) (hp : Pending h' root T type res) (hwf : WellFormed h root T)
    (hsame : ∀ a ∈ (tree root T).nodes, h' a = h a) (hstart : (h' res).start = (h res).start)
    (hend : (h' res).end_ = (h c).start - 1) (hfront : (h res).start < (h c).start) (hfuel : T.roots.length < fuel) :
    ∃ h₁ T₁, requestResourceConflict fuel h' root res = some (h₁, none) ∧ WellFormed h₁ root T₁ ∧
      Grown h root T (h res).start ((h c).start - 1) type h₁ T₁ ∧ T₁.nodes.Perm (res :: T.nodes) ∧
      T₁.roots.Perm (res :: T.roots) ∧ (h₁ res).start = (h res).start ∧ (h₁ res).end_ = (h c).start - 1 ∧
      ∀ a ∉ res :: (tree root T).nodes, h₁ a = h' a := by
  obtain ⟨-, hvalid, -⟩ := hc.inside hwf
  have hapart : ∀ d ∈ T.roots, (h' d).end_ < (h' res).start ∨ (h' res).end_ < (h' d).start := by
    intro d hd
    rw [hsame d (mem_tree.mpr (.inr (Forest.roots_subset_nodes hd))), hstart, hend]
    rcases hc.others d hd with rfl | hbefore | hafter
    · omega
    · exact .inl hbefore
    · omega
  obtain ⟨h₁, T₁, hrun, hwf₁, hg, hnodes, hroots, hstart₁, hend₁, hother⟩ := hp.link (hwf.congr hsame) hfuel hapart
  rw [hstart, hend] at hg
  rw [hstart] at hstart₁
  rw [hend] at hend₁
  have hnod := hwf.nodup_below
  exact ⟨h₁, T₁, hrun, hwf₁, Grown.trans (.of_same hsame) hg hnod, hnodes, hroots, hstart₁, hend₁, hother⟩

theorem reserves_last (hc : FirstConflict fuel h root T res c) (hp : Pending h root T type res) (hwf : WellFormed h root T)
    (hfront : (h res).start < (h c).start) (hlast : (h res).end_ ≤ (h c).end_) (hfuel : T.roots.length < fuel) :
    Reserves fuel alloc root type (rounds + 2) h T res k := by
  obtain ⟨hvalid, hleft, hright⟩ := hp.fits
  have hstarts := hc.starts
  have hp' : Pending (Function.update h res { h res with end_ := (h c).start - 1 }) root T type res :=
    hp.update hleft (by omega) (by omega)
  have hsame : ∀ a ∈ (tree root T).nodes, Function.update h res { h res with end_ := (h c).start - 1 } a = h a :=
    fun a ha => Function.update_of_ne (ne_of_mem_of_not_mem ha hp.fresh) _ _
  obtain ⟨h₁, T₁, hrun, hwf₁, hg, -, hroots, hstart₁, hend₁, -⟩ :=
    hc.link_front hp' hwf hsame (by simp) (by simp) hfront hfuel
  have hcover : ¬((h c).start ≤ (h res).start ∧ (h res).end_ ≤ (h c).end_) := by omega
  refine ⟨h₁, T₁, ?_, hwf₁, hg.mono le_rfl (by omega), fun x hlo hhi => ?_⟩
  · rw [reserveLoop, hc.run, Option.bind_some]
    dsimp only
    rw [if_neg hcover, if_pos hfront, if_neg (by omega), reserveLoop, hrun]
    rfl
  · by_cases hx : x < (h c).start
    · exact ⟨res, hroots.mem_iff.mpr (by simp), by omega, by omega⟩
    · exact hg.covers hc.mem ⟨by omega, by omega⟩

/-- The next piece starts behind the conflict, after the one in front of it is linked. -/
theorem reserves_next (hc : FirstConflict fuel h root T res c) (hp : Pending h root T type res) (hwf : WellFormed h root T)
    (hs : Supplies alloc k (res :: (tree root T).nodes)) (hfront : (h res).start < (h c).start)
    (hbehind : (h c).end_ < (h res).end_) (hfuel : T.roots.length < fuel)
    (hrest : ∀ h₁ T₁ next, WellFormed h₁ root T₁ → Pending h₁ root T₁ type next →
      Supplies alloc (k + 1) (next :: (tree root T₁).nodes) → ahead h₁ T₁ (h₁ next).start < ahead h T (h res).start →
      T₁.roots.length = T.roots.length + 1 → Reserves fuel alloc root type rounds h₁ T₁ next (k + 1)) :
    Reserves fuel alloc root type (rounds + 2) h T res k := by
  obtain ⟨hvalid, hleft, hright⟩ := hp.fits
  obtain ⟨hcleft, hcvalid, hcright⟩ := hc.inside hwf
  obtain ⟨next, halloc, hnot, hs'⟩ := hs.next
  set trimmed := Function.update h res { h res with end_ := (h c).start - 1 } with htrimmed
  set h₁ := newReserved trimmed next ((h c).end_ + 1) (h res).end_ type with hh₁
  have htrim : ∀ a ∈ (tree root T).nodes, trimmed a = h a := fun a ha =>
    Function.update_of_ne (ne_of_mem_of_not_mem ha hp.fresh) _ _
  have hsame₁ : ∀ a ∈ res :: (tree root T).nodes, h₁ a = trimmed a := fun a ha =>
    Function.update_of_ne (ne_of_mem_of_not_mem ha hnot) _ _
  have hsame : ∀ a ∈ (tree root T).nodes, h₁ a = h a := fun a ha => (hsame₁ a (by simp [ha])).trans (htrim a ha)
  have hres : h₁ res = { h res with end_ := (h c).start - 1 } := by
    rw [hsame₁ res (by simp), htrimmed, Function.update_self]
  have hp₁ : Pending h₁ root T type res :=
    Pending.congr (h := trimmed) (hp.update hleft (by omega) (by omega)) hsame₁
  obtain ⟨h₂, T₂, hrun, hwf₂, hg, hnodes, hroots, hstart₂, hend₂, hother⟩ :=
    hc.link_front hp₁ hwf hsame (by rw [hres]) (by rw [hres]) hfront hfuel
  have hnext : h₂ next = { Resource.zero with
      start := (h c).end_ + 1, end_ := (h res).end_, flags := type ||| IORESOURCE_BUSY, desc := IORES_DESC_NONE } := by
    rw [hother next hnot, hh₁, newReserved, Function.update_self]
  have hnodes' : (tree root T₂).nodes.Perm (res :: (tree root T).nodes) := by
    simp only [tree, Forest.nodes_cons, Forest.nodes_nil, List.append_nil]
    exact (hnodes.cons root).trans (.swap res root _)
  have hp₂ : Pending h₂ root T₂ type next := by
    obtain ⟨d, hd⟩ := hg.root
    refine ⟨fun hmem => hnot (hnodes'.mem_iff.mp hmem), by rw [hnext]; rfl, by rw [hnext], ?_⟩
    rw [Fits, hnext, hd]
    dsimp only
    omega
  have hahead : ahead h₂ T₂ ((h c).end_ + 1) = ahead h T ((h c).end_ + 1) := by
    refine ahead_congr [res] hroots (fun d hd => ?_) fun d hd => (hg.ranges (Forest.roots_subset_nodes hd)).2
    rw [List.mem_singleton.mp hd]
    omega
  have hless := ahead_lt hc.mem hc.ends
  obtain ⟨h', T', hrun', hwf', hg', hcov⟩ := hrest h₂ T₂ next hwf₂ hp₂
    (hs'.perm (List.cons_subset_cons next hnodes'.subset)) (by rw [hnext]; dsimp only; omega) (by rw [hroots.length_eq]; rfl)
  rw [hnext] at hg' hcov
  dsimp only at hg' hcov
  have hcover : ¬((h c).start ≤ (h res).start ∧ (h res).end_ ≤ (h c).end_) := by omega
  have hnod₂ := hwf₂.nodup_below
  refine ⟨h', T', ?_, hwf', (hg.mono le_rfl (by omega)).trans (hg'.mono (by omega) le_rfl) hnod₂, fun x hlo hhi => ?_⟩
  · rw [reserveLoop, hc.run, Option.bind_some]
    dsimp only
    rw [if_neg hcover, if_pos hfront, if_pos hbehind, halloc]
    dsimp only
    rw [reserveLoop, hrun, Option.bind_some]
    exact hrun'
  · by_cases hx : x < (h c).start
    · have hres₂ : res ∈ T₂.roots := hroots.mem_iff.mpr (by simp)
      exact hg'.covers hres₂ ⟨by omega, by omega⟩
    · by_cases hx' : x ≤ (h c).end_
      · obtain ⟨hs, he⟩ := hg.ranges (Forest.roots_subset_nodes hc.mem)
        exact hg'.covers (hg.added.roots_subset hc.mem) ⟨by omega, by omega⟩
      · exact hcov x (by omega) hhi

theorem reserves_behind (hc : FirstConflict fuel h root T res c) (hp : Pending h root T type res) (hwf : WellFormed h root T)
    (hback : (h c).start ≤ (h res).start) (hbehind : (h c).end_ < (h res).end_)
    (hrest : ∀ h₁, WellFormed h₁ root T → Pending h₁ root T type res → ahead h₁ T (h₁ res).start < ahead h T (h res).start →
      Reserves fuel alloc root type rounds h₁ T res k) :
    Reserves fuel alloc root type (rounds + 1) h T res k := by
  obtain ⟨hvalid, hleft, hright⟩ := hp.fits
  obtain ⟨hcleft, hcvalid, hcright⟩ := hc.inside hwf
  set h₁ := Function.update h res { h res with start := (h c).end_ + 1 } with hh₁
  have hsame : ∀ a ∈ (tree root T).nodes, h₁ a = h a := fun a ha =>
    Function.update_of_ne (ne_of_mem_of_not_mem ha hp.fresh) _ _
  have hres : h₁ res = { h res with start := (h c).end_ + 1 } := Function.update_self ..
  have hahead : ahead h₁ T ((h c).end_ + 1) = ahead h T ((h c).end_ + 1) :=
    ahead_congr [] (List.Perm.refl _) (List.forall_mem_nil _) fun d hd => by
      rw [hsame d (mem_tree.mpr (.inr (Forest.roots_subset_nodes hd)))]
  have hless := ahead_lt hc.mem hc.ends
  obtain ⟨h', T', hrun', hwf', hg', hcov⟩ := hrest h₁ (hwf.congr hsame) (hp.update (by omega) hright (by omega))
    (by rw [hres]; dsimp only; omega)
  rw [hres] at hg' hcov
  dsimp only at hg' hcov
  have hnod := hwf.nodup_below
  have hcover : ¬((h c).start ≤ (h res).start ∧ (h res).end_ ≤ (h c).end_) := by omega
  have hends := hc.ends
  refine ⟨h', T', ?_, hwf', Grown.trans (.of_same hsame) (hg'.mono (by omega) le_rfl) hnod, fun x hlo hhi => ?_⟩
  · rw [reserveLoop, hc.run, Option.bind_some]
    dsimp only
    rw [if_neg hcover, if_neg (by omega)]
    exact hrun'
  · by_cases hx : x ≤ (h c).end_
    · have hceq := hsame c (mem_tree.mpr (.inr (Forest.roots_subset_nodes hc.mem)))
      exact hg'.covers hc.mem (by rw [hceq]; omega)
    · exact hcov x (by omega) hhi

end FirstConflict

/-- **The loop.** It passes the children that the range meets, from the first one on. -/
theorem WellFormed.reserves (n : ℕ) (hwf : WellFormed h root T) (hp : Pending h root T type res)
    (hs : Supplies alloc k (res :: (tree root T).nodes)) (hn : ahead h T (h res).start ≤ n) (hrounds : 2 * n < rounds)
    (hfuel : T.roots.length + n < fuel) : Reserves fuel alloc root type rounds h T res k := by
  induction n using Nat.strongRecOn generalizing h T res k rounds with
  | ind n ih =>
    have hshort : T.roots.length < fuel := by omega
    rcases hp.apart_or_conflict hwf hshort with hapart | ⟨c, hc⟩
    · obtain ⟨r, rfl⟩ : ∃ r, rounds = r + 1 := ⟨rounds - 1, by omega⟩
      exact hp.reserves hwf hshort hapart
    · have hless := ahead_lt hc.mem hc.ends
      obtain ⟨r, rfl⟩ : ∃ r, rounds = r + 2 := ⟨rounds - 2, by omega⟩
      by_cases hcover : (h c).start ≤ (h res).start ∧ (h res).end_ ≤ (h c).end_
      · refine ⟨h, T, ?_, hwf, .of_same fun _ _ => rfl, fun x hlo hhi => ⟨c, hc.mem, by omega, by omega⟩⟩
        rw [reserveLoop, hc.run, Option.bind_some]
        exact if_pos hcover
      · by_cases hfront : (h res).start < (h c).start
        · by_cases hbehind : (h c).end_ < (h res).end_
          · refine hc.reserves_next hp hwf hs hfront hbehind hshort fun h₁ T₁ next hwf₁ hp₁ hs₁ hlt hlen => ?_
            exact ih (n - 1) (by omega) hwf₁ hp₁ hs₁ (by omega) (by omega) (by omega)
          · exact hc.reserves_last hp hwf hfront (by omega) hshort
        · refine hc.reserves_behind hp hwf (by omega) (by omega) fun h₁ hwf₁ hp₁ hlt => ?_
          exact ih (n - 1) (by omega) hwf₁ hp₁ hs (by omega) (by omega) (by omega)

/-- What `reserve_region_with_split` leaves: the tree is well formed, busy leaves inside the range were
added below the root, and the part of the range that is in the root belongs to children of it. -/
structure Reserved (h : Heap) (root : ℕ) (T : Forest ℕ) (start end_ : ℕ) (h' : Heap) (T' : Forest ℕ) : Prop where
  tree : WellFormed h' root T'
  grown : Grown h root T start end_ (resourceType (h root)) h' T'
  covered : Covered h' T' (max start (h root).start) (min end_ (h root).end_)

theorem WellFormed.doReserveRegionWithSplit {start end_ : ℕ} (hwf : WellFormed h root T)
    (hs : Supplies alloc 0 (tree root T).nodes) (hvalid : start ≤ end_) (hin : (h root).start ≤ start ∧ end_ ≤ (h root).end_)
    (hfuel : 2 * T.roots.length < fuel) :
    ∃ h' T', doReserveRegionWithSplit fuel alloc h root start end_ = some h' ∧ WellFormed h' root T' ∧
      Grown h root T start end_ (resourceType (h root)) h' T' ∧ Covered h' T' start end_ := by
  obtain ⟨res, halloc, hnot, hs'⟩ := hs.next
  set h₁ := newReserved h res start end_ (resourceType (h root)) with hh₁
  have hsame : ∀ a ∈ (tree root T).nodes, h₁ a = h a := fun a ha => Function.update_of_ne (ne_of_mem_of_not_mem ha hnot) _ _
  have hres : h₁ res = { Resource.zero with
      start := start, end_ := end_, flags := resourceType (h root) ||| IORESOURCE_BUSY, desc := IORES_DESC_NONE } :=
    Function.update_self ..
  have hp : Pending h₁ root T (resourceType (h root)) res := by
    refine ⟨hnot, by rw [hres]; rfl, by rw [hres], ?_⟩
    rw [Fits, hres, hsame root (by simp)]
    exact ⟨hvalid, hin⟩
  have hshort : T.roots.length + T.roots.length < fuel := by omega
  obtain ⟨h', T', hrun, hwf', hg, hcov⟩ :=
    (hwf.congr hsame).reserves T.roots.length hp hs' List.countP_le_length hfuel hshort
  rw [hres] at hg hcov
  have hnod := hwf.nodup_below
  refine ⟨h', T', ?_, hwf', Grown.trans (.of_same hsame) hg hnod, hcov⟩
  rw [ResourceTree.doReserveRegionWithSplit, halloc]
  exact hrun

/-- **`reserve_region_with_split`** returns, and the range, which meets the one of the root, belongs to
children of the root as far as it lies in it. -/
theorem reserve_fills_holes {start end_ : ℕ} (hwf : WellFormed h root T) (hs : Supplies alloc 0 (tree root T).nodes)
    (hmeet : max start (h root).start ≤ min end_ (h root).end_) (hfuel : 2 * T.roots.length < fuel) :
    ∃ h' T', reserveRegionWithSplit fuel alloc h root start end_ = some h' ∧ Reserved h root T start end_ h' T' := by
  rw [reserveRegionWithSplit]
  by_cases hout : start < (h root).start ∨ (h root).end_ < end_
  · rw [if_pos hout, if_neg (by omega)]
    obtain ⟨h', T', hrun, hwf', hg, hcov⟩ :=
      hwf.doReserveRegionWithSplit hs hmeet ⟨le_max_right _ _, min_le_right _ _⟩ hfuel
    exact ⟨h', T', hrun, hwf', hg.mono (le_max_left _ _) (min_le_left _ _), hcov⟩
  · rw [if_neg hout]
    have hin : (h root).start ≤ start ∧ end_ ≤ (h root).end_ := by omega
    have hvalid : start ≤ end_ := by omega
    obtain ⟨h', T', hrun, hwf', hg, hcov⟩ := hwf.doReserveRegionWithSplit hs hvalid hin hfuel
    refine ⟨h', T', hrun, hwf', hg, ?_⟩
    rw [max_eq_left hin.1, min_eq_left hin.2]
    exact hcov

/-- What is left of two pages around the child of the sample tree is reserved. -/
theorem sample_reserved : ∃ h' T', reserveRegionWithSplit 3 (fun k => some (k + 2)) sampleHeap 0 0 0x1fff = some h' ∧
    Reserved sampleHeap 0 (.cons 1 .nil .nil) 0 0x1fff h' T' := by
  refine reserve_fills_holes sampleHeap_wellFormed ⟨fun j _ => ⟨j + 2, rfl, ?_⟩, fun i j _ hij heq => ?_⟩ (by decide) (by decide)
  · simp [tree]
  · have := Option.some.inj heq
    omega

end GfpDrivers.ResourceTree
