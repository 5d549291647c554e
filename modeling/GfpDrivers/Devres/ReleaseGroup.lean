import GfpDrivers.Devres.Registry

/-!
What `devres_release_group` does to the list of a device, said without the
colors: which nodes lie between the markers of a group, which other groups
lie there as a whole, and what is left of the list when both are gone.

Groups may overlap, so that one marker of a group lies in the span of another
group and the other marker does not. Such a group stays, with both markers.
-/

namespace GfpDrivers.Devres

open Lib List

/-- The nodes after the opening marker of a group, up to its closing marker or, if
the group is open, to the end of the list. -/
def within (g : ℕ) (xs : List DevNode) : List DevNode :=
  ((xs.dropWhile (· ≠ .opn g)).drop 1).takeWhile (· ≠ .cls g)

/-- Whether group `h` goes when group `g` is released: it is `g`, or it lies in the
span of `g` as a whole. -/
def goesWith (g : ℕ) (xs : List DevNode) (h : ℕ) : Bool :=
  h = g ∨ DevNode.opn h ∈ within g xs ∧ (DevNode.cls h ∈ within g xs ∨ DevNode.cls h ∉ xs)

/-- Whether a node stays when group `g` is released. -/
def stays (g : ℕ) (xs : List DevNode) (x : DevNode) : Bool :=
  match nodeToGroup x with
  | some h => !goesWith g xs h
  | none => x ∉ within g xs

/-- The list of a device, read from its links. -/
def Dev.nodes (fuel : ℕ) (d : Dev) : List DevNode :=
  d.links.nodesFrom .head fuel (d.links.next .head)

variable {d : Dev} {x : DevNode} {xs pre mid post : List DevNode} {g h fuel : ℕ}

/-- A span of the list is that of group `g`: it is open and the span ends the list,
or the span ends with its closing marker. -/
def EndsGroup (g : ℕ) (pre mid post : List DevNode) : Prop :=
  DevNode.cls g ∉ pre ++ .opn g :: mid ++ post ∧ post = [] ∨ ∃ mid', mid = mid' ++ [.cls g]

/-! ### The span of a group -/

theorem within_eq (hnod : (pre ++ .opn g :: mid ++ post).Nodup) (hend : EndsGroup g pre mid post) :
    within g (pre ++ .opn g :: mid ++ post) = mid.filter (· ≠ .cls g) := by
  have hopn : ∀ y ∈ pre, decide (y ≠ .opn g) = true := by
    intro y hy
    rw [decide_eq_true_eq]
    rintro rfl
    rw [append_assoc, nodup_append] at hnod
    exact hnod.2.2 _ hy _ (by simp) rfl
  have hdrop : (pre ++ .opn g :: mid ++ post).dropWhile (· ≠ .opn g) = .opn g :: (mid ++ post) := by
    rw [append_assoc, dropWhile_append_of_pos hopn, cons_append,
      dropWhile_cons_of_neg (by simp)]
  rw [within, hdrop, drop_one, tail_cons]
  rcases hend with ⟨hcls, rfl⟩ | ⟨mid, rfl⟩
  · have hmid : ∀ y ∈ mid, decide (y ≠ .cls g) = true := by
      intro y hy
      rw [decide_eq_true_eq]
      rintro rfl
      simp [hy] at hcls
    rw [takeWhile_append_of_pos hmid, takeWhile_nil, append_nil,
      filter_eq_self.mpr hmid]
  · have hmid : ∀ y ∈ mid, decide (y ≠ .cls g) = true := by
      intro y hy
      rw [decide_eq_true_eq]
      rintro rfl
      simp only [append_assoc, cons_append, nodup_append, nodup_cons] at hnod
      exact hnod.2.1.2.2.2 _ hy _ (by simp) rfl
    rw [append_assoc, takeWhile_append_of_pos hmid, filter_append,
      filter_eq_self.mpr hmid]
    simp

theorem mem_within (hnod : (pre ++ .opn g :: mid ++ post).Nodup) (hend : EndsGroup g pre mid post) :
    x ∈ within g (pre ++ .opn g :: mid ++ post) ↔ x ∈ mid ∧ x ≠ .cls g := by
  rw [within_eq hnod hend, mem_filter, decide_eq_true_eq]

/-- The entries of the span are those between the markers. -/
theorem entries_within (hnod : (pre ++ .opn g :: mid ++ post).Nodup)
    (hend : EndsGroup g pre mid post) :
    (within g (pre ++ .opn g :: mid ++ post)).filterMap DevNode.entry? =
      (DevNode.opn g :: mid).filterMap DevNode.entry? := by
  rw [within_eq hnod hend, filterMap_filter]
  refine filterMap_congr fun x _ => ?_
  by_cases hx : x = .cls g
  · simp [hx, DevNode.entry?]
  · simp [hx]

/-- The groups that the two passes find in the span are those that go. -/
theorem contained_eq_goesWith (hnod : (pre ++ .opn g :: mid ++ post).Nodup)
    (hend : EndsGroup g pre mid post) (h : ℕ) :
    contained (pre ++ (DevNode.opn g :: mid).filter (·.isMarker) ++ post)
        ((DevNode.opn g :: mid).filter (·.isMarker)) h =
      goesWith g (pre ++ .opn g :: mid ++ post) h := by
  have hopn : (DevNode.opn h).isMarker = true := rfl
  have hcls : (DevNode.cls h).isMarker = true := rfl
  simp only [contained, goesWith, mem_within hnod hend, mem_append, mem_filter, hopn,
    hcls, and_true, decide_eq_decide]
  by_cases hgh : h = g
  · subst hgh
    have hclosed : DevNode.cls h ∈ mid ∨ (DevNode.cls h ∉ pre ∧ DevNode.cls h ∉ mid ∧
        DevNode.cls h ∉ post) := by
      rcases hend with ⟨hcls, -⟩ | ⟨mid, rfl⟩
      · simp only [mem_append, mem_cons, not_or] at hcls
        exact .inr ⟨hcls.1.1, hcls.1.2.2, hcls.2⟩
      · simp
    simp only [mem_cons, true_or, true_and, reduceCtorEq, false_or, iff_true]
    tauto
  · simp [hgh]

/-! ### What is left of the list -/

theorem stays_before (hgr : Grouped (pre ++ .opn g :: mid ++ post)) (hend : EndsGroup g pre mid post)
    (hx : x ∈ pre) : stays g (pre ++ .opn g :: mid ++ post) x = true := by
  have hnod := hgr.nodup
  have hdisj : ∀ y ∈ pre, y ≠ .opn g ∧ y ∉ mid := by
    rw [append_assoc, nodup_append] at hnod
    exact fun y hy => ⟨hnod.2.2 y hy _ (by simp), fun hmid => hnod.2.2 y hy y (by simp [hmid]) rfl⟩
  have hout : x ∉ within g (pre ++ .opn g :: mid ++ post) := by
    rw [mem_within hnod hend]
    exact fun h => (hdisj x hx).2 h.1
  have hopn : ∀ h, DevNode.opn h ∈ pre → goesWith g (pre ++ .opn g :: mid ++ post) h = false := by
    intro h hh
    obtain ⟨hne, hmid⟩ := hdisj _ hh
    have hgh : h ≠ g := fun hgh => hne (congrArg _ hgh)
    simp only [goesWith, mem_within hnod hend, hgh, hmid, false_or, false_and, decide_false]
  cases x with
  | opn h => simp only [stays, nodeToGroup, hopn h hx, Bool.not_false]
  | cls h =>
    obtain ⟨as, bs, rfl⟩ := append_of_mem hx
    have hbefore : DevNode.opn h ∈ as := by
      rw [append_assoc, append_assoc, cons_append] at hgr
      exact hgr.opn_before
    simp only [stays, nodeToGroup, hopn h (mem_append_left _ hbefore), Bool.not_false]
  | reg r => simp only [stays, nodeToGroup, hout, not_false_eq_true, decide_true]
  | head => simp only [stays, nodeToGroup, hout, not_false_eq_true, decide_true]
  | todo => simp only [stays, nodeToGroup, hout, not_false_eq_true, decide_true]

/-- After the closing marker nothing goes: a group that is closed there has a marker
outside the span. -/
theorem stays_after (hgr : Grouped (pre ++ .opn g :: mid ++ post)) (hend : EndsGroup g pre mid post)
    (hx : x ∈ post) : stays g (pre ++ .opn g :: mid ++ post) x = true := by
  have hnod := hgr.nodup
  have hdisj : x ≠ .opn g ∧ x ∉ mid := by
    rw [nodup_append] at hnod
    exact ⟨fun h => hnod.2.2 (.opn g) (by simp) x hx h.symm,
      fun h => hnod.2.2 x (by simp [h]) x hx rfl⟩
  have hcls : x ≠ .cls g := by
    rcases hend with ⟨-, rfl⟩ | ⟨mid, rfl⟩
    · simp at hx
    · rintro rfl
      exact hdisj.2 (by simp)
  have hout : x ∉ within g (pre ++ .opn g :: mid ++ post) := by
    rw [mem_within hnod hend]
    exact fun h => hdisj.2 h.1
  cases x with
  | opn h =>
    have hgh : h ≠ g := fun hgh => hdisj.1 (congrArg _ hgh)
    simp only [stays, nodeToGroup, goesWith, hgh, hout, false_and, or_false, decide_false,
      Bool.not_false]
  | cls h =>
    have hgh : h ≠ g := fun hgh => hcls (congrArg _ hgh)
    have hin : DevNode.cls h ∈ pre ++ .opn g :: mid ++ post := mem_append_right _ hx
    simp only [stays, nodeToGroup, goesWith, hgh, hout, hin, not_true_eq_false, or_false,
      and_false, decide_false, Bool.not_false]
  | reg r => simp only [stays, nodeToGroup, hout, not_false_eq_true, decide_true]
  | head => simp only [stays, nodeToGroup, hout, not_false_eq_true, decide_true]
  | todo => simp only [stays, nodeToGroup, hout, not_false_eq_true, decide_true]

/-- In the span the markers of groups that stay are left. -/
theorem filter_stays_span (hnod : (pre ++ .opn g :: mid ++ post).Nodup)
    (hend : EndsGroup g pre mid post) :
    (DevNode.opn g :: mid).filter (stays g (pre ++ .opn g :: mid ++ post)) =
      kept (pre ++ (DevNode.opn g :: mid).filter (·.isMarker) ++ post)
        ((DevNode.opn g :: mid).filter (·.isMarker)) := by
  rw [kept, filter_filter]
  refine filter_congr fun x hx => ?_
  cases hg : nodeToGroup x with
  | some h =>
    simp only [stays, DevNode.isMarker, hg, ← contained_eq_goesWith hnod hend, Option.any_some,
      Option.isSome_some, Bool.and_true]
  | none =>
    have hx' : x ∈ within g (pre ++ .opn g :: mid ++ post) := by
      rw [mem_within hnod hend]
      refine ⟨(mem_cons.mp hx).resolve_left ?_, ?_⟩
      · rintro rfl
        cases hg
      · rintro rfl
        cases hg
    simp only [stays, DevNode.isMarker, hg, hx', not_true_eq_false, decide_false,
      Option.isSome_none, Bool.and_false]

theorem filter_stays (hgr : Grouped (pre ++ .opn g :: mid ++ post)) (hend : EndsGroup g pre mid post) :
    (pre ++ .opn g :: mid ++ post).filter (stays g (pre ++ .opn g :: mid ++ post)) =
      pre ++ kept (pre ++ (DevNode.opn g :: mid).filter (·.isMarker) ++ post)
        ((DevNode.opn g :: mid).filter (·.isMarker)) ++ post := by
  rw [filter_append, filter_append, filter_stays_span hgr.nodup hend,
    filter_eq_self.mpr fun x hx => stays_before hgr hend hx,
    filter_eq_self.mpr fun x hx => stays_after hgr hend hx]

/-! ### The function -/

/-- `find_group` does not see the list `todo` of the call. -/
theorem findGroup_init_todo (id : Option GroupId) (hl : d.links.IsList .head xs)
    (hl' : (d.links.init .todo).IsList .head xs) (hfuel : xs.length < fuel) :
    findGroup fuel { d with links := d.links.init .todo } id = findGroup fuel d id := by
  rw [findGroup_eq id hl hfuel, findGroup_eq (d := { d with links := d.links.init .todo }) id hl'
    hfuel]
  rfl

/-- **`devres_release_group`** on any list of markers and entries. -/
theorem Listed.releaseGroup (hl : Listed d.links xs) (htodo : DevNode.todo ∉ xs) (hgr : Grouped xs)
    {id : Option GroupId} (hfuel : xs.length < fuel)
    (hfind : findGroup fuel d id = some (some g)) :
    ∃ d' calls, devresReleaseGroup fuel d id =
        some (d', (((within g xs).filterMap DevNode.entry?).length : ℤ)) ∧
      d'.calls = d.calls ++ calls ∧
      calls.filterMap DevNode.entry? = ((within g xs).filterMap DevNode.entry?).reverse ∧
      calls.Nodup ∧ (∀ h, DevNode.opn h ∈ calls ↔ goesWith g xs h = true) ∧
      d'.links.IsList .head (xs.filter (stays g xs)) := by
  have hlists := hl.toLists htodo
  have hfind' := (findGroup_init_todo id hl.head hlists.head hfuel).trans hfind
  have hopn : DevNode.opn g ∈ xs := by
    rw [findGroup_eq id hl.head hfuel, Option.some.injEq] at hfind
    exact mem_of_groupMatches hfind
  obtain ⟨pre, mid, post, rfl, hlast, hend⟩ := hlists.toListed.group_span hgr hopn
  obtain ⟨d', calls, hrun, hleft, hcalls, hentries, hnod, hgone, -⟩ :=
    release_span (d := { d with links := d.links.init .todo }) rfl hgr hlists (by
      simp only [length_append] at hfuel
      omega : _ < fuel)
  refine ⟨d', calls, ?_, hcalls, ?_, hnod, fun h => ?_, ?_⟩
  · rw [headD_cons] at hrun
    rw [entries_within hgr.nodup hend, devresReleaseGroup]
    simp only
    rw [hfind', Option.bind_some]
    simp only [hlast]
    exact hrun
  · rw [hentries, entries_within hgr.nodup hend]
  · rw [hgone, contained_eq_goesWith hgr.nodup hend]
  · rw [filter_stays hgr hend]
    exact hleft.head

/-- **Releasing a group releases its span and nothing else.** After any allowed run
of the devres operations, with groups nested, overlapping or left open, let
`find_group` resolve an id to group `g`. `devres_release_group` then returns
the number of the entries between the markers of `g`, or after its opening
marker if it is open, and has called their release functions in the reverse
of the order in which they were added. The groups it frees are `g` and those
that lie in the span as a whole; it takes these and the entries of the span
out of the list, and leaves all other nodes in their order. -/
theorem devres_release_group_span (fuel : ℕ) (d : Dev) (acts : List DevAct)
    (hfuel : acts.length < fuel)
    (hacts : Along (DevSys.step fuel) (DevSys.Allows fuel) (DevSys.start d) acts) :
    ∃ s xs, exec (DevSys.step fuel) (DevSys.start d) acts = some s ∧
      s.dev.nodes fuel = xs ∧ s.dev.links.IsList .head xs ∧ s.live = xs.filterMap DevNode.entry? ∧
      ∀ id g, findGroup fuel s.dev id = some (some g) →
        ∃ d' calls, devresReleaseGroup fuel s.dev id =
            some (d', (((within g xs).filterMap DevNode.entry?).length : ℤ)) ∧
          d'.calls = s.dev.calls ++ calls ∧
          calls.filterMap DevNode.entry? = ((within g xs).filterMap DevNode.entry?).reverse ∧
          calls.Nodup ∧ (∀ h, DevNode.opn h ∈ calls ↔ goesWith g xs h = true) ∧
          d'.links.IsList .head (xs.filter (stays g xs)) := by
  obtain ⟨s, xs, hrun, hs, hlen⟩ := (DevSys.registered_start d).run hfuel hacts
  refine ⟨s, xs, hrun, hs.listed.head.nodesFrom_eq hlen, hs.listed.head, hs.live, fun id g hfind => ?_⟩
  exact hs.listed.releaseGroup hs.todo hs.grouped hlen hfind

/-- Group 0 has group 2 and the open group 3 in its span, and one marker of group 1. -/
def nestedRun : List DevAct :=
  [.add 0 5, .openGroup none (some 0), .add 1 5, .openGroup none (some 1), .add 2 5,
    .openGroup (some (.ptr 7)) (some 2), .add 3 6, .closeGroup (some (.ptr 7)),
    .openGroup none (some 3), .add 4 5, .closeGroup (some (.addr 0)), .add 5 5,
    .closeGroup (some (.addr 1))]

theorem devres_release_group_span_overlapping :
    ∃ s d' calls, exec (DevSys.step 14) (DevSys.start blankDev) nestedRun = some s ∧
      devresReleaseGroup 14 s.dev (some (.addr 0)) = some (d', 4) ∧
      d'.calls = s.dev.calls ++ calls ∧ calls.filterMap DevNode.entry? = [4, 3, 2, 1] ∧
      (∀ h, DevNode.opn h ∈ calls ↔ h = 0 ∨ h = 2 ∨ h = 3) ∧
      d'.links.IsList .head [.reg 0, .opn 1, .reg 5, .cls 1] := by
  obtain ⟨s, xs, hrun, hnodes, -, -, hspan⟩ :=
    devres_release_group_span 14 blankDev nestedRun (by decide) (by decide +kernel)
  have hxs : (exec (DevSys.step 14) (DevSys.start blankDev) nestedRun).map (·.dev.nodes 14) =
      some [.reg 0, .opn 0, .reg 1, .opn 1, .reg 2, .opn 2, .reg 3, .cls 2, .opn 3, .reg 4, .cls 0,
        .reg 5, .cls 1] := by
    decide +kernel
  have hfind : (exec (DevSys.step 14) (DevSys.start blankDev) nestedRun).map
      (fun s => findGroup 14 s.dev (some (.addr 0))) = some (some (some 0)) := by
    decide +kernel
  rw [hrun, Option.map_some, Option.some.injEq] at hxs hfind
  rw [hxs] at hnodes
  subst hnodes
  obtain ⟨d', calls, hrel, hcalls, hentries, -, hgroups, hl⟩ := hspan _ 0 hfind
  refine ⟨s, d', calls, hrun, hrel, hcalls, hentries, fun h => ?_, hl⟩
  rw [hgroups]
  simp [goesWith, within]
  omega

end GfpDrivers.Devres
