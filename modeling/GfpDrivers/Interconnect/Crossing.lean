import GfpDrivers.Interconnect.BackLinks

/-!
The levels next to the source with a link back to it. The source comes to the edge while the lists still hold it as the
only node of the first level, or as the only one that is visited.
-/

namespace GfpDrivers.Interconnect.PathFind

open Lib List

variable {ν : Type} [DecidableEq ν] {links : ν → List (Option ν)} {src dst u v w a b f l t p : ν} {s s' : SearchState ν}
  {L : Links (Loc ν)} {T E V E₁ E₂ : List ν} {ls ls' : List (Option ν)} {seen : Finset ν} {e : Exit}
  {fuel rounds depth : ℕ} {I : SearchState ν → Prop}

/-! ### Nodes before others -/

omit [DecidableEq ν] in
theorem prev_of_seg {xs : List ν} {y : Loc ν} (h : L.Seg (.node a) (xs.map .node) y) (hv : v ∈ xs) :
    ∃ w ∈ a :: xs, L.prev (.node v) = .node w := by
  have hmem := h.prev_mem_of_mem (mem_locs.mpr hv)
  rw [← map_cons, mem_map] at hmem
  obtain ⟨w, hw, heq⟩ := hmem
  exact ⟨w, hw, heq.symm⟩

omit [DecidableEq ν] in
theorem prev_of_seg_end {xs : List ν} {y : Loc ν} (h : L.Seg (.node a) (xs.map .node) y) :
    ∃ w ∈ a :: xs, L.prev y = .node w := by
  have hmem := h.prev_mem
  rw [← map_cons, mem_map] at hmem
  obtain ⟨w, hw, heq⟩ := hmem
  exact ⟨w, hw, heq.symm⟩

/-! ### The lists at the end of a level -/

/-- What the heads of the level and of the visited nodes lead to. -/
structure Heads (L : Links (Loc ν)) (x : Loc ν) (a b : ν) : Prop where
  visited : L.next visitedList = x
  first : L.next traverseList = .node a
  last : L.prev traverseList = .node b

section

variable {x : Loc ν} (y : Loc ν)

/-- The links back after the nodes of the level were put to the visited ones. -/
theorem Heads.visit_prev (h : Heads L x a b) : (L.spliceInit traverseList visitedList).prev y =
    if y = traverseList then traverseList else if y = x then .node b else if y = .node a then visitedList
      else L.prev y := by
  rw [Links.spliceInit_prev (by rw [h.first]; simp), h.visited, h.first, h.last]

theorem Heads.visit_next (h : Heads L x a b) : (L.spliceInit traverseList visitedList).next y =
    if y = traverseList then traverseList else if y = .node b then x else if y = visitedList then .node a
      else L.next y := by
  rw [Links.spliceInit_next (by rw [h.first]; simp), h.visited, h.first, h.last]

theorem Heads.visit_edge (h : Heads L x a b) (hx : x ≠ edgeList) :
    (L.spliceInit traverseList visitedList).next edgeList = L.next edgeList ∧
      (L.spliceInit traverseList visitedList).prev edgeList = L.prev edgeList := by
  rw [h.visit_next, h.visit_prev, if_neg (by simp), if_neg (by simp), if_neg (by simp), if_neg (by simp), if_neg hx.symm,
    if_neg (by simp)]
  exact ⟨rfl, rfl⟩

/-- The links back at the end of a level behind which there is another one. -/
theorem Heads.nextLevel_prev (h : Heads s.list x a b) (hx : x ≠ edgeList) (hf : s.list.next edgeList = .node f)
    (hl : s.list.prev edgeList = .node l) : s.nextLevel.list.prev y =
      if y = edgeList then edgeList else if y = traverseList then .node l else if y = .node f then traverseList
        else if y = x then .node b else if y = .node a then visitedList else s.list.prev y := by
  obtain ⟨hnext, hprev⟩ := h.visit_edge hx
  rw [SearchState.nextLevel, Links.spliceInit_prev (by rw [hnext, hf]; simp), hnext, hprev, hf, hl, h.visit_next, if_pos rfl,
    h.visit_prev]
  split
  · rfl
  split
  · rfl
  · rfl

theorem Heads.nextLevel_next (h : Heads s.list x a b) (hx : x ≠ edgeList) (hf : s.list.next edgeList = .node f)
    (hl : s.list.prev edgeList = .node l) : s.nextLevel.list.next y =
      if y = edgeList then edgeList else if y = .node l then traverseList else if y = traverseList then .node f
        else if y = .node b then x else if y = visitedList then .node a else s.list.next y := by
  obtain ⟨hnext, hprev⟩ := h.visit_edge hx
  rw [SearchState.nextLevel, Links.spliceInit_next (by rw [hnext, hf]; simp), hnext, hprev, hf, hl, h.visit_next, if_pos rfl,
    h.visit_next]
  split
  · rfl
  split
  · rfl
  split
  · rfl
  · rfl

/-- The links back where `dst` was met and there are nodes behind the level. -/
theorem Heads.collect_prev (h : Heads s.list (.node p) a b) (hf : s.list.next edgeList = .node f)
    (hl : s.list.prev edgeList = .node l) : s.collect.list.prev y =
      if y = traverseList then traverseList else if y = .node f then .node b else if y = .node a then visitedList
        else if y = edgeList then edgeList else if y = .node p then .node l else s.list.prev y := by
  have hne : s.list.next edgeList ≠ edgeList := by
    rw [hf]
    simp
  have hheads : Heads (s.list.spliceInit edgeList visitedList) (.node f) a b := by
    refine ⟨?_, ?_, ?_⟩
    · rw [Links.spliceInit_next hne, hl, if_neg (by simp), if_neg (by simp), if_pos rfl, hf]
    · rw [Links.spliceInit_next hne, hl, if_neg (by simp), if_neg (by simp), if_neg (by simp), h.first]
    · rw [Links.spliceInit_prev hne, h.visited, hf, if_neg (by simp), if_neg (by simp), if_neg (by simp), h.last]
  rw [SearchState.collect, hheads.visit_prev, Links.spliceInit_prev hne, h.visited, hf, hl]
  split
  · rfl
  split
  · rfl
  · rfl

end

/-! ### Nodes that come to the edge -/

/-- The nodes `new` came to the edge, where `E` was before. -/
structure Added (s₀ s : SearchState ν) (E new : List ν) : Prop where
  edge : s.list.IsList edgeList ((E ++ new).map .node)
  old : ∀ v ∈ E, s₀.isTraversed v = true
  frame : ∀ y, y ∉ edgeList :: E.map Loc.node → (∀ v, y = .node v → s₀.isTraversed v = true) →
    s.list.next y = s₀.list.next y ∧ s.list.prev y = s₀.list.prev y
  marks : ∀ v, s.isTraversed v = true ↔ s₀.isTraversed v = true ∨ v ∈ new
  fresh : ∀ v ∈ new, s₀.isTraversed v = false

variable {s₀ : SearchState ν} {new : List ν}

omit [DecidableEq ν] in
theorem Added.refl (hedge : s.list.IsList edgeList (E.map .node)) (hold : ∀ v ∈ E, s.isTraversed v = true) :
    Added s s E [] := by
  refine ⟨?_, hold, fun _ _ _ => ⟨rfl, rfl⟩, fun v => ?_, fun v hv => absurd hv not_mem_nil⟩
  · rwa [append_nil]
  · simp

theorem Added.addEdge (h : Added s₀ s E new) (hw : s.isTraversed w = false) : Added s₀ (s.addEdge u w) E (new ++ [w]) := by
  have hw' := hw
  rw [← Bool.not_eq_true, h.marks, not_or] at hw
  obtain ⟨hw₀, hnew⟩ := hw
  have hnot : w ∉ E ++ new := by
    rw [mem_append, not_or]
    exact ⟨fun hE => hw₀ (h.old w hE), hnew⟩
  refine ⟨?_, h.old, fun y hy hmark => ?_, fun v => ?_, fun v hv => ?_⟩
  · have hadd := h.edge.addTail (x := .node w) (by simpa using hnot)
    rwa [← append_assoc, map_append, map_singleton]
  · have hy' : y ∉ edgeList :: (E ++ new).map Loc.node := by
      rw [map_append, ← cons_append, mem_append, not_or]
      refine ⟨hy, fun hmem => ?_⟩
      obtain ⟨v, hv, rfl⟩ := mem_map.mp hmem
      exact Bool.false_ne_true ((h.fresh v hv).symm.trans (hmark v rfl))
    have hyw : y ≠ .node w := fun heq => hw₀ (hmark w heq)
    obtain ⟨hn, hp⟩ := h.edge.addTail_frame hy' hyw
    exact ⟨hn.trans (h.frame y hy hmark).1, hp.trans (h.frame y hy hmark).2⟩
  · rw [SearchState.addEdge_isTraversed, mem_append, mem_singleton, ← or_assoc, ← h.marks]
    split
    next hvw => simp [hvw]
    next hvw => simp [hvw]
  · obtain hv | hv := mem_append.mp hv
    · exact h.fresh v hv
    · rw [mem_singleton.mp hv]
      simpa using hw₀

theorem stable_added : Stable fun s : SearchState ν => ∃ new, Added s₀ s E new :=
  fun _ _ w ⟨new, h⟩ hw => ⟨new ++ [w], h.addEdge hw⟩

/-! ### The source on two lists -/

/-- The source was put to the edge, between `E₁` and `E₂`. The heads of the level and of the visited nodes and the nodes
of the level, but not the source, are as in `L`. -/
structure Crossed (src : ν) (L : Links (Loc ν)) (s : SearchState ν) (T E₁ E₂ : List ν) : Prop where
  edge : s.list.IsList edgeList ((E₁ ++ src :: E₂).map .node)
  head : ∀ k, k ≠ .edge → s.list.next (.head k) = L.next (.head k) ∧ s.list.prev (.head k) = L.prev (.head k)
  node : ∀ v ∈ T, v ≠ src → s.list.next (.node v) = L.next (.node v) ∧ s.list.prev (.node v) = L.prev (.node v)
  apart : ∀ v ∈ T, v ≠ src → v ∉ E₁ ++ src :: E₂
  marks : ∀ v, s.isTraversed v = true ↔ v ∈ T ∨ v ∈ E₁ ++ src :: E₂

theorem Mid.added (h : Mid src s T E V seen) (hsrc : src ∉ E) :
    Added (s.addEdge u src) (s.addEdge u src) (E ++ [src]) [] := by
  refine .refl ?_ fun v hv => ?_
  · have hadd := h.lists.edge.addTail (x := .node src) (by simpa using hsrc)
    rwa [map_append, map_singleton]
  · rw [SearchState.addEdge_isTraversed]
    split
    next => rfl
    next hne =>
      rw [mem_append, mem_singleton] at hv
      rw [h.marks, Finset.mem_erase, h.seen]
      exact ⟨hne, .inr (.inl (hv.resolve_right hne))⟩

theorem Mid.crossed (h : Mid src s T E V seen) (hV : ∀ v ∈ V, v = src)
    (hadded : Added (s.addEdge u src) s' (E ++ [src]) E₂) : Crossed src s.list s' T E E₂ := by
  have happ : E ++ src :: E₂ = E ++ [src] ++ E₂ := by simp
  have hmarks : ∀ v, (s.addEdge u src).isTraversed v = true ↔ v ∈ T ∨ v ∈ E ++ [src] := by
    intro v
    rw [SearchState.addEdge_isTraversed, mem_append, mem_singleton]
    split
    next hvs => simp [hvs]
    next hvs =>
      rw [h.marks, Finset.mem_erase, h.seen]
      have := hV v
      tauto
  have hT : ∀ v ∈ T, v ≠ src → v ∉ E ++ [src] := by
    intro v hv hne
    rw [mem_append, mem_singleton, not_or]
    exact ⟨h.lists.traverse_edge v hv, hne⟩
  refine ⟨happ ▸ hadded.edge, fun k hk => ?_, fun v hv hne => ?_, fun v hv hne => ?_, fun v => ?_⟩
  · obtain ⟨hn, hp⟩ := hadded.frame (.head k) (by simpa using hk) fun v hv => nomatch hv
    obtain ⟨hn', hp'⟩ := h.lists.edge.addTail_frame (y := .head k) (x := .node src) (by simpa using hk) (by simp)
    exact ⟨hn.trans hn', hp.trans hp'⟩
  · have hv' : Loc.node v ∉ edgeList :: (E ++ [src]).map Loc.node := by
      simpa only [mem_cons, reduceCtorEq, false_or, mem_locs] using hT v hv hne
    obtain ⟨hn, hp⟩ := hadded.frame (.node v) hv' fun w hw => (hmarks w).mpr (.inl (Loc.node.inj hw ▸ hv))
    obtain ⟨hn', hp'⟩ := h.lists.edge.addTail_frame (y := .node v) (x := .node src)
      (by simpa using h.lists.traverse_edge v hv) (by simpa using hne)
    exact ⟨hn.trans hn', hp.trans hp'⟩
  · rw [happ, mem_append, not_or]
    refine ⟨hT v hv hne, fun hnew => ?_⟩
    exact Bool.false_ne_true ((hadded.fresh v hnew).symm.trans ((hmarks v).mpr (.inl hv)))
  · rw [hadded.marks, hmarks, happ, mem_append (s := E ++ [src]), or_assoc]

/-- How a level ends with a node that leads back to the source, where the source is in this level or the one before. -/
theorem Mid.cross {A B : List ν} (h : Mid src s (A ++ u :: B) E V seen) (hV : ∀ v ∈ V, v = src)
    (hsrc : src ∉ E) (hB : ∀ v ∈ B, v ≠ src) (hdst : u ≠ dst) (hlinks : links u = ls ++ some src :: ls')
    (hnull : none ∉ ls) (hback : some src ∉ ls) (hrun : traverseFrom links dst fuel (.node u) s = some (s', e)) :
    ∃ s₀ E₂, Crossed src (addEdges u (discover seen ls) s).list s₀ (A ++ u :: B) (E ++ discover seen ls) E₂ ∧
      ((e = .out ∧ s' = s₀) ∨
        (e = .found ∧ s' = s₀.collect ∧ ∃ B₁ B₂, B = B₁ ++ dst :: B₂ ∧ ∀ v ∈ u :: B₁, Idle links s₀ v) ∨
        (e = .done ∧ s' = s₀ ∧ Idle links s₀ u)) := by
  have hmid := h.add_new u ls
  have hlist := h.lists.traverse
  rw [map_append, map_cons] at hlist
  have hsrc' : src ∉ E ++ discover seen ls := by
    rw [mem_append, not_or]
    exact ⟨hsrc, fun hmem => (mem_discover.mp hmem).2 h.src_mem⟩
  have hscan : scanLinks u (links u) s = scanLinks u ls' ((addEdges u (discover seen ls) s).addEdge u src) := by
    rw [hlinks, scanLinks_eq h.marks hnull, discover_erase hback, scanLinks, if_neg (by simp [hmid.isTraversed_src])]
  have hkeep := (scanLinks_spec u ls' stable_added ⟨[], hmid.added (u := u) hsrc'⟩).1
  rw [← hscan] at hkeep
  have hidle := (scanLinks_spec u (links u) (s := s) (I := fun _ => True) (fun _ _ _ _ _ => trivial) trivial).2.2
  -- the nodes that follow are as they were before the source was put to the edge
  have hchain : ∀ s₁, (∃ new, Added ((addEdges u (discover seen ls) s).addEdge u src) s₁ (E ++ discover seen ls ++ [src]) new) →
      ∀ B₁ v B₂, B = B₁ ++ v :: B₂ → s₁.list.next (.node v) = (B₂.map .node).headD traverseList := by
    rintro s₁ ⟨new, hnew⟩ B₁ v B₂ rfl
    have hlist' := hmid.lists.traverse
    rw [← cons_append, ← append_assoc, map_append, map_cons] at hlist'
    rw [← hlist'.next_eq]
    exact ((hmid.crossed hV hnew).node v (by simp) (hB v (by simp))).1
  cases fuel with
  | zero => cases hrun
  | succ fuel =>
    rw [traverseFrom, if_neg hdst] at hrun
    split at hrun
    next hout =>
      obtain ⟨rfl, rfl⟩ := Prod.mk.inj (Option.some.inj hrun)
      obtain ⟨E₂, hE₂⟩ := hkeep
      exact ⟨_, E₂, hmid.crossed hV hE₂, .inl ⟨rfl, rfl⟩⟩
    next hin =>
      have hidle' := hidle (by simpa using hin)
      rw [hlist.next_eq] at hrun
      obtain ⟨rfl, s₀, B₁, B₂, rfl, ⟨E₂, hE₂⟩, hle, hidles, rfl⟩ | ⟨rfl, ⟨E₂, hE₂⟩, -⟩ |
          ⟨fuel, s₀, hrun', ⟨E₂, hE₂⟩, hle, -⟩ :=
        PathFind.traverse_nodes stable_added hchain hkeep hrun
      · refine ⟨s₀, E₂, hmid.crossed hV hE₂, .inr (.inl ⟨rfl, rfl, B₁, B₂, rfl, fun v hv => ?_⟩)⟩
        obtain rfl | hv := mem_cons.mp hv
        · exact Idle.mono hidle' hle
        · exact hidles v hv
      · exact ⟨s', E₂, hmid.crossed hV hE₂, .inl ⟨rfl, rfl⟩⟩
      · obtain ⟨rfl, rfl⟩ := traverseFrom_traverseList hrun'
        exact ⟨s', E₂, hmid.crossed hV hE₂, .inr (.inr ⟨rfl, rfl, Idle.mono hidle' hle⟩)⟩

/-! ### Searches that fail -/

/-- From here on the search does not end, or it fails. -/
def FailsFrom (links : ν → List (Option ν)) (dst : ν) (rounds : ℕ) (s : SearchState ν) : Prop :=
  ∀ fuel depth s' e depth', searchLevels links dst rounds fuel depth s = some (s', e, depth') → Fails s'

theorem failsFrom_of_level (hlevel : ∀ s₁ e₁, traverseFrom links dst rounds (s.list.next traverseList) s = some (s₁, e₁) →
      (e₁ ≠ .done ∧ Fails s₁) ∨
        (e₁ = .done ∧ (s₁.nextLevel.list.next traverseList = traverseList → Fails s₁.nextLevel) ∧
          (s₁.nextLevel.list.next traverseList ≠ traverseList → FailsFrom links dst rounds s₁.nextLevel))) :
    FailsFrom links dst rounds s := by
  intro fuel depth s' e depth' hrun
  cases fuel with
  | zero => exact nomatch hrun
  | succ fuel =>
    rw [searchLevels, Option.bind_eq_some_iff] at hrun
    obtain ⟨⟨s₁, e₁⟩, hrun₁, hrun⟩ := hrun
    obtain ⟨he, hfails⟩ | ⟨he, hempty, hnext⟩ := hlevel s₁ e₁ hrun₁
    · rw [if_pos he] at hrun
      obtain ⟨rfl, -⟩ := Prod.mk.inj (Option.some.inj hrun)
      exact hfails
    · rw [if_neg (not_not.mpr he), Links.isEmpty] at hrun
      split at hrun
      next hnil =>
        obtain ⟨rfl, -⟩ := Prod.mk.inj (Option.some.inj hrun)
        exact hempty (of_decide_eq_true hnil)
      next hcons => exact hnext (fun hnil => hcons (decide_eq_true hnil)) _ _ _ _ _ hrun

theorem Kept.failsFrom (hI : Kept I) (hfails : ∀ s, I s → Fails s) (h : I s) : FailsFrom links dst rounds s :=
  fun _ _ _ _ _ hrun => hfails _ (hI.searchLevels h hrun)

/-- Where the source came to the edge behind other nodes, the last one of these is lost at the end of the level. -/
theorem Crossed.lost {x : Loc ν} {E : List ν} (h : Crossed src L s T (E ++ [p]) E₂) (hheads : Heads s.list x a b)
    (hx : x ≠ edgeList) (hsrc : x = .node src ∨ a = src) (hvis : x = visitedList ∨ s.list.prev visitedList = .node src)
    (hb : b ∈ T) (hT : ∀ v ∈ T, v ≠ a → ∃ w ∈ T, s.list.prev (.node v) = .node w) : Lost s.nextLevel := by
  have hedge := h.edge
  rw [append_assoc, singleton_append] at hedge
  have hnod := (nodup_map_iff fun _ _ h => Loc.node.inj h).mp (nodup_cons.mp hedge.nodup).2
  obtain ⟨-, hnod, hdisj⟩ := nodup_append.mp hnod
  have hpE : p ∉ E := fun hmem => hdisj p hmem p (mem_cons_self ..) rfl
  have hpE₂ : p ∉ src :: E₂ := (nodup_cons.mp hnod).1
  have hpT : p ∉ T := by
    refine fun hmem => h.apart p hmem ?_ (by simp)
    rintro rfl
    exact hpE₂ (mem_cons_self ..)
  have hseg := hedge.seg
  rw [map_append, map_cons, Links.seg_append, map_cons] at hseg
  obtain ⟨l, hl, hlast⟩ := prev_of_seg_end hseg.2.2
  obtain ⟨f, hf⟩ : ∃ f, s.list.next edgeList = .node f := by
    rw [hedge.next_head]
    cases E with
    | nil => exact ⟨p, rfl⟩
    | cons f E => exact ⟨f, rfl⟩
  refine ⟨fun y => ∀ v, y = .node v → v ∈ T ∨ v ∈ E ∨ v ∈ src :: E₂, p, fun y hy v hv => ?_, fun _ v hv => absurd hv (by simp),
    fun hC => ?_, (h.marks p).mpr (.inr (by simp))⟩
  · rw [hheads.nextLevel_prev y hx hf hlast] at hv
    split at hv
    · exact nomatch hv
    split at hv
    · exact .inr (.inr (Loc.node.inj hv ▸ hl))
    split at hv
    · exact nomatch hv
    split at hv
    · exact .inl (Loc.node.inj hv ▸ hb)
    split at hv
    · exact nomatch hv
    next hye hyt _ hyx hya =>
    cases y with
    | head k =>
      cases k with
      | traverse => exact absurd rfl hyt
      | edge => exact absurd rfl hye
      | visited =>
        have hsrc' := hvis.resolve_left (Ne.symm hyx)
        exact .inr (.inr (Loc.node.inj (hsrc'.symm.trans hv) ▸ mem_cons_self ..))
    | node w =>
      obtain hw | hw | hw := hy w rfl
      · obtain ⟨w', hw', hprev⟩ := hT w hw fun heq => hya (congrArg _ heq)
        exact .inl (Loc.node.inj (hprev.symm.trans hv) ▸ hw')
      · have hmem := hseg.1.prev_mem_of_mem (mem_locs.mpr hw)
        rw [hv, mem_cons, mem_locs] at hmem
        exact .inr (.inl (hmem.resolve_left (by simp)))
      · have hws : w ≠ src := by
          rintro rfl
          exact hsrc.elim (fun heq => hyx heq.symm) fun heq => hya (congrArg _ heq.symm)
        obtain ⟨w', hw', hprev⟩ := prev_of_seg hseg.2.2 ((mem_cons.mp hw).resolve_left hws)
        exact .inr (.inr (Loc.node.inj (hprev.symm.trans hv) ▸ hw'))
  · obtain hmem | hmem | hmem := hC p rfl
    · exact hpT hmem
    · exact hpE hmem
    · exact hpE₂ hmem

/-! ### A link back to the source from its neighbours -/

/-- The lists of the first level behind the source, and the source at the edge as well. -/
structure Beyond (src : ν) (L : Links (Loc ν)) (s : SearchState ν) (t : ν) (T E₁ E₂ : List ν) : Prop where
  lists : Lists L (t :: T) E₁ [src]
  crossed : Crossed src L s (t :: T) E₁ E₂

omit [DecidableEq ν] in
theorem Beyond.ne (h : Beyond src L s t T E₁ E₂) (hv : v ∈ t :: T) : v ≠ src := by
  rintro rfl
  exact h.lists.traverse_visited v hv (mem_singleton_self v)

omit [DecidableEq ν] in
theorem Beyond.visited (h : Beyond src L s t T E₁ E₂) : s.list.prev visitedList = .node src := by
  rw [(h.crossed.head .visited (by decide)).2, h.lists.visited.prev_head]
  rfl

omit [DecidableEq ν] in
theorem Beyond.heads (h : Beyond src L s t T E₁ E₂) : ∃ b ∈ t :: T, Heads s.list (.node src) t b := by
  obtain ⟨b, hb, hlast⟩ := prev_of_seg_end h.lists.traverse.seg.2
  refine ⟨b, hb, ?_, ?_, ?_⟩
  · rw [(h.crossed.head .visited (by decide)).1, h.lists.visited.next_head]
    rfl
  · rw [(h.crossed.head .traverse (by decide)).1, h.lists.traverse.next_head]
    rfl
  · rw [(h.crossed.head .traverse (by decide)).2, hlast]

omit [DecidableEq ν] in
theorem Beyond.prev (h : Beyond src L s t T E₁ E₂) (hv : v ∈ t :: T) (hne : v ≠ t) : ∃ w ∈ t :: T, s.list.prev (.node v) = .node w := by
  rw [(h.crossed.node v hv (h.ne hv)).2]
  exact prev_of_seg h.lists.traverse.seg.2 ((mem_cons.mp hv).resolve_left hne)

omit [DecidableEq ν] in
theorem Beyond.prev_behind (h : Beyond src L s t T E₁ E₂) (hv : v ∈ E₂) : ∃ w ∈ src :: E₂, s.list.prev (.node v) = .node w := by
  have hseg := h.crossed.edge.seg
  rw [map_append, map_cons, Links.seg_append] at hseg
  exact prev_of_seg hseg.2 hv

omit [DecidableEq ν] in
theorem Beyond.edge_last (h : Beyond src L s t T E₁ E₂) : ∃ l ∈ src :: E₂, s.list.prev edgeList = .node l := by
  have hseg := h.crossed.edge.seg
  rw [map_append, map_cons, Links.seg_append] at hseg
  exact prev_of_seg_end hseg.2

omit [DecidableEq ν] in
theorem Beyond.not_mem_edge (h : Beyond src L s t T E₁ E₂) (hv : v ∈ t :: T) : v ∉ E₁ ∧ v ≠ src ∧ v ∉ E₂ := by
  have hnot := h.crossed.apart v hv (h.ne hv)
  rw [mem_append, mem_cons, not_or, not_or] at hnot
  exact hnot

omit [DecidableEq ν] in
theorem Beyond.nodup (h : Beyond src L s t T E₁ E₂) : (E₁ ++ src :: E₂).Nodup :=
  (nodup_map_iff fun _ _ h => Loc.node.inj h).mp (nodup_cons.mp h.crossed.edge.nodup).2

/-- At a link that is `NULL` the nodes of the level are not met on the way back. -/
theorem Beyond.fails (h : Beyond src L s t T E₁ E₂) : Fails s := by
  have ht : t ∈ t :: T := mem_cons_self ..
  refine fails_of_missed (C := fun y => y = visitedList ∨ y ∈ edgeList :: (E₁ ++ src :: E₂).map Loc.node) (w := t) ?_ ?_ ?_
    ((h.crossed.marks t).mpr (.inl ht))
  · have hsrc : Loc.node src ∈ edgeList :: (E₁ ++ src :: E₂).map Loc.node := by simp
    rintro y (rfl | hy)
    · rw [h.visited]
      exact .inr hsrc
    · exact .inr (h.crossed.edge.prev_mem hy)
  · rw [h.visited]
    exact .inr (by simp)
  · rintro (heq | hmem)
    · exact nomatch heq
    · rw [mem_cons, mem_locs] at hmem
      exact h.crossed.apart t ht (h.ne ht) (hmem.resolve_left (by simp))

/-- At `dst` the way back goes wrong where there are other nodes at the edge. -/
theorem Beyond.fails_collect (h : Beyond src L s t T E₁ E₂) (hne : ¬(E₁ = [] ∧ E₂ = [])) : Fails s.collect := by
  obtain ⟨b, hb, hheads⟩ := h.heads
  obtain ⟨l, hl, hlast⟩ := h.edge_last
  have hnod := h.nodup
  have hfirst := h.crossed.edge.next_head
  cases E₁ with
  | nil =>
    -- the nodes behind the source are not met
    have hprev : ∀ y, s.collect.list.prev y = _ := fun y => hheads.collect_prev y hfirst hlast
    cases E₂ with
    | nil => exact absurd ⟨rfl, rfl⟩ hne
    | cons x E₂ =>
      have hx : x ∈ x :: E₂ := mem_cons_self ..
      refine fails_of_missed (C := fun y => y = visitedList ∨ y = .node src ∨ ∃ v ∈ t :: T, y = .node v) (w := x) ?_ ?_ ?_
        ((h.crossed.marks x).mpr (.inr (by simp)))
      · rintro y (rfl | rfl | ⟨v, hv, rfl⟩)
        · rw [hprev, if_neg (by simp), if_neg (by simp), if_neg (by simp), if_neg (by simp), if_neg (by simp), h.visited]
          exact .inr (.inl rfl)
        · rw [hprev, if_neg (by simp), if_pos rfl]
          exact .inr (.inr ⟨b, hb, rfl⟩)
        · rw [hprev, if_neg (by simp), if_neg (by simpa using h.ne hv)]
          split
          · exact .inl rfl
          next hvt =>
          rw [if_neg (by simp), if_neg (by simpa using h.ne hv)]
          exact .inr (.inr (h.prev hv fun heq => hvt (congrArg _ heq)))
      · rw [hprev, if_neg (by simp), if_neg (by simp), if_neg (by simp), if_neg (by simp), if_neg (by simp), h.visited]
        exact .inr (.inl rfl)
      · rintro (heq | heq | ⟨v, hv, heq⟩)
        · exact nomatch heq
        · obtain rfl := Loc.node.inj heq
          exact (nodup_cons.mp hnod).1 hx
        · obtain rfl := Loc.node.inj heq
          exact (h.not_mem_edge hv).2.2 hx
  | cons f E₁ =>
    -- the way back does not leave the source and the nodes behind it
    have hprev : ∀ y, s.collect.list.prev y = _ := fun y => hheads.collect_prev y hfirst hlast
    have hf : ∀ v ∈ src :: E₂, Loc.node v ≠ .node f := by
      rintro v hv heq
      obtain rfl := Loc.node.inj heq
      exact (nodup_cons.mp hnod).1 (mem_append_right E₁ hv)
    refine fails_of_endless (C := fun y => ∃ v ∈ src :: E₂, y = .node v) ?_ ?_ (by simp)
    · rintro y ⟨v, hv, rfl⟩
      have hvt : Loc.node v ≠ .node t := by
        rintro heq
        obtain rfl := Loc.node.inj heq
        have hnot := (h.not_mem_edge (mem_cons_self ..)).2
        exact (mem_cons.mp hv).elim hnot.1 hnot.2
      rw [hprev, if_neg (by simp), if_neg (hf v hv), if_neg hvt, if_neg (by simp)]
      split
      · exact ⟨l, hl, rfl⟩
      next hvs =>
        exact h.prev_behind ((mem_cons.mp hv).resolve_left fun heq => hvs (congrArg _ heq))
    · rw [hprev, if_neg (by simp), if_neg (by simp), if_neg (by simp), if_neg (by simp), if_neg (by simp), h.visited]
      exact ⟨src, mem_cons_self .., rfl⟩

/-- Where the source comes behind other nodes to the next level, the last one of these is lost. -/
theorem Beyond.lost_of_concat (h : Beyond src L s t T (E ++ [p]) E₂) : Lost s.nextLevel := by
  obtain ⟨b, hb, hheads⟩ := h.heads
  exact h.crossed.lost hheads (by simp) (.inl rfl) (.inr h.visited) hb fun v hv hne => h.prev hv hne

theorem Beyond.lost (h : Beyond src L s t T [] E₂) : Lost s.nextLevel := by
  obtain ⟨b, hb, hheads⟩ := h.heads
  obtain ⟨l, hl, hlast⟩ := h.edge_last
  have hprev : ∀ y, s.nextLevel.list.prev y = _ := fun y => hheads.nextLevel_prev y (by simp) h.crossed.edge.next_head hlast
  have ht := h.not_mem_edge (mem_cons_self ..)
  have htC : t ∉ src :: E₂ := by
    rw [mem_cons, not_or]
    exact ht.2
  refine ⟨fun y => ∀ v, y = .node v → v ∈ src :: E₂, t, fun y hy v hv => ?_, fun k v hv => absurd hv (by simp),
    fun hC => htC (hC t rfl), (h.crossed.marks t).mpr (.inl (mem_cons_self ..))⟩
  rw [hprev] at hv
  split at hv
  · exact nomatch hv
  split at hv
  · exact Loc.node.inj hv ▸ hl
  split at hv
  · exact nomatch hv
  split at hv
  · exact nomatch hv
  next hedge htrav hsrc _ =>
  cases y with
  | head k =>
    cases k with
    | traverse => exact absurd rfl htrav
    | edge => exact absurd rfl hedge
    | visited =>
      rw [h.visited] at hv
      exact Loc.node.inj hv ▸ mem_cons_self ..
  | node x =>
    have hx : x ∈ E₂ := (mem_cons.mp (hy x rfl)).resolve_left fun heq => hsrc (congrArg _ heq)
    obtain ⟨w, hw, hxw⟩ := h.prev_behind hx
    exact Loc.node.inj (hxw.symm.trans hv) ▸ hw

/-! ### A link of the source to itself -/

/-- The lists of the first level, with the source at the edge as well. -/
structure Itself (src : ν) (L : Links (Loc ν)) (s : SearchState ν) (E₁ E₂ : List ν) : Prop where
  lists : Lists L [src] E₁ []
  crossed : Crossed src L s [src] E₁ E₂

omit [DecidableEq ν] in
theorem Itself.heads (h : Itself src L s E₁ E₂) : Heads s.list visitedList src src := by
  refine ⟨?_, ?_, ?_⟩
  · rw [(h.crossed.head .visited (by decide)).1, h.lists.visited.next_head]
    rfl
  · rw [(h.crossed.head .traverse (by decide)).1, h.lists.traverse.next_head]
    rfl
  · rw [(h.crossed.head .traverse (by decide)).2, h.lists.traverse.prev_head]
    rfl

omit [DecidableEq ν] in
theorem Itself.visited (h : Itself src L s E₁ E₂) : s.list.prev visitedList = visitedList := by
  rw [(h.crossed.head .visited (by decide)).2, h.lists.visited.prev_head]
  rfl

/-- At a link that is `NULL` the source is not met on the way back. -/
theorem Itself.fails (h : Itself src L s E₁ E₂) : Fails s := by
  refine fails_of_missed (C := fun y => y = visitedList) (w := src) ?_ h.visited (by simp)
    ((h.crossed.marks src).mpr (.inl (mem_singleton_self src)))
  rintro y rfl
  exact h.visited

theorem Itself.lost (h : Itself src L s (E ++ [p]) E₂) : Lost s.nextLevel :=
  h.crossed.lost h.heads (by simp) (.inr rfl) (.inl rfl) (mem_singleton_self src) fun _ hv hne =>
    absurd (mem_singleton.mp hv) hne

theorem Itself.failsFrom (h : Itself src L s [] E₂) (hdst : src ≠ dst) (hidle : Idle links s src) :
    FailsFrom links dst rounds s.nextLevel := by
  have hseg := h.crossed.edge.seg
  obtain ⟨l, hl, hlast⟩ := prev_of_seg_end hseg.2
  have hprev : ∀ y, s.nextLevel.list.prev y = _ := fun y =>
    h.heads.nextLevel_prev y (by simp) h.crossed.edge.next_head hlast
  have hnext : ∀ y, s.nextLevel.list.next y = _ := fun y =>
    h.heads.nextLevel_next y (by simp) h.crossed.edge.next_head hlast
  refine failsFrom_of_level fun s₁ e₁ hrun => ?_
  have htrav : s.nextLevel.list.next traverseList = .node src := by
    rw [hnext, if_neg (by simp), if_neg (by simp), if_pos rfl]
  rw [htrav] at hrun
  cases rounds with
  | zero => cases hrun
  | succ rounds =>
    rw [traverseFrom, if_neg hdst, scanLinks_idle (u := src) (s := s.nextLevel) hidle, if_neg Bool.false_ne_true, hnext,
      if_neg (by simp)] at hrun
    by_cases hsl : Loc.node src = .node l
    · rw [if_pos hsl] at hrun
      obtain ⟨rfl, rfl⟩ := traverseFrom_traverseList hrun
      have hheads : Heads s.nextLevel.list (.node src) src src := by
        refine ⟨?_, htrav, ?_⟩
        · rw [hnext, if_neg (by simp), if_neg (by simp), if_neg (by simp), if_neg (by simp), if_pos rfl]
        · rw [hprev, if_neg (by simp), if_pos rfl, hsl]
      have hedge : s.nextLevel.list.next edgeList = edgeList := by
        rw [hnext, if_pos rfl]
      have hvisit : s.nextLevel.nextLevel.list = s.nextLevel.list.spliceInit traverseList visitedList := by
        rw [SearchState.nextLevel, Links.spliceInit_of_empty]
        rw [(hheads.visit_edge (by simp)).1, hedge]
      refine .inr ⟨rfl, fun _ => ?_, fun hne => absurd ?_ hne⟩
      · refine fails_of_endless (C := fun y => y = .node src) ?_ ?_ (by simp)
        · rintro y rfl
          rw [hvisit, hheads.visit_prev, if_neg (by simp), if_pos rfl]
        · rw [hvisit, hheads.visit_prev, if_neg (by simp), if_neg (by simp), if_neg (by simp), hprev, if_neg (by simp),
            if_neg (by simp), if_neg (by simp), if_pos rfl]
      · rw [hvisit, hheads.visit_next, if_pos rfl]
    · rw [if_neg hsl, if_neg (by simp), if_pos rfl] at hrun
      cases rounds with
      | zero => cases hrun
      | succ rounds => cases hrun

end GfpDrivers.Interconnect.PathFind
