import GfpDrivers.Interconnect.PathFind
import Mathlib.Data.List.Chain

/-!
The levels of the search as long as no link leads back to the source. The three lists hold the nodes of the level, those
of the next one and those of the levels before, each node is on one of them, and the marks are on for all but the
source.
-/

namespace GfpDrivers.Interconnect.PathFind

open Lib List

variable {ν : Type} {links : ν → List (Option ν)} {src dst u v w : ν} {s s' : SearchState ν} {L : Links (Loc ν)}
  {T E V new : List ν} {ls ls' : List (Option ν)} {seen seen' : Finset ν}

/-! ### The three lists -/

theorem mem_locs {l : List ν} : Loc.node v ∈ l.map Loc.node ↔ v ∈ l := by simp

theorem head_not_mem_locs {l : List ν} {h : Head} : Loc.head h ∉ l.map Loc.node := by simp

theorem locs_disjoint {l l' : List ν} {h h' : Head} (hne : h ≠ h') (hdisj : ∀ v ∈ l, v ∉ l') :
    ∀ y ∈ Loc.head h :: l.map Loc.node, y ∉ Loc.head h' :: l'.map Loc.node := by
  intro y hy hy'
  cases y with
  | head k =>
    simp only [mem_cons, Loc.head.injEq, head_not_mem_locs, or_false] at hy hy'
    exact hne (hy.symm.trans hy')
  | node v =>
    simp only [mem_cons, reduceCtorEq, mem_locs, false_or] at hy hy'
    exact hdisj v hy hy'

/-- The lists of a search. -/
structure Lists (L : Links (Loc ν)) (T E V : List ν) : Prop where
  traverse : L.IsList traverseList (T.map .node)
  edge : L.IsList edgeList (E.map .node)
  visited : L.IsList visitedList (V.map .node)
  traverse_edge : ∀ v ∈ T, v ∉ E
  traverse_visited : ∀ v ∈ T, v ∉ V
  edge_visited : ∀ v ∈ E, v ∉ V

variable [DecidableEq ν]

theorem Lists.addTail (h : Lists L T E V) (hT : w ∉ T) (hE : w ∉ E) (hV : w ∉ V) :
    Lists (L.addTail (.node w) edgeList) T (E ++ [w]) V := by
  have hw : Loc.node w ∉ edgeList :: E.map Loc.node := by simpa using hE
  have hother : ∀ (k : Head) (l : List ν), k ≠ .edge → (∀ v ∈ l, v ∉ E) → w ∉ l → L.IsList (.head k) (l.map .node) →
      (L.addTail (.node w) edgeList).IsList (.head k) (l.map .node) := by
    intro k l hk hdisj hwl hl
    have hframe : ∀ y ∈ Loc.head k :: l.map Loc.node, y ∉ edgeList :: E.map Loc.node ∧ y ≠ .node w := by
      refine fun y hy => ⟨locs_disjoint hk hdisj y hy, ?_⟩
      rintro rfl
      simp [hwl] at hy
    exact hl.congr (fun y hy => (h.edge.addTail_frame (hframe y hy).1 (hframe y hy).2).1)
      fun y hy => (h.edge.addTail_frame (hframe y hy).1 (hframe y hy).2).2
  refine ⟨hother _ T (by decide) h.traverse_edge hT h.traverse, ?_,
    hother _ V (by decide) (fun v hv hvE => h.edge_visited v hvE hv) hV h.visited, ?_, h.traverse_visited, ?_⟩
  · have hadd := h.edge.addTail hw
    rwa [map_append, map_singleton]
  · intro v hv hvE
    rw [mem_append, mem_singleton] at hvE
    exact hvE.elim (h.traverse_edge v hv) fun hvw => hT (hvw ▸ hv)
  · intro v hv hvV
    rw [mem_append, mem_singleton] at hv
    exact hv.elim (fun hvE => h.edge_visited v hvE hvV) fun hvw => hV (hvw ▸ hvV)

/-- The end of a level: its nodes are visited, and the next level is the edge. -/
theorem Lists.nextLevel (h : Lists L T E V) :
    Lists ((L.spliceInit traverseList visitedList).spliceInit edgeList traverseList) E [] (T ++ V) := by
  obtain ⟨htrav, hvis⟩ := h.traverse.spliceInit h.visited (locs_disjoint (by decide) h.traverse_visited)
  rw [← map_append] at hvis
  have hedge := h.traverse.spliceInit_other h.visited h.edge
    (locs_disjoint (by decide) fun v hv hvT => h.traverse_edge v hvT hv) (locs_disjoint (by decide) h.edge_visited)
  have hempty : ∀ v ∈ E, v ∉ ([] : List ν) := fun _ _ => not_mem_nil
  have hEV : ∀ v ∈ E, v ∉ T ++ V := fun v hv hvTV =>
    (mem_append.mp hvTV).elim (fun hvT => h.traverse_edge v hvT hv) (h.edge_visited v hv)
  obtain ⟨hedge', htrav'⟩ := hedge.spliceInit htrav (locs_disjoint (by decide) hempty)
  rw [append_nil] at htrav'
  have hempty' : ∀ v ∈ T ++ V, v ∉ ([] : List ν) := fun _ _ => not_mem_nil
  have hvis' := hedge.spliceInit_other htrav hvis (locs_disjoint (by decide) fun v hv hvE => hEV v hvE hv)
    (locs_disjoint (by decide) hempty')
  exact ⟨htrav', hedge', hvis', hempty, hEV, fun v hv => absurd hv not_mem_nil⟩

theorem Lists.collect (h : Lists L T E V) :
    ((L.spliceInit edgeList visitedList).spliceInit traverseList visitedList).IsList visitedList
      ((T ++ (E ++ V)).map .node) := by
  obtain ⟨-, hvis⟩ := h.edge.spliceInit h.visited (locs_disjoint (by decide) h.edge_visited)
  rw [← map_append] at hvis
  have htrav := h.edge.spliceInit_other h.visited h.traverse (locs_disjoint (by decide) h.traverse_edge)
    (locs_disjoint (by decide) h.traverse_visited)
  have hTEV : ∀ v ∈ T, v ∉ E ++ V := fun v hv hvEV =>
    (mem_append.mp hvEV).elim (h.traverse_edge v hv) (h.traverse_visited v hv)
  have hall := (htrav.spliceInit hvis (locs_disjoint (by decide) hTEV)).2
  rwa [← map_append] at hall

/-! ### New nodes -/

theorem mem_discover : v ∈ discover seen ls ↔ some v ∈ ls ∧ v ∉ seen := by
  induction ls generalizing seen with
  | nil => simp [discover_nil]
  | cons l ls ih =>
    cases l with
    | none => simp [discover_none, ih]
    | some w =>
      rw [discover_some]
      split
      next hw =>
        rw [ih, mem_cons, Option.some.injEq]
        refine and_congr_left fun hv => ⟨.inr, fun h => h.resolve_left ?_⟩
        rintro rfl
        exact hv hw
      next hw =>
        rw [mem_cons, ih, mem_cons, Option.some.injEq, Finset.mem_insert, not_or]
        constructor
        · rintro (rfl | ⟨hmem, hne, hseen⟩)
          · exact ⟨.inl rfl, hw⟩
          · exact ⟨.inr hmem, hseen⟩
        · rintro ⟨rfl | hmem, hseen⟩
          · exact .inl rfl
          · by_cases hvw : v = w
            · exact .inl hvw
            · exact .inr ⟨hmem, hvw, hseen⟩

theorem nodup_discover : (discover seen ls).Nodup := by
  induction ls generalizing seen with
  | nil => exact nodup_nil
  | cons l ls ih =>
    cases l with
    | none => exact ih
    | some w =>
      rw [discover_some]
      split
      · exact ih
      · refine nodup_cons.mpr ⟨fun hw => ?_, ih⟩
        exact (mem_discover.mp hw).2 (Finset.mem_insert_self w seen)

theorem discover_append :
    discover seen (ls ++ ls') = discover seen ls ++ discover (seen ∪ (discover seen ls).toFinset) ls' := by
  induction ls generalizing seen with
  | nil => simp [discover_nil]
  | cons l ls ih =>
    cases l with
    | none => exact ih
    | some w =>
      rw [cons_append, discover, discover]
      split
      · exact ih
      · rw [ih, cons_append, toFinset_cons, Finset.insert_union, ← Finset.union_insert]

theorem discover_congr (h : ∀ v, some v ∈ ls → (v ∈ seen ↔ v ∈ seen')) : discover seen ls = discover seen' ls := by
  induction ls generalizing seen seen' with
  | nil => rfl
  | cons l ls ih =>
    cases l with
    | none => exact ih fun v hv => h v (mem_cons_of_mem _ hv)
    | some w =>
      have hw := h w (mem_cons_self ..)
      rw [discover_some, discover_some]
      by_cases hmem : w ∈ seen
      · rw [if_pos hmem, if_pos (hw.mp hmem)]
        exact ih fun v hv => h v (mem_cons_of_mem _ hv)
      · rw [if_neg hmem, if_neg fun h' => hmem (hw.mpr h')]
        refine congrArg _ (ih fun v hv => ?_)
        rw [Finset.mem_insert, Finset.mem_insert, h v (mem_cons_of_mem _ hv)]

/-- Several nodes are reached from `u`. -/
def addEdges (u : ν) (new : List ν) (s : SearchState ν) : SearchState ν := new.foldl (fun s w => s.addEdge u w) s

theorem addEdges_isTraversed : (addEdges u new s).isTraversed v = true ↔ s.isTraversed v = true ∨ v ∈ new := by
  induction new generalizing s with
  | nil => simp [addEdges]
  | cons w new ih =>
    rw [addEdges, foldl_cons, ← addEdges, ih, SearchState.addEdge_isTraversed, mem_cons]
    split
    next h => simp [h]
    next h => simp [h]

theorem addEdges_reverse : (addEdges u new s).reverse v = if v ∈ new then some u else s.reverse v := by
  induction new generalizing s with
  | nil => rfl
  | cons w new ih =>
    rw [addEdges, foldl_cons, ← addEdges, ih, SearchState.addEdge_reverse]
    by_cases hnew : v ∈ new
    · rw [if_pos hnew, if_pos (mem_cons_of_mem w hnew)]
    · rw [if_neg hnew]
      by_cases hvw : v = w
      · rw [if_pos hvw, if_pos (hvw ▸ mem_cons_self ..)]
      · rw [if_neg hvw, if_neg (not_mem_cons_of_ne_of_not_mem hvw hnew)]

theorem Lists.addEdges (h : Lists s.list T E V) (hnod : new.Nodup) (hfresh : ∀ w ∈ new, w ∉ T ∧ w ∉ E ∧ w ∉ V) :
    Lists (addEdges u new s).list T (E ++ new) V := by
  induction new generalizing s E with
  | nil => rwa [append_nil]
  | cons w new ih =>
    obtain ⟨hT, hE, hV⟩ := hfresh w (mem_cons_self ..)
    rw [nodup_cons] at hnod
    rw [append_cons]
    refine ih (s := s.addEdge u w) (h.addTail hT hE hV) hnod.2 fun v hv => ?_
    obtain ⟨hT', hE', hV'⟩ := hfresh v (mem_cons_of_mem w hv)
    refine ⟨hT', fun hvE => ?_, hV'⟩
    rw [mem_append, mem_singleton] at hvE
    exact hvE.elim hE' fun hvw => hnod.1 (hvw ▸ hv)

/-- The links of a node up to one that is `NULL`. -/
theorem scanLinks_eq (hseen : ∀ v, s.isTraversed v = true ↔ v ∈ seen) (hls : none ∉ ls) :
    scanLinks u (ls ++ ls') s = scanLinks u ls' (addEdges u (discover seen ls) s) := by
  induction ls generalizing s seen with
  | nil => rfl
  | cons l ls ih =>
    rw [mem_cons, not_or] at hls
    cases l with
    | none => exact absurd rfl hls.1
    | some w =>
      rw [cons_append, scanLinks, discover]
      by_cases hw : s.isTraversed w = true
      · rw [if_pos hw, if_pos ((hseen w).mp hw)]
        exact ih hseen hls.2
      · rw [if_neg hw, if_neg fun h => hw ((hseen w).mpr h), addEdges, foldl_cons, ← addEdges]
        refine ih (fun v => ?_) hls.2
        rw [SearchState.addEdge_isTraversed, Finset.mem_insert, ← hseen]
        split
        next h => simp [h]
        next h => simp [h]

/-! ### A level -/

/-- In a level: `seen` is what was met, of which all but the source are marked. -/
structure Mid (src : ν) (s : SearchState ν) (T E V : List ν) (seen : Finset ν) : Prop where
  lists : Lists s.list T E V
  src_mem : src ∈ seen
  marks : ∀ v, s.isTraversed v = true ↔ v ∈ seen.erase src
  seen : ∀ v, v ∈ seen ↔ v ∈ T ∨ v ∈ E ∨ v ∈ V

/-- What is not linked back to the source is new if it was not met. -/
theorem discover_erase (hsrc : some src ∉ ls) : discover (seen.erase src) ls = discover seen ls := by
  refine discover_congr fun v hv => Finset.mem_erase.trans (and_iff_right ?_)
  rintro rfl
  exact hsrc hv

theorem Mid.add_new (h : Mid src s T E V seen) (u : ν) (ls : List (Option ν)) :
    Mid src (addEdges u (discover seen ls) s) T (E ++ discover seen ls) V (seen ∪ (discover seen ls).toFinset) := by
  refine ⟨h.lists.addEdges nodup_discover fun w hw => ?_, Finset.mem_union_left _ h.src_mem, fun v => ?_, fun v => ?_⟩
  · have hnot := (mem_discover.mp hw).2
    rw [h.seen, not_or, not_or] at hnot
    exact hnot
  · rw [addEdges_isTraversed, h.marks, Finset.mem_erase, Finset.mem_erase, Finset.mem_union, mem_toFinset]
    have hne : v ∈ discover seen ls → v ≠ src := by
      rintro hv rfl
      exact (mem_discover.mp hv).2 h.src_mem
    tauto
  · rw [Finset.mem_union, h.seen, mem_toFinset, mem_append]
    tauto

theorem Mid.traverse_node {T₁ T₂ : List ν} (h : Mid src s (T₁ ++ u :: T₂) E V seen) (fuel : ℕ) (hdst : u ≠ dst)
    (hnull : none ∉ links u) (hsrc : some src ∉ links u) :
    traverseFrom links dst (fuel + 1) (.node u) s =
      traverseFrom links dst fuel ((T₂.map .node).headD traverseList) (addEdges u (discover seen (links u)) s) := by
  have hscan : scanLinks u (links u) s = (addEdges u (discover seen (links u)) s, false) := by
    have heq : scanLinks u (links u ++ []) s = _ := scanLinks_eq h.marks hnull
    rwa [append_nil, discover_erase hsrc] at heq
  have hlist := h.lists.traverse
  rw [map_append, map_cons] at hlist
  rw [traverseFrom, if_neg hdst, hscan, if_neg Bool.false_ne_true, hlist.next_eq]

theorem Mid.traverse_nodes {T₁ T₂ T₃ : List ν} (h : Mid src s (T₁ ++ (T₂ ++ T₃)) E V seen) (dst : ν) (fuel : ℕ)
    (hplain : ∀ u ∈ T₂, u ≠ dst ∧ none ∉ links u ∧ some src ∉ links u) :
    ∃ s', traverseFrom links dst (T₂.length + fuel) (((T₂ ++ T₃).map .node).headD traverseList) s =
        traverseFrom links dst fuel ((T₃.map .node).headD traverseList) s' ∧
      Mid src s' (T₁ ++ (T₂ ++ T₃)) (E ++ discover seen (T₂.flatMap links)) V
        (seen ∪ (discover seen (T₂.flatMap links)).toFinset) ∧
      (∀ v ∈ discover seen (T₂.flatMap links), ∃ u ∈ T₂, s'.reverse v = some u ∧ some v ∈ links u) ∧
      ∀ v ∈ seen, s'.reverse v = s.reverse v := by
  induction T₂ generalizing T₁ s E seen with
  | nil =>
    refine ⟨s, by simp, ?_, fun v hv => absurd hv not_mem_nil, fun v _ => rfl⟩
    simpa [discover_some, discover_nil] using h
  | cons u T₂ ih =>
    obtain ⟨hdst, hnull, hsrc⟩ := hplain u (mem_cons_self ..)
    have hnode := h.traverse_node (T₂.length + fuel) hdst hnull hsrc
    have hmid := h.add_new u (links u)
    rw [cons_append, append_cons] at hmid
    obtain ⟨s', hrun, hmid', hparent, hkeep⟩ := ih hmid fun v hv => hplain v (mem_cons_of_mem u hv)
    rw [flatMap_cons, discover_append]
    refine ⟨s', ?_, ?_, ?_, ?_⟩
    · rw [length_cons, Nat.add_right_comm]
      exact hnode.trans hrun
    · rw [append_assoc] at hmid'
      rw [toFinset_append, ← Finset.union_assoc, ← append_assoc E]
      exact hmid'
    · intro v hv
      rw [mem_append] at hv
      obtain hv | hv := hv
      · refine ⟨u, mem_cons_self .., ?_, (mem_discover.mp hv).1⟩
        rw [hkeep v (Finset.mem_union_right _ (mem_toFinset.mpr hv)), addEdges_reverse, if_pos hv]
      · obtain ⟨w, hw, hrev, hlink⟩ := hparent v hv
        exact ⟨w, mem_cons_of_mem u hw, hrev, hlink⟩
    · intro v hv
      rw [hkeep v (Finset.mem_union_left _ hv), addEdges_reverse, if_neg fun h' => (mem_discover.mp h').2 hv]

/-! ### Distances -/

/-- There are `n` links from the source to `v`. -/
def Hops (links : ν → List (Option ν)) (src : ν) : ℕ → ν → Prop
  | 0, v => v = src
  | n + 1, v => ∃ u, Hops links src n u ∧ some v ∈ links u

/-- `v` is at distance `n`. -/
def At (links : ν → List (Option ν)) (src : ν) (n : ℕ) (v : ν) : Prop := Hops links src n v ∧ ∀ m < n, ¬Hops links src m v

variable {d m n : ℕ}

omit [DecidableEq ν] in
/-- The node before one at distance `d + 1` is at distance `d`. -/
theorem At.pred (h : At links src (d + 1) v) : ∃ u, At links src d u ∧ some v ∈ links u := by
  obtain ⟨⟨u, hu, hlink⟩, hmin⟩ := h
  exact ⟨u, ⟨hu, fun m hm hum => hmin (m + 1) (Nat.succ_lt_succ hm) ⟨u, hum, hlink⟩⟩, hlink⟩

omit [DecidableEq ν] in
/-- Where a distance is not reached, nothing is further away. -/
theorem hops_le (hnone : ∀ v, ¬At links src (d + 1) v) (h : Hops links src m v) : ∃ k ≤ d, Hops links src k v := by
  induction m generalizing v with
  | zero => exact ⟨0, Nat.zero_le _, h⟩
  | succ m ih =>
    obtain ⟨u, hu, hlink⟩ := h
    obtain ⟨k, hk, huk⟩ := ih hu
    by_contra hfar
    push Not at hfar
    obtain hlt | rfl := Nat.lt_or_eq_of_le hk
    · exact hfar (k + 1) hlt ⟨u, huk, hlink⟩
    · exact hnone v ⟨⟨u, huk, hlink⟩, fun m hm => hfar m (Nat.le_of_lt_succ hm)⟩

omit [DecidableEq ν] in
theorem hops_of_chain {path : List ν} (hchain : path.IsChain fun u v => some v ∈ links u) (hhead : path.head? = some u)
    (hlast : path.getLast? = some v) (hu : Hops links src n u) : Hops links src (n + path.length - 1) v := by
  induction path generalizing u n with
  | nil => exact nomatch hhead
  | cons w path ih =>
    obtain rfl : w = u := Option.some.inj hhead
    cases path with
    | nil =>
      obtain rfl : w = v := Option.some.inj hlast
      exact hu
    | cons x path =>
      obtain ⟨hlink, hchain⟩ := isChain_cons_cons.mp hchain
      have htail := ih (n := n + 1) hchain rfl (by rwa [List.getLast?_cons_cons] at hlast) ⟨w, hu, hlink⟩
      rwa [Nat.add_right_comm] at htail

omit [DecidableEq ν] in
theorem IsPath.hops {path : List ν} (h : IsPath links src dst path) : Hops links src (path.length - 1) dst := by
  have hhops := hops_of_chain (n := 0) h.chain h.head h.last rfl
  rwa [Nat.zero_add] at hhops

omit [DecidableEq ν] in
theorem isShortest {path : List ν} (hat : At links src d dst) (hlen : path.length = d + 1) (hpath : IsPath links src dst path) :
    IsShortest links src dst path := by
  refine ⟨hpath, fun path' hpath' => ?_⟩
  have hge := Nat.le_of_not_lt fun hlt => hat.2 _ hlt hpath'.hops
  have hpos : 0 < path'.length := length_pos_of_mem (mem_of_mem_head? hpath'.head)
  omega

/-- The predecessors that are stored lead back level by level. -/
def Tree (links : ν → List (Option ν)) (src : ν) (reverse : ν → Option ν) (d : ℕ) : Prop :=
  ∀ m < d, ∀ v, At links src (m + 1) v → ∃ u, reverse v = some u ∧ At links src m u ∧ some v ∈ links u

omit [DecidableEq ν] in
theorem Tree.pathNodes {reverse : ν → Option ν} (h : Tree links src reverse d) (hv : At links src d v) (acc : List ν) :
    ∃ path, pathNodes reverse (d + 1) (some v) acc = some (path ++ acc) ∧ path.length = d + 1 ∧ IsPath links src v path := by
  induction d generalizing v acc with
  | zero =>
    obtain rfl : v = src := hv.1
    exact ⟨[v], rfl, rfl, rfl, rfl, isChain_singleton v⟩
  | succ d ih =>
    obtain ⟨u, hrev, hu, hlink⟩ := h d (Nat.lt_succ_self d) v hv
    obtain ⟨path, hrun, hlen, hpath⟩ := ih (fun m hm => h m (Nat.lt_succ_of_lt hm)) hu (v :: acc)
    refine ⟨path ++ [v], ?_, ?_, ?_, ?_, ?_⟩
    · rw [PathFind.pathNodes, hrev, hrun, append_assoc, singleton_append]
    · rw [length_append, hlen, length_singleton]
    · rw [List.head?_append, hpath.head, Option.some_or]
    · rw [List.getLast?_append, List.getLast?_singleton, Option.some_or]
    · refine isChain_append.mpr ⟨hpath.chain, isChain_singleton v, ?_⟩
      intro x hx y hy
      obtain rfl : v = y := Option.some.inj hy
      obtain rfl : u = x := Option.some.inj (hpath.last.symm.trans hx)
      exact hlink

/-! ### The levels -/

/-- At the start of the level with distance `d`. -/
structure Level (links : ν → List (Option ν)) (src : ν) (d : ℕ) (s : SearchState ν) (T V : List ν) (seen : Finset ν) : Prop where
  mid : Mid src s T [] V seen
  level : ∀ v, v ∈ T ↔ At links src d v
  reached : ∀ v, v ∈ seen ↔ ∃ m ≤ d, Hops links src m v
  tree : Tree links src s.reverse d
  nodup : T.Nodup

theorem Level.mem_next (h : Level links src d s T V seen) :
    v ∈ discover seen (T.flatMap links) ↔ At links src (d + 1) v := by
  rw [mem_discover, mem_flatMap, h.reached]
  constructor
  · rintro ⟨⟨u, hu, hlink⟩, hnot⟩
    exact ⟨⟨u, ((h.level u).mp hu).1, hlink⟩, fun m hm hmv => hnot ⟨m, Nat.le_of_lt_succ hm, hmv⟩⟩
  · intro hv
    obtain ⟨u, hu, hlink⟩ := hv.pred
    exact ⟨⟨u, (h.level u).mpr hu, hlink⟩, fun ⟨m, hm, hmv⟩ => hv.2 m (Nat.lt_succ_of_le hm) hmv⟩

/-- A level whose links are in order, and from which the search goes on. -/
theorem Level.step (h : Level links src d s T V seen) (fuel : ℕ)
    (hplain : ∀ u ∈ T, u ≠ dst ∧ none ∉ links u ∧ some src ∉ links u) :
    ∃ s', traverseFrom links dst (T.length + (fuel + 1)) (s.list.next traverseList) s = some (s', .done) ∧
      Level links src (d + 1) s'.nextLevel (discover seen (T.flatMap links)) (T ++ V)
        (seen ∪ (discover seen (T.flatMap links)).toFinset) := by
  have hmid₀ : Mid src s ([] ++ (T ++ [])) [] V seen := by simpa using h.mid
  obtain ⟨s', hrun, hmid, hparent, hkeep⟩ := hmid₀.traverse_nodes dst (fuel + 1) hplain
  rw [append_nil] at hrun
  rw [append_nil, nil_append, nil_append] at hmid
  refine ⟨s', ?_, ⟨hmid.lists.nextLevel, hmid.src_mem, hmid.marks, fun v => ?_⟩, fun v => h.mem_next, fun v => ?_, ?_,
    nodup_discover⟩
  · rw [h.mid.lists.traverse.next_head, hrun]
    rfl
  · rw [hmid.seen, mem_append]
    simp only [not_mem_nil, false_or]
    tauto
  · rw [Finset.mem_union, mem_toFinset, h.mem_next, h.reached]
    constructor
    · rintro (⟨m, hm, hmv⟩ | hv)
      · exact ⟨m, Nat.le_succ_of_le hm, hmv⟩
      · exact ⟨d + 1, Nat.le_refl _, hv.1⟩
    · rintro ⟨m, hm, hmv⟩
      by_cases hnear : ∃ k ≤ d, Hops links src k v
      · exact .inl hnear
      · push Not at hnear
        obtain rfl : m = d + 1 := by
          by_contra hne
          exact hnear m (by omega) hmv
        exact .inr ⟨hmv, fun k hk => hnear k (Nat.le_of_lt_succ hk)⟩
  · intro m hm v hv
    obtain hlt | rfl := Nat.lt_or_eq_of_le (Nat.le_of_lt_succ hm)
    · obtain ⟨u, hrev, hu⟩ := h.tree m hlt v hv
      exact ⟨u, (hkeep v ((h.reached v).mpr ⟨m + 1, hlt, hv.1⟩)).trans hrev, hu⟩
    · obtain ⟨u, hu, hrev, hlink⟩ := hparent v (h.mem_next.mpr hv)
      exact ⟨u, hrev, (h.level u).mp hu, hlink⟩

/-! ### The end of the search -/

/-- Every node that is marked is met on the way back through the visited nodes. -/
def AllVisited (s : SearchState ν) : Prop :=
  ∃ V : List ν, V.Nodup ∧ s.list.Back visitedList (V.map .node) visitedList ∧ ∀ v, s.isTraversed v = true → v ∈ V

omit [DecidableEq ν] in
theorem allVisited_of_isList (h : s.list.IsList visitedList (V.map .node)) (hall : ∀ v, s.isTraversed v = true → v ∈ V) :
    AllVisited s :=
  ⟨V, (nodup_map_iff fun _ _ h => Loc.node.inj h).mp (nodup_cons.mp h.nodup).2, h.seg.back, hall⟩

/-- At `dst` all nodes that were met are collected. -/
theorem Mid.allVisited_collect (h : Mid src s T E V seen) : AllVisited s.collect := by
  refine allVisited_of_isList h.lists.collect fun v hv => ?_
  rw [mem_append, mem_append, ← h.seen]
  exact Finset.mem_of_mem_erase ((h.marks v).mp hv)

theorem Mid.allVisited (h : Mid src s [] [] V seen) : AllVisited s := by
  refine allVisited_of_isList h.lists.visited fun v hv => ?_
  have hseen := (h.seen v).mp (Finset.mem_of_mem_erase ((h.marks v).mp hv))
  simpa using hseen

theorem resetFrom_append {fuel : ℕ} {V₁ V₂ : List ν} (h : s.list.Back visitedList ((V₁ ++ V₂).map .node) visitedList)
    (hfuel : V₁.length < fuel) :
    ∃ s', resetFrom fuel ((V₁.map .node).getLastD visitedList) s = some s' ∧ s'.reverse = s.reverse ∧
      ∀ v, s'.isTraversed v = true ↔ s.isTraversed v = true ∧ v ∉ V₁ := by
  induction fuel generalizing V₁ V₂ s with
  | zero => omega
  | succ fuel ih =>
    obtain rfl | ⟨V, v, rfl⟩ := eq_nil_or_concat V₁
    · exact ⟨s, rfl, rfl, fun v => by simp⟩
    · rw [concat_eq_append] at h hfuel ⊢
      rw [append_assoc, singleton_append] at h
      have hprev := h
      rw [map_append, map_cons] at hprev
      rw [map_append, map_singleton, getLastD_concat, resetFrom, (Links.back_append.mp hprev).1.prev_eq]
      have hback : (s.unmark v).list.Back visitedList ((V ++ v :: V₂).map .node) visitedList := h
      obtain ⟨s', hrun, hrev, hmarks⟩ := ih hback (by simpa using hfuel)
      refine ⟨s', hrun, hrev, fun w => ?_⟩
      rw [hmarks, SearchState.unmark_isTraversed, mem_append, mem_singleton]
      split
      next hw => simp [hw]
      next hw => simp [hw]

/-- After a search that has collected its nodes all marks are off. -/
theorem AllVisited.reset [Fintype ν] {fuel : ℕ} (h : AllVisited s) (hfuel : Fintype.card ν < fuel) :
    ∃ s', resetFrom fuel (s.list.prev visitedList) s = some s' ∧ s'.reverse = s.reverse ∧ ∀ v, s'.isTraversed v = false := by
  obtain ⟨V, hnod, hV, hall⟩ := h
  have hlen : V.length < fuel := Nat.lt_of_le_of_lt hnod.length_le_card hfuel
  have hV' : s.list.Back visitedList ((V ++ []).map .node) visitedList := by simpa using hV
  obtain ⟨s', hrun, hrev, hmarks⟩ := resetFrom_append hV' hlen
  rw [← hV.prev_eq] at hrun
  refine ⟨s', hrun, hrev, fun v => ?_⟩
  rw [← Bool.not_eq_true, hmarks]
  exact fun ⟨hv, hnot⟩ => hnot (hall v hv)

/-- How a search ends in which no link is in the way. -/
inductive Ended (links : ν → List (Option ν)) (src dst : ν) (s : SearchState ν) : Exit → ℕ → Prop
  | found (d : ℕ) (h : At links src d dst) (htree : Tree links src s.reverse d) : Ended links src dst s .found (d + 1)
  | done (depth : ℕ) (h : ∀ m, ¬Hops links src m dst) : Ended links src dst s .done depth

/-- A level without `dst` is looked at as a whole. -/
theorem takeWhile_levels (rest : List ν) (hnot : dst ∉ T) :
    (T ++ rest).takeWhile (· ≠ dst) = T ++ rest.takeWhile (· ≠ dst) := by
  refine takeWhile_append_of_pos fun u hu => decide_eq_true ?_
  rintro rfl
  exact hnot hu

/-- Else only the nodes before `dst`. -/
theorem takeWhile_level {T₁ : List ν} (T₂ rest : List ν) (hnot : dst ∉ T₁) : (T₁ ++ dst :: T₂ ++ rest).takeWhile (· ≠ dst) = T₁ := by
  rw [append_assoc, takeWhile_levels _ hnot, cons_append, takeWhile_cons_of_neg (by simp), append_nil]

theorem searchLevels_exit {rounds fuel depth : ℕ} {e : Exit}
    (hrun : traverseFrom links dst rounds (s.list.next traverseList) s = some (s', e)) (he : e ≠ .done) :
    searchLevels links dst rounds (fuel + 1) depth s = some (s', e, depth) := by
  rw [searchLevels, hrun, Option.bind_some, if_pos he]

/-- A level behind which there is another one or none. -/
theorem searchLevels_done {rounds fuel depth : ℕ}
    (hrun : traverseFrom links dst rounds (s.list.next traverseList) s = some (s', .done)) :
    searchLevels links dst rounds (fuel + 1) depth s =
      if s'.nextLevel.list.next traverseList = traverseList then some (s'.nextLevel, .done, depth + 1)
      else searchLevels links dst rounds fuel (depth + 1) s'.nextLevel := by
  rw [searchLevels, hrun, Option.bind_some, if_neg (not_not.mpr rfl), Links.isEmpty]
  simp only [decide_eq_true_eq]

/-- The search from a level on, if the links that are looked at are in order. -/
theorem Level.search [Fintype ν] {rounds fuel : ℕ} (h : Level links src d s T V seen) (hT : T ≠ [])
    (hV : ∀ m < d, ¬Hops links src m dst)
    (hplain : ∀ u ∈ (levelsFrom links n seen T).takeWhile (· ≠ dst), none ∉ links u ∧ some src ∉ links u)
    (hcard : Fintype.card ν < n + seen.card) (hrounds : Fintype.card ν < rounds) (hfuel : n ≤ fuel) :
    ∃ s' e depth, searchLevels links dst rounds fuel (d + 1) s = some (s', e, depth) ∧ AllVisited s' ∧
      Ended links src dst s' e depth := by
  induction n generalizing d s T V seen fuel with
  | zero =>
    have := seen.card_le_univ
    omega
  | succ n ih =>
    obtain ⟨fuel, rfl⟩ : ∃ k, fuel = k + 1 := ⟨fuel - 1, by omega⟩
    have hlen : T.length ≤ Fintype.card ν := h.nodup.length_le_card
    obtain ⟨k, rfl⟩ : ∃ k, rounds = T.length + (k + 1) := ⟨rounds - T.length - 1, by omega⟩
    rw [levelsFrom] at hplain
    by_cases hdst : dst ∈ T
    · obtain ⟨T₁, T₂, rfl, hnot⟩ := eq_append_cons_of_mem hdst
      rw [takeWhile_level _ _ hnot] at hplain
      have hmid₀ : Mid src s ([] ++ (T₁ ++ dst :: T₂)) [] V seen := h.mid
      obtain ⟨s', hrun, hmid, -, hkeep⟩ := hmid₀.traverse_nodes dst (T₂.length + k + 2)
        fun u hu => ⟨fun hud => hnot (hud ▸ hu), hplain u hu⟩
      refine ⟨s'.collect, .found, d + 1, ?_, hmid.allVisited_collect, .found d ((h.level dst).mp hdst) ?_⟩
      · refine searchLevels_exit ?_ (by decide)
        rw [h.mid.lists.traverse.next_head, show (T₁ ++ dst :: T₂).length + (k + 1) = T₁.length + (T₂.length + k + 2) by
          simp only [length_append, length_cons]
          omega, hrun, map_cons, headD_cons, traverseFrom, if_pos rfl]
      · intro m hm v hv
        obtain ⟨u, hrev, hu⟩ := h.tree m hm v hv
        exact ⟨u, (hkeep v ((h.reached v).mpr ⟨m + 1, hm, hv.1⟩)).trans hrev, hu⟩
    · rw [takeWhile_levels _ hdst] at hplain
      have hlevel : ∀ u ∈ T, u ≠ dst ∧ none ∉ links u ∧ some src ∉ links u := fun u hu =>
        ⟨fun hud => hdst (hud ▸ hu), hplain u (mem_append_left _ hu)⟩
      obtain ⟨s', hrun, hnext⟩ := h.step k hlevel
      have hempty := hnext.mid.lists.traverse.next_head
      have hnot : ¬At links src d dst := fun hat => hdst ((h.level dst).mpr hat)
      rw [searchLevels_done hrun]
      generalize hnew : discover seen (T.flatMap links) = new at hnext hplain hempty
      cases new with
      | nil =>
        rw [if_pos (show s'.nextLevel.list.next traverseList = traverseList from hempty)]
        refine ⟨s'.nextLevel, .done, d + 2, rfl, hnext.mid.allVisited, .done _ fun m hm => ?_⟩
        have hnone : ∀ v, ¬At links src (d + 1) v := fun v hv => not_mem_nil ((hnext.level v).mpr hv)
        obtain ⟨k, hk, hkdst⟩ := hops_le hnone hm
        obtain hlt | rfl := Nat.lt_or_eq_of_le hk
        · exact hV k hlt hkdst
        · exact hnot ⟨hkdst, hV⟩
      | cons w new =>
        rw [if_neg (by rw [hempty]; simp)]
        refine ih hnext (cons_ne_nil w new) (fun m hm hmdst => ?_)
          (fun u hu => hplain u (mem_append_right _ hu)) ?_ (by omega)
        · obtain hlt | rfl := Nat.lt_or_eq_of_le (Nat.le_of_lt_succ hm)
          · exact hV m hlt hmdst
          · exact hnot ⟨hmdst, hV⟩
        · have hw : w ∉ seen := (mem_discover.mp (hnew ▸ mem_cons_self ..)).2
          have hcard' := Finset.card_lt_card (Finset.ssubset_iff_of_subset Finset.subset_union_left |>.mpr
            ⟨w, Finset.mem_union_right seen (mem_toFinset.mpr (mem_cons_self ..)), hw⟩ :
              seen ⊂ seen ∪ (w :: new).toFinset)
          omega

/-! ### The start -/

theorem lists_start (s : SearchState ν) (src : ν) : Lists (s.start src).list [src] [] [] := by
  have htrav : (s.list.init traverseList).IsList traverseList ([] : List (Loc ν)) := Links.isList_init _ _
  have hedge : ((s.list.init traverseList).init edgeList).IsList edgeList ([] : List (Loc ν)) := Links.isList_init _ _
  have htrav' := (htrav.init (x := edgeList) (by simp)).init (x := visitedList) (by simp)
  have hedge' := hedge.init (x := visitedList) (by simp)
  have hvis' := Links.isList_init ((s.list.init traverseList).init edgeList) visitedList
  have hframe : ∀ k : Head, k ≠ .traverse → ∀ y ∈ [Loc.head k], y ∉ [(traverseList : Loc ν)] ∧ y ≠ .node src := by
    intro k hk y hy
    obtain rfl := mem_singleton.mp hy
    exact ⟨by simpa using hk, by simp⟩
  refine ⟨htrav'.add_of_empty (by simp), ?_, ?_, by simp, by simp, by simp⟩
  · exact hedge'.congr (fun y hy => (htrav'.add_frame (hframe _ (by decide) y hy).1 (hframe _ (by decide) y hy).2).1)
      fun y hy => (htrav'.add_frame (hframe _ (by decide) y hy).1 (hframe _ (by decide) y hy).2).2
  · exact hvis'.congr (fun y hy => (htrav'.add_frame (hframe _ (by decide) y hy).1 (hframe _ (by decide) y hy).2).1)
      fun y hy => (htrav'.add_frame (hframe _ (by decide) y hy).1 (hframe _ (by decide) y hy).2).2

theorem level_start (links : ν → List (Option ν)) (src : ν) (hmarks : ∀ v, s.isTraversed v = false) :
    Level links src 0 (s.start src) [src] [] {src} where
  mid := {
    lists := lists_start s src
    src_mem := Finset.mem_singleton_self src
    marks := fun v => by simp [SearchState.start, hmarks v]
    seen := fun v => by simp }
  level v := by simp [At, Hops]
  reached v := by simp [Hops]
  tree m hm := absurd hm (Nat.not_lt_zero m)
  nodup := nodup_singleton src

/-! ### Searches that end with all nodes collected -/

section

variable [Fintype ν] (alloc : Bool)

/-- What `path_find` does after a search that has collected its nodes. -/
theorem pathFind_of_allVisited {fuel depth : ℕ} {e : Exit} {r : Except ℤ (List ν)} (hfuel : Fintype.card ν < fuel)
    (hrun : searchLevels links dst fuel fuel 1 (s.start src) = some (s', e, depth)) (hall : AllVisited s')
    (hr : pathResult dst alloc s'.reverse depth e = some r) :
    ∃ s'', pathFind links src dst alloc fuel s = some (s'', r) ∧ ∀ v, s''.isTraversed v = false := by
  obtain ⟨s'', hreset, hrev, hmarks⟩ := hall.reset hfuel
  refine ⟨s'', ?_, hmarks⟩
  rw [pathFind, hrun, Option.bind_some, hreset, Option.bind_some, hrev, hr, Option.map_some]

theorem Ended.answer {e : Exit} {depth : ℕ} (h : Ended links src dst s' e depth) (hnull : ¬NullMet links src dst) :
    ∃ r, pathResult dst alloc s'.reverse depth e = some r ∧ Answer links src dst alloc r := by
  cases h with
  | found d hat htree =>
    obtain ⟨path, hrun, hlen, hpath⟩ := htree.pathNodes hat []
    rw [append_nil] at hrun
    cases halloc : alloc with
    | true =>
      refine ⟨.ok path, ?_, .path path hnull (isShortest hat hlen hpath) rfl⟩
      rw [pathResult, pathInit, if_pos rfl, hrun, Option.map_some]
    | false => exact ⟨.error (-ENOMEM), rfl, .noMemory path hnull hpath rfl⟩
  | done depth hnone => exact ⟨.error (-EPROBE_DEFER), rfl, .unreachable hnull fun path hpath => hnone _ hpath.hops⟩

theorem searchRight_of_plain (h : Plain links src dst) : SearchRight links src dst := by
  intro alloc s hmarks
  refine ⟨Fintype.card ν + 1, fun fuel hfuel => ?_⟩
  have hplain : ∀ u ∈ (levelsFrom links (Fintype.card ν) {src} [src]).takeWhile (· ≠ dst), none ∉ links u ∧ some src ∉ links u := h
  obtain ⟨s', e, depth, hrun, hall, hend⟩ := (level_start links src hmarks).search (cons_ne_nil src [])
    (fun m hm => absurd hm (Nat.not_lt_zero m)) hplain (by simp) (show Fintype.card ν < fuel by omega)
    (show Fintype.card ν ≤ fuel by omega)
  obtain ⟨r, hr, hanswer⟩ := hend.answer alloc fun ⟨u, hu, hnull⟩ => (h u hu).1 hnull
  obtain ⟨s'', hfind, hreset⟩ := pathFind_of_allVisited alloc (by omega) hrun hall hr
  exact ⟨s'', r, hfind, hreset, hanswer⟩

end

end GfpDrivers.Interconnect.PathFind
