import GfpDrivers.Interconnect.LevelSearch

/-!
The search with links back to the source and links that are `NULL`. Where the source is put on a second list, some nodes
are no longer met on the way back through the visited ones, or that way does not end.

What is proved of such a search are sets of nodes and heads that the links back do not leave. That is kept by all that
is done to the lists afterwards.
-/

namespace GfpDrivers.Interconnect.PathFind

open Lib

variable {ν : Type} [DecidableEq ν] {links : ν → List (Option ν)} {src dst u v w : ν} {s s' : SearchState ν}
  {L : Links (Loc ν)} {T E V new : List ν} {ls ls' : List (Option ν)} {seen : Finset ν} {e : Exit} {fuel rounds depth : ℕ}
  {I : SearchState ν → Prop}

/-! ### What a level keeps -/

/-- What is kept when a node that is not marked is added. -/
def Stable (I : SearchState ν → Prop) : Prop := ∀ s u w, I s → s.isTraversed w = false → I (s.addEdge u w)

/-- All links of `v` lead to nodes that are marked. -/
def Idle (links : ν → List (Option ν)) (s : SearchState ν) (v : ν) : Prop :=
  ∀ l ∈ links v, ∃ w, l = some w ∧ s.isTraversed w = true

/-- More marks are on. -/
def MarksLe (s s' : SearchState ν) : Prop := ∀ w, s.isTraversed w = true → s'.isTraversed w = true

theorem marksLe_addEdge : MarksLe s (s.addEdge u w) := by
  intro x hx
  rw [SearchState.addEdge_isTraversed]
  split
  · rfl
  · exact hx

omit [DecidableEq ν] in
theorem Idle.mono (h : Idle links s v) (hle : MarksLe s s') : Idle links s' v := by
  intro l hl
  obtain ⟨w, hw, hmark⟩ := h l hl
  exact ⟨w, hw, hle w hmark⟩

theorem scanLinks_idle (h : ∀ l ∈ ls, ∃ w, l = some w ∧ s.isTraversed w = true) : scanLinks u ls s = (s, false) := by
  induction ls with
  | nil => rfl
  | cons l ls ih =>
    obtain ⟨w, rfl, hw⟩ := h l (List.mem_cons_self ..)
    rw [scanLinks, if_pos hw]
    exact ih fun l hl => h l (List.mem_cons_of_mem _ hl)

/-- The links of a node: what is stable is kept, marks stay on, and if they are all looked at then they lead to marked
nodes. -/
theorem scanLinks_spec (u : ν) (ls : List (Option ν)) (hI : Stable I) (h : I s) :
    I (scanLinks u ls s).1 ∧ MarksLe s (scanLinks u ls s).1 ∧
      ((scanLinks u ls s).2 = false → ∀ l ∈ ls, ∃ w, l = some w ∧ (scanLinks u ls s).1.isTraversed w = true) := by
  induction ls generalizing s with
  | nil => exact ⟨h, fun _ hw => hw, fun _ l hl => absurd hl List.not_mem_nil⟩
  | cons l ls ih =>
    cases l with
    | none => exact ⟨h, fun _ hw => hw, fun hfalse => nomatch hfalse⟩
    | some w =>
      rw [scanLinks]
      split
      next hw =>
        obtain ⟨hkeep, hle, hidle⟩ := ih h
        refine ⟨hkeep, hle, fun hfalse l hl => ?_⟩
        obtain rfl | hl := List.mem_cons.mp hl
        · exact ⟨w, rfl, hle w hw⟩
        · exact hidle hfalse l hl
      next hw =>
        obtain ⟨hkeep, hle, hidle⟩ := ih (hI s u w h (by simpa using hw))
        refine ⟨hkeep, fun x hx => hle x (marksLe_addEdge x hx), fun hfalse l hl => ?_⟩
        obtain rfl | hl := List.mem_cons.mp hl
        · exact ⟨w, rfl, hle w (by rw [SearchState.addEdge_isTraversed, if_pos rfl])⟩
        · exact hidle hfalse l hl

/-- The nodes of a level up to `stop`, where they lead from one to the next: how the level ends before, or what is stable
at `stop`. -/
theorem traverse_nodes {B : List ν} {stop : Loc ν} (hI : Stable I)
    (hchain : ∀ s, I s → ∀ A v C, B = A ++ v :: C → s.list.next (.node v) = (C.map .node).headD stop)
    (h : I s) (hrun : traverseFrom links dst fuel ((B.map .node).headD stop) s = some (s', e)) :
    (e = .found ∧ ∃ s₀ B₁ B₂, B = B₁ ++ dst :: B₂ ∧ I s₀ ∧ MarksLe s s₀ ∧ (∀ v ∈ B₁, Idle links s₀ v) ∧ s' = s₀.collect) ∨
      (e = .out ∧ I s' ∧ B ≠ []) ∨
        ∃ fuel s₀, traverseFrom links dst fuel stop s₀ = some (s', e) ∧ I s₀ ∧ MarksLe s s₀ ∧ ∀ v ∈ B, Idle links s₀ v := by
  induction B generalizing s fuel with
  | nil => exact .inr (.inr ⟨fuel, s, hrun, h, fun _ hw => hw, fun v hv => absurd hv List.not_mem_nil⟩)
  | cons v B ih =>
    cases fuel with
    | zero => exact nomatch hrun
    | succ fuel =>
      rw [List.map_cons, List.headD_cons, traverseFrom] at hrun
      split at hrun
      next hv =>
        obtain ⟨rfl, rfl⟩ := Prod.mk.inj (Option.some.inj hrun)
        exact .inl ⟨rfl, s, [], B, by rw [hv, List.nil_append], h, fun _ hw => hw, fun v hv => absurd hv List.not_mem_nil, rfl⟩
      obtain ⟨hkeep, hle, hidle⟩ := scanLinks_spec v (links v) hI h
      split at hrun
      next hout =>
        obtain ⟨rfl, rfl⟩ := Prod.mk.inj (Option.some.inj hrun)
        exact .inr (.inl ⟨rfl, hkeep, List.cons_ne_nil v B⟩)
      next hin =>
        have hidle' : Idle links (scanLinks v (links v) s).1 v := hidle (by simpa using hin)
        rw [hchain s h [] v B rfl] at hrun
        have hall : ∀ s₀, MarksLe (scanLinks v (links v) s).1 s₀ → ∀ B', (∀ x ∈ B', Idle links s₀ x) →
            ∀ x ∈ v :: B', Idle links s₀ x := by
          intro s₀ hle₀ B' hB x hx
          obtain rfl | hx := List.mem_cons.mp hx
          · exact hidle'.mono hle₀
          · exact hB x hx
        have hchain' : ∀ s, I s → ∀ A x C, B = A ++ x :: C → s.list.next (.node x) = (C.map .node).headD stop :=
          fun s hs A x C hB => hchain s hs (v :: A) x C (congrArg _ hB)
        obtain ⟨rfl, s₀, B₁, B₂, rfl, hs₀, hle₀, hidle₀, rfl⟩ | ⟨rfl, hout, -⟩ | ⟨fuel, s₀, hrun', hs₀, hle₀, hidle₀⟩ :=
          ih hchain' hkeep hrun
        · exact .inl ⟨rfl, s₀, v :: B₁, B₂, rfl, hs₀, fun w hw => hle₀ w (hle w hw), hall s₀ hle₀ B₁ hidle₀, rfl⟩
        · exact .inr (.inl ⟨rfl, hout, List.cons_ne_nil v B⟩)
        · exact .inr (.inr ⟨fuel, s₀, hrun', hs₀, fun w hw => hle₀ w (hle w hw), hall s₀ hle₀ B hidle₀⟩)

theorem traverseFrom_traverseList (hrun : traverseFrom links dst fuel traverseList s = some (s', e)) : s' = s ∧ e = .done := by
  cases fuel with
  | zero => exact nomatch hrun
  | succ fuel =>
    obtain ⟨rfl, rfl⟩ := Prod.mk.inj (Option.some.inj hrun)
    exact ⟨rfl, rfl⟩

/-! ### What the whole search keeps -/

/-- What is kept by all that is done to the lists. -/
structure Kept (I : SearchState ν → Prop) : Prop where
  stable : Stable I
  nextLevel : ∀ s, I s → I s.nextLevel
  collect : ∀ s, I s → I s.collect

theorem Kept.traverseFrom {pos : Loc ν} (hI : Kept I) (h : I s)
    (hrun : traverseFrom links dst fuel pos s = some (s', e)) : I s' := by
  induction fuel generalizing pos s with
  | zero => exact nomatch hrun
  | succ fuel ih =>
    cases pos with
    | head k =>
      cases k with
      | traverse =>
        obtain ⟨rfl, -⟩ := Prod.mk.inj (Option.some.inj hrun)
        exact h
      | edge => exact nomatch hrun
      | visited => exact nomatch hrun
    | node v =>
      rw [PathFind.traverseFrom] at hrun
      have hkeep := (scanLinks_spec v (links v) hI.stable h).1
      split at hrun
      · obtain ⟨rfl, -⟩ := Prod.mk.inj (Option.some.inj hrun)
        exact hI.collect s h
      split at hrun
      · obtain ⟨rfl, -⟩ := Prod.mk.inj (Option.some.inj hrun)
        exact hkeep
      · exact ih hkeep hrun

theorem Kept.searchLevels (hI : Kept I) (h : I s) {depth' : ℕ}
    (hrun : searchLevels links dst rounds fuel depth s = some (s', e, depth')) : I s' := by
  induction fuel generalizing depth s with
  | zero => exact nomatch hrun
  | succ fuel ih =>
    rw [PathFind.searchLevels, Option.bind_eq_some_iff] at hrun
    obtain ⟨⟨s₁, e₁⟩, hlevel, hrun⟩ := hrun
    have hs₁ := hI.traverseFrom h hlevel
    split at hrun
    · obtain ⟨rfl, -⟩ := Prod.mk.inj (Option.some.inj hrun)
      exact hs₁
    split at hrun
    · obtain ⟨rfl, -⟩ := Prod.mk.inj (Option.some.inj hrun)
      exact hI.nextLevel _ hs₁
    · exact ih (hI.nextLevel _ hs₁) hrun

/-! ### The way back -/

/-- The links back do not leave `C`. -/
def Closed (L : Links (Loc ν)) (C : Loc ν → Prop) : Prop := ∀ y, C y → C (L.prev y)

/-- After the search a mark stays on, or the marks are reset without end. -/
def Fails (s : SearchState ν) : Prop :=
  ∀ fuel s', resetFrom fuel (s.list.prev visitedList) s = some s' → ∃ v, s'.isTraversed v = true

theorem resetFrom_missed {C : Loc ν → Prop} {pos : Loc ν} (hC : Closed s.list C) (hpos : C pos) (hw : ¬C (.node w))
    (hmark : s.isTraversed w = true) (hrun : resetFrom fuel pos s = some s') : s'.isTraversed w = true := by
  induction fuel generalizing pos s with
  | zero => exact nomatch hrun
  | succ fuel ih =>
    cases pos with
    | head k =>
      cases k with
      | visited =>
        obtain rfl := Option.some.inj hrun
        exact hmark
      | traverse => exact nomatch hrun
      | edge => exact nomatch hrun
    | node v =>
      refine ih (s := s.unmark v) hC (hC _ hpos) ?_ hrun
      have hne : w ≠ v := by
        rintro rfl
        exact hw hpos
      rw [SearchState.unmark_isTraversed, if_neg hne]
      exact hmark

theorem fails_of_missed {C : Loc ν → Prop} (hC : Closed s.list C) (hvis : C (s.list.prev visitedList)) (hw : ¬C (.node w))
    (hmark : s.isTraversed w = true) : Fails s :=
  fun _ _ hrun => ⟨w, resetFrom_missed hC hvis hw hmark hrun⟩

theorem resetFrom_endless {C : Loc ν → Prop} {pos : Loc ν} (hC : Closed s.list C) (hpos : C pos) (hnot : ¬C visitedList) :
    resetFrom fuel pos s = none := by
  induction fuel generalizing pos s with
  | zero => rfl
  | succ fuel ih =>
    cases pos with
    | head k =>
      cases k with
      | visited => exact absurd hpos hnot
      | traverse => rfl
      | edge => rfl
    | node v => exact ih (s := s.unmark v) hC (hC _ hpos)

theorem fails_of_endless {C : Loc ν → Prop} (hC : Closed s.list C) (hvis : C (s.list.prev visitedList))
    (hnot : ¬C visitedList) : Fails s :=
  fun _ _ hrun => absurd ((resetFrom_endless hC hvis hnot).symm.trans hrun) (by simp)

/-! ### Nodes that are lost -/

theorem closed_addTail {C : Loc ν → Prop} {x : Loc ν} (hC : ∀ y, C y → y ≠ x → y ≠ edgeList → C (L.prev y))
    (hx : C x → C (L.prev edgeList)) (hedge : C edgeList → C x) : Closed (L.addTail x edgeList) C := by
  intro y hy
  rw [Links.addTail_prev]
  split
  next h => exact hx (h ▸ hy)
  next hyx =>
  split
  next h => exact hedge (h ▸ hy)
  next hye => exact hC y hy hyx hye

theorem closed_spliceInit {C : Loc ν → Prop} {t h : Loc ν} (hne : L.next t ≠ t)
    (hC : ∀ y, C y → y ≠ L.next h → y ≠ L.next t → C (L.prev y)) (hat : C (L.next h) → C (L.prev t))
    (hfirst : C (L.next t) → L.next t ≠ L.next h → C h) : Closed (L.spliceInit t h) C := by
  intro y hy
  rw [Links.spliceInit_prev hne]
  split
  next hyt => exact hyt ▸ hy
  split
  next hyh => exact hat (hyh ▸ hy)
  next hyh =>
  split
  next hyn => exact hfirst (hyn ▸ hy) (hyn ▸ hyh)
  next hyn => exact hC y hy hyh hyn

/-- From the heads the links back do not lead to some node that is marked. -/
def Lost (s : SearchState ν) : Prop :=
  ∃ (C : Loc ν → Prop) (w : ν), Closed s.list C ∧ (∀ h, C (.head h)) ∧ ¬C (.node w) ∧ s.isTraversed w = true

theorem closed_spliceInit_of_heads {C : Loc ν → Prop} {t h : Head} (hC : Closed L C) (hheads : ∀ h, C (.head h)) :
    Closed (L.spliceInit (.head t) (.head h)) C := by
  by_cases hne : L.next (.head t) = .head t
  · rwa [Links.spliceInit_of_empty hne]
  · exact closed_spliceInit hne (fun y hy _ _ => hC y hy) (fun _ => hC _ (hheads t)) fun _ _ => hheads h

theorem Lost.fails (h : Lost s) : Fails s := by
  obtain ⟨C, w, hC, hheads, hw, hmark⟩ := h
  exact fails_of_missed hC (hC _ (hheads _)) hw hmark

theorem kept_lost : Kept (Lost : SearchState ν → Prop) where
  stable := by
    rintro s u x ⟨C, w, hC, hheads, hw, hmark⟩ hx
    have hwx : w ≠ x := by
      rintro rfl
      exact Bool.false_ne_true (hx.symm.trans hmark)
    refine ⟨fun y => C y ∨ y = .node x, w, ?_, fun h => .inl (hheads h), ?_, marksLe_addEdge w hmark⟩
    · refine closed_addTail (fun y hy hyx _ => .inl (hC y (hy.resolve_right hyx))) (fun _ => .inl (hC _ (hheads _)))
        fun _ => .inr rfl
    · rintro (hw' | hw')
      · exact hw hw'
      · exact hwx (Loc.node.inj hw')
  nextLevel := by
    rintro s ⟨C, w, hC, hheads, hw, hmark⟩
    exact ⟨C, w, closed_spliceInit_of_heads (closed_spliceInit_of_heads hC hheads) hheads, hheads, hw, hmark⟩
  collect := by
    rintro s ⟨C, w, hC, hheads, hw, hmark⟩
    exact ⟨C, w, closed_spliceInit_of_heads (closed_spliceInit_of_heads hC hheads) hheads, hheads, hw, hmark⟩

/-! ### A link that is `NULL` -/

omit [DecidableEq ν] in
theorem closed_isList {k : Head} {l : List ν} (h : L.IsList (.head k) (l.map .node)) :
    Closed L (· ∈ Loc.head k :: l.map Loc.node) := fun _ hy => h.prev_mem hy

omit [DecidableEq ν] in
theorem prev_mem_locs {k : Head} {l : List ν} {y : Loc ν} (h : L.IsList (.head k) (l.map .node))
    (hy : y ∈ Loc.head k :: l.map Loc.node) (hv : L.prev y = .node v) : v ∈ l := by
  have hmem := h.prev_mem hy
  rw [hv, List.mem_cons, mem_locs] at hmem
  exact hmem.resolve_left (by simp)

/-- The nodes of the level and of the next one are not met on the way back. -/
theorem Mid.fails (h : Mid src s T E V seen) (hw : w ∈ T ∨ w ∈ E) (hne : w ≠ src) : Fails s := by
  refine fails_of_missed (w := w) (closed_isList h.lists.visited) (h.lists.visited.prev_mem (List.mem_cons_self ..)) ?_ ?_
  · rw [List.mem_cons, mem_locs, not_or]
    exact ⟨by simp, hw.elim (h.lists.traverse_visited w) (h.lists.edge_visited w)⟩
  · rw [h.marks, Finset.mem_erase, h.seen, ← or_assoc]
    exact ⟨hne, .inl hw⟩

/-! ### A link back to the source, three levels away from it -/

theorem Mid.isTraversed_src (h : Mid src s T E V seen) : s.isTraversed src = false := by
  rw [← Bool.not_eq_true, h.marks]
  exact Finset.notMem_erase src seen

theorem Mid.lost {V : List ν} (h : Mid src s T E (w :: (V ++ [src])) seen) : Lost (s.addEdge u src) := by
  have hnod := (List.nodup_cons.mp h.lists.visited.nodup).2
  rw [List.nodup_map_iff fun _ _ h => Loc.node.inj h, List.nodup_cons] at hnod
  have hw : w ∈ w :: (V ++ [src]) := List.mem_cons_self ..
  have hne : w ≠ src := by
    rintro rfl
    exact hnod.1 (List.mem_append_right V (List.mem_singleton_self w))
  have hlast : s.list.prev visitedList = .node src := by
    rw [h.lists.visited.prev_head, List.map_cons, List.map_append, List.map_singleton, ← List.cons_append, List.getLastD_concat]
  refine ⟨fun y => ∀ v, y = .node v → v ∈ T ∨ v ∈ E ∨ v = src, w, ?_, fun _ v hv => absurd hv (by simp), fun hC => ?_, ?_⟩
  · refine closed_addTail (fun y hy hsrc hedge v hv => ?_) (fun _ v hv => ?_) fun _ v hv => .inr (.inr (Loc.node.inj hv).symm)
    · cases y with
      | head k =>
        cases k with
        | traverse => exact .inl (prev_mem_locs h.lists.traverse (List.mem_cons_self ..) hv)
        | edge => exact absurd rfl hedge
        | visited => exact .inr (.inr (Loc.node.inj (hv.symm.trans hlast)))
      | node x =>
        obtain hT | hE | rfl := hy x rfl
        · exact .inl (prev_mem_locs h.lists.traverse (List.mem_cons_of_mem _ (mem_locs.mpr hT)) hv)
        · exact .inr (.inl (prev_mem_locs h.lists.edge (List.mem_cons_of_mem _ (mem_locs.mpr hE)) hv))
        · exact absurd rfl hsrc
    · exact .inr (.inl (prev_mem_locs h.lists.edge (List.mem_cons_self ..) hv))
  · obtain hT | hE | hsrc := hC w rfl
    · exact h.lists.traverse_visited w hT hw
    · exact h.lists.edge_visited w hE hw
    · exact hne hsrc
  · exact marksLe_addEdge w ((h.marks w).mpr (Finset.mem_erase.mpr ⟨hne, (h.seen w).mpr (.inr (.inr hw))⟩))

end GfpDrivers.Interconnect.PathFind
