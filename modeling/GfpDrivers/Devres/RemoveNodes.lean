import GfpDrivers.Devres.Devres

/-!
The two passes of `remove_nodes`, and `release_nodes`. Both passes walk over a
span `rest` of the list of the device, between the nodes `pre` before it
and the nodes `post` after it, and take nodes out of the list while they
walk.

The first pass leaves the markers of the span and moves all its entries to
`todo`. The second pass takes out the groups that lie in the span as a whole:
after the markers `done` have been met, these are the groups whose markers
are both in `done`, or whose opening marker is and that are not closed.
-/

namespace GfpDrivers.Devres

open Lib Function List

variable {d : Dev} {L : Links DevNode} {x last : DevNode} {g fuel cnt nr : ℕ}
  {xs ys zs ts ms pre rest post done : List DevNode}

def DevNode.isMarker (x : DevNode) : Bool := (nodeToGroup x).isSome

/-- The list of the device. The closing node of an open group is in no list. -/
structure Listed (L : Links DevNode) (xs : List DevNode) : Prop where
  head : L.IsList .head xs
  opened : ∀ g, DevNode.opn g ∈ xs → DevNode.cls g ∉ xs → L.IsList (.cls g) []

/-- The list of the device, and beside it the list of the nodes taken out. -/
structure Lists (L : Links DevNode) (xs ts : List DevNode) : Prop extends Listed L xs where
  todo : L.IsList .todo ts
  disjoint : ∀ y ∈ DevNode.head :: xs, y ∉ DevNode.todo :: ts
  closing : ∀ g, DevNode.cls g ∉ ts

/-- In a list of markers and entries every group is opened before it is closed. -/
structure Grouped (xs : List DevNode) : Prop where
  nodup : xs.Nodup
  order : xs.Pairwise fun x y => ∀ g, x = .cls g → y ≠ .opn g
  paired : ∀ g, DevNode.cls g ∈ xs → DevNode.opn g ∈ xs

theorem Grouped.opn_before (hxs : Grouped (ys ++ .cls g :: zs)) : DevNode.opn g ∈ ys := by
  have hmem := hxs.paired g (by simp)
  have horder := (pairwise_append.mp hxs.order).2.1
  rw [pairwise_cons] at horder
  simp only [mem_append, mem_cons, reduceCtorEq, false_or] at hmem
  exact hmem.resolve_right fun hmem => horder.1 _ hmem g rfl rfl

theorem Grouped.cls_after (hxs : Grouped (ys ++ .opn g :: zs)) (hg : DevNode.cls g ∈ ys ++ .opn g :: zs) :
    DevNode.cls g ∈ zs := by
  have horder := (pairwise_append.mp hxs.order).2.2
  simp only [mem_append, mem_cons, reduceCtorEq, false_or] at hg
  exact hg.resolve_left fun hmem => horder _ hmem _ (by simp) g rfl rfl

/-! ### Taking nodes out -/

/-- A node in neither list stays as it is when a node is moved. -/
theorem Lists.moveTail_alone {c : DevNode} (hl : Lists L (ys ++ x :: zs) ts)
    (hc : c ∉ DevNode.head :: (ys ++ x :: zs)) (hc' : c ∉ DevNode.todo :: ts)
    (halone : L.IsList c []) : (L.moveTail x .todo).IsList c [] := by
  have hx : x ∈ ys ++ x :: zs := by simp
  exact halone.of_frame (hl.head.moveTail_frame hl.todo hl.disjoint hx hc hc')

theorem Lists.cls_not_mem_todo (hl : Lists L xs ts) (g : ℕ) : DevNode.cls g ∉ DevNode.todo :: ts := by
  rw [mem_cons, not_or]
  exact ⟨by simp, hl.closing g⟩

/-- Moving an entry or an opening marker to `todo`. -/
theorem Lists.moveTail (hl : Lists L (ys ++ x :: zs) ts) (hx : ∀ g, x ≠ .cls g) :
    Lists (L.moveTail x .todo) (ys ++ zs) (ts ++ [x]) := by
  obtain ⟨hhead, htodo⟩ := hl.head.moveTail hl.todo hl.disjoint
  refine ⟨⟨hhead, ?_⟩, htodo, ?_, ?_⟩
  · intro g hg hg'
    have hcls : DevNode.cls g ∉ ys ++ x :: zs := by
      simp only [mem_append, mem_cons, not_or] at hg' ⊢
      exact ⟨hg'.1, fun h => hx g h.symm, hg'.2⟩
    have hopn : DevNode.opn g ∈ ys ++ x :: zs := by
      simp only [mem_append, mem_cons] at hg ⊢
      tauto
    refine hl.moveTail_alone ?_ (hl.cls_not_mem_todo g) (hl.opened g hopn hcls)
    rw [mem_cons, not_or]
    exact ⟨by simp, hcls⟩
  · intro y hy hy'
    have hy'' : y ∈ DevNode.head :: (ys ++ x :: zs) := by
      simp only [mem_cons, mem_append] at hy ⊢
      tauto
    have hne : y ≠ x := by
      rintro rfl
      have hnod := hl.head.nodup
      simp only [mem_cons, mem_append, nodup_cons, nodup_append,
        not_or] at hnod hy
      rcases hy with rfl | hy | hy
      · exact hnod.1.2.1 rfl
      · exact hnod.2.2.2 y hy y (.inl rfl) rfl
      · exact hnod.2.2.1.1 hy
    rw [← cons_append, mem_append, mem_singleton] at hy'
    exact hy'.elim (hl.disjoint y hy'') hne
  · intro g hg
    rw [mem_append, mem_singleton] at hg
    exact hg.elim (hl.closing g) fun h => hx g h.symm

theorem Listed.delInit_alone {c : DevNode} (hl : Listed L xs) (hx : x ∈ xs)
    (hc : c ∉ DevNode.head :: xs) (halone : L.IsList c []) : (L.delInit x).IsList c [] :=
  halone.of_frame (hl.head.delInit_frame hx hc)

/-- Unlinking a node; a closing marker goes only after its opening marker. -/
theorem Listed.delInit (hl : Listed L (ys ++ x :: zs)) (hx : ∀ g, x = .cls g → DevNode.opn g ∉ ys ++ zs) :
    Listed (L.delInit x) (ys ++ zs) := by
  refine ⟨hl.head.delInit.1, fun g hg hcls => ?_⟩
  have hcls' : DevNode.cls g ∉ ys ++ x :: zs := by
    simp only [mem_append, mem_cons, not_or] at hcls ⊢
    exact ⟨hcls.1, fun h => hx g h.symm hg, hcls.2⟩
  have hopn : DevNode.opn g ∈ ys ++ x :: zs := by
    simp only [mem_append, mem_cons] at hg ⊢
    tauto
  exact hl.delInit_alone (by simp) (by simpa using hcls') (hl.opened g hopn hcls')

theorem Lists.delInit_cls (hl : Lists L (ys ++ .cls g :: zs) ts) (hg : DevNode.opn g ∉ ys ++ zs) :
    Lists (L.delInit (.cls g)) (ys ++ zs) ts := by
  have hmem : DevNode.cls g ∈ ys ++ .cls g :: zs := by simp
  refine ⟨hl.toListed.delInit ?_, ?_, ?_, hl.closing⟩
  · intro g' hg'
    rw [← DevNode.cls.inj hg']
    exact hg
  · refine hl.todo.congr (fun y hy => ?_) (fun y hy => ?_)
    · exact (hl.head.delInit_frame hmem fun hy' => hl.disjoint y hy' hy).1
    · exact (hl.head.delInit_frame hmem fun hy' => hl.disjoint y hy' hy).2
  · intro y hy
    refine hl.disjoint y ?_
    simp only [mem_cons, mem_append] at hy ⊢
    tauto

theorem Lists.remove_open (hl : Lists L (ys ++ .opn g :: zs) ts) (hg : DevNode.cls g ∉ ys ++ .opn g :: zs) :
    Lists ((L.moveTail (.opn g) .todo).delInit (.cls g)) (ys ++ zs) (ts ++ [.opn g]) := by
  have halone := hl.moveTail_alone (c := .cls g) (by simpa using hg) (hl.cls_not_mem_todo g)
    (hl.opened g (by simp) hg)
  rw [Links.delInit_of_empty halone]
  exact hl.moveTail (by simp)

theorem Lists.remove_closed (hl : Lists L (xs ++ .opn g :: ys ++ .cls g :: zs) ts) :
    Lists ((L.moveTail (.opn g) .todo).delInit (.cls g)) (xs ++ ys ++ zs) (ts ++ [.opn g]) := by
  have hmove : Lists (L.moveTail (.opn g) .todo) ((xs ++ ys) ++ .cls g :: zs) (ts ++ [.opn g]) := by
    rw [append_assoc, cons_append] at hl
    rw [append_assoc]
    exact hl.moveTail (by simp)
  refine hmove.delInit_cls fun hg => hmove.disjoint (.opn g) ?_ (by simp)
  simp only [mem_append, mem_cons] at hg ⊢
  tauto

/-! ### The walk over a span -/

theorem headD_append {α : Type*} (ys zs : List α) (a : α) :
    (ys ++ zs).headD a = ys.headD (zs.headD a) := by
  cases ys with
  | nil => rfl
  | cons y ys => rfl

theorem Lists.node_cases (hl : Lists L xs ts) (hx : x ∈ xs) :
    (∃ r, x = .reg r) ∨ ∃ g, x = .opn g ∨ x = .cls g := by
  have hnod := (nodup_cons.mp hl.head.nodup).1
  have hdisj := hl.disjoint x (mem_cons_of_mem _ hx)
  cases x with
  | head => exact absurd hx hnod
  | todo => simp at hdisj
  | reg r => exact .inl ⟨r, rfl⟩
  | opn g => exact .inr ⟨g, .inl rfl⟩
  | cls g => exact .inr ⟨g, .inr rfl⟩

/-- The node after the first one of the span, and why the walk does not stop
at the first one. -/
theorem Lists.walk (hl : Lists L (pre ++ x :: rest ++ post) ts) (hlast : last = post.headD .head) :
    x ≠ last ∧ L.next x = rest.headD last := by
  have hlist := hl.head
  rw [append_assoc, cons_append] at hlist
  refine ⟨?_, ?_⟩
  · have hnod := hlist.nodup
    simp only [nodup_cons, nodup_append, mem_append, mem_cons,
      not_or] at hnod
    subst hlast
    cases post with
    | nil => exact fun h => hnod.1.2.1 h.symm
    | cons y post =>
      rintro rfl
      exact hnod.2.2.1.1.2 (by simp)
  · rw [hlist.next_eq, headD_append, hlast]

/-- The first pass moves the entries of the span to `todo` and leaves its
markers, with their colors cleared. -/
theorem firstPass_spec (hlast : last = post.headD .head)
    (hl : Lists d.links (pre ++ ms ++ rest ++ post) ts) (hfuel : rest.length < fuel) :
    ∃ d', firstPass last fuel (rest.headD last) (d.links.next (rest.headD last))
        ((ms ++ rest ++ post).headD .head) cnt nr d =
          some (d', (ms ++ rest.filter (·.isMarker) ++ post).headD .head,
            cnt + (rest.filter fun x => !x.isMarker).length,
            nr + (rest.filter (·.isMarker)).length) ∧
      Lists d'.links (pre ++ ms ++ rest.filter (·.isMarker) ++ post)
        (ts ++ rest.filter fun x => !x.isMarker) ∧
      (∀ g, d.color g = 0 ∨ DevNode.opn g ∈ rest ∨ DevNode.cls g ∈ rest → d'.color g = 0) ∧
      d'.calls = d.calls ∧ d'.id = d.id ∧ d'.release = d.release := by
  induction fuel generalizing rest ms ts cnt nr d with
  | zero => omega
  | succ fuel ih =>
    cases rest with
    | nil =>
      refine ⟨d, ?_, by simpa using hl, by simp, rfl, rfl, rfl⟩
      simp [firstPass]
    | cons x rest =>
      obtain ⟨hne, hnext⟩ := hl.walk hlast
      have hfuel' : rest.length < fuel := by simpa using hfuel
      rcases hl.node_cases (x := x) (by simp) with ⟨r, rfl⟩ | ⟨g, hg⟩
      · -- an entry; it is `first` if no marker has been met
        have hl' : Lists (d.links.moveTail (.reg r) .todo) (pre ++ ms ++ rest ++ post)
            (ts ++ [.reg r]) := by
          rw [append_assoc] at hl ⊢
          exact hl.moveTail (by simp)
        obtain ⟨d', hrun, hlists, hcolor, hrest⟩ :=
          ih (d := { d with links := d.links.moveTail (.reg r) .todo }) hl' hfuel'
        refine ⟨d', ?_, by simpa [DevNode.isMarker, nodeToGroup] using hlists,
          fun g hg => hcolor g (by simpa using hg), hrest⟩
        have hfirst : (if DevNode.reg r = (ms ++ DevNode.reg r :: rest ++ post).headD .head
            then d.links.next ((ms ++ DevNode.reg r :: rest ++ post).headD .head)
            else (ms ++ DevNode.reg r :: rest ++ post).headD .head) =
              (ms ++ rest ++ post).headD .head := by
          cases ms with
          | nil => simp [hnext, hlast]
          | cons m ms =>
            have hm : DevNode.reg r ≠ m := by
              rintro rfl
              have hnod := hl.head.nodup
              simp [nodup_append] at hnod
            simp [hm]
        change firstPass last (fuel + 1) (.reg r) (d.links.next (.reg r)) _ _ _ d = _
        generalize (ms ++ DevNode.reg r :: rest ++ post).headD .head = first at hfirst ⊢
        simp only [firstPass, if_neg hne, nodeToGroup, hfirst, hnext]
        rw [hrun]
        simp [DevNode.isMarker, nodeToGroup]
        omega
      · -- a marker
        have hmark : nodeToGroup x = some g := by
          rcases hg with rfl | rfl <;> rfl
        have hl' : Lists d.links (pre ++ (ms ++ [x]) ++ rest ++ post) ts := by simpa using hl
        obtain ⟨d', hrun, hlists, hcolor, hrest⟩ :=
          ih (d := { d with color := update d.color g 0 }) hl' hfuel'
        refine ⟨d', ?_, by simpa [DevNode.isMarker, hmark] using hlists, fun g' hg' => ?_, hrest⟩
        · simp only [firstPass, headD_cons, if_neg hne, hmark, hnext]
          simp only [append_assoc, cons_append, nil_append] at hrun ⊢
          rw [hrun]
          simp [DevNode.isMarker, hmark]
          omega
        · refine hcolor g' ?_
          by_cases hgg : g' = g
          · exact .inl (by simp [hgg])
          · rcases hg with rfl | rfl <;> simpa [hgg] using hg'

/-! ### Groups that lie in the span -/

/-- Whether the markers `done` of the span take group `g` of the list `xs` as a
whole. -/
def contained (xs done : List DevNode) (g : ℕ) : Bool :=
  DevNode.opn g ∈ done ∧ (DevNode.cls g ∈ done ∨ DevNode.cls g ∉ xs)

/-- The markers of `done` whose groups the second pass leaves. -/
def kept (xs done : List DevNode) : List DevNode :=
  done.filter fun x => !(nodeToGroup x).any (contained xs done)

theorem contained_concat_of_ne {g' : ℕ} (hx : nodeToGroup x = some g) (hne : g' ≠ g) :
    contained xs (done ++ [x]) g' = contained xs done g' := by
  have hopn : DevNode.opn g' ≠ x := by
    rintro rfl
    exact hne (Option.some.inj hx)
  have hcls : DevNode.cls g' ≠ x := by
    rintro rfl
    exact hne (Option.some.inj hx)
  simp [contained, hopn, hcls]

theorem contained_append_of_contained (hc : contained xs done g = true) (ys : List DevNode) :
    contained xs (done ++ ys) g = true := by
  simp only [contained, mem_append, decide_eq_true_eq] at hc ⊢
  tauto

/-- A marker that completes its group takes the group out. -/
theorem kept_concat_of_contained (xs done : List DevNode) (hx : nodeToGroup x = some g)
    (hc : contained xs (done ++ [x]) g = true) :
    kept xs (done ++ [x]) = (kept xs done).filter fun y => nodeToGroup y ≠ some g := by
  have hlast : [x].filter (fun y => !(nodeToGroup y).any (contained xs (done ++ [x]))) = [] := by
    simp [hx, hc]
  rw [kept, filter_append, hlast, append_nil, kept, filter_filter]
  refine filter_congr fun y _ => ?_
  cases hy : nodeToGroup y with
  | none => simp
  | some g' =>
    by_cases hgg : g' = g
    · simp [hgg, hc]
    · simp [hgg, contained_concat_of_ne hx hgg]

theorem kept_concat_of_not_contained (xs done : List DevNode) (hx : nodeToGroup x = some g)
    (hc : contained xs (done ++ [x]) g = false) :
    kept xs (done ++ [x]) = kept xs done ++ [x] := by
  have hlast : [x].filter (fun y => !(nodeToGroup y).any (contained xs (done ++ [x]))) = [x] := by
    simp [hx, hc]
  rw [kept, filter_append, hlast, kept]
  congr 1
  refine filter_congr fun y _ => ?_
  cases hy : nodeToGroup y with
  | none => simp
  | some g' =>
    by_cases hgg : g' = g
    · subst hgg
      have hc' : contained xs done g' = false := by
        cases hcd : contained xs done g' with
        | false => rfl
        | true => exact (contained_append_of_contained hcd [x]).symm.trans hc
      simp [hc, hc']
    · simp [contained_concat_of_ne hx hgg]

/-- `us` are the opening markers of the groups that are taken as a whole once the
markers of the span have been met from `done` to `done'`. -/
structure Taken (xs done done' us : List DevNode) : Prop where
  opened : ∀ u ∈ us, ∃ g, u = .opn g
  mem_iff : ∀ g, DevNode.opn g ∈ us ↔ contained xs done g = false ∧ contained xs done' g = true

theorem Taken.refl (xs done : List DevNode) : Taken xs done done [] :=
  ⟨by simp, fun g => by simp⟩

theorem Taken.append {us vs : List DevNode} (hus : Taken xs done (done ++ ys) us)
    (hvs : Taken xs (done ++ ys) (done ++ ys ++ zs) vs) :
    Taken xs done (done ++ ys ++ zs) (us ++ vs) := by
  refine ⟨fun u hu => ?_, fun g => ?_⟩
  · exact (mem_append.mp hu).elim (hus.opened u) (hvs.opened u)
  · rw [mem_append, hus.mem_iff, hvs.mem_iff]
    have hys : contained xs done g = true → contained xs (done ++ ys) g = true :=
      fun hc => contained_append_of_contained hc ys
    have hzs : contained xs (done ++ ys) g = true → contained xs (done ++ ys ++ zs) g = true :=
      fun hc => contained_append_of_contained hc zs
    grind

theorem Taken.leave (hx : nodeToGroup x = some g) (hc : contained xs (done ++ [x]) g = false) :
    Taken xs done (done ++ [x]) [] := by
  refine ⟨by simp, fun g' => ?_⟩
  by_cases hgg : g' = g
  · simp [hgg, hc]
  · simp [contained_concat_of_ne hx hgg]

theorem Taken.remove (hx : nodeToGroup x = some g) (hc : contained xs done g = false)
    (hc' : contained xs (done ++ [x]) g = true) : Taken xs done (done ++ [x]) [.opn g] := by
  refine ⟨by simp, fun g' => ?_⟩
  by_cases hgg : g' = g
  · simp [hgg, hc, hc']
  · simp [hgg, contained_concat_of_ne hx hgg]

theorem nodeToGroup_eq_some : nodeToGroup x = some g ↔ x = .opn g ∨ x = .cls g := by
  cases x with
  | head => simp [nodeToGroup]
  | todo => simp [nodeToGroup]
  | reg r => simp [nodeToGroup]
  | opn g' => simp [nodeToGroup]
  | cls g' => simp [nodeToGroup]

theorem filter_group_eq_self (hopn : DevNode.opn g ∉ ys) (hcls : DevNode.cls g ∉ ys) :
    ys.filter (fun y => nodeToGroup y ≠ some g) = ys := by
  rw [filter_eq_self]
  intro y hy
  simp only [ne_eq, decide_eq_true_eq, nodeToGroup_eq_some, not_or]
  exact ⟨fun h => hopn (h ▸ hy), fun h => hcls (h ▸ hy)⟩

/-- A marker of the group itself does not matter to the markers of the others. -/
theorem filter_group_append_cons (hx : nodeToGroup x = some g) :
    (ys ++ x :: zs).filter (fun y => nodeToGroup y ≠ some g) =
      (ys ++ zs).filter fun y => nodeToGroup y ≠ some g := by
  rw [filter_append, filter_cons_of_neg (by simp [hx]), ← filter_append]

theorem kept_subset : kept xs done ⊆ done := filter_subset_self done

theorem opn_mem_kept (hopn : DevNode.opn g ∈ done) (hcls : DevNode.cls g ∉ done) (hxs : DevNode.cls g ∈ xs) :
    DevNode.opn g ∈ kept xs done := by
  rw [kept, mem_filter]
  refine ⟨hopn, ?_⟩
  simp [nodeToGroup, contained, hcls, hxs]

/-! ### The second pass -/

/-- The step of the second pass at a marker that does not complete its group. -/
theorem secondPass_leave {n : DevNode} (hx : x ≠ last) (hg : nodeToGroup x = some g)
    (hopn : d.links.isEmpty (.opn g) = false) (hcls : d.links.isEmpty (.cls g) = false)
    (hcolor : d.color g = 0) :
    secondPass last (fuel + 1) x n d =
      secondPass last fuel n (d.links.next n)
        { d with color := update d.color g 1 } := by
  simp [secondPass, hx, hg, hopn, hcls, hcolor]

/-- The step at a marker that completes its group: the closing one of a closed
group, or the opening one of an open group. -/
theorem secondPass_remove {n : DevNode} (hx : x ≠ last) (hg : nodeToGroup x = some g)
    (hopn : d.links.isEmpty (.opn g) = false)
    (hcolor : d.color g = if d.links.isEmpty (.cls g) then 0 else 1) :
    secondPass last (fuel + 1) x n d =
      let links := (d.links.moveTail (.opn g) .todo).delInit (.cls g)
      secondPass last fuel n (links.next n)
        { d with links := links, color := update d.color g 2 } := by
  cases hcls : d.links.isEmpty (.cls g) with
  | true =>
    have hcolor' : d.color g = 0 := by simpa [hcls] using hcolor
    simp [secondPass, hx, hg, hopn, hcls, hcolor']
  | false =>
    have hcolor' : d.color g = 1 := by simpa [hcls] using hcolor
    simp [secondPass, hx, hg, hopn, hcls, hcolor']

/-- What holds of the device in the second pass, when the markers `done` have
been met and the markers `rest` have not. -/
structure Coloring (xs pre done rest post ts : List DevNode) (d : Dev) : Prop where
  lists : Lists d.links (pre ++ kept xs done ++ rest ++ post) ts
  color : ∀ g, DevNode.opn g ∈ rest ∨ DevNode.cls g ∈ rest → d.color g = if DevNode.opn g ∈ done then 1 else 0

theorem color_concat {color : ℕ → ℤ} {c : ℤ} (hx : nodeToGroup x = some g)
    (hcolor : ∀ g, DevNode.opn g ∈ x :: rest ∨ DevNode.cls g ∈ x :: rest →
      color g = if DevNode.opn g ∈ done then 1 else 0)
    (hc : DevNode.opn g ∈ rest ∨ DevNode.cls g ∈ rest → c = if DevNode.opn g ∈ done ++ [x] then 1 else 0)
    (g' : ℕ) (hg' : DevNode.opn g' ∈ rest ∨ DevNode.cls g' ∈ rest) :
    update color g c g' = if DevNode.opn g' ∈ done ++ [x] then 1 else 0 := by
  by_cases hgg : g' = g
  · subst hgg
    simpa using hc hg'
  · have hopn : DevNode.opn g' ≠ x := by
      rintro rfl
      exact hgg (Option.some.inj hx)
    rw [update_of_ne hgg, hcolor g' (by simp only [mem_cons]; tauto)]
    simp [hopn]

/-- The step of the second pass at `x`. -/
abbrev StepsOver (last x : DevNode) (xs pre done rest post ts : List DevNode) (d : Dev) : Prop :=
  ∃ d' us, (∀ fuel n, secondPass last (fuel + 1) x n d = secondPass last fuel n (d'.links.next n) d') ∧
    Coloring xs pre (done ++ [x]) rest post (ts ++ us) d' ∧ Taken xs done (done ++ [x]) us ∧ us.length ≤ 1 ∧
    d'.calls = d.calls ∧ d'.id = d.id ∧ d'.release = d.release

theorem secondPass_opn (hlast : last = post.headD .head)
    (hgr : Grouped (pre ++ done ++ .opn g :: rest ++ post))
    (hc : Coloring (pre ++ done ++ .opn g :: rest ++ post) pre done (.opn g :: rest) post ts d) :
    StepsOver last (.opn g) (pre ++ done ++ .opn g :: rest ++ post) pre done rest post ts d := by
  set xs := pre ++ done ++ .opn g :: rest ++ post with hxs
  obtain ⟨hl, hcolor⟩ := hc
  have hne := (hl.walk hlast).1
  have hopn : d.links.isEmpty (.opn g) = false := hl.head.isEmpty_of_mem (by simp)
  have hnod := hgr.nodup
  simp only [hxs, append_assoc, cons_append, nodup_append, nodup_cons,
    mem_append, mem_cons, not_or] at hnod
  have hdone : DevNode.opn g ∉ done := fun hmem => hnod.2.1.2.2 _ hmem _ (.inl rfl) rfl
  have hrest : DevNode.opn g ∉ rest := hnod.2.1.2.1.1.1
  have hzero : d.color g = 0 := by simpa [hdone] using hcolor g (by simp)
  by_cases hcls : DevNode.cls g ∈ xs
  · -- The closing marker is still ahead, so the group stays for now.
    have hafter : DevNode.cls g ∈ rest ++ post := by
      rw [hxs, append_assoc, cons_append] at hgr hcls
      exact hgr.cls_after hcls
    have hcls' : d.links.isEmpty (.cls g) = false := by
      refine hl.head.isEmpty_of_mem ?_
      simp only [mem_append, mem_cons] at hafter ⊢
      tauto
    have hbefore : DevNode.cls g ∉ done := by
      intro hmem
      rcases mem_append.mp hafter with hmem' | hmem'
      · exact hnod.2.1.2.2 _ hmem _ (.inr (.inl hmem')) rfl
      · exact hnod.2.1.2.2 _ hmem _ (.inr (.inr hmem')) rfl
    have hnot : contained xs (done ++ [.opn g]) g = false := by simp [contained, hbefore, hcls]
    have hkept := kept_concat_of_not_contained xs done (x := .opn g) rfl hnot
    refine ⟨{ d with color := update d.color g 1 }, [],
      fun fuel n => secondPass_leave hne rfl hopn hcls' hzero, ⟨?_, ?_⟩, .leave rfl hnot,
      by simp, rfl, rfl, rfl⟩
    · rw [hkept]
      simpa using hl
    · exact color_concat rfl hcolor (by simp)
  · -- An open group is removed at its opening marker.
    have hlist : DevNode.cls g ∉ (pre ++ kept xs done) ++ .opn g :: (rest ++ post) := by
      simp only [hxs, mem_append, mem_cons, not_or, reduceCtorEq, not_false_eq_true,
        true_and, and_assoc] at hcls ⊢
      exact ⟨hcls.1, fun hmem => hcls.2.1 (kept_subset hmem), hcls.2.2⟩
    have hl' : Lists d.links ((pre ++ kept xs done) ++ .opn g :: (rest ++ post)) ts := by
      simpa using hl
    have halone : d.links.isEmpty (.cls g) = true := by
      have := (Links.isList_nil_iff.mp (hl'.opened g (by simp) hlist)).1
      simpa [Links.isEmpty] using this
    have hcont : contained xs (done ++ [.opn g]) g = true := by simp [contained, hcls]
    have hkept := kept_concat_of_contained xs done (x := .opn g) rfl hcont
    have hsame : (kept xs done).filter (fun y => nodeToGroup y ≠ some g) = kept xs done := by
      refine filter_group_eq_self (fun hmem => hdone (kept_subset hmem)) fun hmem => hlist ?_
      simp [hmem]
    refine ⟨{ d with
        links := (d.links.moveTail (.opn g) .todo).delInit (.cls g)
        color := update d.color g 2 }, [.opn g],
      fun fuel n => secondPass_remove hne rfl hopn (by simp [halone, hzero]),
      ⟨?_, ?_⟩, .remove rfl (by simp [contained, hdone]) hcont, by simp, rfl, rfl, rfl⟩
    · rw [hkept, hsame]
      simpa using hl'.remove_open hlist
    · refine color_concat rfl hcolor fun hmem => absurd hmem ?_
      simp only [hxs, mem_append, mem_cons, not_or] at hcls ⊢
      exact ⟨hrest, hcls.1.2.2⟩

theorem secondPass_cls (hlast : last = post.headD .head)
    (hgr : Grouped (pre ++ done ++ .cls g :: rest ++ post))
    (hc : Coloring (pre ++ done ++ .cls g :: rest ++ post) pre done (.cls g :: rest) post ts d) :
    StepsOver last (.cls g) (pre ++ done ++ .cls g :: rest ++ post) pre done rest post ts d := by
  set xs := pre ++ done ++ .cls g :: rest ++ post with hxs
  obtain ⟨hl, hcolor⟩ := hc
  have hne := (hl.walk hlast).1
  have hcls : d.links.isEmpty (.cls g) = false := hl.head.isEmpty_of_mem (by simp)
  have hmem : DevNode.cls g ∈ xs := by simp [hxs]
  have hbefore : DevNode.opn g ∈ pre ++ done := by
    rw [hxs, append_assoc, cons_append] at hgr
    exact hgr.opn_before
  have hnod := hgr.nodup
  simp only [hxs, append_assoc, cons_append, nodup_append, nodup_cons,
    mem_append, mem_cons, not_or] at hnod hbefore
  have hdone : DevNode.cls g ∉ done := fun hmem => hnod.2.1.2.2 _ hmem _ (.inl rfl) rfl
  have hrest : DevNode.opn g ∉ rest := by
    intro hmem
    rcases hbefore with hbefore | hbefore
    · exact hnod.2.2 _ hbefore _ (.inr (.inr (.inl hmem))) rfl
    · exact hnod.2.1.2.2 _ hbefore _ (.inr (.inl hmem)) rfl
  have hcolor' : ∀ c g', DevNode.opn g' ∈ rest ∨ DevNode.cls g' ∈ rest → update d.color g c g' =
      if DevNode.opn g' ∈ done ++ [.cls g] then 1 else 0 := by
    refine fun c => color_concat rfl hcolor fun h => ?_
    exact absurd h (not_or.mpr ⟨hrest, hnod.2.1.2.1.1.1⟩)
  by_cases hopn : DevNode.opn g ∈ done
  · -- The opening marker is in the span: both are removed.
    have hkeep := opn_mem_kept hopn hdone hmem
    have hopn' : d.links.isEmpty (.opn g) = false := hl.head.isEmpty_of_mem (by simp [hkeep])
    have hone : d.color g = 1 := by simpa [hopn] using hcolor g (by simp)
    have hcont : contained xs (done ++ [.cls g]) g = true := by simp [contained, hopn]
    have hkept := kept_concat_of_contained xs done (x := .cls g) rfl hcont
    refine ⟨{ d with
        links := (d.links.moveTail (.opn g) .todo).delInit (.cls g)
        color := update d.color g 2 }, [.opn g],
      fun fuel n => secondPass_remove hne rfl hopn' (by simp [hcls, hone]),
      ⟨?_, hcolor' 2⟩, .remove rfl (by simp [contained, hdone, hmem]) hcont, by simp, rfl, rfl,
      rfl⟩
    rw [hkept]
    obtain ⟨ys, zs, hsplit⟩ := append_of_mem hkeep
    have hfilter : (ys ++ .opn g :: zs).filter (fun y => nodeToGroup y ≠ some g) = ys ++ zs := by
      have hkn : (kept xs done).Nodup := hnod.2.1.1.filter _
      have hsub : ∀ y ∈ ys ++ zs, y ≠ .opn g ∧ y ≠ .cls g := by
        intro y hy
        have hy' : y ∈ kept xs done := by
          simp only [hsplit, mem_append, mem_cons] at hy ⊢
          tauto
        refine ⟨?_, fun h => hdone (h ▸ kept_subset hy')⟩
        rintro rfl
        rw [hsplit, nodup_middle, nodup_cons] at hkn
        exact hkn.1 hy
      rw [filter_group_append_cons rfl]
      exact filter_group_eq_self (fun hmem => (hsub _ hmem).1 rfl) fun hmem => (hsub _ hmem).2 rfl
    have hl' : Lists d.links ((pre ++ ys) ++ .opn g :: zs ++ .cls g :: (rest ++ post)) ts := by
      simpa [hsplit] using hl
    rw [hsplit, hfilter]
    simpa using hl'.remove_closed
  · -- The group was opened before the span.
    have hpre : DevNode.opn g ∈ pre := hbefore.resolve_right hopn
    have hopn' : d.links.isEmpty (.opn g) = false := hl.head.isEmpty_of_mem (by simp [hpre])
    have hzero : d.color g = 0 := by simpa [hopn] using hcolor g (by simp)
    have hnot : contained xs (done ++ [.cls g]) g = false := by simp [contained, hopn]
    have hkept := kept_concat_of_not_contained xs done (x := .cls g) rfl hnot
    refine ⟨{ d with color := update d.color g 1 }, [],
      fun fuel n => secondPass_leave hne rfl hopn' hcls hzero, ⟨?_, hcolor' 1⟩, .leave rfl hnot,
      by simp, rfl, rfl, rfl⟩
    rw [hkept]
    simpa using hl

/-- **The second pass.** From the markers `done` on it removes exactly the
groups that the span contains, and none of its `BUG_ON`s is reached. -/
theorem secondPass_spec (hlast : last = post.headD .head) (hxs : xs = pre ++ done ++ rest ++ post)
    (hgr : Grouped xs) (hc : Coloring xs pre done rest post ts d)
    (hmark : ∀ y ∈ rest, y.isMarker) (hfuel : rest.length < fuel) :
    ∃ d' us, secondPass last fuel (rest.headD last) (d.links.next (rest.headD last)) d = some d' ∧
      Lists d'.links (pre ++ kept xs (done ++ rest) ++ post) (ts ++ us) ∧
      Taken xs done (done ++ rest) us ∧ us.length ≤ rest.length ∧
      d'.calls = d.calls ∧ d'.id = d.id ∧ d'.release = d.release := by
  induction fuel generalizing rest done ts d with
  | zero => omega
  | succ fuel ih =>
    cases rest with
    | nil =>
      refine ⟨d, [], by simp [secondPass], by simpa using hc.lists, ?_, by simp, rfl, rfl, rfl⟩
      simpa using Taken.refl xs done
    | cons x rest =>
      have hnext := (hc.lists.walk hlast).2
      have hstep : StepsOver last x xs pre done rest post ts d := by
        subst hxs
        have hx := hmark x (by simp)
        cases x with
        | head => simp [DevNode.isMarker, nodeToGroup] at hx
        | todo => simp [DevNode.isMarker, nodeToGroup] at hx
        | reg r => simp [DevNode.isMarker, nodeToGroup] at hx
        | opn g => exact secondPass_opn hlast hgr hc
        | cls g => exact secondPass_cls hlast hgr hc
      obtain ⟨d₁, us, hstep, hc₁, hus, hlen, hcalls, hid, hrel⟩ := hstep
      obtain ⟨d₂, vs, hrun, hlists, hvs, hlen', hcalls', hid', hrel'⟩ :=
        ih (by simpa using hxs) hc₁ (fun y hy => hmark y (by simp [hy])) (by simpa using hfuel)
      refine ⟨d₂, us ++ vs, ?_, by simpa using hlists, ?_, ?_, hcalls'.trans hcalls,
        hid'.trans hid, hrel'.trans hrel⟩
      · rw [headD_cons, hstep, hnext]
        exact hrun
      · simpa using hus.append hvs
      · rw [length_append, length_cons]
        omega

/-! ### The functions -/

theorem Grouped.filter_isMarker (hgr : Grouped (pre ++ rest ++ post)) :
    Grouped (pre ++ rest.filter (·.isMarker) ++ post) := by
  have hsub : (pre ++ rest.filter (·.isMarker) ++ post).Sublist (pre ++ rest ++ post) :=
    (List.Sublist.append_left filter_sublist pre).append_right post
  refine ⟨hgr.nodup.sublist hsub, hgr.order.sublist hsub, fun g hg => ?_⟩
  have hmem := hgr.paired g (hsub.subset hg)
  simp only [mem_append, mem_filter] at hmem ⊢
  have hmark : (DevNode.opn g).isMarker = true := rfl
  tauto

/-- **`remove_nodes`** on a span that is not empty: every entry of the span is
moved to `todo`, in the order of the list, and so are the opening markers of
the groups that lie in the span; what is left of the span are the markers
of the other groups. -/
theorem removeNodes_spec (hlast : last = post.headD .head) (hgr : Grouped (pre ++ rest ++ post))
    (hl : Lists d.links (pre ++ rest ++ post) []) (hfuel : rest.length < fuel) :
    ∃ d' us, removeNodes fuel d (rest.headD last) last =
        some (d', (rest.filter fun x => !x.isMarker).length) ∧
      Lists d'.links
        (pre ++ kept (pre ++ rest.filter (·.isMarker) ++ post) (rest.filter (·.isMarker)) ++ post)
        ((rest.filter fun x => !x.isMarker) ++ us) ∧
      Taken (pre ++ rest.filter (·.isMarker) ++ post) [] (rest.filter (·.isMarker)) us ∧
      us.length ≤ (rest.filter (·.isMarker)).length ∧
      d'.calls = d.calls ∧ d'.id = d.id ∧ d'.release = d.release := by
  obtain ⟨d₁, hrun, hl₁, hcolor, hcalls, hid, hrel⟩ := firstPass_spec hlast
    (by simpa using hl : Lists d.links (pre ++ [] ++ rest ++ post) []) hfuel
  have hfirst : ([] ++ rest ++ post).headD DevNode.head = rest.headD last := by
    rw [nil_append, headD_append, hlast]
  have hfirst' : (([] : List DevNode) ++ rest.filter (·.isMarker) ++ post).headD DevNode.head =
      (rest.filter (·.isMarker)).headD last := by
    rw [nil_append, headD_append, hlast]
  rw [hfirst, hfirst'] at hrun
  rw [removeNodes, hrun, Option.bind_some]
  simp only [Nat.zero_add]
  rw [append_nil, nil_append] at hl₁
  by_cases hnil : (rest.filter (·.isMarker)).length = 0
  · rw [if_pos hnil]
    have hnil' := length_eq_zero_iff.mp hnil
    rw [hnil'] at hl₁ ⊢
    exact ⟨d₁, [], rfl, by simpa [kept] using hl₁, .refl .., by simp, hcalls, hid, hrel⟩
  · rw [if_neg hnil]
    have hc : Coloring (pre ++ rest.filter (·.isMarker) ++ post) pre [] (rest.filter (·.isMarker))
        post (rest.filter fun x => !x.isMarker) d₁ := by
      refine ⟨by simpa [kept] using hl₁, fun g hg => ?_⟩
      simp only [mem_filter] at hg
      simpa using hcolor g (.inr (hg.imp And.left And.left))
    obtain ⟨d₂, us, hrun₂, hl₂, hus, hlen, hcalls', hid', hrel'⟩ :=
      secondPass_spec hlast (by simp) hgr.filter_isMarker hc
        (fun y hy => (mem_filter.mp hy).2)
        (Nat.lt_of_le_of_lt (length_filter_le ..) hfuel)
    refine ⟨d₂, us, ?_, by simpa using hl₂, hus, hlen, hcalls'.trans hcalls, hid'.trans hid,
      hrel'.trans hrel⟩
    rw [hrun₂, Option.map_some]

/-- The loop of `release_nodes` calls the release functions from the last node
to the first. -/
theorem releaseFrom_spec {us vs : List DevNode} (calls : List DevNode)
    (hl : L.IsList .todo (us ++ vs))
    (hfuel : us.length < fuel) :
    releaseFrom L fuel (us.getLastD .todo) (L.prev (us.getLastD .todo)) calls =
      some (calls ++ us.reverse) := by
  induction fuel generalizing us vs calls with
  | zero => omega
  | succ fuel ih =>
    cases eq_nil_or_concat us with
    | inl hnil => simp [hnil, releaseFrom]
    | inr hconcat =>
      obtain ⟨us, x, rfl⟩ := hconcat
      rw [concat_eq_append] at hl hfuel ⊢
      rw [append_assoc, singleton_append] at hl
      have hx : x ≠ .todo := by
        rintro rfl
        have hnod := hl.nodup
        simp at hnod
      have hlast : (us ++ [x]).getLastD DevNode.todo = x := by simp
      rw [hlast, releaseFrom, if_neg hx, hl.prev_eq, ih _ hl (by simpa using hfuel)]
      simp

theorem releaseNodes_spec (hl : d.links.IsList .todo ts) (hfuel : ts.length < fuel) :
    releaseNodes fuel d = some { d with calls := d.calls ++ ts.reverse } := by
  have hrun := releaseFrom_spec d.calls (by simpa using hl : d.links.IsList .todo (ts ++ [])) hfuel
  simp only [releaseNodes]
  rw [hl.prev_head, hrun, Option.map_some]

end GfpDrivers.Devres
