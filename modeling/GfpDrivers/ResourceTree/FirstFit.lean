import GfpDrivers.ResourceTree.Allocate
import GfpDrivers.ResourceTree.Invariant

/-!
`allocate_resource` takes the first free range, and fails only if there is
none. `reallocate_resource` grows, shrinks or moves a resource and keeps the
tree well formed; its `BUG_ON` is not reached.
-/

namespace GfpDrivers.ResourceTree

open Lib

variable {h : Heap} {root q new old fuel j s : ℕ} {T K F L G : Forest ℕ} {k : Constraint}

/-- The ranges that the constraint allows below `q`, apart from `cs`. -/
abbrev FreeIn (h : Heap) (q : ℕ) (cs : List ℕ) (k : Constraint) (s : ℕ) : Prop :=
  Free h cs k (max (h q).start k.min) (min (h q).end_ k.max) s

/-- A size and an alignment that the callers pass. -/
structure Constraint.Proper (k : Constraint) (j : ℕ) : Prop where
  align : k.align = 2 ^ j
  lt : j < 64
  size_pos : 0 < k.size
  size_lt : k.size < 2 ^ 64
  min_lt : k.min < 2 ^ 64

theorem moveTo_of_ne {a : ℕ} (size : ℕ) (ha : a ≠ new) : moveTo h new s size a = h a := Function.update_of_ne ha _ _

@[simp] theorem moveTo_start (size : ℕ) : (moveTo h new s size new).start = s := by simp [moveTo]

@[simp] theorem moveTo_child {a : ℕ} (size : ℕ) : (moveTo h new s size a).child = (h a).child := by
  by_cases ha : a = new
  · subst ha
    simp [moveTo]
  · rw [moveTo_of_ne size ha]

theorem FreeIn.moveTo_end (new : ℕ) {cs : List ℕ} (hs : FreeIn h q cs k s) (hend : (h q).end_ < 2 ^ 64) (hsize : 0 < k.size) :
    (moveTo h new s k.size new).end_ = s + k.size - 1 := by
  have := hs.le_hi
  simp only [moveTo, Function.update_self]
  exact regionEnd_of_le hsize (by omega)

/-- A range that was found is a gap for `new` among the resources it is apart from. -/
theorem FreeIn.fits {cs : List ℕ} (hs : FreeIn h q cs k s) (hend : (h q).end_ < 2 ^ 64) (hsize : 0 < k.size)
    {h₁ : Heap} (hq : h₁ q = h q) (hnew : h₁ new = moveTo h new s k.size new) : Fits h₁ q new := by
  have hlo := hs.lo_le
  have hhi := hs.le_hi
  rw [Fits, hq, hnew, hs.moveTo_end new hend hsize, moveTo_start]
  omega

/-! ### Allocating -/

/-- The new resource has the first free range below `q`, and is linked there in order. -/
structure Allocated (h : Heap) (root q new : ℕ) (T K : Forest ℕ) (k : Constraint) (h' : Heap) (s : ℕ) : Prop where
  free : FreeIn h q K.roots k s
  first : ∀ s', FreeIn h q K.roots k s' → s ≤ s'
  start : (h' new).start = s
  end_ : (h' new).end_ = s + k.size - 1
  ranges : ∀ a ≠ new, (h' a).start = (h a).start ∧ (h' a).end_ = (h a).end_
  linked : ∃ F G T', K = F ++ G ∧ Replaced root q K (F ++ .cons new .nil G) T T' ∧ WellFormed h' root T'

theorem findLoop_last (h : Heap) (root : ℕ) (old : Option ℕ) (k : Constraint) (fuel t : ℕ) :
    ∃ r, findLoop h root old k (fuel + 1) none t = some r := by
  rw [findLoop]
  dsimp only
  split_ifs <;> exact ⟨_, rfl⟩

/-- A first child that fills the whole range up to the last address. -/
structure Full (h : Heap) (q c : ℕ) (cs : List ℕ) : Prop where
  head : cs.head? = some c
  start : (h c).start = (h q).start
  end_ : 2 ^ 64 - 1 ≤ (h c).end_

theorem Full.not_free {c : ℕ} {cs : List ℕ} (hfull : Full h q c cs) (hend : (h q).end_ < 2 ^ 64) (hsize : 0 < k.size) (s : ℕ) :
    ¬FreeIn h q cs k s := by
  intro hs
  have hapart := hs.apart c (List.mem_of_mem_head? hfull.head)
  have hlo := hs.lo_le
  have hhi := hs.le_hi
  have hcstart := hfull.start
  have hcend := hfull.end_
  omega

/-- There `this->end + 1` wraps, and the search returns something. -/
theorem Full.findResource {c : ℕ} {cs : List ℕ} (hfull : Full h q c cs) (hf : Family h q cs) (hend : (h q).end_ < 2 ^ 64)
    (hfuel : cs.length < fuel) : ∃ r, findResource fuel h q none k = some r := by
  cases cs with
  | nil => cases hfull.head
  | cons d es =>
    obtain rfl : d = c := Option.some.inj hfull.head
    obtain ⟨fuel, rfl⟩ := Nat.exists_eq_add_one_of_ne_zero (show fuel ≠ 0 by omega)
    have hes : es = [] := by
      refine List.eq_nil_iff_forall_not_mem.mpr fun e he => ?_
      have := (List.pairwise_cons.mp hf.before).1 e he
      have := hf.valid e (by simp [he])
      have := hf.inside e (by simp [he])
      have := hfull.end_
      omega
    have hchain := hf.chain
    rw [hes] at hchain
    have hsib : (h d).sibling = none := hchain.2
    simp only [ResourceTree.findResource, hchain.1, hfull.start, if_true, hsib]
    exact findLoop_last h q none k fuel _

theorem Full.conflict {c : ℕ} {h₁ : Heap} (hfull : Full h q c K.roots) (hend : (h q).end_ < 2 ^ 64)
    (hwf₁ : WellFormed h₁ root T) (hq : (tree root T).At q K) (hsame : ∀ a ∈ (tree root T).nodes, h₁ a = h a)
    (hnew : new ∉ (tree root T).nodes) (hchild : (h₁ new).child = none) (hfuel : K.roots.length < fuel) :
    ∃ d, requestResourceConflict fuel h₁ q new = some (h₁, some d) := by
  have hc : c ∈ K.roots := List.mem_of_mem_head? hfull.head
  have hceq : h₁ c = h c := hsame c (hq.subset (Forest.roots_subset_nodes hc))
  rcases hwf₁.requestResourceConflict hq hnew hchild hfuel with
    ⟨F, G, T', rfl, hgap, -⟩ | ⟨-, hrun⟩ | ⟨-, d, -, -, -, -, -, -, -, hrun⟩
  · obtain ⟨hvalid, hin⟩ := hgap.fits
    rw [hsame q hq.mem] at hin
    have hcstart := hfull.start
    have hcend := hfull.end_
    rw [Forest.roots_append, List.mem_append] at hc
    rcases hc with hc | hc
    · have hbefore := hgap.before c hc
      rw [hceq] at hbefore
      omega
    · have hafter := hgap.after c hc
      rw [hceq] at hafter
      omega
  · exact ⟨q, hrun⟩
  · exact ⟨d, hrun⟩

/-- **`allocate_resource` is first fit.** It takes the smallest start that the constraint and the
children of `q` leave, and returns `-EBUSY` exactly if there is none. -/
theorem allocate_first_fit (hwf : WellFormed h root T) (hq : (tree root T).At q K) (hvalid : (h q).start ≤ (h q).end_)
    (hend : (h q).end_ < 2 ^ 64) (hnew : new ∉ (tree root T).nodes) (hparent : (h new).parent = none)
    (hchild : (h new).child = none) (hk : k.Proper j) (hfuel : K.roots.length < fuel) :
    ∃ h' rc, allocateResource fuel h q new k = some (h', rc) ∧
      ((rc = 0 ∧ ∃ s, Allocated h root q new T K k h' s) ∨
        (rc = -EBUSY ∧ (∀ s, ¬FreeIn h q K.roots k s) ∧ ∀ a ≠ new, h' a = h a)) := by
  obtain ⟨hf, -⟩ := hwf.at hq
  have hnodes : ∀ s, ∀ a ∈ (tree root T).nodes, moveTo h new s k.size a = h a := fun s a ha =>
    moveTo_of_ne _ (ne_of_mem_of_not_mem ha hnew)
  have hwf₁ : ∀ s, WellFormed (moveTo h new s k.size) root T := fun s => hwf.congr (hnodes s)
  have hchild₁ : ∀ s, (moveTo h new s k.size new).child = none := fun s => by rw [moveTo_child, hchild]
  rw [allocateResource, if_neg (not_not_intro hparent)]
  by_cases hfull : ∃ c, Full h q c K.roots
  · obtain ⟨c, hfull⟩ := hfull
    have hnone := hfull.not_free (k := k) hend hk.size_pos
    obtain ⟨r, hfind⟩ := hfull.findResource (k := k) hf hend hfuel
    rw [hfind, Option.bind_some]
    cases r with
    | none => exact ⟨h, -EBUSY, rfl, .inr ⟨rfl, hnone, fun a _ => rfl⟩⟩
    | some s =>
        obtain ⟨d, hrun⟩ := hfull.conflict hend (hwf₁ s) hq (hnodes s) hnew (hchild₁ s) hfuel
        refine ⟨moveTo h new s k.size, -EBUSY, ?_, .inr ⟨rfl, hnone, fun a ha => moveTo_of_ne _ ha⟩⟩
        dsimp only
        rw [hrun, Option.map_some]
  · have hfirst : FirstFree h (others none K.roots) k (max (h q).start k.min) (min (h q).end_ k.max)
        (findResource fuel h q none k) := by
      refine findResource_first hk.align hk.lt hk.size_pos hk.size_lt.le hk.min_lt hend hvalid hf hfuel ?_
      intro c hc _ hcstart
      by_contra hcend
      exact hfull ⟨c, hc, hcstart, Nat.not_lt.mp hcend⟩
    rw [others_none] at hfirst
    rcases hfind : findResource fuel h q none k with _ | _ | s
    · rw [hfind] at hfirst
      exact hfirst.elim
    · rw [hfind] at hfirst
      refine ⟨h, -EBUSY, ?_, .inr ⟨rfl, hfirst, fun a _ => rfl⟩⟩
      rw [Option.bind_some]
    · rw [hfind] at hfirst
      obtain ⟨hs, hleast⟩ := hfirst
      have hfits : Fits (moveTo h new s k.size) q new := FreeIn.fits hs hend hk.size_pos (hnodes s q hq.mem) rfl
      have hends := FreeIn.moveTo_end new hs hend hk.size_pos
      rw [Option.bind_some]
      rcases (hwf₁ s).requestResourceConflict hq hnew (hchild₁ s) hfuel with
        ⟨F, G, T', hK, -, hrun, hT', hwf'⟩ | ⟨hnot, -⟩ | ⟨F, a, L, G, rfl, -, -, hleft, hright, -⟩
      · refine ⟨_, 0, ?_, .inl ⟨rfl, s, hs, hleast, ?_, ?_, fun a ha => ?_, F, G, T', hK, hT', hwf'⟩⟩
        · dsimp only
          rw [hrun, Option.map_some]
        · simp [linkNew]
        · simp [linkNew, hends]
        · simp [linkNew, moveTo_of_ne _ ha]
      · exact absurd hfits hnot
      · -- the range that was found overlaps no child
        have ha : a ∈ (F ++ .cons a L G).roots := by simp
        have hapart := hs.apart a ha
        rw [hnodes s a (hq.subset (Forest.roots_subset_nodes ha)), hends] at hleft
        rw [hnodes s a (hq.subset (Forest.roots_subset_nodes ha)), moveTo_start] at hright
        have := hk.size_pos
        omega

/-- The first place that is aligned and lies behind the minimum is taken by the child. -/
theorem allocated_behind_child :
    ∃ h', allocateResource 3 coverHeap 0 2 ⟨0x100, 0x80, 2 ^ 64 - 1, 0x100⟩ = some (h', 0) ∧ (h' 2).start = 0x200 := by
  have hfree : FreeIn coverHeap 0 [1] ⟨0x100, 0x80, 2 ^ 64 - 1, 0x100⟩ 0x200 := by
    refine ⟨by decide, by decide, by decide, fun c hc => .inl ?_⟩
    rw [List.mem_singleton.mp hc]
    decide
  obtain ⟨h', rc, hrun, ⟨rfl, s, hs⟩ | ⟨-, hnone, -⟩⟩ :=
    @allocate_first_fit coverHeap 0 0 2 3 8 (.cons 1 .nil .nil) (.cons 1 .nil .nil) ⟨0x100, 0x80, 2 ^ 64 - 1, 0x100⟩
      coverHeap_wellFormed (.here .nil) (by decide) (by decide) (by decide) rfl rfl
      ⟨by decide, by decide, by decide, by decide, by decide⟩ (by decide)
  · refine ⟨h', hrun, hs.start.trans ?_⟩
    have hle := hs.first _ hfree
    have hlo : 0x80 ≤ s := hs.free.lo_le
    have hapart : 0x1ff < s ∨ s + 0x100 ≤ 0x100 := hs.free.apart 1 (by decide)
    omega
  · exact absurd hfree (hnone _)

/-! ### Reallocating -/

/-- A resource whose range changes, and still contains its children. -/
theorem Family.resize {cs : List ℕ} {e : ℕ} (hf : Family h old cs) (hnot : old ∉ cs)
    (hin : ∀ c ∈ cs, s ≤ (h c).start ∧ (h c).end_ ≤ e) :
    Family (Function.update h old { h old with start := s, end_ := e }) old cs := by
  have hsame : ∀ c ∈ cs, Function.update h old { h old with start := s, end_ := e } c = h c := fun c hc =>
    Function.update_of_ne (ne_of_mem_of_not_mem hc hnot) _ _
  have hr : Ranges (Function.update h old { h old with start := s, end_ := e }) old cs := by
    refine ⟨hf.before.imp_of_mem fun ha hb hab => by rwa [hsame _ ha, hsame _ hb], fun c hc => ?_⟩
    rw [Fits, hsame c hc, Function.update_self]
    exact ⟨hf.valid c hc, hin c hc⟩
  refine Family.of_ranges hr (fun _ => rfl) (fun _ => rfl) ?_ fun c hc => ?_
  · rw [Function.update_self]
    exact hf.chain.congr fun c hc => by rw [hsame c hc]
  · rw [hsame c hc]
    exact hf.parent c hc

/-- A resource whose range changes, but not its place among the children of `q`. -/
theorem WellFormed.resize (hwf : WellFormed h root T) (hq : (tree root T).At q (F ++ .cons old L G)) {e : ℕ}
    (hvalid : s ≤ e) (hin : (h q).start ≤ s ∧ e ≤ (h q).end_) (hF : ∀ d ∈ F.roots, (h d).end_ < s)
    (hG : ∀ d ∈ G.roots, e < (h d).start) (hL : ∀ c ∈ L.roots, s ≤ (h c).start ∧ (h c).end_ ≤ e) :
    WellFormed (Function.update h old { h old with start := s, end_ := e }) root T := by
  set h' := Function.update h old { h old with start := s, end_ := e } with hh'
  obtain ⟨hf, hall⟩ := hwf.at hq
  obtain ⟨hfo, -⟩ := hwf.at hq.root
  obtain ⟨hqK, hKnod⟩ := hq.nodup hwf.nodup
  have hother : ∀ a ≠ old, h' a = h a := fun a ha => Function.update_of_ne ha _ _
  have hlinks : ∀ a, (h' a).parent = (h a).parent ∧ (h' a).sibling = (h a).sibling ∧ (h' a).child = (h a).child := by
    intro a
    by_cases ha : a = old
    · subst ha
      simp [hh']
    · rw [hother a ha]
      exact ⟨rfl, rfl, rfl⟩
  have hold : (h' old).start = s ∧ (h' old).end_ = e := by simp [hh']
  have hqold : q ≠ old := by
    rintro rfl
    exact hqK (by simp)
  simp only [Forest.roots_append, Forest.roots_cons] at hf
  have hnot := (List.nodup_cons.mp (List.nodup_middle.mp hf.nodup)).1
  have hperm : (F ++ .cons old L G).nodes.Perm (old :: (F ++ (L ++ G)).nodes) := Forest.nodes_middle
  obtain ⟨holdK, hnod⟩ := List.nodup_cons.mp (hperm.nodup_iff.mp hKnod)
  -- below the other resources nothing has changed
  have hsame : ∀ {E : Forest ℕ}, E.All (Family h) → E.nodes.Nodup → old ∉ E.nodes → E.All (Family h') := by
    intro E hE hEnod hE'
    refine hE.inner hEnod fun n cs hn hcs hfn => hfn.of_eq (hother n (ne_of_mem_of_not_mem hn hE')) fun c hc => ?_
    exact hother c (ne_of_mem_of_not_mem (hcs c hc).1 hE')
  have hranges : Ranges h' q (F.roots ++ old :: G.roots) := by
    have hFG : ∀ c ∈ F.roots ++ G.roots, h' c = h c := fun c hc => hother c (ne_of_mem_of_not_mem hc hnot)
    have hsub : (F.roots ++ G.roots).Sublist (F.roots ++ old :: G.roots) := (List.sublist_cons_self ..).append_left _
    have hrest := hf.ranges.sublist hsub
    have hrest' : Ranges h' q (F.roots ++ G.roots) := by
      refine ⟨hrest.before.imp_of_mem fun ha hb hab => ?_, fun c hc => ?_⟩
      · rwa [hFG _ ha, hFG _ hb]
      · rw [Fits, hFG c hc, hother q hqold]
        exact hrest.fits c hc
    refine hrest'.insert ?_ (fun d hd => ?_) fun d hd => ?_
    · rw [Fits, hold.1, hold.2, hother q hqold]
      exact ⟨hvalid, hin⟩
    · rw [hFG d (by simp [hd]), hold.1]
      exact hF d hd
    · rw [hFG d (by simp [hd]), hold.2]
      exact hG d hd
  have hfq : Family h' q (F ++ .cons old L G).roots := by
    rw [Forest.roots_append, Forest.roots_cons]
    refine Family.of_ranges hranges (fun _ => rfl) (fun _ => rfl) ?_ fun c hc => ?_
    · rw [(hlinks q).2.2]
      exact hf.chain.congr fun c _ => (hlinks c).2.1
    · rw [(hlinks c).1]
      exact hf.parent c hc
  have hfold : Family h' old L.roots :=
    hfo.resize (fun hmem => holdK (by simp [Forest.roots_subset_nodes hmem])) hL
  have hallK : (F ++ .cons old L G).All (Family h') := by
    simp only [Forest.nodes_append, List.nodup_append] at hnod
    simp only [Forest.nodes_append, List.mem_append, not_or] at holdK
    simp only [Forest.all_append, Forest.all_cons] at hall ⊢
    exact ⟨hsame hall.1 hnod.1 holdK.1, hfold, hsame hall.2.2.1 hnod.2.1.1 holdK.2.1,
      hsame hall.2.2.2 hnod.2.1.2.1 holdK.2.2⟩
  refine ⟨hwf.nodup, Forest.Replace.all hq hwf.nodup hwf.family hfq hallK fun n cs hn hnK hcs hfn => ?_⟩
  have holdmem : old ∈ (F ++ .cons old L G).nodes := by simp
  refine hfn.of_eq (hother n ?_) fun c hc => hother c ?_
  · rintro rfl
    exact hnK (by simp)
  · rintro rfl
    exact (hcs c hc).2 holdmem

/-- What a successful reallocation leaves: the same resources, `old` at a place that the constraint
allows, apart from its siblings, and its children inside it. -/
structure Reallocated (h : Heap) (root q old : ℕ) (T F L G : Forest ℕ) (k : Constraint) (h' : Heap) : Prop where
  tree : ∃ T', WellFormed h' root T' ∧ (tree root T').nodes.Perm (ResourceTree.tree root T).nodes
  free : FreeIn h q (F.roots ++ G.roots) k (h' old).start
  end_ : (h' old).end_ = (h' old).start + k.size - 1
  parent : (h' old).parent = some q
  children : Family h' old L.roots
  ranges : ∀ a ≠ old, (h' a).start = (h a).start ∧ (h' a).end_ = (h a).end_

theorem range_of_contains {r₁ r₂ : Resource} (hc : resourceContains r₁ r₂ = true) :
    r₁.start ≤ r₂.start ∧ r₂.end_ ≤ r₁.end_ := by
  rw [resourceContains] at hc
  split_ifs at hc with htype hunset
  exact of_decide_eq_true hc

theorem Family.others_eq {n : ℕ} {ds es : List ℕ} (hf : Family h n (ds ++ old :: es)) :
    others (some old) (ds ++ old :: es) = ds ++ es := by
  have hnot := (List.nodup_cons.mp (List.nodup_middle.mp hf.nodup)).1
  have hkeep : ∀ l : List ℕ, old ∉ l → others (some old) l = l := fun l hl =>
    List.filter_eq_self.mpr fun c hc => by simpa using ne_of_mem_of_not_mem hc hl
  rw [List.mem_append, not_or] at hnot
  rw [others, List.filter_append]
  congr 1
  · exact hkeep ds hnot.1
  · exact others_cons_self.trans (hkeep es hnot.2)

/-- The new range meets the old one, so it lies between the same siblings. -/
theorem FreeIn.resize (hs : FreeIn h q (F.roots ++ G.roots) k s) (hwf : WellFormed h root T)
    (hq : (tree root T).At q (F ++ .cons old L G)) (hend : (h q).end_ < 2 ^ 64) (hsize : 0 < k.size)
    (hmeet : s ≤ (h old).end_ ∧ (h old).start ≤ s + k.size - 1)
    (hL : ∀ c ∈ L.roots, s ≤ (h c).start ∧ (h c).end_ ≤ s + k.size - 1) :
    Reallocated h root q old T F L G k (moveTo h old s k.size) := by
  obtain ⟨hf, -⟩ := hwf.at hq
  have hlo := hs.lo_le
  have hhi := hs.le_hi
  simp only [Forest.roots_append, Forest.roots_cons] at hf
  obtain ⟨-, hafter, hbefore⟩ := List.pairwise_append.mp hf.before
  have hmove : moveTo h old s k.size = Function.update h old { h old with start := s, end_ := s + k.size - 1 } := by
    rw [moveTo, regionEnd_of_le hsize (by omega)]
  have hwf' : WellFormed (moveTo h old s k.size) root T := by
    rw [hmove]
    refine hwf.resize hq (by omega) (by omega) (fun d hd => ?_) (fun d hd => ?_) hL
    · have hd' := hbefore d hd old (by simp)
      have := hf.valid d (by simp [hd])
      rcases hs.apart d (by simp [hd]) with hapart | hapart <;> omega
    · have hd' := (List.pairwise_cons.mp hafter).1 d hd
      have := hf.valid d (by simp [hd])
      rcases hs.apart d (by simp [hd]) with hapart | hapart <;> omega
  refine ⟨⟨T, hwf', .refl _⟩, by rwa [moveTo_start], ?_, ?_, (hwf'.at hq.root).1, fun a ha => ?_⟩
  · rw [hs.moveTo_end _ hend hsize, moveTo_start]
  · have hparent := (hwf'.at hq).1.parent old (by simp)
    exact hparent
  · rw [moveTo_of_ne _ ha]
    exact ⟨rfl, rfl⟩

/-- A resource without children is unlinked and linked again at its new range. -/
theorem FreeIn.relink (hs : FreeIn h q (F.roots ++ G.roots) k s) (hwf : WellFormed h root T)
    (hq : (tree root T).At q (F ++ .cons old .nil G)) (hend : (h q).end_ < 2 ^ 64) (hsize : 0 < k.size)
    (hfuel : (F.roots ++ old :: G.roots).length < fuel) :
    ∃ h₁ h', doReleaseResource fuel h old true = some (h₁, 0) ∧
      requestResourceConflict fuel (Function.update h₁ old (moveTo h old s k.size old)) q old = some (h', none) ∧
      Reallocated h root q old T F .nil G k h' := by
  obtain ⟨hf, -⟩ := hwf.at hq
  obtain ⟨hfo, -⟩ := hwf.at hq.root
  obtain ⟨hqK, hKnod⟩ := hq.nodup hwf.nodup
  have hqo : old ≠ q := by
    rintro rfl
    exact hqK (by simp)
  simp only [Forest.roots_append, Forest.roots_cons] at hf
  rw [List.length_append, List.length_cons] at hfuel
  set h₁ := setParent (((Slot.child q).after F.roots).write h (h old).sibling) old none with hh₁
  have hranges₁ : ∀ a, (h₁ a).start = (h a).start ∧ (h₁ a).end_ = (h a).end_ := fun a => by simp [hh₁]
  obtain ⟨T₁, hT₁, hwf₁⟩ := hwf.unlink h₁ hq (fun a ha => setParent_of_ne ha)
    ⟨(hranges₁ old).1, (hranges₁ old).2, by rw [hh₁, setParent_child, write_after_child hqo]⟩
  have hperm₁ : (tree root T).nodes.Perm (old :: (tree root T₁).nodes) :=
    Replaced.perm_insert (Forest.Replace.symm hT₁)
  have hold₁ : old ∉ (tree root T₁).nodes := (List.nodup_cons.mp (hperm₁.nodup_iff.mp hwf.nodup)).1
  set h₂ := Function.update h₁ old (moveTo h old s k.size old) with hh₂
  have hother : ∀ a ≠ old, h₂ a = h₁ a := fun a ha => Function.update_of_ne ha _ _
  have hwf₂ : WellFormed h₂ root T₁ := hwf₁.congr fun a ha => hother a (ne_of_mem_of_not_mem ha hold₁)
  have hq₁ : (tree root T₁).At q (F ++ G) := Forest.Replace.at_right hT₁
  have hold₂ : (h₂ old).start = s ∧ (h₂ old).end_ = s + k.size - 1 := by
    rw [hh₂, Function.update_self]
    exact ⟨moveTo_start _, hs.moveTo_end _ hend hsize⟩
  have hranges : ∀ a ≠ old, (h₂ a).start = (h a).start ∧ (h₂ a).end_ = (h a).end_ := fun a ha => by
    rw [hother a ha]
    exact hranges₁ a
  have hchild₂ : (h₂ old).child = none := by
    rw [hh₂, Function.update_self, moveTo_child]
    exact hfo.chain
  have hfits : Fits h₂ q old := by
    have hlo := hs.lo_le
    have hhi := hs.le_hi
    rw [Fits, hold₂.1, hold₂.2, (hranges q hqo.symm).1, (hranges q hqo.symm).2]
    omega
  have hlen : (F ++ G).roots.length < fuel := by
    rw [Forest.roots_append, List.length_append]
    omega
  have hrelease : doReleaseResource fuel h old true = some (h₁, 0) := hf.doReleaseResource_unlink (.inr rfl) (by omega)
  rcases hwf₂.requestResourceConflict hq₁ hold₁ hchild₂ hlen with
    ⟨F', G', T', hFG, -, hrun, hT', hwf'⟩ | ⟨hnot, -⟩ | ⟨F', a, L', G', hFG, -, -, hleft, hright, -⟩
  · have hat : (tree root T').At q (F' ++ .cons old .nil G') := Forest.Replace.at_right hT'
    rw [hFG] at hT'
    refine ⟨h₁, _, hrelease, hrun, ⟨T', hwf', hT'.perm_insert.trans hperm₁.symm⟩, ?_, ?_, ?_, ?_, fun a ha => ?_⟩
    · simpa [linkNew, hold₂.1] using hs
    · simp [linkNew, hold₂]
    · exact (hwf'.at hat).1.parent old (by simp)
    · exact (hwf'.at hat.root).1
    · simp [linkNew, hranges a ha]
  · exact absurd hfits hnot
  · -- the new range overlaps no sibling
    have ha : a ∈ (F ++ G).roots := by simp [hFG]
    have hne : a ≠ old := ne_of_mem_of_not_mem (hq₁.subset (Forest.roots_subset_nodes ha)) hold₁
    rw [Forest.roots_append] at ha
    rw [hold₂.2, (hranges a hne).1] at hleft
    rw [hold₂.1, (hranges a hne).2] at hright
    rcases hs.apart a ha with hapart | hapart <;> omega

/-- **`reallocate_resource`** returns without reaching its `BUG_ON`. It gives `old` a range of the
new size that the constraint allows and keeps the tree well formed, or it leaves everything as it was. -/
theorem reallocate_safe (hwf : WellFormed h root T) (hq : (tree root T).At q (F ++ .cons old L G))
    (hend : (h q).end_ < 2 ^ 64) (hk : k.Proper j) (hfuel : (F.roots ++ old :: G.roots).length < fuel) :
    ∃ h' rc, reallocateResource fuel h q old k = some (h', rc) ∧
      ((rc = 0 ∧ Reallocated h root q old T F L G k h') ∨ (rc = -EBUSY ∧ h' = h)) := by
  obtain ⟨hf, -⟩ := hwf.at hq
  obtain ⟨hfo, -⟩ := hwf.at hq.root
  simp only [Forest.roots_append, Forest.roots_cons] at hf
  have hin := hf.inside old (by simp)
  have hvalid := hf.valid old (by simp)
  have hsize := hk.size_pos
  have hfirst : FirstFree h (others (some old) (F.roots ++ old :: G.roots)) k (max (h q).start k.min)
      (min (h q).end_ k.max) (findResource fuel h q (some old) k) := by
    refine findResource_first hk.align hk.lt hsize hk.size_lt.le hk.min_lt hend (by omega) hf hfuel ?_
    intro c hc hne _
    -- `old` comes behind a first child that is not `old`
    have hbefore : (h c).end_ < (h old).start := by
      cases hF : F.roots with
      | nil =>
          rw [hF] at hc
          exact absurd (Option.some.inj hc).symm fun h => hne (congrArg some h)
      | cons d ds =>
          rw [hF] at hc hf
          obtain rfl : d = c := Option.some.inj hc
          exact (List.pairwise_cons.mp hf.before).1 old (by simp)
    omega
  rw [hf.others_eq] at hfirst
  rw [reallocateResource]
  match findResource fuel h q (some old) k, hfirst with
  | some none, _ => exact ⟨h, -EBUSY, rfl, .inr ⟨rfl, rfl⟩⟩
  | some (some s), ⟨hs, _⟩ =>
      have hs' : FreeIn h q (F.roots ++ G.roots) k s := hs
      have hends := FreeIn.moveTo_end old hs' hend hsize
      rw [Option.bind_some]
      dsimp only
      split_ifs with hgrow hkids hshrink
      · obtain ⟨hleft, hright⟩ := range_of_contains hgrow
        rw [moveTo_start] at hleft
        rw [hends] at hright
        refine ⟨_, 0, rfl, .inl ⟨rfl, hs'.resize hwf hq hend hsize (by omega) fun c hc => ?_⟩⟩
        have := hfo.inside c hc
        omega
      · exact ⟨h, -EBUSY, rfl, .inr ⟨rfl, rfl⟩⟩
      · obtain ⟨hleft, hright⟩ := range_of_contains hshrink
        rw [moveTo_start] at hleft
        rw [hends] at hright
        refine ⟨_, 0, rfl, .inl ⟨rfl, hs'.resize hwf hq hend hsize (by omega) fun c hc => ?_⟩⟩
        have hchain := hfo.chain
        rw [not_not.mp hkids] at hchain
        cases hL : L.roots with
        | nil => simp [hL] at hc
        | cons d ds =>
            rw [hL] at hchain
            cases hchain.1
      · have hL : L = .nil := by
          have hchain := hfo.chain
          rw [not_not.mp hkids] at hchain
          cases L with
          | nil => rfl
          | cons d L' G' => cases hchain.1
        subst hL
        obtain ⟨h₁, h', hrelease, hrequest, hdone⟩ := hs'.relink hwf hq hend hsize hfuel
        refine ⟨h', 0, ?_, .inl ⟨rfl, hdone⟩⟩
        rw [hrelease, Option.bind_some]
        dsimp only
        rw [hrequest, Option.bind_some]

/-- The only child grows into the room in front of it. -/
theorem child_grows :
    ∃ h', reallocateResource 3 sampleHeap 0 1 ⟨0x200, 0, 2 ^ 64 - 1, 0x200⟩ = some (h', 0) ∧
      Reallocated sampleHeap 0 0 1 (.cons 1 .nil .nil) .nil .nil .nil ⟨0x200, 0, 2 ^ 64 - 1, 0x200⟩ h' := by
  have hzero : (reallocateResource 3 sampleHeap 0 1 ⟨0x200, 0, 2 ^ 64 - 1, 0x200⟩).map Prod.snd = some 0 := by decide
  obtain ⟨h', rc, hrun, ⟨rfl, hdone⟩ | ⟨rfl, -⟩⟩ :=
    @reallocate_safe sampleHeap 0 0 1 3 9 (.cons 1 .nil .nil) .nil .nil .nil ⟨0x200, 0, 2 ^ 64 - 1, 0x200⟩
      sampleHeap_wellFormed (.here .nil) (by decide) ⟨by decide, by decide, by decide, by decide, by decide⟩ (by decide)
  · exact ⟨h', hrun, hdone⟩
  · rw [hrun] at hzero
    exact absurd (Option.some.inj hzero) (show -EBUSY ≠ 0 by decide)

end GfpDrivers.ResourceTree
