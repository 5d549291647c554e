import GfpDrivers.ResourceTree.Edits

/-!
What the functions of `resource.c` do to a well-formed tree. Each of them
returns, if its loops may make as many rounds as the tree has resources; on
success the tree is well formed again, and a call that fails has written
nothing in the tree.
-/

namespace GfpDrivers.ResourceTree

open Lib

variable {h h' : Heap} {root q new old fuel : ℕ} {p : Slot} {cs ds es ms : List ℕ}
  {T K : Forest ℕ}

theorem WellFormed.congr (hwf : WellFormed h root T)
    (hh : ∀ a ∈ (tree root T).nodes, h' a = h a) : WellFormed h' root T := by
  refine ⟨hwf.nodup, hwf.family.inner hwf.nodup fun n cs hn hcs hf => ?_⟩
  exact hf.of_eq (hh n hn) fun c hc => hh c (hcs c hc).1

/-- If the first one of some children starts after an address, so do the ones
that follow it. -/
theorem Family.after_head {n x : ℕ} (ds : List ℕ) (hf : Family h n (ds ++ es))
    (hes : ∀ e ∈ es.head?, x < (h e).start) : ∀ e ∈ es, x < (h e).start := by
  have hbefore := (List.pairwise_append.mp hf.before).2.1
  cases es with
  | nil => simp
  | cons e es =>
    have he := hes e (by simp)
    have hvalid := hf.valid e (by simp)
    intro e' he'
    rcases List.mem_cons.mp he' with rfl | he'
    · exact he
    · have := (List.pairwise_cons.mp hbefore).1 e' he'
      omega

/-! ### Requesting -/

/-- The loop of `__request_resource` passes the children that end before `new`
starts. It links `new` there, or it meets a child that overlaps `new`. -/
theorem requestLoop_cases (hp : Siblings h (p.read h) cs none) (hfuel : cs.length < fuel) :
    (∃ ds es, cs = ds ++ es ∧ (∀ d ∈ ds, (h d).end_ < (h new).start) ∧
      (∀ e ∈ es.head?, (h new).end_ < (h e).start) ∧
      requestLoop h root new fuel p = some (linkNew h (p.after ds) root new, none)) ∨
    (∃ ds c es, cs = ds ++ c :: es ∧ (∀ d ∈ ds, (h d).end_ < (h new).start) ∧
      (h c).start ≤ (h new).end_ ∧ (h new).start ≤ (h c).end_ ∧
      requestLoop h root new fuel p = some (h, some c)) := by
  induction fuel generalizing p cs with
  | zero => omega
  | succ fuel ih =>
    cases cs with
    | nil =>
      have hread : p.read h = none := hp
      refine .inl ⟨[], [], rfl, by simp, by simp, ?_⟩
      simp only [requestLoop, hread]
      rfl
    | cons c cs =>
      obtain ⟨hread, hrest⟩ := hp
      by_cases hafter : (h new).end_ < (h c).start
      · refine .inl ⟨[], c :: cs, rfl, by simp, by simpa using hafter, ?_⟩
        simp only [requestLoop, hread, if_pos hafter]
        rfl
      · by_cases hbefore : (h c).end_ < (h new).start
        · have hstep : requestLoop h root new (fuel + 1) p =
              requestLoop h root new fuel (.sibling c) := by
            simp only [requestLoop, hread, if_neg hafter, if_pos hbefore]
          rw [hstep]
          rcases ih (p := .sibling c) hrest (by simpa using hfuel) with
            ⟨ds, es, rfl, hds, hes, hrun⟩ | ⟨ds, d, es, rfl, hds, hd, hd', hrun⟩
          · exact .inl ⟨c :: ds, es, rfl, by simpa using ⟨hbefore, hds⟩, hes, hrun⟩
          · exact .inr ⟨c :: ds, d, es, rfl, by simpa using ⟨hbefore, hds⟩, hd, hd', hrun⟩
        · refine .inr ⟨[], c, cs, rfl, by simp, by omega, by omega, ?_⟩
          simp only [requestLoop, hread, if_neg hafter, if_neg hbefore]

/-- **`__request_resource`** links `new` below `q`, or it returns `q` because
`new` does not fit, or the first child of `q` that overlaps `new`. -/
theorem WellFormed.requestResourceConflict (hwf : WellFormed h root T)
    (hq : (tree root T).At q K) (hnew : new ∉ (tree root T).nodes) (hchild : (h new).child = none)
    (hfuel : K.roots.length < fuel) :
    (∃ F G T', K = F ++ G ∧ Gap h q new F G ∧
      requestResourceConflict fuel h q new = some (ResourceTree.linkNew h ((Slot.child q).after F.roots) q new, none) ∧
      Replaced root q K (F ++ .cons new .nil G) T T' ∧
      WellFormed (ResourceTree.linkNew h ((Slot.child q).after F.roots) q new) root T') ∨
    (¬Fits h q new ∧ requestResourceConflict fuel h q new = some (h, some q)) ∨
    ∃ F a L G, K = F ++ .cons a L G ∧ Fits h q new ∧
      (∀ d ∈ F.roots, (h d).end_ < (h new).start) ∧ (h a).start ≤ (h new).end_ ∧
      (h new).start ≤ (h a).end_ ∧ requestResourceConflict fuel h q new = some (h, some a) := by
  by_cases hfits : Fits h q new
  · obtain ⟨hf, -⟩ := hwf.at hq
    have ⟨hvalid, hleft, hright⟩ := hfits
    have hrun : ResourceTree.requestResourceConflict fuel h q new =
        requestLoop h q new fuel (.child q) := by
      rw [ResourceTree.requestResourceConflict, if_neg (by omega), if_neg (by omega),
        if_neg (by omega)]
    rw [hrun]
    rcases @requestLoop_cases h q new fuel (.child q) K.roots hf.chain hfuel with
      ⟨ds, es, hK, hds, hes, hloop⟩ | ⟨ds, c, es, hK, hds, hc, hc', hloop⟩
    · rw [hK] at hf
      have hafter := hf.after_head _ hes
      obtain ⟨F, G, rfl, rfl, rfl⟩ := Forest.split_roots hK
      have hgap : Gap h q new F G := ⟨hfits, hds, hafter⟩
      obtain ⟨T', hT', hwf'⟩ := hwf.linkNew hq hnew hchild hgap
      exact .inl ⟨F, G, T', rfl, hgap, hloop, hT', hwf'⟩
    · obtain ⟨F, L, G, rfl, rfl, rfl⟩ := Forest.split_root hK
      exact .inr (.inr ⟨F, c, L, G, rfl, hfits, hds, hc, hc', hloop⟩)
  · refine .inr (.inl ⟨hfits, ?_⟩)
    rw [Fits, not_and_or, not_and_or] at hfits
    simp only [ResourceTree.requestResourceConflict]
    split_ifs with h₁ h₂ h₃
    · rfl
    · rfl
    · rfl
    · omega

theorem length_below_le (hq : (tree root T).At q K) : K.nodes.length ≤ T.nodes.length := by
  have hlen := hq.length_lt
  simp only [tree, Forest.nodes_cons, Forest.nodes_nil, List.append_nil, List.length_cons] at hlen
  omega

/-! ### Releasing -/

/-- The loop of `__release_resource` finds the link that leads to `old`. -/
theorem releaseLoop_eq (releaseChild : Bool) (hp : Siblings h (p.read h) (ds ++ old :: es) none)
    (hold : old ∉ ds) (hfuel : ds.length < fuel) :
    releaseLoop h old releaseChild fuel p =
      (releaseAt (fuel - (ds.length + 1)) h (p.after ds) old releaseChild).map (·, 0) := by
  induction fuel generalizing p ds with
  | zero => omega
  | succ fuel ih =>
    cases ds with
    | nil =>
      have hread : p.read h = some old := hp.1
      simp only [releaseLoop, hread, if_pos]
      rfl
    | cons d ds =>
      have hread : p.read h = some d := hp.1
      rw [List.mem_cons, not_or] at hold
      have hrun := ih (p := .sibling d) hp.2 hold.2 (by simpa using hfuel)
      have hne : d ≠ old := fun h => hold.1 h.symm
      simp only [releaseLoop, hread, if_neg hne]
      rw [hrun, List.length_cons, Nat.add_sub_add_right]
      rfl

theorem Family.not_mem_before (hf : Family h q (ds ++ old :: es)) : old ∉ ds := by
  intro hmem
  have hnod := (List.nodup_cons.mp (List.nodup_middle.mp hf.nodup)).1
  exact hnod (List.mem_append_left _ hmem)

theorem Family.doReleaseResource_eq (hf : Family h q (ds ++ old :: es)) (releaseChild : Bool) (hfuel : ds.length < fuel) :
    doReleaseResource fuel h old releaseChild =
      (releaseAt (fuel - (ds.length + 1)) h ((Slot.child q).after ds) old releaseChild).map (·, 0) := by
  rw [doReleaseResource, hf.parent old (by simp), Option.bind_some,
    releaseLoop_eq releaseChild (p := .child q) hf.chain hf.not_mem_before hfuel]

/-- Without children, or with all of them, `old` is just unlinked. -/
theorem Family.doReleaseResource_unlink (hf : Family h q (ds ++ old :: es)) {releaseChild : Bool}
    (hleaf : (h old).child = none ∨ releaseChild = true) (hfuel : ds.length < fuel) :
    doReleaseResource fuel h old releaseChild =
      some (setParent (((Slot.child q).after ds).write h (h old).sibling) old none, 0) := by
  rw [hf.doReleaseResource_eq releaseChild hfuel, releaseAt]
  cases hchild : (h old).child with
  | none => rfl
  | some child =>
    rw [hchild] at hleaf
    simp only [reduceCtorEq, false_or] at hleaf
    simp [hleaf]

theorem Family.doReleaseResource_hoist {last : ℕ} (hf : Family h q (ds ++ old :: es))
    (hkids : Siblings h (h old).child cs none) (hlast : cs = ms ++ [last]) (hfuel : ds.length + cs.length < fuel) :
    doReleaseResource fuel h old false = some (hoisted h q old ds cs last, 0) := by
  subst hlast
  rw [List.length_append, List.length_singleton] at hfuel
  rw [hf.doReleaseResource_eq false (by omega)]
  cases hchild : (h old).child with
  | none =>
    rw [hchild] at hkids
    cases ms with
    | nil => cases hkids.1
    | cons c ms => cases hkids.1
  | some child =>
    rw [hchild] at hkids
    have hhoist := hoistChildren_eq (v := some q) hkids (by omega : ms.length < fuel - (ds.length + 1))
    simp only [releaseAt, hchild, hf.parent old (by simp), hhoist, Option.map_some, setParents_child,
      write_after_sibling hf.not_mem_before, setParents_sibling, hoisted]
    rfl

/-- **`__release_resource`** of a resource below the root unlinks it, together
with what is below it or in exchange for its children. -/
theorem WellFormed.doReleaseResource (hwf : WellFormed h root T)
    (hmem : old ∈ (tree root T).nodes) (hne : old ≠ root) (releaseChild : Bool)
    (hfuel : T.nodes.length < fuel) :
    ∃ h' T', doReleaseResource fuel h old releaseChild = some (h', 0) ∧ WellFormed h' root T' ∧
      T'.nodes.length ≤ T.nodes.length := by
  obtain ⟨q, K, hq, hroot, -⟩ := hwf.exists_parent hmem hne
  obtain ⟨ds, es, hK⟩ := List.append_of_mem hroot
  obtain ⟨F, L, G, rfl, rfl, rfl⟩ := Forest.split_root hK
  have hlenK := length_below_le hq
  have hlenF := Forest.length_roots_le (F := F)
  have hlenL := Forest.length_roots_le (F := L)
  simp only [Forest.nodes_append, Forest.nodes_cons, List.length_append, List.length_cons] at hlenK
  obtain ⟨hf, -⟩ := hwf.at hq
  obtain ⟨hfo, -⟩ := hwf.at hq.root
  rw [hK] at hf
  by_cases hleaf : (h old).child = none ∨ releaseChild = true
  · have hqo : old ≠ q := by
      rintro rfl
      exact (hq.nodup hwf.nodup).1 (by simp)
    obtain ⟨T', hT', hwf'⟩ := hwf.unlink
      (setParent (((Slot.child q).after F.roots).write h (h old).sibling) old none) hq
      (fun a ha => setParent_of_ne ha) (by
        simp only [setParent_start, setParent_end, setParent_child, write_start, write_end]
        exact ⟨trivial, trivial, write_after_child hqo⟩)
    refine ⟨_, T', hf.doReleaseResource_unlink hleaf (by omega), hwf', ?_⟩
    have hlen := hT'.length
    simp only [Forest.nodes_append, Forest.nodes_cons, List.length_append, List.length_cons] at hlen
    omega
  · rw [not_or, Bool.not_eq_true] at hleaf
    obtain ⟨hchild, rfl⟩ := hleaf
    rcases List.eq_nil_or_concat L.roots with hnil | ⟨ms, last, hL⟩
    · have hpath := hfo.chain
      rw [hnil] at hpath
      exact absurd hpath hchild
    · rw [List.concat_eq_append] at hL
      obtain ⟨T', hT', hwf'⟩ := hwf.hoisted hq hL
      refine ⟨_, T', hf.doReleaseResource_hoist hfo.chain hL (by omega), hwf', ?_⟩
      have hlen := hT'.length
      simp only [Forest.nodes_append, Forest.nodes_cons, List.length_append, List.length_cons] at hlen
      omega

/-! ### Overlaps -/

/-- The ranges meet, and none of them contains the other. -/
def PartlyOverlaps (a b : Resource) : Prop :=
  a.start ≤ b.end_ ∧ b.start ≤ a.end_ ∧ ¬(a.start ≤ b.start ∧ b.end_ ≤ a.end_) ∧
    ¬(b.start ≤ a.start ∧ a.end_ ≤ b.end_)

/-- Some resource of the forest overlaps `new` partly. -/
def Overlapped (h : Heap) (new : ℕ) (K : Forest ℕ) : Prop := ∃ a ∈ K.nodes, PartlyOverlaps (h a) (h new)

theorem overlapped_append {F G : Forest ℕ} : Overlapped h new (F ++ G) ↔ Overlapped h new F ∨ Overlapped h new G := by
  simp only [Overlapped, Forest.nodes_append, List.mem_append, or_and_right, exists_or]

theorem overlapped_cons {a : ℕ} {L G : Forest ℕ} :
    Overlapped h new (.cons a L G) ↔ PartlyOverlaps (h a) (h new) ∨ Overlapped h new L ∨ Overlapped h new G := by
  simp only [Overlapped, Forest.nodes_cons, List.mem_cons, List.mem_append, or_and_right, exists_or, exists_eq_left]

/-- All that is below some resources lies in their ranges. -/
theorem inside_roots {F : Forest ℕ} (hall : F.All (Family h)) (hvalid : ∀ c ∈ F.roots, (h c).start ≤ (h c).end_) :
    ∀ n ∈ F.nodes, ∃ c ∈ F.roots, (h c).start ≤ (h n).start ∧ (h n).start ≤ (h n).end_ ∧ (h n).end_ ≤ (h c).end_ := by
  induction F with
  | nil => simp
  | cons a L G ihL ihG =>
    obtain ⟨hf, hL, hG⟩ := hall
    intro n hn
    simp only [Forest.nodes_cons, List.mem_cons, List.mem_append] at hn
    rcases hn with rfl | hn | hn
    · exact ⟨n, by simp, le_rfl, hvalid n (by simp), le_rfl⟩
    · obtain ⟨c, hc, hin⟩ := ihL hL hf.valid n hn
      have := hf.inside c hc
      exact ⟨a, by simp, by omega⟩
    · obtain ⟨c, hc, hin⟩ := ihG hG (fun c hc => hvalid c (by simp [hc])) n hn
      exact ⟨c, by simp [hc], hin⟩

/-- Nothing overlaps `new` partly below resources that are apart from it or inside it. -/
theorem not_overlapped {F : Forest ℕ} (hall : F.All (Family h)) (hvalid : ∀ c ∈ F.roots, (h c).start ≤ (h c).end_)
    (hroots : ∀ c ∈ F.roots, (h c).end_ < (h new).start ∨ (h new).end_ < (h c).start ∨
      ((h new).start ≤ (h c).start ∧ (h c).end_ ≤ (h new).end_)) : ¬Overlapped h new F := by
  rintro ⟨n, hn, hover⟩
  obtain ⟨c, hc, hin⟩ := inside_roots hall hvalid n hn
  obtain ⟨hleft, hright, -, hcover⟩ := hover
  have := hroots c hc
  omega

/-- Below `q`, only what is below the child that contains `new` can overlap it partly. -/
theorem Family.overlapped_iff {F L G : Forest ℕ} {a : ℕ} (hf : Family h q (F ++ .cons a L G).roots)
    (hall : (F ++ .cons a L G).All (Family h)) (hF : ∀ d ∈ F.roots, (h d).end_ < (h new).start)
    (ha : (h a).start ≤ (h new).start ∧ (h new).end_ ≤ (h a).end_) :
    Overlapped h new (F ++ .cons a L G) ↔ Overlapped h new L := by
  simp only [Forest.all_append, Forest.all_cons] at hall
  rw [Forest.roots_append, Forest.roots_cons] at hf
  have hbefore := (List.pairwise_cons.mp (List.pairwise_append.mp hf.before).2.1).1
  have hnotF : ¬Overlapped h new F :=
    not_overlapped hall.1 (fun c hc => hf.valid c (by simp [hc])) fun c hc => .inl (hF c hc)
  have hnotG : ¬Overlapped h new G := by
    refine not_overlapped hall.2.2.2 (fun c hc => hf.valid c (by simp [hc])) fun c hc => .inr (.inl ?_)
    have := hbefore c hc
    omega
  have hnota : ¬PartlyOverlaps (h a) (h new) := fun hover => hover.2.2.1 ha
  rw [overlapped_append, overlapped_cons]
  tauto

/-! ### Inserting -/

/-- The first loop of `__insert_resource` goes down to the resource below which
`new` belongs. It links `new` there, or it fails, or it stops at the first
child that overlaps `new` and does not contain it properly. -/
theorem WellFormed.insertDescend (hwf : WellFormed h root T) (hq : (tree root T).At q K)
    (hnew : new ∉ (tree root T).nodes) (hchild : (h new).child = none)
    (hfuel : K.nodes.length + 1 < fuel) :
    (∃ q' F G T', (tree root T).At q' (F ++ G) ∧ (Overlapped h new K ↔ Overlapped h new (F ++ G)) ∧ Fits h q new ∧
      Gap h q' new F G ∧
      insertDescend new fuel h q = some (.done (ResourceTree.linkNew h ((Slot.child q').after F.roots) q' new) none) ∧
      Replaced root q' (F ++ G) (F ++ .cons new .nil G) T T' ∧
      WellFormed (ResourceTree.linkNew h ((Slot.child q').after F.roots) q' new) root T') ∨
    (¬Fits h q new ∧ insertDescend new fuel h q = some (.done h (some q))) ∨
    ∃ q' F a L G, (tree root T).At q' (F ++ .cons a L G) ∧
      (Overlapped h new K ↔ Overlapped h new (F ++ .cons a L G)) ∧ Fits h q new ∧ Fits h q' new ∧
      (∀ d ∈ F.roots, (h d).end_ < (h new).start) ∧ (h a).start ≤ (h new).end_ ∧ (h new).start ≤ (h a).end_ ∧
      ((h new).start < (h a).start ∨ (h a).end_ < (h new).end_ ∨
        ((h a).start = (h new).start ∧ (h a).end_ = (h new).end_)) ∧
      insertDescend new fuel h q = some (.takeOver h q' a) := by
  induction fuel generalizing q K with
  | zero => omega
  | succ fuel ih =>
    have hlen := Forest.length_roots_le (F := K)
    rcases hwf.requestResourceConflict hq hnew hchild (by omega : K.roots.length < fuel) with
      ⟨F, G, T', rfl, hgap, hrun, hT', hwf'⟩ | ⟨hfits, hrun⟩ | ⟨F, a, L, G, rfl, hfits, hF, ha, ha', hrun⟩
    · refine .inl ⟨q, F, G, T', hq, Iff.rfl, hgap.fits, hgap, ?_, hT', hwf'⟩
      simp [ResourceTree.insertDescend, hrun]
    · refine .inr (.inl ⟨hfits, ?_⟩)
      simp [ResourceTree.insertDescend, hrun]
    · have haq : a ≠ q := by
        rintro rfl
        exact (hq.nodup hwf.nodup).1 (by simp)
      have han : a ≠ new := by
        rintro rfl
        exact hnew (hq.subset (by simp))
      by_cases hover : (h new).start < (h a).start ∨ (h a).end_ < (h new).end_
      · refine .inr (.inr ⟨q, F, a, L, G, hq, Iff.rfl, hfits, hfits, hF, ha, ha', by tauto, ?_⟩)
        simp [ResourceTree.insertDescend, hrun, haq, han, hover]
      · by_cases hsame : (h a).start = (h new).start ∧ (h a).end_ = (h new).end_
        · refine .inr (.inr ⟨q, F, a, L, G, hq, Iff.rfl, hfits, hfits, hF, ha, ha', by tauto, ?_⟩)
          simp [ResourceTree.insertDescend, hrun, haq, han, hsame]
        · -- `new` lies properly inside `a`.
          have hdown : ResourceTree.insertDescend new (fuel + 1) h q =
              ResourceTree.insertDescend new fuel h a := by
            simp [ResourceTree.insertDescend, hrun, haq, han, hover, hsame]
          have hin : (h a).start ≤ (h new).start ∧ (h new).end_ ≤ (h a).end_ := by omega
          have hfits' : Fits h a new := ⟨hfits.1, hin⟩
          have hiff := (hwf.at hq).1.overlapped_iff (hwf.at hq).2 hF hin
          have hfuel' : L.nodes.length + 1 < fuel := by
            simp only [Forest.nodes_append, Forest.nodes_cons, List.length_append, List.length_cons] at hfuel
            omega
          rw [hdown]
          rcases ih hq.root hfuel' with
            ⟨q', F', G', T', hq', hiff', -, hrest⟩ | ⟨hnot, -⟩ | ⟨q', F', b, L', G', hq', hiff', -, hrest⟩
          · exact .inl ⟨q', F', G', T', hq', hiff.trans hiff', hfits, hrest⟩
          · exact absurd hfits' hnot
          · exact .inr (.inr ⟨q', F', b, L', G', hq', hiff.trans hiff', hfits, hrest⟩)

/-- The second loop of `__insert_resource` finds a resource that overlaps `new`
partially, or else the last of those that `new` covers. -/
theorem insertScan_cases {first : ℕ} (new : ℕ) (hp : Siblings h (some first) cs none)
    (hfuel : cs.length < fuel) :
    (∃ ms c es, cs = ms ++ c :: es ∧ (ms = [] ∨ (h c).start ≤ (h new).end_) ∧
      ((h c).start < (h new).start ∨ (h new).end_ < (h c).end_) ∧ insertScan h new fuel first = some (.inl c)) ∨
    ∃ ms last es, cs = ms ++ [last] ++ es ∧
      (∀ c ∈ ms ++ [last], (h new).start ≤ (h c).start ∧ (h c).end_ ≤ (h new).end_) ∧
      (∀ e ∈ es.head?, (h new).end_ < (h e).start) ∧
      insertScan h new fuel first = some (.inr last) := by
  induction fuel generalizing first cs with
  | zero => omega
  | succ fuel ih =>
    cases cs with
    | nil => cases hp
    | cons c cs =>
      obtain ⟨hc, hrest⟩ := hp
      obtain rfl := Option.some.inj hc
      by_cases hpartial : (h first).start < (h new).start ∨ (h new).end_ < (h first).end_
      · exact .inl ⟨[], first, cs, rfl, .inl rfl, hpartial, by simp [insertScan, hpartial]⟩
      · have hcover : (h new).start ≤ (h first).start ∧ (h first).end_ ≤ (h new).end_ := by
          omega
        cases cs with
        | nil =>
          have hsib : (h first).sibling = none := hrest
          refine .inr ⟨[], first, [], rfl, by simpa using hcover, by simp, ?_⟩
          simp [insertScan, hpartial, hsib]
        | cons d cs =>
          have hsib : (h first).sibling = some d := hrest.1
          by_cases hafter : (h new).end_ < (h d).start
          · refine .inr ⟨[], first, d :: cs, rfl, by simpa using hcover,
              by simpa using hafter, ?_⟩
            simp [insertScan, hpartial, hsib, hafter]
          · have hstep : insertScan h new (fuel + 1) first = insertScan h new fuel d := by
              simp [insertScan, hpartial, hsib, hafter]
            rw [hstep]
            have hrest' : Siblings h (some d) (d :: cs) none := ⟨rfl, hrest.2⟩
            rcases ih hrest' (by simpa using hfuel) with
              ⟨ms, c, es, hcs, hc, hpart, hrun⟩ | ⟨ms, last, es, hcs, hms, hes, hrun⟩
            · refine .inl ⟨first :: ms, c, es, by rw [hcs]; rfl, .inr ?_, hpart, hrun⟩
              rcases hc with rfl | hc
              · obtain ⟨rfl, -⟩ := List.cons.inj hcs
                omega
              · exact hc
            · refine .inr ⟨first :: ms, last, es, ?_, ?_, hes, hrun⟩
              · rw [hcs]
                rfl
              · intro c hc
                rcases List.mem_cons.mp hc with rfl | hc
                · exact hcover
                · exact hms c hc

/-- How `__insert_resource` writes `new` below `q`, behind `F` and above `M`. -/
inductive Inserted (h : Heap) (q new : ℕ) (F : Forest ℕ) : Forest ℕ → Heap → Prop
  | leaf : Inserted h q new F .nil (linkNew h ((Slot.child q).after F.roots) q new)
  | above {M : Forest ℕ} {ms : List ℕ} {first last : ℕ} (hM : M.roots = ms ++ [last])
      (hfirst : M.roots.head? = some first) :
      Inserted h q new F M (((Slot.child q).after F.roots).write (adopted h q new M.roots first last) (some new))

/-- If the second loop stops early, it does so at a resource that overlaps `new` partly. -/
theorem Family.partlyOverlaps_of_scan {c first : ℕ} (hf : Family h q (ds ++ first :: es))
    (hstart : (h first).start ≤ (h new).end_) (hend : (h new).start ≤ (h first).end_)
    (hstop : (h new).start < (h first).start ∨ (h first).end_ < (h new).end_ ∨
      ((h first).start = (h new).start ∧ (h first).end_ = (h new).end_))
    (hcs : first :: es = ms ++ c :: cs) (hc : ms = [] ∨ (h c).start ≤ (h new).end_)
    (hpart : (h c).start < (h new).start ∨ (h new).end_ < (h c).end_) : PartlyOverlaps (h c) (h new) := by
  have hbefore := (List.pairwise_cons.mp (List.pairwise_append.mp hf.before).2.1).1
  cases ms with
  | nil =>
    obtain ⟨rfl, -⟩ := List.cons.inj hcs
    refine ⟨hstart, hend, ?_, ?_⟩ <;> omega
  | cons d ms =>
    obtain ⟨rfl, hes⟩ := List.cons.inj hcs
    have hmem : c ∈ es := by simp [hes]
    have hlater := hbefore c hmem
    have hvalid := hf.valid c (by simp [hmem])
    simp only [reduceCtorEq, false_or] at hc
    refine ⟨hc, ?_, ?_, ?_⟩ <;> omega

/-- **`__insert_resource`** puts `new` in the tree, or it leaves the heap as it
was. It fails exactly if `new` does not fit, or if some resource overlaps it partly, and it
returns such a resource then. -/
theorem WellFormed.insertResourceConflict (hwf : WellFormed h root T)
    (hq : (tree root T).At q K) (hnew : new ∉ (tree root T).nodes)
    (hchild : (h new).child = none) (hfuel : T.nodes.length + 1 < fuel) :
    (∃ q' F M G h' T', (tree root T).At q' (F ++ (M ++ G)) ∧ Inserted h q' new F M h' ∧ Fits h q new ∧
      ¬Overlapped h new K ∧ insertResourceConflict fuel h q new = some (h', none) ∧
      Replaced root q' (F ++ (M ++ G)) (F ++ .cons new M G) T T' ∧ WellFormed h' root T') ∨
    ∃ c, (¬Fits h q new ∨ Overlapped h new K ∧ c ∈ (tree root T).nodes ∧ PartlyOverlaps (h c) (h new)) ∧
      insertResourceConflict fuel h q new = some (h, some c) := by
  have hlenK := length_below_le hq
  rcases hwf.insertDescend hq hnew hchild (by omega : K.nodes.length + 1 < fuel) with
    ⟨q', F, G, T', hq', hiff, hfits, hgap, hrun, hT', hwf'⟩ | ⟨hfits, hrun⟩ |
      ⟨q', F, a, L, G, hq', hiff, hfits, hfits', hF, ha, ha', hstop, hrun⟩
  · refine .inl ⟨q', F, .nil, G, _, T', hq', .leaf, hfits, ?_, ?_, hT', hwf'⟩
    · obtain ⟨hf, hall⟩ := hwf.at hq'
      rw [hiff]
      refine not_overlapped hall hf.valid fun c hc => ?_
      rw [Forest.roots_append, List.mem_append] at hc
      rcases hc with hc | hc
      · exact .inl (hgap.before c hc)
      · exact .inr (.inl (hgap.after c hc))
    · simp [ResourceTree.insertResourceConflict, hrun]
  · refine .inr ⟨q, .inl hfits, ?_⟩
    simp [ResourceTree.insertResourceConflict, hrun]
  · obtain ⟨hf, hall⟩ := hwf.at hq'
    have hlen' := length_below_le hq'
    have hroots := Forest.length_roots_le (F := F ++ .cons a L G)
    have hf' := hf
    rw [Forest.roots_append, Forest.roots_cons] at hf'
    obtain ⟨m, -, hpath⟩ := path_append.mp hf'.chain
    obtain rfl : m = some a := hpath.1
    have hsplit : (F ++ .cons a L G).roots.length = F.roots.length + (a :: G.roots).length := by
      simp
    rcases insertScan_cases new hpath (by omega : _ < fuel) with
      ⟨ms, c, es, hcs, hc, hpart, hscan⟩ | ⟨ms, last, es, hcs, hcover, hes, hscan⟩
    · have hmem : c ∈ (F ++ .cons a L G).nodes := by
        refine Forest.roots_subset_nodes ?_
        rw [Forest.roots_append, Forest.roots_cons, hcs]
        simp
      have hover := hf'.partlyOverlaps_of_scan ha ha' hstop hcs hc hpart
      refine .inr ⟨c, .inr ⟨hiff.mpr ⟨c, hmem, hover⟩, hq'.subset hmem, hover⟩, ?_⟩
      · simp [ResourceTree.insertResourceConflict, hrun, hscan]
    · have hcs' : (Forest.cons a L G).roots = ms ++ [last] ++ es := hcs
      obtain ⟨M, G', hMG, hM, rfl⟩ := Forest.split_roots hcs'
      have hfirst : (ms ++ [last]).head? = some a := by
        have hhead := congrArg List.head? hcs
        rw [List.head?_append_of_ne_nil _ (by simp)] at hhead
        exact hhead.symm
      rw [hMG] at hq' hf hroots hlen' hall hiff
      simp only [Forest.roots_append] at hf hroots
      have hnroots : new ∉ F.roots ++ (M.roots ++ G'.roots) := by
        intro hn
        refine hnew (hq'.subset (Forest.roots_subset_nodes ?_))
        simpa using hn
      have hnq : new ≠ q' := by
        rintro rfl
        exact hnew hq'.mem
      have hgap : Gap h q' new F G' :=
        ⟨hfits', hF, Family.after_head (F.roots ++ M.roots) (by simpa using hf) hes⟩
      obtain ⟨T', hT', hwf'⟩ := hwf.insertAbove hq' hM (hM ▸ hfirst) hnew hgap (hM ▸ hcover)
      have habove := insertAbove_eq fuel (h := h) (q := q')
        (by simpa [hM] using hf.chain) hfirst (by simpa [hM] using hf.nodup) hnq
        (by simpa [hM] using hnroots) (by
          rw [hM] at hroots
          simp only [List.length_append] at hroots ⊢
          omega)
      rw [← hM] at habove
      refine .inl ⟨q', F, M, G', _, T', hq', .above hM (hM ▸ hfirst), hfits, ?_, ?_, hT', hwf'⟩
      · rw [hiff]
        refine not_overlapped hall (fun c hc => hf.valid c (by simpa using hc)) fun c hc => ?_
        simp only [Forest.roots_append, List.mem_append] at hc
        rcases hc with hc | hc | hc
        · exact .inl (hgap.before c hc)
        · exact .inr (.inr (hcover c (hM ▸ hc)))
        · exact .inr (.inl (hgap.after c hc))
      · simp [ResourceTree.insertResourceConflict, hrun, hscan, habove]

/-! ### Regions -/

/-- The loop of `__request_region_locked` links `res` somewhere below `q`, or it
returns `-EBUSY` and has written nothing but `res`. -/
theorem WellFormed.requestRegionLoop {res flags : ℕ} (hwf : WellFormed h root T)
    (hq : (tree root T).At q K) (hres : res ∉ (tree root T).nodes) (hchild : (h res).child = none)
    (hflags : flags &&& IORESOURCE_MUXED = 0) (hfuel : K.nodes.length + 1 < fuel) :
    (∃ h' T', requestRegionLoop res flags fuel h q = some (h', 0) ∧ WellFormed h' root T' ∧
      T'.nodes.length = T.nodes.length + 1) ∨
    ∃ h', requestRegionLoop res flags fuel h q = some (h', -EBUSY) ∧ ∀ a ≠ res, h' a = h a := by
  have hmux : ∀ a, a &&& flags &&& IORESOURCE_MUXED = 0 := by
    intro a
    rw [Nat.and_assoc, hflags, Nat.and_zero]
  induction fuel generalizing q K h with
  | zero => omega
  | succ fuel ih =>
    have hlen := Forest.length_roots_le (F := K)
    set h₁ := Function.update h res
      { h res with
        flags := resourceType (h q) ||| resourceExtType (h q) ||| IORESOURCE_BUSY ||| flags
        desc := (h q).desc } with hh₁
    have hsame : ∀ a ≠ res, h₁ a = h a := fun a ha => Function.update_of_ne ha _ _
    have hwf₁ : WellFormed h₁ root T := by
      refine hwf.congr fun a ha => hsame a ?_
      rintro rfl
      exact hres ha
    have hchild₁ : (h₁ res).child = none := by simpa [hh₁] using hchild
    rcases hwf₁.requestResourceConflict hq hres hchild₁ (by omega : K.roots.length < fuel) with
      ⟨F, G, T', rfl, -, hrun, hT', hwf'⟩ | ⟨-, hrun⟩ | ⟨F, a, L, G, rfl, -, -, -, -, hrun⟩
    · refine .inl ⟨_, T', ?_, hwf', Replaced.length_insert (M := .nil) hT'⟩
      simp only [ResourceTree.requestRegionLoop]
      rw [← hh₁, hrun, Option.bind_some]
    · refine .inr ⟨h₁, ?_, hsame⟩
      simp only [ResourceTree.requestRegionLoop]
      rw [← hh₁, hrun, Option.bind_some]
      simp [hmux]
    · have haq : a ≠ q := by
        rintro rfl
        exact (hq.nodup hwf.nodup).1 (by simp)
      by_cases hbusy : (h₁ a).flags &&& IORESOURCE_BUSY = 0
      · -- A resource that is not busy is gone down into.
        have hdown : ResourceTree.requestRegionLoop res flags (fuel + 1) h q =
            ResourceTree.requestRegionLoop res flags fuel h₁ a := by
          rw [ResourceTree.requestRegionLoop]
          simp only
          rw [← hh₁, hrun, Option.bind_some]
          simp [haq, hbusy]
        rw [hdown]
        have hfuel' : L.nodes.length + 1 < fuel := by
          simp only [Forest.nodes_append, Forest.nodes_cons, List.length_append,
            List.length_cons] at hfuel
          omega
        rcases ih hwf₁ hq.root hchild₁ hfuel' with hok | ⟨h', hfail, hh'⟩
        · exact .inl hok
        · exact .inr ⟨h', hfail, fun b hb => (hh' b hb).trans (hsame b hb)⟩
      · refine .inr ⟨h₁, ?_, hsame⟩
        simp only [ResourceTree.requestRegionLoop]
        rw [← hh₁, hrun, Option.bind_some]
        simp [hbusy, hmux]

/-- **`__request_region`** puts the new resource in the tree and returns it, or
it returns `NULL` and has written nothing but that resource. -/
theorem WellFormed.requestRegion {res : Option ℕ} (hwf : WellFormed h root T)
    (hmem : q ∈ (tree root T).nodes) (start n flags : ℕ)
    (hres : ∀ a ∈ res, a ∉ (tree root T).nodes) (hflags : flags &&& IORESOURCE_MUXED = 0)
    (hfuel : T.nodes.length + 1 < fuel) :
    (∃ h' T' a, requestRegion fuel h q start n flags res = some (h', some a) ∧
      WellFormed h' root T' ∧ T'.nodes.length = T.nodes.length + 1) ∨
    ∃ h', requestRegion fuel h q start n flags res = some (h', none) ∧
      ∀ a, some a ≠ res → h' a = h a := by
  cases res with
  | none => exact .inr ⟨h, rfl, fun _ _ => rfl⟩
  | some res =>
    obtain ⟨K, hq⟩ := Forest.exists_at hmem
    have hlenK := length_below_le hq
    have hres' := hres res rfl
    set h₁ := Function.update (Function.update h res Resource.zero) res
      { Resource.zero with start := start, end_ := regionEnd start n } with hh₁
    have hsame : ∀ a ≠ res, h₁ a = h a := fun a ha =>
      (Function.update_of_ne ha _ _).trans (Function.update_of_ne ha _ _)
    have hwf₁ : WellFormed h₁ root T := by
      refine hwf.congr fun a ha => hsame a ?_
      rintro rfl
      exact hres' ha
    have hchild₁ : (h₁ res).child = none := by simp [hh₁, Resource.zero]
    have hloop : requestRegionLocked fuel (Function.update h res Resource.zero) res q start n
        flags = ResourceTree.requestRegionLoop res flags fuel h₁ q := by
      simp [requestRegionLocked, hh₁]
    rcases hwf₁.requestRegionLoop hq hres' hchild₁ hflags
      (by omega : K.nodes.length + 1 < fuel) with ⟨h', T', hrun, hT', hlen⟩ | ⟨h', hrun, hh'⟩
    · refine .inl ⟨h', T', res, ?_, hT', hlen⟩
      simp [ResourceTree.requestRegion, hloop, hrun]
    · refine .inr ⟨h', ?_, fun a ha => ?_⟩
      · simp [ResourceTree.requestRegion, hloop, hrun, EBUSY]
      · have ha' : a ≠ res := fun h => ha (congrArg some h)
        exact (hh' a ha').trans (hsame a ha')

/-- The loop of `__release_region`, when it has passed the children `F` of `q`,
unlinks a resource somewhere behind them, or it leaves the heap as it is. -/
theorem WellFormed.releaseRegionLoop {start end_ : ℕ} {F G : Forest ℕ} (hwf : WellFormed h root T)
    (hq : (tree root T).At q (F ++ G)) (hfuel : G.nodes.length < fuel) :
    ∃ h' T', releaseRegionLoop h start end_ fuel ((Slot.child q).after F.roots) = some h' ∧
      WellFormed h' root T' ∧ T'.nodes.length ≤ T.nodes.length := by
  induction fuel generalizing q F G with
  | zero => omega
  | succ fuel ih =>
    obtain ⟨hf, -⟩ := hwf.at hq
    rw [Forest.roots_append] at hf
    obtain ⟨m, hF, hG⟩ := path_append.mp hf.chain
    have hread : ((Slot.child q).after F.roots).read h = m := read_after hF
    cases G with
    | nil =>
      obtain rfl : m = none := hG
      refine ⟨h, T, ?_, hwf, Nat.le_refl _⟩
      simp [ResourceTree.releaseRegionLoop, hread]
    | cons a L G =>
      obtain rfl : m = some a := hG.1
      simp only [Forest.nodes_cons, List.length_cons, List.length_append] at hfuel
      simp only [ResourceTree.releaseRegionLoop, hread]
      split_ifs with hin hidle hother
      · exact ih (F := .nil) hq.root (by omega)
      · exact ⟨h, T, rfl, hwf, Nat.le_refl _⟩
      · have haq : a ≠ q := by
          rintro rfl
          exact (hq.nodup hwf.nodup).1 (by simp)
        obtain ⟨T', hT', hwf'⟩ := hwf.unlink _ hq (fun _ _ => rfl)
          ⟨write_start, write_end, write_after_child haq⟩
        refine ⟨_, T', rfl, hwf', ?_⟩
        have hlen := hT'.length
        simp only [Forest.nodes_append, Forest.nodes_cons, List.length_append, List.length_cons] at hlen
        omega
      · have hnext : Slot.sibling a = (Slot.child q).after (F ++ .cons a L .nil).roots := by
          simp
        rw [hnext]
        refine ih (F := F ++ .cons a L .nil) (G := G) ?_ (by omega)
        rw [Forest.append_assoc]
        exact hq

end GfpDrivers.ResourceTree
