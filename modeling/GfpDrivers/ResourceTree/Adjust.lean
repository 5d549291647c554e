import GfpDrivers.ResourceTree.FirstFit

/-!
`adjust_resource` changes the range of a resource, which has to lie inside its parent,
between its siblings and around its children. The end of the range is computed in
`resource_size_t`, and nothing compares it with the start.
-/

namespace GfpDrivers.ResourceTree

open Lib

/-- What `__adjust_resource` checks of a resource that has a parent. -/
def betweenSiblings (fuel : ℕ) (h : Heap) (res parent start end_ : ℕ) : Option Bool :=
  if start < (h parent).start ∨ (h parent).end_ < end_ then some false
  else if (h res).sibling.any fun sibling => (h sibling).start ≤ end_ then some false
  else if (h parent).child = some res then some true
  else (h parent).child.bind fun tmp => (siblingBefore h res fuel tmp).map fun tmp => (h tmp).end_ < start

/-- The loop of `__adjust_resource` over the children. -/
def childrenInside (h : Heap) (start end_ : ℕ) : ℕ → Option ℕ → Option Bool
  | 0, _ => none
  | _ + 1, none => some true
  | fuel + 1, some tmp =>
      if (h tmp).start < start ∨ end_ < (h tmp).end_ then some false
      else childrenInside h start end_ fuel (h tmp).sibling

/-- `__adjust_resource`, and so `adjust_resource`. -/
def adjustResource (fuel : ℕ) (h : Heap) (res start size : ℕ) : Option (Heap × ℤ) :=
  ((h res).parent.elim (some true) fun parent => betweenSiblings fuel h res parent start (regionEnd start size)).bind
    fun between =>
      if between = false then some (h, -EBUSY)
      else
        (childrenInside h start (regionEnd start size) fuel (h res).child).map fun inside =>
          if inside = false then (h, -EBUSY) else (moveTo h res start size, 0)

variable {h : Heap} {root q res start end_ size fuel : ℕ} {T F L G : Forest ℕ} {cs : List ℕ}

/-- The range does not lie inside the parent, or it reaches a sibling that comes before or after. -/
def Crowded (h : Heap) (root res : ℕ) (T : Forest ℕ) (start end_ : ℕ) : Prop :=
  ∃ q F L G, (tree root T).At q (F ++ .cons res L G) ∧
    (start < (h q).start ∨ (h q).end_ < end_ ∨ (∃ d ∈ F.roots, start ≤ (h d).end_) ∨ ∃ d ∈ G.roots, (h d).start ≤ end_)

/-- A child does not lie inside the range. -/
def CutsChild (h : Heap) (root res : ℕ) (T : Forest ℕ) (start end_ : ℕ) : Prop :=
  ∃ L, (tree root T).At res L ∧ ∃ c ∈ L.roots, (h c).start < start ∨ end_ < (h c).end_

theorem childrenInside_eq {p : Option ℕ} (hp : Siblings h p cs none) (hfuel : cs.length < fuel) :
    ∃ inside, childrenInside h start end_ fuel p = some inside ∧
      (inside = false ↔ ∃ c ∈ cs, (h c).start < start ∨ end_ < (h c).end_) := by
  induction fuel generalizing p cs with
  | zero => omega
  | succ fuel ih =>
    cases cs with
    | nil =>
      obtain rfl : p = none := hp
      exact ⟨true, rfl, by simp⟩
    | cons c cs =>
      obtain ⟨rfl, hrest⟩ := hp
      rw [childrenInside]
      by_cases hout : (h c).start < start ∨ end_ < (h c).end_
      · exact ⟨false, if_pos hout, by simp [hout]⟩
      · obtain ⟨inside, hrun, hiff⟩ := ih hrest (Nat.lt_of_succ_lt_succ hfuel)
        refine ⟨inside, by rw [if_neg hout, hrun], ?_⟩
        rw [hiff, List.exists_mem_cons_iff]
        exact ⟨.inr, fun hex => hex.resolve_left hout⟩

theorem WellFormed.childrenInside (hwf : WellFormed h root T) (hres : res ∈ (tree root T).nodes)
    (hfuel : T.nodes.length + 1 < fuel) :
    ∃ inside, childrenInside h start end_ fuel (h res).child = some inside ∧
      (inside = false ↔ CutsChild h root res T start end_) := by
  have heval : ∀ {L : Forest ℕ}, (tree root T).At res L → ∃ inside,
      ResourceTree.childrenInside h start end_ fuel (h res).child = some inside ∧
        (inside = false ↔ ∃ c ∈ L.roots, (h c).start < start ∨ end_ < (h c).end_) := by
    intro L hL
    have hlen := length_below_le hL
    have hroots := Forest.length_roots_le (F := L)
    exact childrenInside_eq (hwf.at hL).1.chain (by omega)
  obtain ⟨L, hL⟩ := Forest.exists_at hres
  obtain ⟨inside, hrun, hiff⟩ := heval hL
  refine ⟨inside, hrun, fun hfalse => ⟨L, hL, hiff.mp hfalse⟩, ?_⟩
  rintro ⟨L', hL', hcut⟩
  obtain ⟨inside', hrun', hiff'⟩ := heval hL'
  rw [hrun] at hrun'
  exact (Option.some.inj hrun').trans (hiff'.mpr hcut)

/-- The last of the children before `res` is the one that reaches farthest. -/
theorem WellFormed.betweenSiblings_at (hwf : WellFormed h root T) (hq : (tree root T).At q (F ++ .cons res L G))
    (hfuel : T.nodes.length + 1 < fuel) (start end_ : ℕ) :
    ∃ between, betweenSiblings fuel h res q start end_ = some between ∧
      (between = false ↔ start < (h q).start ∨ (h q).end_ < end_ ∨ (∃ d ∈ F.roots, start ≤ (h d).end_) ∨
        ∃ d ∈ G.roots, (h d).start ≤ end_) := by
  obtain ⟨hf, -⟩ := hwf.at hq
  have hlen := length_below_le hq
  have hroots := Forest.length_roots_le (F := F ++ .cons res L G)
  simp only [Forest.roots_append, Forest.roots_cons] at hf hroots
  obtain ⟨m, hF, hm, hG⟩ := path_append.mp hf.chain
  subst hm
  rw [betweenSiblings]
  by_cases hin : start < (h q).start ∨ (h q).end_ < end_
  · exact ⟨false, if_pos hin, by tauto⟩
  have hnext : ((h res).sibling.any fun sibling => (h sibling).start ≤ end_) = true ↔ ∃ d ∈ G.roots, (h d).start ≤ end_ := by
    cases hroots : G.roots with
    | nil =>
      have hnone : (h res).sibling = none := by simpa [hroots, Lib.Path] using hG
      simp [hnone]
    | cons d ds =>
      rw [hroots] at hG hf
      have hsome : (h res).sibling = some d := hG.1
      rw [hsome, Option.any_some, decide_eq_true_iff]
      refine ⟨fun hd => ⟨d, by simp, hd⟩, ?_⟩
      rintro ⟨e, he, hle⟩
      by_contra hlt
      have hhead : ∀ e ∈ (d :: ds).head?, end_ < (h e).start := by simpa using hlt
      have hfamily : Family h q ((F.roots ++ [res]) ++ d :: ds) := by simpa using hf
      have hafter := hfamily.after_head _ hhead e he
      omega
  by_cases hafter : ((h res).sibling.any fun sibling => (h sibling).start ≤ end_) = true
  · rw [if_neg hin, if_pos hafter]
    exact ⟨false, rfl, by simp [hnext.mp hafter]⟩
  rw [if_neg hin, if_neg hafter]
  have hrest : (start < (h q).start ∨ (h q).end_ < end_ ∨ (∃ d ∈ F.roots, start ≤ (h d).end_) ∨
      ∃ d ∈ G.roots, (h d).start ≤ end_) ↔ ∃ d ∈ F.roots, start ≤ (h d).end_ := by
    refine ⟨?_, fun hbefore => .inr (.inr (.inl hbefore))⟩
    rintro (hlo | hhi | hbefore | hnot)
    · exact absurd (.inl hlo) hin
    · exact absurd (.inr hhi) hin
    · exact hbefore
    · exact absurd (hnext.mpr hnot) hafter
  rw [hrest]
  rcases List.eq_nil_or_concat F.roots with hnil | ⟨ds, last, hconcat⟩
  · rw [hnil] at hF ⊢
    exact ⟨true, if_pos hF, by simp⟩
  · rw [List.concat_eq_append] at hconcat
    rw [hconcat] at hF hf hroots ⊢
    have hnot : res ∉ ds ++ [last] := fun hmem =>
      (List.nodup_cons.mp (List.nodup_middle.mp hf.nodup)).1 (List.mem_append_left _ hmem)
    have hfar : (∃ d ∈ ds ++ [last], start ≤ (h d).end_) ↔ start ≤ (h last).end_ := by
      refine ⟨?_, fun hle => ⟨last, by simp, hle⟩⟩
      rintro ⟨d, hd, hle⟩
      rcases List.mem_append.mp hd with hd | hd
      · have hlast := hf.before
        rw [List.append_assoc, List.pairwise_append] at hlast
        have hlt := hlast.2.2 d hd last (by simp)
        have hvalid := hf.valid last (by simp)
        omega
      · exact List.mem_singleton.mp hd ▸ hle
    obtain ⟨first, hfirst⟩ : ∃ first, (h q).child = some first := by
      cases ds with
      | nil => exact ⟨last, hF.1⟩
      | cons d ds => exact ⟨d, hF.1⟩
    have hne : (h q).child ≠ some res := by
      intro heq
      rw [heq] at hF
      cases ds with
      | nil => exact hnot (by simp [Option.some.inj hF.1])
      | cons d ds => exact hnot (by simp [Option.some.inj hF.1])
    have hshort : ds.length < fuel := by
      simp only [List.length_append, List.length_cons, List.length_nil] at hroots
      omega
    rw [hfirst] at hF
    rw [if_neg hne, hfirst, Option.bind_some, siblingBefore_eq hF hnot hshort, Option.map_some, hfar]
    exact ⟨_, rfl, by simp⟩

theorem not_crowded_root (hwf : WellFormed h root T) : ¬Crowded h root root T start end_ := by
  rintro ⟨q, F, L, G, hq, -⟩
  have hmem : root ∈ (tree root T).roots := by simp [tree]
  exact Forest.Replace.root_outside hq hwf.nodup hmem (by simp)

theorem WellFormed.between (hwf : WellFormed h root T) (hres : res ∈ (tree root T).nodes)
    (hroot : res = root → (h root).parent = none) (hfuel : T.nodes.length + 1 < fuel) :
    ∃ between, ((h res).parent.elim (some true) fun parent => betweenSiblings fuel h res parent start end_) = some between ∧
      (between = false ↔ Crowded h root res T start end_) := by
  by_cases hne : res = root
  · subst hne
    rw [hroot rfl]
    exact ⟨true, rfl, by simp [not_crowded_root hwf]⟩
  · obtain ⟨q, K, hK, hmem, hparent⟩ := hwf.exists_parent hres hne
    obtain ⟨cs, ds, hcs⟩ := List.append_of_mem hmem
    obtain ⟨F, L, G, rfl, -, -⟩ := Forest.split_root hcs
    obtain ⟨between, hrun, hiff⟩ := hwf.betweenSiblings_at hK hfuel start end_
    rw [hparent, Option.elim_some]
    refine ⟨between, hrun, fun hfalse => ⟨q, F, L, G, hK, hiff.mp hfalse⟩, ?_⟩
    rintro ⟨q', F', L', G', hK', hcrowded⟩
    have hparent' := (hwf.at hK').1.parent res (by simp)
    obtain rfl : q = q' := Option.some.inj (hparent.symm.trans hparent')
    obtain ⟨between', hrun', hiff'⟩ := hwf.betweenSiblings_at hK' hfuel start end_
    rw [hrun] at hrun'
    exact (Option.some.inj hrun').trans (hiff'.mpr hcrowded)

/-- What is asked of `adjust_resource`: it changes nothing, or the resource covers exactly
the range, which is not empty and does not wrap around, and the tree is well formed. -/
def AdjustedWell (h : Heap) (root res : ℕ) (T : Forest ℕ) (start size : ℕ) (h' : Heap) (ret : ℤ) : Prop :=
  (ret = -EBUSY ∧ h' = h) ∨
    (ret = 0 ∧ 0 < size ∧ start + size ≤ 2 ^ 64 ∧ (h' res).start = start ∧ (h' res).end_ = start + size - 1 ∧
      (∀ a ≠ res, h' a = h a) ∧ WellFormed h' root T)

/-- A range that was accepted keeps the tree well formed, if it is one. -/
theorem WellFormed.adjusted (hwf : WellFormed h root T) (hres : res ∈ (tree root T).nodes) (hvalid : start ≤ end_)
    (hcrowded : ¬Crowded h root res T start end_) (hcuts : ¬CutsChild h root res T start end_) :
    WellFormed (Function.update h res { h res with start := start, end_ := end_ }) root T := by
  have hkids : ∀ L, (tree root T).At res L → ∀ c ∈ L.roots, start ≤ (h c).start ∧ (h c).end_ ≤ end_ := by
    intro L hL c hc
    by_contra hout
    exact hcuts ⟨L, hL, c, hc, by omega⟩
  by_cases hne : res = root
  · subst hne
    have hat : (tree res T).At res T := .here .nil
    obtain ⟨hf, -⟩ := hwf.at hat
    obtain ⟨hnot, hnodup⟩ := hat.nodup hwf.nodup
    refine ⟨hwf.nodup, hf.resize (fun hmem => hnot (Forest.roots_subset_nodes hmem)) (hkids T hat), ?_, trivial⟩
    refine hwf.family.2.1.inner hnodup fun n cs hn hcs hfn => hfn.of_eq ?_ fun c hc => ?_
    · exact Function.update_of_ne (ne_of_mem_of_not_mem hn hnot) _ _
    · exact Function.update_of_ne (ne_of_mem_of_not_mem (hcs c hc).1 hnot) _ _
  · obtain ⟨q, K, hK, hmem, -⟩ := hwf.exists_parent hres hne
    obtain ⟨cs, ds, hcs⟩ := List.append_of_mem hmem
    obtain ⟨F, L, G, rfl, -, -⟩ := Forest.split_root hcs
    have hroom : ¬(start < (h q).start ∨ (h q).end_ < end_ ∨ (∃ d ∈ F.roots, start ≤ (h d).end_) ∨
        ∃ d ∈ G.roots, (h d).start ≤ end_) := fun hno => hcrowded ⟨q, F, L, G, hK, hno⟩
    simp only [not_or, not_lt, not_exists, not_and, not_le] at hroom
    obtain ⟨hlo, hhi, hbefore, hafter⟩ := hroom
    exact hwf.resize hK hvalid ⟨hlo, hhi⟩ hbefore hafter (hkids L hK.root)

/-- **`adjust_resource`** keeps the tree well formed if and only if the range is not empty and does
not wrap around, or the end that it wraps around to is not accepted. -/
theorem adjust_keeps_wellFormed_iff (hwf : WellFormed h root T) (hres : res ∈ (tree root T).nodes)
    (hroot : res = root → (h root).parent = none) (hfuel : T.nodes.length + 1 < fuel) (start size : ℕ) :
    ∃ h' ret, adjustResource fuel h res start size = some (h', ret) ∧
      (AdjustedWell h root res T start size h' ret ↔
        (0 < size ∧ start + size ≤ 2 ^ 64) ∨ Crowded h root res T start (regionEnd start size) ∨
          CutsChild h root res T start (regionEnd start size)) := by
  obtain ⟨between, hbetween, hcrowded⟩ := hwf.between hres hroot hfuel
  obtain ⟨inside, hinside, hcuts⟩ := hwf.childrenInside hres hfuel
  rw [adjustResource, hbetween, Option.bind_some]
  by_cases hno : between = false
  · exact ⟨h, -EBUSY, if_pos hno, iff_of_true (.inl ⟨rfl, rfl⟩) (.inr (.inl (hcrowded.mp hno)))⟩
  rw [if_neg hno, hinside, Option.map_some]
  by_cases hcut : inside = false
  · rw [if_pos hcut]
    exact ⟨h, -EBUSY, rfl, iff_of_true (.inl ⟨rfl, rfl⟩) (.inr (.inr (hcuts.mp hcut)))⟩
  rw [if_neg hcut]
  refine ⟨moveTo h res start size, 0, rfl, ?_⟩
  constructor
  · rintro (⟨hbusy, -⟩ | ⟨-, hsize, hle, -⟩)
    · exact absurd hbusy (by decide)
    · exact .inl ⟨hsize, hle⟩
  · rintro (⟨hsize, hle⟩ | hcrowd | hcuts')
    · have hend := regionEnd_of_le hsize hle
      refine .inr ⟨rfl, hsize, hle, moveTo_start _, by simp [moveTo, hend], fun a ha => moveTo_of_ne _ ha, ?_⟩
      exact hwf.adjusted hres (by omega) (fun hc => hno (hcrowded.mpr hc)) fun hc => hcut (hcuts.mpr hc)
    · exact absurd (hcrowded.mpr hcrowd) hno
    · exact absurd (hcuts.mpr hcuts') hcut

/-- The child of the sample tree is moved up by one page. -/
theorem sample_adjusted : ∃ h' ret, adjustResource 3 sampleHeap 1 0x1100 0x100 = some (h', ret) ∧
    (AdjustedWell sampleHeap 0 1 (.cons 1 .nil .nil) 0x1100 0x100 h' ret ↔
      (0 < 0x100 ∧ 0x1100 + 0x100 ≤ 2 ^ 64) ∨ Crowded sampleHeap 0 1 (.cons 1 .nil .nil) 0x1100 (regionEnd 0x1100 0x100) ∨
        CutsChild sampleHeap 0 1 (.cons 1 .nil .nil) 0x1100 (regionEnd 0x1100 0x100)) :=
  adjust_keeps_wellFormed_iff sampleHeap_wellFormed (by decide) (fun hroot => absurd hroot (by decide)) (by decide) _ _

/-- **Ranges that end before they start.** A size of zero, and a sum that wraps around, are accepted. -/
theorem empty_range_accepted :
    ((adjustResource 3 sampleHeap 1 0x100 0).map fun r => (r.2, (r.1 1).start, (r.1 1).end_)) = some (0, 0x100, 0xff) ∧
      ((adjustResource 3 sampleHeap 1 0x1000 (2 ^ 64 - 0x800)).map fun r => (r.2, (r.1 1).start, (r.1 1).end_)) =
        some (0, 0x1000, 0x7ff) ∧
      ∃ h' ret, adjustResource 3 sampleHeap 1 0x100 0 = some (h', ret) ∧
        ¬AdjustedWell sampleHeap 0 1 (.cons 1 .nil .nil) 0x100 0 h' ret := by
  refine ⟨by decide, by decide, moveTo sampleHeap 1 0x100 0, 0, rfl, ?_⟩
  rintro (⟨hbusy, -⟩ | ⟨-, hsize, -⟩)
  · exact absurd hbusy (by decide)
  · exact absurd hsize (by decide)

end GfpDrivers.ResourceTree
