import GfpDrivers.Lib.Span
import GfpDrivers.ResourceTree.InsertRemove

/-!
`insert_resource_expand_to_fit`. When a resource cannot be inserted because another one
overlaps it partly, it is expanded over that one, and the insertion starts again. In
the end it covers the smallest range that overlaps no resource partly.
-/

namespace GfpDrivers.ResourceTree

open Lib

/-- `new` is expanded to cover `conflict`. -/
def expandTo (h : Heap) (new conflict : ℕ) : Heap :=
  Function.update h new
    { h new with
      start := if (h conflict).start < (h new).start then (h conflict).start else (h new).start
      end_ := if (h new).end_ < (h conflict).end_ then (h conflict).end_ else (h new).end_ }

/-- The loop of `insert_resource_expand_to_fit`. -/
def expandLoop (fuel root new : ℕ) : ℕ → Heap → Option Heap
  | 0, _ => none
  | rounds + 1, h =>
      (insertResourceConflict fuel h root new).bind fun
        | (h, none) => some h
        | (h, some conflict) =>
            if conflict = root then some h else expandLoop fuel root new rounds (expandTo h new conflict)

/-- `insert_resource_expand_to_fit` -/
def insertResourceExpandToFit (fuel : ℕ) (h : Heap) (root new : ℕ) : Option Heap :=
  if (h new).parent ≠ none then some h else expandLoop fuel root new fuel h

variable {h h' : Heap} {root q new fuel rounds c : ℕ} {T F M : Forest ℕ}

def Resource.span (r : Resource) : Span ℕ := ⟨r.start, r.end_⟩

def spans (h : Heap) (F : Forest ℕ) : List (Span ℕ) := F.nodes.map fun a => (h a).span

/-- The range contains the one of `new`, and overlaps no resource of the forest partly. -/
def Cover (h : Heap) (new : ℕ) (F : Forest ℕ) (I : Span ℕ) : Prop :=
  (h new).span.Within I ∧ Span.Clear (spans h F) I

theorem partlyOverlaps_iff {a b : Resource} : PartlyOverlaps a b ↔ a.span.Crosses b.span := by
  simp only [PartlyOverlaps, Span.Crosses, Span.Meets, Span.Within, Resource.span]
  tauto

theorem spans_congr (hsame : ∀ a ∈ F.nodes, (h' a).span = (h a).span) : spans h' F = spans h F :=
  List.map_congr_left hsame

theorem expandTo_span : (expandTo h new c new).span = (h new).span.hull (h c).span := by
  simp only [expandTo, Function.update_self, Resource.span, Span.hull, Span.mk.injEq]
  constructor
  · split_ifs <;> omega
  · split_ifs <;> omega

theorem expandTo_of_ne {a : ℕ} (ha : a ≠ new) : expandTo h new c a = h a := Function.update_of_ne ha _ _

theorem expandTo_child : (expandTo h new c new).child = (h new).child := by simp [expandTo]

theorem Inserted.span (hins : Inserted h q new F M h') (a : ℕ) : (h' a).span = (h a).span := by
  cases hins with
  | leaf => simp [Resource.span, linkNew]
  | above hM hfirst => simp [Resource.span, adopted]

theorem WellFormed.fits_root {a : ℕ} (hwf : WellFormed h root T) (ha : a ∈ T.nodes) : Fits h root a := by
  obtain ⟨hf, hall⟩ := hwf.at (.here .nil)
  obtain ⟨c, hc, hstart, hvalid, hend⟩ := inside_roots hall hf.valid a ha
  have hin := hf.inside c hc
  exact ⟨hvalid, by omega, by omega⟩

/-- What becomes of `new` and of the tree: `new` is in it, with the smallest range that
covers the one it had, and the other ranges are the same. -/
structure Expanded (h : Heap) (root new : ℕ) (T : Forest ℕ) (h' : Heap) : Prop where
  linked : ∃ T' q F M G, Replaced root q (F ++ (M ++ G)) (F ++ .cons new M G) T T' ∧ WellFormed h' root T'
  others (a : ℕ) : a ≠ new → (h' a).span = (h a).span
  cover : Cover h new (tree root T) (h' new).span
  least (I : Span ℕ) : Cover h new T I → (h' new).span.Within I

theorem Expanded.of_expandTo (hnew : new ∉ (tree root T).nodes) (hc : c ∈ T.nodes)
    (hover : PartlyOverlaps (h c) (h new)) (hex : Expanded (expandTo h new c) root new T h') :
    Expanded h root new T h' := by
  have hspans : ∀ F : Forest ℕ, new ∉ F.nodes → spans (expandTo h new c) F = spans h F := fun F hF =>
    spans_congr fun a ha => by rw [expandTo_of_ne (ne_of_mem_of_not_mem ha hF)]
  have hnewT : new ∉ T.nodes := fun hmem => hnew (by simp [hmem])
  refine ⟨hex.linked, fun a ha => (hex.others a ha).trans (by rw [expandTo_of_ne ha]), ?_, fun I hI => hex.least I ?_⟩
  · obtain ⟨hin, hclear⟩ := hex.cover
    rw [expandTo_span] at hin
    rw [hspans _ hnew] at hclear
    exact ⟨Span.within_hull_left.trans hin, hclear⟩
  · obtain ⟨hin, hclear⟩ := hI
    refine ⟨?_, ?_⟩
    · rw [expandTo_span]
      exact hclear.hull_within hin (List.mem_map_of_mem hc) (partlyOverlaps_iff.mp hover)
    · rw [hspans _ hnewT]
      exact hclear

/-- In each round of the loop, one more resource is inside the range of `new`. -/
theorem WellFormed.expandLoop (hwf : WellFormed h root T) (hnew : new ∉ (tree root T).nodes) (hchild : (h new).child = none)
    (hin : Fits h root new) (hfuel : T.nodes.length + 1 < fuel)
    (hrounds : Span.outside (spans h T) (h new).span < rounds) :
    ∃ h', expandLoop fuel root new rounds h = some h' ∧ Expanded h root new T h' := by
  induction rounds generalizing h with
  | zero => omega
  | succ rounds ih =>
    rw [ResourceTree.expandLoop]
    rcases hwf.insertResourceConflict (.here .nil) hnew hchild hfuel with
      ⟨q, F, M, G, h', T', -, hins, -, hclear, hrun, hT', hwf'⟩ | ⟨c, hcause, hrun⟩
    · rw [hrun, Option.bind_some]
      refine ⟨h', rfl, ⟨T', q, F, M, G, hT', hwf'⟩, fun a _ => hins.span a, ?_, fun I hI => ?_⟩
      · rw [hins.span]
        refine ⟨Span.within_rfl, fun C hC hcross => ?_⟩
        obtain ⟨a, ha, rfl⟩ := List.mem_map.mp hC
        rw [mem_tree] at ha
        rcases ha with rfl | ha
        · exact hcross.2.2 ⟨hin.2.1, hin.2.2⟩
        · exact hclear ⟨a, ha, partlyOverlaps_iff.mpr hcross⟩
      · rw [hins.span]
        exact hI.1
    · obtain ⟨hmem, hover⟩ := (hcause.resolve_left (not_not_intro hin)).2
      have hcross := partlyOverlaps_iff.mp hover
      have hroot : c ≠ root := by
        rintro rfl
        exact hcross.2.2 ⟨hin.2.1, hin.2.2⟩
      have hc : c ∈ T.nodes := (mem_tree.mp hmem).resolve_left hroot
      have hsame : ∀ a ∈ (tree root T).nodes, expandTo h new c a = h a := fun a ha =>
        expandTo_of_ne (ne_of_mem_of_not_mem ha hnew)
      have hspans : spans (expandTo h new c) T = spans h T := spans_congr fun a ha => by rw [hsame a (by simp [ha])]
      have hfits : Fits (expandTo h new c) root new := by
        have hspan : (expandTo h new c new).span = (h new).span.hull (h c).span := expandTo_span
        simp only [Resource.span, Span.hull, Span.mk.injEq] at hspan
        have hcin := hwf.fits_root hc
        rw [Fits, hsame root (by simp), hspan.1, hspan.2]
        unfold Fits at hin hcin
        omega
      have hless : Span.outside (spans (expandTo h new c) T) (expandTo h new c new).span < rounds := by
        rw [hspans, expandTo_span]
        exact Nat.lt_of_lt_of_le (Span.outside_hull_lt (List.mem_map_of_mem hc) hcross) (Nat.le_of_lt_succ hrounds)
      rw [hrun, Option.bind_some]
      dsimp only
      rw [if_neg hroot]
      obtain ⟨h', hrun', hex⟩ := ih (hwf.congr hsame) (expandTo_child.trans hchild) hfits hless
      exact ⟨h', hrun', hex.of_expandTo hnew hc hover⟩

/-- **`insert_resource_expand_to_fit`** returns, and `new` is in the tree with the smallest
range that contains its own and overlaps no resource of the tree partly. -/
theorem expanded_to_least_cover (hwf : WellFormed h root T) (hnew : new ∉ (tree root T).nodes)
    (hparent : (h new).parent = none) (hchild : (h new).child = none) (hin : Fits h root new)
    (hfuel : T.nodes.length + 1 < fuel) :
    ∃ h', insertResourceExpandToFit fuel h root new = some h' ∧ Expanded h root new T h' := by
  rw [insertResourceExpandToFit, if_neg (not_not_intro hparent)]
  refine hwf.expandLoop hnew hchild hin hfuel ?_
  have hle : Span.outside (spans h T) (h new).span ≤ (spans h T).length := Span.outside_le_length
  rw [spans, List.length_map] at hle
  exact Nat.lt_of_le_of_lt hle (Nat.lt_of_succ_lt hfuel)

/-- The resource `2` overlaps the child of the root partly. -/
def crossingHeap : Heap := Function.update coverHeap 2 { coverHeap 2 with start := 0x180, end_ := 0x280 }

theorem crossing_expanded :
    ∃ h', insertResourceExpandToFit 3 crossingHeap 0 2 = some h' ∧ Expanded crossingHeap 0 2 (.cons 1 .nil .nil) h' := by
  have hwf : WellFormed crossingHeap 0 (.cons 1 .nil .nil) := by
    refine coverHeap_wellFormed.congr fun a ha => Function.update_of_ne ?_ _ _
    rintro rfl
    exact absurd ha (by decide)
  exact expanded_to_least_cover hwf (by decide) rfl rfl ⟨by decide, by decide, by decide⟩ (by decide)

end GfpDrivers.ResourceTree
