import GfpDrivers.Lib.Cover
import GfpDrivers.ResourceTree.ExpandToFit

/-!
The walk over a resource tree. `next_resource` goes to the first child, or else up to the
next sibling of an ancestor; `next_resource_skip_children` starts to go up at once. From the
first child of the root they visit the resources below it in order, a resource before those
below it (`Iomem.leads`).
-/

namespace GfpDrivers.ResourceTree

open Lib

/-- `next_resource_skip_children`, and so the loop of `next_resource`. -/
def nextResourceSkipChildren (h : Heap) : ℕ → ℕ → Option (Option ℕ)
  | 0, _ => none
  | fuel + 1, p =>
      match (h p).sibling, (h p).parent with
      | none, some parent => nextResourceSkipChildren h fuel parent
      | sibling, _ => some sibling

/-- `next_resource` -/
def nextResource (h : Heap) (fuel p : ℕ) : Option (Option ℕ) :=
  match (h p).child with
  | some child => some (some child)
  | none => nextResourceSkipChildren h fuel p

/-- The walk over the forest starts at `p` and goes on at `e`. -/
def Leads (h : Heap) (fuel : ℕ) : Forest ℕ → Option ℕ → Option ℕ → Prop
  | .nil, p, e => p = e
  | .cons a kids rest, p, e =>
      p = some a ∧ ∃ c m, nextResource h fuel a = some c ∧ nextResourceSkipChildren h fuel a = some m ∧
        Leads h fuel kids c m ∧ Leads h fuel rest m e

/-- A tree of resources with 64-bit addresses. The root is alone: the walk ends there. -/
structure Iomem (h : Heap) (root : ℕ) (T : Forest ℕ) : Prop where
  wellFormed : WellFormed h root T
  parent : (h root).parent = none
  sibling : (h root).sibling = none
  end_lt : (h root).end_ < 2 ^ 64

variable {h : Heap} {root fuel n q : ℕ} {p e : Option ℕ} {T K : Forest ℕ}

theorem nextResourceSkipChildren_step (hparent : (h n).parent = some q)
    (hq : nextResourceSkipChildren h fuel q = some e) :
    nextResourceSkipChildren h (fuel + 1) n = some ((h n).sibling.or e) := by
  rw [nextResourceSkipChildren, hparent]
  cases hsib : (h n).sibling with
  | none => exact hq
  | some sibling => rfl

theorem nextResourceSkipChildren_mono {m : ℕ} (hn : nextResourceSkipChildren h n q = some e) (hle : n ≤ m) :
    nextResourceSkipChildren h m q = some e := by
  induction n generalizing q m with
  | zero => cases hn
  | succ n ih =>
    obtain ⟨m, rfl⟩ := Nat.exists_eq_add_one_of_ne_zero (show m ≠ 0 by omega)
    rw [nextResourceSkipChildren] at hn ⊢
    cases hsib : (h q).sibling with
    | some sibling =>
      rw [hsib] at hn
      exact hn
    | none =>
      cases hparent : (h q).parent with
      | none =>
        rw [hsib, hparent] at hn
        exact hn
      | some parent =>
        rw [hsib, hparent] at hn
        exact ih hn (by omega)

/-- **The walk**, below a resource `q` from which it goes on at `e`. -/
theorem leads_of_family (hall : K.All (Family h)) (hp : Siblings h p K.roots none)
    (hparent : ∀ c ∈ K.roots, (h c).parent = some q) (hq : nextResourceSkipChildren h n q = some e)
    (hfuel : n + K.nodes.length ≤ fuel) : Leads h fuel K (p.or e) e := by
  induction K generalizing p q n e with
  | nil =>
    have hp' : p = none := hp
    rw [hp']
    rfl
  | cons a kids rest ihk ihr =>
    obtain ⟨hf, hk, hr⟩ := hall
    obtain ⟨hpa, hrest⟩ := hp
    simp only [Forest.nodes_cons, List.length_cons, List.length_append] at hfuel
    have hup := nextResourceSkipChildren_step (hparent a (by simp)) hq
    have hskip := nextResourceSkipChildren_mono hup (show n + 1 ≤ fuel by omega)
    have hnext : nextResource h fuel a = some ((h a).child.or ((h a).sibling.or e)) := by
      rw [nextResource]
      cases hchild : (h a).child with
      | none => exact hskip
      | some child => rfl
    refine ⟨by rw [hpa, Option.some_or], _, _, hnext, hskip, ?_, ?_⟩
    · exact ihk hk hf.chain hf.parent hup (by omega)
    · exact ihr hr hrest (fun c hc => hparent c (by simp [hc])) hq (by omega)

theorem Iomem.leads (hio : Iomem h root T) (hfuel : T.nodes.length < fuel) : Leads h fuel T (h root).child none := by
  obtain ⟨hf, hall⟩ := hio.wellFormed.at (.here .nil)
  have hroot : nextResourceSkipChildren h 1 root = some none := by
    rw [nextResourceSkipChildren, hio.parent, hio.sibling]
  have hleads := leads_of_family hall hf.chain hf.parent hroot (by omega : 1 + T.nodes.length ≤ fuel)
  rwa [Option.or_none] at hleads

/-! ### The order of the walk -/

theorem precedes_of_family (hall : K.All (Family h)) (hbefore : K.roots.Pairwise fun a b => (h a).end_ < (h b).start)
    (hvalid : ∀ c ∈ K.roots, (h c).start ≤ (h c).end_) : (spans h K).Pairwise Span.Precedes := by
  rw [spans, List.pairwise_map]
  induction K with
  | nil => exact .nil
  | cons a kids rest ihk ihr =>
    obtain ⟨hf, hk, hr⟩ := hall
    obtain ⟨ha, hrest⟩ := List.pairwise_cons.mp hbefore
    have hvalid' : ∀ c ∈ rest.roots, (h c).start ≤ (h c).end_ := fun c hc => hvalid c (by simp [hc])
    have hafter : ∀ b ∈ rest.nodes, (h a).end_ < (h b).start := by
      intro b hb
      obtain ⟨c, hc, hstart, -⟩ := inside_roots hr hvalid' b hb
      have := ha c hc
      omega
    have hinside : ∀ b ∈ kids.nodes, (h a).start ≤ (h b).start ∧ (h b).end_ ≤ (h a).end_ := by
      intro b hb
      obtain ⟨c, hc, hstart, -, hend⟩ := inside_roots hk hf.valid b hb
      have := hf.inside c hc
      omega
    have hva := hvalid a (by simp)
    rw [Forest.nodes_cons, List.pairwise_cons, List.pairwise_append]
    refine ⟨?_, ihk hk hf.before hf.valid, ihr hr hrest hvalid', ?_⟩
    · intro b hb
      rcases List.mem_append.mp hb with hb | hb
      · exact ⟨(hinside b hb).1, .inl (hinside b hb).2⟩
      · have := hafter b hb
        exact ⟨by simp only [Resource.span]; omega, .inr this⟩
    · intro b hb c hc
      obtain ⟨d, -, -, hvb, -⟩ := inside_roots hk hf.valid b hb
      have := hinside b hb
      have := hafter c hc
      simp only [Span.Precedes, Resource.span]
      omega

theorem Iomem.precedes (hio : Iomem h root T) : (spans h T).Pairwise Span.Precedes := by
  obtain ⟨hf, hall⟩ := hio.wellFormed.at (.here .nil)
  exact precedes_of_family hall hf.before hf.valid

end GfpDrivers.ResourceTree
