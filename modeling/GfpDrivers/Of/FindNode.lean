import GfpDrivers.Lib.Forest
import GfpDrivers.Of.NodeLists

/-!
Finding nodes (`base.c`). `__of_find_all_nodes` goes through the tree along
the links between the nodes; in a live tree it comes by each node once, in
preorder. `of_find_node_by_phandle` looks into the cache first.
-/

namespace GfpDrivers.Of

open Lib

/-- The loop of `__of_find_all_nodes` that goes up to a node with a sibling. -/
def climbToSibling (s : DevTree) : ℕ → ℕ → Option (Option ℕ)
  | 0, _ => none
  | fuel + 1, np =>
      match (s.node np).parent, (s.node np).sibling with
      | some parent, none => climbToSibling s fuel parent
      | _, sibling => some sibling

/-- `__of_find_all_nodes` -/
def ofFindAllNodes (fuel : ℕ) (s : DevTree) (prev : Option ℕ) : Option (Option ℕ) :=
  match prev with
  | none => some s.root
  | some prev =>
      match (s.node prev).child with
      | some child => some (some child)
      | none => climbToSibling s fuel prev

/-- The loop `for_each_of_allnodes` of `of_find_node_by_phandle`. -/
def scanForPhandle (fuel : ℕ) (s : DevTree) (handle : ℕ) : ℕ → Option ℕ → Option (Option ℕ)
  | 0, _ => none
  | _ + 1, none => some none
  | rounds + 1, some np =>
      if (s.node np).phandle = handle ∧ (s.node np).detached = false then some (some np)
      else (ofFindAllNodes fuel s (some np)).bind fun np => scanForPhandle fuel s handle rounds np

/-- The search of `of_find_node_by_phandle` without the cache. -/
def ofScanByPhandle (fuel : ℕ) (s : DevTree) (handle : ℕ) : Option (Option ℕ) :=
  if handle = 0 then some none
  else (ofFindAllNodes fuel s none).bind fun np => scanForPhandle fuel s handle fuel np

/-- The node that the cache holds for a phandle. -/
def phandleCacheHit (s : DevTree) (handle : ℕ) : Option ℕ :=
  (s.phandleCache (ofPhandleCacheHash handle)).filter fun np => handle = (s.node np).phandle

/-- `of_find_node_by_phandle` -/
def ofFindNodeByPhandle (fuel : ℕ) (s : DevTree) (handle : ℕ) : Option (DevTree × Option ℕ) :=
  if handle = 0 then some (s, none)
  else
    match phandleCacheHit s handle with
    | some np => some (s, some np)
    | none =>
        (ofScanByPhandle fuel s handle).map fun np =>
          match np with
          | none => (s, none)
          | some np =>
              ({ s with
                phandleCache :=
                  Function.update s.phandleCache (ofPhandleCacheHash handle) (some np) }, some np)

/-! ### Loops that return -/

/-- With enough rounds the function returns `a`. -/
def Returns {α : Type} (f : ℕ → Option α) (a : α) : Prop := ∃ k, ∀ fuel ≥ k, f fuel = some a

theorem Returns.unique {α : Type} {f : ℕ → Option α} {a b : α} (ha : Returns f a)
    (hb : Returns f b) : a = b := by
  obtain ⟨k, hk⟩ := ha
  obtain ⟨l, hl⟩ := hb
  exact Option.some.inj ((hk _ (le_max_left k l)).symm.trans (hl _ (le_max_right k l)))

/-! ### The live tree -/

variable {s s' : DevTree} {r n p c np : ℕ} {T F K : Forest ℕ} {e : Option ℕ} {handle : ℕ}

/-- The children of an attached node. -/
structure Family (s : DevTree) (n : ℕ) (cs : List ℕ) : Prop where
  chain : Chain .sibling s.nodeLink (.child n) cs
  parent : ∀ c ∈ cs, (s.node c).parent = some n
  attached : ∀ c ∈ cs, (s.node c).detached = false

/-- The children are given by their links, parents and flags. -/
theorem Family.frame {cs : List ℕ} (h : Family s n cs)
    (hchild : s'.nodeLink (.child n) = s.nodeLink (.child n))
    (hsib : ∀ c ∈ cs, s'.nodeLink (.sibling c) = s.nodeLink (.sibling c))
    (hparent : ∀ c ∈ cs, (s'.node c).parent = (s.node c).parent)
    (hdet : ∀ c ∈ cs, (s'.node c).detached = (s.node c).detached) : Family s' n cs where
  chain := h.chain.congr fun x hx => by
    rcases List.mem_cons.mp hx with rfl | hx
    · exact hchild
    · obtain ⟨c, hc, rfl⟩ := List.mem_map.mp hx
      exact hsib c hc
  parent c hc := (hparent c hc).trans (h.parent c hc)
  attached c hc := (hdet c hc).trans (h.attached c hc)

/-- The tree below `of_root` has the shape `K`. -/
structure LiveForest (s : DevTree) (r : ℕ) (K : Forest ℕ) : Prop where
  root : s.root = some r
  parent : (s.node r).parent = none
  sibling : (s.node r).sibling = none
  attached : (s.node r).detached = false
  nodup : (Forest.cons r K .nil).nodes.Nodup
  family : (Forest.cons r K .nil).All (Family s)

/-- Going up from `n` leads to `e`. -/
def Climbs (s : DevTree) (n : ℕ) (e : Option ℕ) : Prop := Returns (fun fuel => climbToSibling s fuel n) e

theorem climbs_stop (h : (s.node n).sibling = e) (hp : e = none → (s.node n).parent = none) : Climbs s n e := by
  refine ⟨1, fun fuel hfuel => ?_⟩
  obtain ⟨fuel, rfl⟩ := Nat.exists_eq_add_of_le' hfuel
  cases e with
  | none => simp [climbToSibling, h, hp rfl]
  | some c => simp [climbToSibling, h]

theorem climbs_parent (h : (s.node n).sibling = none) (hp : (s.node n).parent = some p)
    (hup : Climbs s p e) : Climbs s n e := by
  obtain ⟨k, hk⟩ := hup
  refine ⟨k + 1, fun fuel hfuel => ?_⟩
  obtain ⟨fuel, rfl⟩ := Nat.exists_eq_add_of_le' (Nat.one_le_of_lt hfuel)
  simp only [climbToSibling, h, hp]
  exact hk fuel (by omega)

/-- The loop comes by the nodes `l` and then to `e`. -/
inductive Visits (s : DevTree) : Option ℕ → List ℕ → Option ℕ → Prop
  | nil {e : Option ℕ} : Visits s e [] e
  | cons {n : ℕ} {x e : Option ℕ} {l : List ℕ} :
      Returns (fun fuel => ofFindAllNodes fuel s (some n)) x → Visits s x l e →
      Visits s (some n) (n :: l) e

theorem Visits.append {x y : Option ℕ} {l l' : List ℕ} (h : Visits s x l y)
    (h' : Visits s y l' e) : Visits s x (l ++ l') e := by
  induction h with
  | nil => exact h'
  | cons hn _ ih => exact .cons hn (ih h')

/-- The loop comes by a list of siblings and everything below them, and then
goes where it gets by going up from their parent. -/
theorem visits_siblings {l : NodeSlot} (hall : F.All (Family s))
    (hchain : Chain .sibling s.nodeLink l F.roots) (hparent : ∀ c ∈ F.roots, (s.node c).parent = some p)
    (hup : Climbs s p e) : Visits s (F.roots.head?.or e) F.nodes e := by
  induction F generalizing l p e with
  | nil => exact .nil
  | cons a kids rest ihk ihr =>
    obtain ⟨hfam, hkids, hrest⟩ := hall
    have hsib : (s.node a).sibling = rest.roots.head? := hchain.2.first
    have hupa : Climbs s a (rest.roots.head?.or e) := by
      cases hr : rest.roots.head? with
      | none => exact climbs_parent (hsib.trans hr) (hparent a (by simp)) hup
      | some b => exact climbs_stop (hsib.trans hr) fun h => absurd h (by simp)
    have hchild : (s.node a).child = kids.roots.head? := hfam.chain.first
    have hnext : Returns (fun fuel => ofFindAllNodes fuel s (some a))
        (kids.roots.head?.or (rest.roots.head?.or e)) := by
      cases hk : kids.roots.head? with
      | none =>
        obtain ⟨k, hk'⟩ := hupa
        exact ⟨k, fun fuel hfuel => by simpa [ofFindAllNodes, hchild.trans hk] using hk' fuel hfuel⟩
      | some b => exact ⟨0, fun fuel _ => by simp [ofFindAllNodes, hchild.trans hk]⟩
    refine .cons hnext ?_
    refine (ihk hkids hfam.chain hfam.parent hupa).append ?_
    exact ihr hrest hchain.2 (fun c hc => hparent c (by simp [hc])) hup

theorem LiveForest.visits (h : LiveForest s r K) :
    Visits s (some r) (Forest.cons r K .nil).nodes none := by
  obtain ⟨hfam, hkids, -⟩ := h.family
  have hup : Climbs s r none := climbs_stop h.sibling fun _ => h.parent
  have hchild : (s.node r).child = K.roots.head? := hfam.chain.first
  have hnext : Returns (fun fuel => ofFindAllNodes fuel s (some r)) (K.roots.head?.or none) := by
    cases hk : K.roots.head? with
    | none =>
      obtain ⟨k, hk'⟩ := hup
      exact ⟨k, fun fuel hfuel => by simpa [ofFindAllNodes, hchild.trans hk] using hk' fuel hfuel⟩
    | some b => exact ⟨0, fun fuel _ => by simp [ofFindAllNodes, hchild.trans hk]⟩
  refine .cons hnext ?_
  rw [Forest.nodes_nil, List.append_nil]
  exact visits_siblings hkids hfam.chain hfam.parent hup

/-- Whether a node is what a phandle is looked up for. -/
def Matches (s : DevTree) (handle n : ℕ) : Prop :=
  (s.node n).phandle = handle ∧ (s.node n).detached = false

instance : DecidablePred (Matches s handle) := fun n =>
  inferInstanceAs (Decidable ((s.node n).phandle = handle ∧ (s.node n).detached = false))

theorem Visits.scan {x : Option ℕ} {l : List ℕ} (h : Visits s x l none) (handle : ℕ) :
    ∃ k, ∀ fuel ≥ k, ∀ rounds > l.length,
      scanForPhandle fuel s handle rounds x = some (l.find? fun n => Matches s handle n) := by
  generalize he : (none : Option ℕ) = e at h
  induction h with
  | nil =>
    subst he
    refine ⟨0, fun fuel _ rounds hrounds => ?_⟩
    obtain ⟨rounds, rfl⟩ := Nat.exists_eq_add_of_lt hrounds
    rfl
  | @cons n x e l hnext _ ih =>
    obtain ⟨k, hk⟩ := ih he
    obtain ⟨k', hk'⟩ := hnext
    refine ⟨max k k', fun fuel hfuel rounds hrounds => ?_⟩
    obtain ⟨rounds, rfl⟩ := Nat.exists_eq_add_of_lt (Nat.zero_lt_of_lt hrounds)
    rw [Nat.zero_add] at hrounds ⊢
    rw [List.length_cons] at hrounds
    rw [scanForPhandle, List.find?_cons]
    by_cases hm : Matches s handle n
    · rw [if_pos (show _ ∧ _ from hm), decide_eq_true hm]
    · have hstep : ofFindAllNodes fuel s (some n) = some x := hk' fuel (by omega)
      rw [if_neg (show ¬(_ ∧ _) from hm), decide_eq_false hm, hstep]
      exact hk fuel (by omega) rounds (by omega)

theorem LiveForest.scan (h : LiveForest s r K) (hhandle : handle ≠ 0) :
    Returns (fun fuel => ofScanByPhandle fuel s handle)
      ((Forest.cons r K .nil).nodes.find? fun n => Matches s handle n) := by
  obtain ⟨k, hk⟩ := h.visits.scan handle
  refine ⟨max k ((Forest.cons r K .nil).nodes.length + 1), fun fuel hfuel => ?_⟩
  simp only [ofScanByPhandle, if_neg hhandle, ofFindAllNodes, h.root, Option.bind_some]
  exact hk fuel (by omega) fuel (by omega)

theorem LiveForest.detached (h : LiveForest s r K) (hn : n ∈ (Forest.cons r K .nil).nodes) :
    (s.node n).detached = false := by
  rcases Forest.root_or_below hn with hroot | ⟨q, L, hat, hL⟩
  · obtain rfl : n = r := by simpa using hroot
    exact h.attached
  · exact (hat.all h.family).1.attached n hL

theorem LiveForest.closed (h : LiveForest s r K) (hn : n ∈ (Forest.cons r K .nil).nodes)
    (hlink : s.nodeLink (.child n) = some c ∨ s.nodeLink (.sibling n) = some c) :
    c ∈ (Forest.cons r K .nil).nodes := by
  rcases hlink with hlink | hlink
  · obtain ⟨L, hat⟩ := Forest.exists_at hn
    have hfirst := (hat.all h.family).1.chain.first
    rw [hlink] at hfirst
    exact hat.subset (Forest.roots_subset_nodes (List.mem_of_mem_head? hfirst.symm))
  · rcases Forest.root_or_below hn with hroot | ⟨q, L, hat, hL⟩
    · obtain rfl : n = r := by simpa using hroot
      exact absurd (h.sibling.symm.trans hlink) (by simp)
    · have hmem := (hat.all h.family).1.chain.mem_of_link hL hlink
      exact hat.subset (Forest.roots_subset_nodes hmem)

/-! ### What belongs to the tree -/

/-- The node `c` is reached from `n` by going down. -/
inductive Below (s : DevTree) (n : ℕ) : ℕ → Prop
  | child {c : ℕ} : Linked .sibling s.nodeLink (.child n) c → Below s n c
  | trans {c d : ℕ} : Below s n c → Linked .sibling s.nodeLink (.child c) d → Below s n d

theorem not_below (h : s.nodeLink (.child n) = none) : ¬Below s n c := by
  intro hc
  induction hc with
  | child hc => exact not_linked h hc
  | trans _ _ ih => exact ih

/-- The node belongs to the live tree. -/
def Live (s : DevTree) (n : ℕ) : Prop := ∃ r, s.root = some r ∧ (n = r ∨ Below s r n)

theorem below_of_mem (hall : F.All (Family s)) (hroots : ∀ a ∈ F.roots, Below s n a)
    (hc : c ∈ F.nodes) : Below s n c := by
  induction F with
  | nil => simp at hc
  | cons a kids rest ihk ihr =>
    obtain ⟨hfam, hkids, hrest⟩ := hall
    have ha := hroots a (by simp)
    rw [Forest.nodes_cons, List.mem_cons, List.mem_append] at hc
    rcases hc with rfl | hc | hc
    · exact ha
    · exact ihk hkids (fun b hb => .trans ha (hfam.chain.linked_iff.mpr hb)) hc
    · exact ihr hrest (fun b hb => hroots b (by simp [hb])) hc

theorem below_iff (hall : F.All (Family s)) (hat : F.At n K) : Below s n c ↔ c ∈ K.nodes := by
  obtain ⟨hfam, hK⟩ := hat.all hall
  refine ⟨fun h => ?_, below_of_mem hK fun a ha => .child (hfam.chain.linked_iff.mpr ha)⟩
  induction h with
  | child hc => exact Forest.roots_subset_nodes (hfam.chain.linked_iff.mp hc)
  | trans _ hd ih =>
    obtain ⟨L, hL⟩ := Forest.exists_at ih
    exact hL.subset (Forest.roots_subset_nodes ((hL.all hK).1.chain.linked_iff.mp hd))

theorem LiveForest.live_iff (h : LiveForest s r K) :
    Live s n ↔ n ∈ (Forest.cons r K .nil).nodes := by
  have hbelow : ∀ c, Below s r c ↔ c ∈ K.nodes := fun c => below_iff h.family (.here .nil)
  simp [Live, h.root, hbelow]

end GfpDrivers.Of
