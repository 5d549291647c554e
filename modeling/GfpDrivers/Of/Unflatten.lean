import GfpDrivers.Of.FlatNodes

/-!
Unflattening preserves the tree. After the loop over the blob `reverse_nodes`
turns the lists of children round, below all nodes, so that they are in the
order of the blob.
-/

namespace GfpDrivers.Of

open Lib Function

variable {s : DevTree} {link link' : NodeSlot → Option ℕ} {np parent fuel rounds : ℕ}
  {cs ds : List ℕ} {K : Forest ℕ} {p : Option ℕ}

/-! ### Links between nodes -/

/-- The tree with other links between the nodes. -/
def DevTree.withNodeLink (s : DevTree) (link : NodeSlot → Option ℕ) : DevTree :=
  { s with node := fun n => { s.node n with child := link (.child n), sibling := link (.sibling n) } }

@[simp] theorem withNodeLink_nodeLink : (s.withNodeLink link).nodeLink = link := by
  funext slot
  cases slot <;> rfl

@[simp] theorem withNodeLink_self : s.withNodeLink s.nodeLink = s := rfl

@[simp] theorem withNodeLink_child : ((s.withNodeLink link).node np).child = link (.child np) := rfl

@[simp] theorem withNodeLink_sibling : ((s.withNodeLink link).node np).sibling = link (.sibling np) := rfl

theorem withNodeLink_setChild {v : Option ℕ} :
    (s.withNodeLink link).setNode np { (s.withNodeLink link).node np with child := v } =
      s.withNodeLink (update link (.child np) v) := by
  simp only [DevTree.setNode, DevTree.withNodeLink, DevTree.mk.injEq, and_true]
  funext m
  by_cases hm : m = np
  · subst hm
    simp
  · simp [hm]

theorem withNodeLink_setSibling {v : Option ℕ} :
    (s.withNodeLink link).setNode np { (s.withNodeLink link).node np with sibling := v } =
      s.withNodeLink (update link (.sibling np) v) := by
  simp only [DevTree.setNode, DevTree.withNodeLink, DevTree.mk.injEq, and_true]
  funext m
  by_cases hm : m = np
  · subst hm
    simp
  · simp [hm]

/-! ### One list -/

/-- The second loop of `reverse_nodes` puts the nodes `cs`, one by one, in
front of the children that are already turned round. -/
theorem reverseList_eq (s : DevTree) (hfuel : cs.length ≤ fuel) (hnod : cs.Nodup)
    (hpath : Lib.Path (fun c => link (.sibling c)) p cs none)
    (hdone : Chain .sibling link (.child parent) ds) (hdisj : ∀ d ∈ ds, d ∉ cs) :
    ∃ link', reverseList parent fuel (s.withNodeLink link) p = some (s.withNodeLink link') ∧
      Chain .sibling link' (.child parent) (cs.reverse ++ ds) ∧
      ∀ l, l ≠ .child parent → (∀ c ∈ cs, l ≠ .sibling c) → link' l = link l := by
  induction cs generalizing fuel link p ds with
  | nil =>
    obtain rfl : p = none := hpath
    exact ⟨link, by cases fuel <;> rfl, hdone, fun _ _ _ => rfl⟩
  | cons c cs ih =>
    obtain ⟨rfl, hpath⟩ := hpath
    obtain ⟨hc, hnod⟩ := List.nodup_cons.mp hnod
    cases fuel with
    | zero => simp at hfuel
    | succ fuel =>
      have hcds : c ∉ ds := fun hmem => hdisj c hmem (by simp)
      have hpath' : Lib.Path (fun b => update (update link (.sibling c)
          (link (.child parent))) (.child parent) (some c) (.sibling b)) (link (.sibling c)) cs none := by
        refine hpath.congr fun b hb => ?_
        have hne : b ≠ c := fun heq => hc (heq ▸ hb)
        simp [hne]
      have hdone' : Chain .sibling (update (update link (.sibling c)
          (link (.child parent))) (.child parent) (some c)) (.child parent) (c :: ds) := by
        refine ⟨by simp, hdone.moved (by simp) fun b hb => ?_⟩
        have hne : b ≠ c := fun heq => hcds (heq ▸ hb)
        simp [hne]
      have hdisj' : ∀ d ∈ c :: ds, d ∉ cs := by
        intro d hd
        rcases List.mem_cons.mp hd with rfl | hd
        · exact hc
        · exact fun hmem => hdisj d hd (by simp [hmem])
      obtain ⟨link', hrun, hchain, hother⟩ := ih (by simpa using hfuel) hnod hpath' hdone' hdisj'
      refine ⟨link', ?_, by simpa using hchain, ?_⟩
      · simp only [reverseList]
        rw [withNodeLink_setSibling, withNodeLink_setChild]
        exact hrun
      · intro l hl hls
        rw [hother l hl fun b hb => hls b (by simp [hb]), update_of_ne hl,
          update_of_ne (hls c (by simp))]

/-! ### All lists -/

/-- The lists of children, by the links alone. -/
def ListedIn (link : NodeSlot → Option ℕ) (np : ℕ) (cs : List ℕ) : Prop :=
  Chain .sibling link (.child np) cs

theorem ListedIn.frame (h : ListedIn link np cs) (hchild : link' (.child np) = link (.child np))
    (hsib : ∀ c ∈ cs, link' (.sibling c) = link (.sibling c)) : ListedIn link' np cs := by
  refine h.congr fun x hx => ?_
  rcases List.mem_cons.mp hx with rfl | hx
  · exact hchild
  · obtain ⟨c, hc, rfl⟩ := List.mem_map.mp hx
    exact hsib c hc

theorem Chain.path {l : NodeSlot} (h : Chain .sibling link l cs) :
    Lib.Path (fun c => link (.sibling c)) (link l) cs none := by
  induction cs generalizing l with
  | nil => exact h
  | cons c cs ih => exact ⟨h.1, ih h.2⟩

/-- The first loop of `reverse_nodes` goes through the nodes `K`, from the last
one on, and turns the lists below them round. The nodes `tl` are still ahead. -/
def TurnsEach (s : DevTree) (fuel : ℕ) (K : Forest ℕ) : Prop :=
  ∀ link p tl m rounds, K.nodes.length ≤ rounds → K.nodes.Nodup → (∀ c ∈ tl, c ∉ K.nodes) →
    (K.All fun np cs => ListedIn link np cs.reverse) →
    Lib.Path (fun c => link (.sibling c)) p (K.roots.reverse ++ tl) none →
    ∃ link' p', reverseEach (reverseNodes fuel rounds) (K.roots.length + m) (s.withNodeLink link) p =
        reverseEach (reverseNodes fuel rounds) m (s.withNodeLink link') p' ∧
      Lib.Path (fun c => link' (.sibling c)) p' tl none ∧ K.All (ListedIn link') ∧
      (∀ a ∉ K.nodes, link' (.child a) = link (.child a)) ∧
      ∀ a, a ∉ K.nodes ∨ a ∈ K.roots → link' (.sibling a) = link (.sibling a)

theorem reverseEach_none {reverse : DevTree → ℕ → Option DevTree} :
    reverseEach reverse fuel s none = some s := by
  cases fuel <;> rfl

/-- `reverse_nodes` turns round the children of `np` and all lists below. -/
theorem reverseNodes_eq (hK : TurnsEach s fuel K) (hrounds : K.nodes.length ≤ rounds)
    (hfuel : K.nodes.length ≤ fuel) (hnp : np ∉ K.nodes) (hnod : K.nodes.Nodup)
    (hlist : ListedIn link np K.roots.reverse)
    (hall : K.All fun np cs => ListedIn link np cs.reverse) :
    ∃ link', reverseNodes fuel (rounds + 1) (s.withNodeLink link) np = some (s.withNodeLink link') ∧
      ListedIn link' np K.roots ∧ K.All (ListedIn link') ∧
      (∀ a, a ≠ np → a ∉ K.nodes → link' (.child a) = link (.child a)) ∧
      ∀ a ∉ K.nodes, link' (.sibling a) = link (.sibling a) := by
  have hroots : K.roots.length ≤ fuel := Forest.length_roots_le.trans hfuel
  obtain ⟨link₁, p', heach, hend, hall₁, hchild₁, hsib₁⟩ := hK link (link (.child np)) []
    (fuel - K.roots.length) rounds hrounds hnod (by simp) hall (by simpa using Chain.path hlist)
  obtain rfl : p' = none := hend
  rw [Nat.add_sub_cancel' hroots] at heach
  have hpath : Lib.Path (fun c => update link₁ (.child np) none (.sibling c))
      (link₁ (.child np)) K.roots.reverse none := by
    rw [hchild₁ np hnp]
    refine (Chain.path hlist).congr fun c hc => ?_
    simpa using hsib₁ c (.inr (List.mem_reverse.mp hc))
  have hnil : Chain .sibling (update link₁ (.child np) none) (.child np) [] :=
    update_self ..
  have hlen : K.roots.reverse.length ≤ fuel := by simpa using hroots
  obtain ⟨link₂, hlist₂, hturned, hother⟩ := reverseList_eq s hlen
    (List.nodup_reverse.mpr (hnod.sublist Forest.roots_sublist_nodes)) hpath hnil (by simp)
  rw [List.reverse_reverse, List.append_nil] at hturned
  have hchild₂ : ∀ a ≠ np, link₂ (.child a) = link₁ (.child a) := fun a ha => by
    rw [hother _ (by simpa using ha) (by simp), update_of_ne (by simpa using ha)]
  have hsib₂ : ∀ a ∉ K.roots, link₂ (.sibling a) = link₁ (.sibling a) := fun a ha => by
    rw [hother _ (by simp) fun c hc heq => ?_, update_of_ne (by simp)]
    exact ha (NodeSlot.sibling.inj heq ▸ List.mem_reverse.mp hc)
  refine ⟨link₂, ?_, hturned, ?_, ?_, ?_⟩
  · rw [reverseNodes, withNodeLink_child, heach, reverseEach_none, Option.bind_some]
    simp only [withNodeLink_setChild]
    exact hlist₂
  · refine hall₁.inner hnod fun a cs ha hcs hla => hla.frame (hchild₂ a ?_) fun c hc => ?_
    · exact fun heq => hnp (heq ▸ ha)
    · exact hsib₂ c (hcs c hc).2
  · intro a hne ha
    rw [hchild₂ a hne, hchild₁ a ha]
  · intro a ha
    rw [hsib₂ a fun hr => ha (Forest.roots_subset_nodes hr), hsib₁ a (.inl ha)]

theorem turnsEach (K : Forest ℕ) (hfuel : K.nodes.length ≤ fuel) : TurnsEach s fuel K := by
  induction K with
  | nil =>
    intro link p tl m rounds _ _ _ _ hpath
    exact ⟨link, p, by simp, hpath, trivial, fun _ _ => rfl, fun _ _ => rfl⟩
  | cons a K F ihK ihF =>
    intro link p tl m rounds hrounds hnod htl hall hpath
    simp only [Forest.nodes_cons, List.length_cons, List.length_append] at hfuel hrounds
    simp only [Forest.nodes_cons, List.nodup_cons, List.mem_append, not_or, List.nodup_append] at hnod
    obtain ⟨⟨haK, haF⟩, hK, hF, hKF⟩ := hnod
    obtain ⟨hlist, hallK, hallF⟩ := hall
    -- the nodes behind `a` come first
    have htlF : ∀ c ∈ a :: tl, c ∉ F.nodes := by
      intro c hc hcF
      rcases List.mem_cons.mp hc with rfl | hc
      · exact haF hcF
      · exact htl c hc (by simp [hcF])
    obtain ⟨link₁, p₁, heach, hpath₁, hallF₁, hchild₁, hsib₁⟩ := ihF (by omega) link p (a :: tl) (m + 1)
      rounds (by omega) hF htlF hallF (by simpa using hpath)
    obtain ⟨rfl, hpath₁⟩ := hpath₁
    have hnotF : ∀ c ∈ K.nodes, c ∉ F.nodes := fun c hc hcF => hKF c hc c hcF rfl
    have hnotK : ∀ c ∈ F.nodes, c ∉ K.nodes := fun c hc hcK => hKF c hcK c hc rfl
    have hlist₁ : ListedIn link₁ a K.roots.reverse := by
      refine hlist.frame (hchild₁ a haF) fun c hc => hsib₁ c (.inl (hnotF c ?_))
      exact Forest.roots_subset_nodes (List.mem_reverse.mp hc)
    have hallK₁ : K.All fun np cs => ListedIn link₁ np cs.reverse :=
      hallK.inner hK fun b cs hb hcs hlb => hlb.frame (hchild₁ b (hnotF b hb)) fun c hc =>
        hsib₁ c (.inl (hnotF c (hcs c (List.mem_reverse.mp hc)).1))
    -- then `a` and all below it
    obtain ⟨rounds, rfl⟩ : ∃ r, rounds = r + 1 := ⟨rounds - 1, by omega⟩
    have hroundsK : K.nodes.length ≤ rounds := by omega
    obtain ⟨link₂, hnode, hlist₂, hallK₂, hchild₂, hsib₂⟩ :=
      reverseNodes_eq (ihK (by omega)) hroundsK (by omega) haK hK hlist₁ hallK₁
    have hne : ∀ b ∈ F.nodes, b ≠ a := fun b hb heq => haF (heq ▸ hb)
    refine ⟨link₂, link₂ (.sibling a), ?_, ?_, ⟨hlist₂, hallK₂, ?_⟩, ?_, ?_⟩
    · rw [Forest.roots_cons, List.length_cons, Nat.add_right_comm, Nat.add_assoc, heach, reverseEach,
        hnode, Option.bind_some, withNodeLink_sibling]
    · rw [hsib₂ a haK]
      exact hpath₁.congr fun c hc => hsib₂ c fun hcK => htl c hc (by simp [hcK])
    · exact hallF₁.inner hF fun b cs hb hcs hlb => hlb.frame (hchild₂ b (hne b hb) (hnotK b hb))
        fun c hc => hsib₂ c (hnotK c (hcs c hc).1)
    · intro b hb
      simp only [Forest.nodes_cons, List.mem_cons, List.mem_append, not_or] at hb
      rw [hchild₂ b hb.1 hb.2.1, hchild₁ b hb.2.2]
    · intro b hb
      simp only [Forest.nodes_cons, List.mem_cons, List.mem_append, not_or, Forest.roots_cons] at hb
      rcases hb with ⟨-, hbK, hbF⟩ | rfl | hbF
      · rw [hsib₂ b hbK, hsib₁ b (.inl hbF)]
      · rw [hsib₂ b haK, hsib₁ b (.inl haF)]
      · rw [hsib₂ b (hnotK b (Forest.roots_subset_nodes hbF)), hsib₁ b (.inr hbF)]

/-! ### The whole blob -/

variable {z : Sizes} {mem : ℕ} {n : FlatNode} {K : Forest FlatNode}

theorem copies_length {hi : ℕ} {dad : Option ℕ} {F : Forest FlatNode} {ids : Forest ℕ}
    (h : Copies s hi dad F ids) : ids.nodes.length = F.nodes.length := by
  induction F generalizing dad ids with
  | nil =>
    cases ids with
    | nil => rfl
    | cons np K' F' => exact h.elim
  | cons n K F ihK ihF =>
    cases ids with
    | nil => exact h.elim
    | cons np K' F' => simp [ihK h.2.1, ihF h.2.2]

/-- With enough rounds for all nodes and properties, the blob is unflattened. -/
theorem unflattenDtNodes_eq (hmem : mem ≠ 0)
    (hdepth : ∀ v ∈ visits 0 (.cons n K .nil), v.1 < fdtMaxDepth - 1)
    (hzero : Zeroed s mem (z.blobEnd mem (.cons n K .nil)))
    (hnodes : (Forest.cons n K .nil).nodes.length ≤ fuel)
    (hprops : ∀ m ∈ (Forest.cons n K .nil).nodes, m.props.length + 1 < fuel) :
    ∃ s' np ids, unflattenDtNodes z fuel s (.cons n K .nil) mem none =
        some (s', z.blobEnd mem (.cons n K .nil) - mem, some np) ∧
      (Forest.cons np ids .nil).nodes.Nodup ∧
      Copies s' (z.blobEnd mem (.cons n K .nil)) none (.cons n K .nil) (.cons np ids .nil) ∧
      (Forest.cons np ids .nil).All (Listed s') := by
  have hdeep : ∀ v ∈ visits 0 (.cons n K .nil), v.1 + 1 < fdtMaxDepth := fun v hv => by
    have := hdepth v hv
    omega
  obtain ⟨u, ids, hloop, hgrown⟩ := unflatten_grows (z := z) (.cons n K .nil)
    (u := ⟨s, mem, update (fun _ => none) 0 none, none, none⟩) rfl hdeep hprops hzero (by simp)
  have hend : u.mem = z.blobEnd mem (.cons n K .nil) := hgrown.mem
  -- the copy has one root, as the blob has
  obtain ⟨np, K', rfl⟩ : ∃ np K', ids = .cons np K' .nil := by
    have hcopies := hgrown.copies
    match ids, hcopies with
    | .cons np K' .nil, _ => exact ⟨np, K', rfl⟩
  have hlen := copies_length hgrown.copies
  have hnod := hgrown.nodup
  simp only [Forest.nodes_cons, Forest.nodes_nil, List.append_nil, List.length_cons] at hlen hnodes
  simp only [Forest.nodes_cons, Forest.nodes_nil, List.append_nil, List.nodup_cons] at hnod
  obtain ⟨rounds, rfl⟩ : ∃ r, fuel = r + 1 := ⟨fuel - 1, by omega⟩
  have hrounds : K'.nodes.length ≤ rounds := by omega
  have hturns : TurnsEach u.tree (rounds + 1) K' := turnsEach K' (by omega)
  have hlist₀ : ListedIn u.tree.nodeLink np K'.roots.reverse := hgrown.listed.1
  obtain ⟨link', hrev, hlist, hall, -, -⟩ := reverseNodes_eq hturns hrounds (by omega) hnod.1 hnod.2
    hlist₀ hgrown.listed.2.1
  rw [withNodeLink_self] at hrev
  refine ⟨u.tree.withNodeLink link', np, K', ?_, hgrown.nodup, ?_, ?_⟩
  · have hroot : u.root = some np := hgrown.root
    have hnodepp : u.nodepp = some np := hgrown.nodepp
    simp only [unflattenDtNodes, hmem, decide_false, Option.isSome_none, Bool.false_eq_true, if_false,
      hloop, Option.bind_some, hroot, hnodepp, hrev, hend]
    rfl
  · rw [← hend]
    exact hgrown.copies.frame le_rfl (fun a _ => ⟨_, _, _, rfl⟩) fun _ _ => rfl
  · refine ⟨?_, ?_, trivial⟩
    · rw [Listed, withNodeLink_nodeLink]
      exact hlist
    · unfold Listed
      rw [withNodeLink_nodeLink]
      exact hall

/-- Unflattening preserves the tree: with enough rounds, `unflatten_dt_nodes`
makes one node for each node of the blob, below the node made from its parent,
with the children and the properties in the order of the blob. A `name`
property is added where there is none, and the phandle is taken from the
properties. -/
theorem unflatten_preserves_tree (z : Sizes) (s : DevTree) (n : FlatNode) (K : Forest FlatNode)
    (mem : ℕ) (hmem : mem ≠ 0) (hdepth : ∀ v ∈ visits 0 (.cons n K .nil), v.1 < fdtMaxDepth - 1)
    (hzero : Zeroed s mem (z.blobEnd mem (.cons n K .nil))) :
    ∃ k, ∀ fuel ≥ k, ∃ s' np ids, unflattenDtNodes z fuel s (.cons n K .nil) mem none =
        some (s', z.blobEnd mem (.cons n K .nil) - mem, some np) ∧
      (Forest.cons np ids .nil).nodes.Nodup ∧
      Copies s' (z.blobEnd mem (.cons n K .nil)) none (.cons n K .nil) (.cons np ids .nil) ∧
      (Forest.cons np ids .nil).All (Listed s') := by
  have hlong : ∀ ns : List FlatNode, ∃ k, ∀ m ∈ ns, m.props.length + 1 < k := by
    intro ns
    induction ns with
    | nil => exact ⟨0, by simp⟩
    | cons m ns ih =>
        obtain ⟨k, hk⟩ := ih
        refine ⟨max k (m.props.length + 2), fun m' hm' => ?_⟩
        rcases List.mem_cons.mp hm' with rfl | hm'
        · omega
        · have := hk m' hm'
          omega
  obtain ⟨k, hk⟩ := hlong (Forest.cons n K .nil).nodes
  refine ⟨max k (Forest.cons n K .nil).nodes.length, fun fuel hfuel => ?_⟩
  refine unflattenDtNodes_eq hmem hdepth hzero (by omega) fun m hm => ?_
  have := hk m hm
  omega

/-- Nothing is in memory yet. -/
def zeroTree : DevTree where
  node := fun _ => ⟨cstring "", 0, "", none, none, none, none, none, false, false⟩
  prop := fun _ => ⟨"", 0, cstring "", none⟩
  root := none
  phandleCache := fun _ => none

theorem zeroTree_zeroed {lo hi : ℕ} : Zeroed zeroTree lo hi :=
  ⟨fun _ _ _ => rfl, fun _ _ _ => rfl, fun _ _ _ => rfl, fun _ _ _ => rfl, fun _ _ _ => rfl,
    fun _ _ _ => rfl⟩

/-- The bytes of a big-endian number below 256. -/
def bigEndian (b : UInt8) : Bytes := fun i => if i = 3 then b else 0

def wordSizes : Sizes := ⟨64, 8, 32, 8, by decide, by decide, by decide, by decide⟩

theorem unflatten_two_nodes :
    ∃ k, ∀ fuel ≥ k, ∃ s' size np c, unflattenDtNodes wordSizes fuel zeroTree
        (.cons ⟨"", []⟩ (.cons ⟨"cpu@1", [⟨"phandle", 4, bigEndian 7⟩]⟩ .nil .nil) .nil) 8 none =
          some (s', size, some np) ∧
      (s'.node np).child = some c ∧ (s'.node c).parent = some np ∧ (s'.node c).phandle = 7 := by
  obtain ⟨k, hk⟩ := unflatten_preserves_tree wordSizes zeroTree ⟨"", []⟩
    (.cons ⟨"cpu@1", [⟨"phandle", 4, bigEndian 7⟩]⟩ .nil .nil) 8 (by decide) (by decide) zeroTree_zeroed
  refine ⟨k, fun fuel hfuel => ?_⟩
  obtain ⟨s', np, ids, hrun, -, ⟨-, hcopies, -⟩, hall⟩ := hk fuel hfuel
  match ids, hcopies with
  | .cons c _ .nil, hcopies =>
      obtain ⟨as, hnode, -⟩ := hcopies.1
      have hphandle : flatPhandle [⟨"phandle", 4, bigEndian 7⟩] = 7 := by decide
      exact ⟨s', _, np, c, hrun, hall.1.1, hnode.parent, hnode.phandle.trans hphandle⟩

/-- The value of the first property that gives a phandle. -/
def firstPhandle (ps : List FlatProp) : ℕ :=
  ((ps.find? fun p => p.name = "phandle" ∨ p.name = "linux,phandle" ∨ p.name = "ibm,phandle").map
    fun p => be32ToCpup p.value).getD 0

/-- An `ibm,phandle` wins over the `phandle` before it. -/
theorem ibm_phandle_overrides :
    ∃ (fuel : ℕ) (n : FlatNode) (s' : DevTree) (size np : ℕ),
      unflattenDtNodes wordSizes fuel zeroTree (.cons n .nil .nil) 8 none = some (s', size, some np) ∧
        n.props = [⟨"phandle", 4, bigEndian 1⟩, ⟨"ibm,phandle", 4, bigEndian 2⟩] ∧
        (s'.node np).phandle = 2 ∧ firstPhandle n.props = 1 := by
  obtain ⟨s', np, ids, hrun, -, ⟨⟨as, hnode, -⟩, -, -⟩, -⟩ := unflattenDtNodes_eq (z := wordSizes)
    (s := zeroTree) (n := ⟨"", [⟨"phandle", 4, bigEndian 1⟩, ⟨"ibm,phandle", 4, bigEndian 2⟩]⟩)
    (K := .nil) (show 8 ≠ 0 by decide) (by decide) zeroTree_zeroed (show 1 ≤ 10 by decide) (by simp)
  have hphandle : flatPhandle [⟨"phandle", 4, bigEndian 1⟩, ⟨"ibm,phandle", 4, bigEndian 2⟩] = 2 := by
    decide
  exact ⟨10, _, s', _, np, hrun, rfl, hnode.phandle.trans hphandle, by decide⟩

end GfpDrivers.Of
