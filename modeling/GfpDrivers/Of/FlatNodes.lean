import GfpDrivers.Of.FlatProps
import GfpDrivers.Of.NodeLists

/-!
The loop of `unflatten_dt_nodes`. It makes a node for each node of the blob
and puts it in front of the children of its parent, which it finds by the
depth. So the lists of children come out in the opposite order.
-/

namespace GfpDrivers.Of

open Lib Function

variable {s s' : DevTree} {z : Sizes} {np lo hi mem fuel : ℕ} {n : FlatNode} {dad : Option ℕ}
  {as : List ℕ} {F K : Forest FlatNode} {ids : Forest ℕ}

/-! ### What is expected -/

/-- The node at `np` is made from `n`: it has its name, its phandle and its
properties, which lie at `as`. -/
structure NodeIs (s : DevTree) (parent : Option ℕ) (n : FlatNode) (np : ℕ) (as : List ℕ) : Prop where
  fullName : (s.node np).fullName = n.name
  parent : (s.node np).parent = parent
  phandle : (s.node np).phandle = flatPhandle n.props
  chain : Chain .next s.link (.properties np) as
  content : List.Forall₂ (PropIs s) n.fields as

/-- The nodes `ids` are made from the nodes of the blob at the same places of
the tree; their properties lie below `hi`. -/
def Copies (s : DevTree) (hi : ℕ) : Option ℕ → Forest FlatNode → Forest ℕ → Prop
  | _, .nil, .nil => True
  | parent, .cons n K F, .cons np K' F' =>
      (∃ as, NodeIs s parent n np as ∧ ∀ a ∈ as, a < hi) ∧
        Copies s hi (some np) K K' ∧ Copies s hi parent F F'
  | _, _, _ => False

/-- The children of a node are listed in the order `cs`. -/
def Listed (s : DevTree) (np : ℕ) (cs : List ℕ) : Prop :=
  Chain .sibling s.nodeLink (.child np) cs

/-- The memory from `lo` to `hi` is zero, as `memset` leaves it. -/
structure Zeroed (s : DevTree) (lo hi : ℕ) : Prop where
  phandle : ∀ a, lo ≤ a → a < hi → (s.node a).phandle = 0
  properties : ∀ a, lo ≤ a → a < hi → (s.node a).properties = none
  parent : ∀ a, lo ≤ a → a < hi → (s.node a).parent = none
  child : ∀ a, lo ≤ a → a < hi → (s.node a).child = none
  sibling : ∀ a, lo ≤ a → a < hi → (s.node a).sibling = none
  next : ∀ a, lo ≤ a → a < hi → (s.prop a).next = none

theorem Zeroed.frame {lo' hi' : ℕ} (h : Zeroed s lo hi) (hlo : lo ≤ lo') (hhi : hi' ≤ hi)
    (hnode : ∀ a, lo' ≤ a → a < hi' → s'.node a = s.node a)
    (hprop : ∀ a, lo' ≤ a → a < hi' → s'.prop a = s.prop a) : Zeroed s' lo' hi' where
  phandle a ha ha' := hnode a ha ha' ▸ h.phandle a (by omega) (by omega)
  properties a ha ha' := hnode a ha ha' ▸ h.properties a (by omega) (by omega)
  parent a ha ha' := hnode a ha ha' ▸ h.parent a (by omega) (by omega)
  child a ha ha' := hnode a ha ha' ▸ h.child a (by omega) (by omega)
  sibling a ha ha' := hnode a ha ha' ▸ h.sibling a (by omega) (by omega)
  next a ha ha' := hprop a ha ha' ▸ h.next a (by omega) (by omega)

theorem NodeIs.frame (h : NodeIs s dad n np as)
    (hnode : ∃ m c b, s'.node np = { s.node np with name := m, child := c, sibling := b })
    (hprop : ∀ a ∈ as, s'.prop a = s.prop a) : NodeIs s' dad n np as := by
  obtain ⟨m, c, b, hnode⟩ := hnode
  refine ⟨hnode ▸ h.fullName, hnode ▸ h.parent, hnode ▸ h.phandle, ?_, ?_⟩
  · refine h.chain.congr fun x hx => ?_
    rcases List.mem_cons.mp hx with rfl | hx
    · simp only [DevTree.link, PropSlot.read, hnode]
    · obtain ⟨a, ha, rfl⟩ := List.mem_map.mp hx
      simp only [DevTree.link, PropSlot.read, hprop a ha]
  · exact content_frame h.content fun a ha => ⟨(s.prop a).next, hprop a ha⟩

theorem Copies.frame {hi' : ℕ} (h : Copies s hi dad F ids) (hhi : hi ≤ hi')
    (hnode : ∀ a ∈ ids.nodes, ∃ m c b,
      s'.node a = { s.node a with name := m, child := c, sibling := b })
    (hprop : ∀ a < hi, s'.prop a = s.prop a) : Copies s' hi' dad F ids := by
  induction F generalizing dad ids with
  | nil =>
    cases ids with
    | nil => trivial
    | cons np K' F' => exact h.elim
  | cons n K F ihK ihF =>
    cases ids with
    | nil => exact h.elim
    | cons np K' F' =>
      obtain ⟨⟨as, his, has⟩, hK, hF⟩ := h
      refine ⟨⟨as, his.frame (hnode np (by simp)) fun a ha => hprop a (has a ha),
        fun a ha => (has a ha).trans_le hhi⟩, ihK hK fun a ha => hnode a (by simp [ha]),
        ihF hF fun a ha => hnode a (by simp [ha])⟩

/-! ### One node -/

/-- The memory behind a node and its properties. -/
def Sizes.nodeEnd (z : Sizes) (mem : ℕ) (n : FlatNode) : ℕ :=
  z.fieldsEnd (unflattenDtAlloc mem (z.node + ((chars n.name).length + 1)) z.nodeAlign).2 n

/-- What `populate_node` does. -/
structure Populated (z : Sizes) (s : DevTree) (mem : ℕ) (dad : Option ℕ) (n : FlatNode)
    (s' : DevTree) (np : ℕ) : Prop where
  le : mem ≤ np
  lt : np < z.nodeEnd mem n
  made : ∃ as, NodeIs s' dad n np as ∧ ∀ a ∈ as, a < z.nodeEnd mem n
  child : (s'.node np).child = none
  sibling : ∀ d ∈ dad, (s'.node np).sibling = (s.node d).child
  adopts : ∀ d ∈ dad, s'.node d = { s.node d with child := some np }
  others : ∀ m, m ≠ np → dad ≠ some m → s'.node m = s.node m
  props : ∀ a, a < mem ∨ z.nodeEnd mem n ≤ a → s'.prop a = s.prop a

/-- What `linkNode` does. -/
structure Adopted (s : DevTree) (dad : Option ℕ) (n : FlatNode) (s' : DevTree) (np : ℕ) : Prop where
  self : s'.node np =
    { s.node np with fullName := n.name, parent := dad, sibling := dad.bind fun d => (s.node d).child }
  adopts : ∀ d ∈ dad, s'.node d = { s.node d with child := some np }
  others : ∀ m, m ≠ np → dad ≠ some m → s'.node m = s.node m
  props : s'.prop = s.prop

theorem linkNode_adopted (hdad : ∀ d ∈ dad, d ≠ np) (hparent : (s.node np).parent = none)
    (hsib : (s.node np).sibling = none) : Adopted s dad n (linkNode s dad n np) np := by
  cases dad with
  | none =>
    refine ⟨?_, by simp, fun m hm _ => ?_, rfl⟩
    · simp [linkNode, DevTree.setNode, hparent, hsib]
    · simp [linkNode, DevTree.setNode, hm]
  | some d =>
    have hne : d ≠ np := hdad d rfl
    refine ⟨?_, ?_, fun m hm hdm => ?_, rfl⟩
    · simp [linkNode, DevTree.setNode, hne, hne.symm]
    · intro d' hd'
      obtain rfl : d = d' := Option.some.inj hd'
      simp [linkNode, DevTree.setNode, hne]
    · have hmd : m ≠ d := fun heq => hdm (heq ▸ rfl)
      simp [linkNode, DevTree.setNode, hm, hmd]

theorem ofFindProperty_isSome (name : String) (h : Chain .next s.link (.properties np) as)
    (hfuel : as.length < fuel) : ∃ r, ofFindProperty fuel s np name = some r := by
  obtain ⟨bs, cs, -, -, -, hwalk⟩ := h.walk_eq (fun pp => (s.prop pp).name = name) hfuel
  exact ⟨_, by rw [ofFindProperty, walkProps, hwalk]; rfl⟩

theorem populateNode_eq (hzero : Zeroed s mem (z.nodeEnd mem n)) (hdad : ∀ d ∈ dad, d < mem)
    (hfuel : n.props.length + 1 < fuel) :
    ∃ s' np, populateNode z fuel false s mem dad n = some (s', z.nodeEnd mem n, np) ∧
      Populated z s mem dad n s' np := by
  obtain ⟨np, hnp⟩ : ∃ np, np = ptrAlign mem z.nodeAlign := ⟨_, rfl⟩
  obtain ⟨mem', hmem'⟩ : ∃ mem', mem' = np + (z.node + ((chars n.name).length + 1)) := ⟨_, rfl⟩
  have hle : mem ≤ np := hnp ▸ le_ptrAlign z.nodeAlign_pos
  have hend : z.nodeEnd mem n = z.fieldsEnd mem' n := by
    simp only [Sizes.nodeEnd, unflattenDtAlloc, hmem', hnp]
  have hlt : np < mem' := by
    have := z.node_pos
    omega
  rw [hend] at hzero
  have hfieldsEnd : mem' ≤ z.fieldsEnd mem' n := le_fieldsEnd
  have hnz : ∀ d ∈ dad, d ≠ np := fun d hd => by
    have := hdad d hd
    omega
  have hadopt : Adopted s dad n (linkNode s dad n np) np :=
    linkNode_adopted hnz (hzero.parent np hle (by omega)) (hzero.sibling np hle (by omega))
  have hnone : ((linkNode s dad n np).node np).properties = none := by
    rw [hadopt.self]
    exact hzero.properties np hle (by omega)
  obtain ⟨s₂, slot, as, hrun, hfilled⟩ := populateProperties_eq z mem' n hnone
    fun a ha ha' => by
      rw [hadopt.props]
      exact hzero.next a (by omega) ha'
  have hlen : as.length < fuel := by
    have hfields : n.fields.length ≤ n.props.length + 1 := by
      simp only [FlatNode.fields, List.length_append]
      split <;> simp
    have := hfilled.content.length_eq
    omega
  obtain ⟨r, hfind⟩ := ofFindProperty_isSome "name" hfilled.chain hlen
  have hself := hfilled.self
  rw [hadopt.self] at hself
  have hmade : NodeIs s₂ dad n np as := by
    refine ⟨by rw [hself], by rw [hself], ?_, hfilled.chain, hfilled.content⟩
    rw [hself, ← foldl_fields]
    exact congrArg (n.fields.foldl takePhandle) (hzero.phandle np hle (by omega))
  have hnode : ∃ v, populateNode z fuel false s mem dad n =
      some (s₂.setNode np { s₂.node np with name := v }, z.nodeEnd mem n, np) := by
    simp only [populateNode, unflattenDtAlloc, Bool.false_eq_true, if_false, ← hnp, ← hmem', hrun,
      hfind, hend]
    exact ⟨_, rfl⟩
  obtain ⟨v, hv⟩ := hnode
  refine ⟨_, np, hv, ⟨hle, by omega, ⟨as, ?_, ?_⟩, ?_, ?_, ?_, ?_, ?_⟩⟩
  · exact hmade.frame ⟨_, _, _, update_self ..⟩ fun a _ => rfl
  · exact fun a ha => hend ▸ (hfilled.within a ha).2
  · simp only [DevTree.setNode, update_self, hself]
    exact hzero.child np hle (by omega)
  · intro d hd
    obtain rfl := hd
    simp only [DevTree.setNode, update_self, hself]
    rfl
  · intro d hd
    simp only [DevTree.setNode, update_of_ne (hnz d hd)]
    rw [hfilled.others d (hnz d hd), hadopt.adopts d hd]
  · intro m hm hdm
    simp only [DevTree.setNode, update_of_ne hm]
    rw [hfilled.others m hm, hadopt.others m hm hdm]
  · intro a ha
    have hout := hfilled.outside a (by omega)
    rw [hadopt.props] at hout
    exact hout

/-! ### The loop -/

/-- The memory behind the nodes of a blob. -/
def Sizes.blobEnd (z : Sizes) (mem : ℕ) : Forest FlatNode → ℕ
  | .nil => mem
  | .cons n K F => z.blobEnd (z.blobEnd (z.nodeEnd mem n) K) F

theorem le_nodeEnd : mem ≤ z.nodeEnd mem n := by
  have hle : mem ≤ ptrAlign mem z.nodeAlign := le_ptrAlign z.nodeAlign_pos
  have hend : (unflattenDtAlloc mem (z.node + ((chars n.name).length + 1)) z.nodeAlign).2 ≤
      z.nodeEnd mem n := le_fieldsEnd
  simp only [unflattenDtAlloc] at hend
  omega

theorem le_blobEnd : mem ≤ z.blobEnd mem F := by
  induction F generalizing mem with
  | nil => exact le_rfl
  | cons n K F ihK ihF => exact le_nodeEnd.trans (ihK.trans ihF)

/-- The nodes `ids` are made from the blob `F` below `dad`. The lists of
children are turned round. -/
structure Grown (z : Sizes) (F : Forest FlatNode) (depth : ℕ) (dad : Option ℕ) (u u' : Unflattening)
    (ids : Forest ℕ) : Prop where
  mem : u'.mem = z.blobEnd u.mem F
  nps : ∀ e ≤ depth, u'.nps e = u.nps e
  nodepp : u'.nodepp = u.nodepp.or ids.roots.head?
  root : u'.root = u.root.or ids.roots.head?
  within : ∀ a ∈ ids.nodes, u.mem ≤ a ∧ a < u'.mem
  nodup : ids.nodes.Nodup
  copies : Copies u'.tree u'.mem dad F ids
  listed : ids.All fun np cs => Listed u'.tree np cs.reverse
  grows : ∀ d ∈ dad, ∀ cs, (∀ c ∈ cs, c < u.mem) → Listed u.tree d cs →
    Listed u'.tree d (ids.roots.reverse ++ cs)
  keeps : ∀ d ∈ dad, ∃ c, u'.tree.node d = { u.tree.node d with child := c }
  others : ∀ a, a < u.mem ∨ u'.mem ≤ a → dad ≠ some a → u'.tree.node a = u.tree.node a
  props : ∀ a, a < u.mem ∨ u'.mem ≤ a → u'.tree.prop a = u.tree.prop a

theorem Listed.frame {cs : List ℕ} (h : Listed s np cs) (hchild : (s'.node np).child = (s.node np).child)
    (hsib : ∀ c ∈ cs, (s'.node c).sibling = (s.node c).sibling) : Listed s' np cs := by
  refine h.congr fun x hx => ?_
  rcases List.mem_cons.mp hx with rfl | hx
  · exact hchild
  · obtain ⟨c, hc, rfl⟩ := List.mem_map.mp hx
    exact hsib c hc

theorem Populated.listed (h : Populated z s mem dad n s' np) {d : ℕ} {cs : List ℕ} (hd : d ∈ dad)
    (hcs : ∀ c ∈ cs, c < mem) (hlist : Listed s d cs) : Listed s' d (np :: cs) := by
  have hsib : ∀ c ∈ cs, (s'.node c).sibling = (s.node c).sibling := fun c hc => by
    have hne : c ≠ np := by
      have := hcs c hc
      have := h.le
      omega
    by_cases hdc : dad = some c
    · rw [h.adopts c hdc]
    · rw [h.others c hne hdc]
  refine ⟨?_, ?_⟩
  · simp only [DevTree.nodeLink, h.adopts d hd]
  · exact Chain.moved hlist (h.sibling d hd) hsib

theorem listed_frame (hnod : ids.nodes.Nodup) (h : ids.All fun np cs => Listed s np cs.reverse)
    (hnode : ∀ a ∈ ids.nodes, s'.node a = s.node a) :
    ids.All fun np cs => Listed s' np cs.reverse := by
  refine h.inner hnod fun m cs hm hcs hlist => hlist.frame (by rw [hnode m hm]) fun c hc => ?_
  rw [hnode c (hcs c (List.mem_reverse.mp hc)).1]

/-- A node, the nodes below it, and the nodes behind it. -/
theorem Grown.cons {depth : ℕ} {u u₁ u₂ u₃ : Unflattening} {ids₁ ids₂ : Forest ℕ}
    (hdad : ∀ d ∈ dad, d < u.mem)
    (hpop : Populated z u.tree u.mem dad n u₁.tree np) (hmem : u₁.mem = z.nodeEnd u.mem n)
    (hnps : u₁.nps = update u.nps (depth + 1) (some np))
    (hnodepp : u₁.nodepp = u.nodepp.or (some np)) (hroot : u₁.root = u.root.or (some np))
    (hK : Grown z K (depth + 1) (some np) u₁ u₂ ids₁) (hF : Grown z F depth dad u₂ u₃ ids₂) :
    Grown z (.cons n K F) depth dad u u₃ (.cons np ids₁ ids₂) := by
  have hle := hpop.le
  have hlt := hpop.lt
  rw [← hmem] at hlt
  have hle₂ : u₁.mem ≤ u₂.mem := hK.mem ▸ le_blobEnd
  have hle₃ : u₂.mem ≤ u₃.mem := hF.mem ▸ le_blobEnd
  have hne : ∀ a, u.mem ≤ a → dad ≠ some a := fun a ha heq => by
    have := hdad a heq
    omega
  -- what each of the three steps leaves alone
  have hnode₂ : ∀ a < u₁.mem, a ≠ np → u₂.tree.node a = u₁.tree.node a := fun a ha hna =>
    hK.others a (.inl ha) fun heq => hna (Option.some.inj heq).symm
  have hnode₃ : ∀ a, u.mem ≤ a → a < u₂.mem → u₃.tree.node a = u₂.tree.node a := fun a ha ha' =>
    hF.others a (.inl ha') (hne a ha)
  obtain ⟨c, hc⟩ := hK.keeps np rfl
  have hids₁ : ∀ a ∈ ids₁.nodes, u.mem ≤ a ∧ a < u₂.mem ∧ a ≠ np := fun a ha => by
    have := hK.within a ha
    omega
  have hids₂ : ∀ a ∈ ids₂.nodes, u₂.mem ≤ a := fun a ha => (hF.within a ha).1
  refine ⟨?_, ?_, ?_, ?_, ?_, ?_, ?_, ?_, ?_, ?_, ?_, ?_⟩
  · rw [hF.mem, hK.mem, hmem]
    rfl
  · intro e he
    rw [hF.nps e he, hK.nps e (by omega), hnps, update_of_ne (by omega)]
  · rw [hF.nodepp, hK.nodepp, hnodepp]
    cases u.nodepp <;> rfl
  · rw [hF.root, hK.root, hroot]
    cases u.root <;> rfl
  · intro a ha
    simp only [Forest.nodes_cons, List.mem_cons, List.mem_append] at ha
    rcases ha with rfl | ha | ha
    · omega
    · have := hids₁ a ha
      omega
    · have := hF.within a ha
      omega
  · simp only [Forest.nodes_cons, List.nodup_cons, List.mem_append, not_or, List.nodup_append]
    refine ⟨⟨fun ha => (hids₁ np ha).2.2 rfl, fun ha => ?_⟩, hK.nodup, hF.nodup, ?_⟩
    · have := hids₂ np ha
      omega
    · rintro a ha b hb rfl
      have := hids₁ a ha
      have := hids₂ a hb
      omega
  · obtain ⟨as, his, has⟩ := hpop.made
    rw [← hmem] at has
    have hself : u₃.tree.node np = { u₁.tree.node np with child := c } :=
      (hnode₃ np hle (by omega)).trans hc
    refine ⟨⟨as, his.frame ⟨_, c, _, hself⟩ fun a ha => ?_, fun a ha => ?_⟩, ?_, hF.copies⟩
    · have := has a ha
      rw [hF.props a (by omega), hK.props a (by omega)]
    · have := has a ha
      omega
    · refine hK.copies.frame hle₃ (fun a ha => ?_) fun a ha => hF.props a (.inl ha)
      obtain ⟨hlo, hhi, -⟩ := hids₁ a ha
      exact ⟨_, _, _, hnode₃ a hlo hhi⟩
  · refine ⟨?_, listed_frame hK.nodup hK.listed fun a ha => ?_, hF.listed⟩
    · have hnil : Listed u₁.tree np [] := hpop.child
      have hlist := hK.grows np rfl [] (by simp) hnil
      rw [List.append_nil] at hlist
      refine hlist.frame (by rw [hnode₃ np hle (by omega)]) fun b hb => ?_
      obtain ⟨hlo, hhi, -⟩ := hids₁ b (Forest.roots_subset_nodes (List.mem_reverse.mp hb))
      rw [hnode₃ b hlo hhi]
    · obtain ⟨hlo, hhi, -⟩ := hids₁ a ha
      exact hnode₃ a hlo hhi
  · intro d hd cs hcs hlist
    have hdlt := hdad d hd
    have hlist₁ := hpop.listed hd hcs hlist
    have hlist₂ : Listed u₂.tree d (np :: cs) := by
      refine hlist₁.frame (by rw [hnode₂ d (by omega) (by omega)]) fun b hb => ?_
      rcases List.mem_cons.mp hb with rfl | hb
      · rw [hc]
      · have := hcs b hb
        rw [hnode₂ b (by omega) (by omega)]
    have hlist₃ := hF.grows d hd (np :: cs) (fun b hb => ?_) hlist₂
    · simpa using hlist₃
    · rcases List.mem_cons.mp hb with rfl | hb
      · omega
      · have := hcs b hb
        omega
  · intro d hd
    have hdlt := hdad d hd
    obtain ⟨c', hc'⟩ := hF.keeps d hd
    refine ⟨c', ?_⟩
    rw [hc', hnode₂ d (by omega) (by omega), hpop.adopts d hd]
  · intro a ha hda
    rw [hF.others a (by omega) hda]
    have hna : a ≠ np := by omega
    rw [hK.others a (by omega) fun heq => hna (Option.some.inj heq).symm, hpop.others a hna hda]
  · intro a ha
    rw [hF.props a (by omega), hK.props a (by omega), hpop.props a (by omega)]

theorem unflatten_grows (F : Forest FlatNode) {depth : ℕ} {dad : Option ℕ} {u : Unflattening}
    (hnps : u.nps depth = dad) (hdepth : ∀ v ∈ visits depth F, v.1 + 1 < fdtMaxDepth)
    (hfuel : ∀ n ∈ F.nodes, n.props.length + 1 < fuel)
    (hzero : Zeroed u.tree u.mem (z.blobEnd u.mem F)) (hdad : ∀ d ∈ dad, d < u.mem) :
    ∃ u' ids, (visits depth F).foldlM (unflattenNode z fuel false) u = some u' ∧
      Grown z F depth dad u u' ids := by
  induction F generalizing depth dad u with
  | nil =>
    refine ⟨u, .nil, rfl, rfl, fun _ _ => rfl, ?_, ?_, by simp, by simp, trivial, trivial, ?_, ?_, ?_, ?_⟩
    · simp
    · simp
    · exact fun d _ cs _ h => h
    · exact fun d _ => ⟨_, rfl⟩
    · exact fun _ _ _ => rfl
    · exact fun _ _ => rfl
  | cons n K F ihK ihF =>
    have hmem₁ : u.mem ≤ z.nodeEnd u.mem n := le_nodeEnd
    have hmem₂ : z.nodeEnd u.mem n ≤ z.blobEnd (z.nodeEnd u.mem n) K := le_blobEnd
    have hmem₃ : z.blobEnd (z.nodeEnd u.mem n) K ≤ z.blobEnd u.mem (.cons n K F) := le_blobEnd
    have hzero₁ : Zeroed u.tree u.mem (z.nodeEnd u.mem n) :=
      hzero.frame le_rfl (by omega) (fun _ _ _ => rfl) fun _ _ _ => rfl
    obtain ⟨s₁, np, hnode, hpop⟩ := populateNode_eq hzero₁ hdad (hfuel n (by simp))
    have hne : ∀ a, u.mem ≤ a → dad ≠ some a := fun a ha heq => by
      have := hdad a heq
      omega
    obtain ⟨u₁, hu₁, hstep⟩ : ∃ u₁ : Unflattening,
        u₁ = ⟨s₁, z.nodeEnd u.mem n, update u.nps (depth + 1) (some np),
          u.nodepp.or (some np), u.root.or (some np)⟩ ∧
        unflattenNode z fuel false u (depth, n) = some u₁ := by
      have hlt : depth + 1 < fdtMaxDepth := hdepth (depth, n) (by simp [visits])
      refine ⟨_, rfl, ?_⟩
      simp [unflattenNode, hnps, hnode, show ¬fdtMaxDepth ≤ depth by omega,
        show ¬fdtMaxDepth ≤ depth + 1 by omega]
    have hm₁ : u₁.mem = z.nodeEnd u.mem n := by rw [hu₁]
    have ht₁ : u₁.tree = s₁ := by rw [hu₁]
    have hnps₁ : u₁.nps (depth + 1) = some np := by simp [hu₁]
    have hzero₂ : Zeroed u₁.tree u₁.mem (z.blobEnd u₁.mem K) := by
      rw [hm₁, ht₁]
      refine hzero.frame hmem₁ hmem₃ (fun a ha _ => ?_) fun a ha _ => hpop.props a (.inr ha)
      have := hpop.lt
      exact hpop.others a (by omega) (hne a (by omega))
    obtain ⟨u₂, ids₁, hrun₂, hK⟩ := ihK hnps₁ (fun v hv => hdepth v (by simp [visits, hv]))
      (fun m hm => hfuel m (by simp [hm])) hzero₂ fun d hd => by
        obtain rfl : np = d := Option.some.inj hd
        exact hm₁ ▸ hpop.lt
    have hm₂ : u₂.mem = z.blobEnd (z.nodeEnd u.mem n) K := by rw [hK.mem, hm₁]
    have hnps₂ : u₂.nps depth = dad := by
      rw [hK.nps depth (by omega), hu₁, ← hnps]
      exact update_of_ne (by omega) ..
    have hzero₃ : Zeroed u₂.tree u₂.mem (z.blobEnd u₂.mem F) := by
      refine hzero.frame (by omega) (hm₂ ▸ le_rfl) (fun a ha _ => ?_) fun a ha _ => ?_
      · have := hpop.lt
        have hna : a ≠ np := by omega
        rw [hK.others a (.inr ha) fun heq => hna (Option.some.inj heq).symm, ht₁]
        exact hpop.others a hna (hne a (by omega))
      · rw [hK.props a (.inr ha), ht₁]
        exact hpop.props a (by omega)
    obtain ⟨u₃, ids₂, hrun₃, hF⟩ := ihF hnps₂ (fun v hv => hdepth v (by simp [visits, hv]))
      (fun m hm => hfuel m (by simp [hm])) hzero₃ fun d hd => by
        have := hdad d hd
        omega
    refine ⟨u₃, .cons np ids₁ ids₂, ?_, Grown.cons hdad (ht₁ ▸ hpop) hm₁ (by rw [hu₁])
      (by rw [hu₁]) (by rw [hu₁]) hK hF⟩
    simp [visits, hstep, hrun₂, hrun₃]

end GfpDrivers.Of
