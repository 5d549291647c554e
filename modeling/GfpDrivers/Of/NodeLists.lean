import GfpDrivers.Of.PropLists

/-!
The lists of children. A node that is attached is in the list of its parent,
and in no other; a node keeps its parent and its list of children while it is
detached.
-/

namespace GfpDrivers.Of

open Lib Function

/-- The address of a link between nodes: `&np->child` or `&np->sibling`. -/
inductive NodeSlot where
  | child (np : ℕ)
  | sibling (np : ℕ)
deriving DecidableEq

variable {s : DevTree} {link : NodeSlot → Option ℕ} {parent : ℕ → Option ℕ}
  {m n c np par fuel : ℕ} {A : Set ℕ}

def DevTree.nodeLink (s : DevTree) : NodeSlot → Option ℕ
  | .child np => (s.node np).child
  | .sibling np => (s.node np).sibling

theorem nodeLayout : Layout NodeSlot.child NodeSlot.sibling where
  head_inj n m h := NodeSlot.child.inj h
  nxt_inj n m h := NodeSlot.sibling.inj h
  head_ne n m := by simp

/-- The lists `kids`, none of them longer than `m`, hold the attached nodes `A`. -/
structure NodeShape (parent : ℕ → Option ℕ) (m : ℕ) (A : Set ℕ) (link : NodeSlot → Option ℕ)
    (kids : ℕ → List ℕ) : Prop where
  lists : Lists NodeSlot.child NodeSlot.sibling link kids
  mem_kids : ∀ n c, c ∈ kids n ↔ c ∈ A ∧ parent c = some n
  short : ∀ n, (kids n).length ≤ m

namespace NodeShape

variable {kids : ℕ → List ℕ} {xs ys : List ℕ}

theorem mono (h : NodeShape parent m A link kids) (hm : m ≤ n) : NodeShape parent n A link kids :=
  { h with short := fun k => (h.short k).trans hm }

theorem linked_iff (h : NodeShape parent m A link kids) :
    Linked .sibling link (.child n) c ↔ c ∈ A ∧ parent c = some n :=
  (h.lists.chain n).linked_iff.trans (h.mem_kids n c)

/-- A node is put in front of the children of its parent. -/
theorem attach (h : NodeShape parent m A link kids) (hA : np ∉ A) (hpar : parent np = some par) :
    ∃ kids', NodeShape parent (m + 1) (insert np A)
      (update (update link (.sibling np) (link (.child par))) (.child par)
        (some np)) kids' := by
  have hfree : ∀ k, np ∉ kids k := fun k hmem => hA ((h.mem_kids k np).mp hmem).1
  have hlists := (h.lists.free (v := link (.child par)) nodeLayout hfree).insert (k := par)
    nodeLayout (List.nil_append _).symm hfree ?_
  · refine ⟨_, hlists, fun n c => ?_, fun n => ?_⟩
    · by_cases hn : n = par
      · subst hn
        rw [update_self, List.nil_append, List.mem_cons, h.mem_kids, Set.mem_insert_iff]
        by_cases hc : c = np
        · simp [hc, hpar]
        · simp [hc]
      · rw [update_of_ne hn, h.mem_kids, Set.mem_insert_iff]
        have hne : c = np → parent c ≠ some n := by
          rintro rfl heq
          exact hn (Option.some.inj (heq.symm.trans hpar))
        tauto
    · by_cases hn : n = par
      · subst hn
        simpa using h.short n
      · rw [update_of_ne hn]
        exact (h.short n).trans (Nat.le_succ m)
  · rw [update_self]
    exact (h.lists.chain par).first

theorem detach (h : NodeShape parent m A link kids) (hkids : kids par = xs ++ np :: ys) :
    ∃ kids', NodeShape parent m (A \ {np})
      (update link (locAfter .sibling (.child par) xs) (link (.sibling np))) kids' := by
  have hpar : parent np = some par := ((h.mem_kids par np).mp (by simp [hkids])).2
  have hnod := h.lists.nodup par
  rw [hkids] at hnod
  refine ⟨_, h.lists.remove nodeLayout hkids, fun n c => ?_, fun n => ?_⟩
  · have hmem := h.mem_kids n c
    rw [Set.mem_sdiff, Set.mem_singleton_iff]
    by_cases hn : n = par
    · subst hn
      have hnp := (List.nodup_cons.mp (List.nodup_middle.mp hnod)).1
      rw [hkids] at hmem
      rw [update_self]
      by_cases hc : c = np
      · subst hc
        simpa using hnp
      · simp [hc] at hmem
        simp [hc, hmem]
    · rw [update_of_ne hn, hmem]
      have hne : c = np → parent c ≠ some n := by
        rintro rfl heq
        exact hn (Option.some.inj (heq.symm.trans hpar))
      tauto
  · by_cases hn : n = par
    · subst hn
      have hlen := h.short n
      rw [hkids] at hlen
      rw [update_self]
      simp at hlen ⊢
      omega
    · rw [update_of_ne hn]
      exact h.short n

end NodeShape

/-- A detached node with nothing in it. -/
def bareNode : DeviceNode := ⟨cstring "", 0, "", none, none, none, none, none, true, false⟩

/-! ### The functions -/

/-- The node before `np` in a list of children. -/
theorem prevSibling_eq {l : NodeSlot} {x : ℕ} {xs ys : List ℕ}
    (hc : Chain .sibling s.nodeLink l (x :: xs ++ np :: ys)) (hnp : np ∉ xs)
    (hfuel : xs.length < fuel) :
    ∃ z, prevSibling s np fuel (some x) = some z ∧
      locAfter .sibling l (x :: xs) = .sibling z := by
  induction fuel generalizing l x xs with
  | zero => omega
  | succ fuel ih =>
    cases xs with
    | nil =>
      have hx : (s.node x).sibling = some np := hc.2.1
      exact ⟨x, by simp [prevSibling, hx], rfl⟩
    | cons y xs =>
      have hx : (s.node x).sibling = some y := hc.2.1
      have hy : y ≠ np := by
        rintro rfl
        simp at hnp
      obtain ⟨z, hz, hloc⟩ := ih hc.2 (fun hmem => hnp (by simp [hmem])) (by simpa using hfuel)
      exact ⟨z, by simp [prevSibling, hx, hy, hz], hloc⟩

theorem ofPhandleCacheInvEntry_eq (handle : ℕ) :
    ∃ cache, ofPhandleCacheInvEntry s handle = { s with phandleCache := cache } := by
  unfold ofPhandleCacheInvEntry
  split
  · exact ⟨_, rfl⟩
  · split
    · exact ⟨_, rfl⟩
    · split
      · exact ⟨_, rfl⟩
      · exact ⟨_, rfl⟩

theorem ofNodeIdentity_eq (np : ℕ) {name : ℕ → String} {home : ℕ → ℕ} {V : Set ℕ}
    (h : Keeps name home m V s.link) (hname : ∀ p, (s.prop p).name = name p) (hfuel : m < fuel) :
    ∃ nm ph, ofNodeIdentity fuel s np = some { s.node np with name := nm, phandle := ph } := by
  obtain ⟨props, h⟩ := h
  unfold ofNodeIdentity
  split
  · exact ⟨_, _, rfl⟩
  · obtain ⟨a, ha, -⟩ := ofFindProperty_eq (n := np) h "name" hname hfuel
    obtain ⟨b, hb, -⟩ := ofFindProperty_eq (n := np) h "phandle" hname hfuel
    obtain ⟨c, hc, -⟩ := ofFindProperty_eq (n := np) h "linux,phandle" hname hfuel
    rw [ha, hb, hc]
    exact ⟨_, _, rfl⟩

/-- What `__of_attach_node` and `__of_detach_node` leave as it is. -/
structure NodesOnly (s s' : DevTree) : Prop where
  link : s'.link = s.link
  prop : s'.prop = s.prop
  root : s'.root = s.root
  parent : ∀ n, (s'.node n).parent = (s.node n).parent

theorem NodesOnly.trans {s₁ s₂ : DevTree} (h : NodesOnly s s₁) (h' : NodesOnly s₁ s₂) :
    NodesOnly s s₂ :=
  ⟨h'.link.trans h.link, h'.prop.trans h.prop, h'.root.trans h.root, fun n => (h'.parent n).trans (h.parent n)⟩

theorem NodesOnly.setNode {v : DeviceNode} (hlive : v.properties = (s.node n).properties)
    (hdead : v.deadprops = (s.node n).deadprops) (hpar : v.parent = (s.node n).parent) :
    NodesOnly s (s.setNode n v) := by
  refine ⟨?_, rfl, rfl, fun k => ?_⟩
  · funext slot
    cases slot with
    | properties k =>
      by_cases hk : k = n
      · subst hk
        simpa [DevTree.link, PropSlot.read, DevTree.setNode] using hlive
      · simp [DevTree.link, PropSlot.read, DevTree.setNode, hk]
    | deadprops k =>
      by_cases hk : k = n
      · subst hk
        simpa [DevTree.link, PropSlot.read, DevTree.setNode] using hdead
      · simp [DevTree.link, PropSlot.read, DevTree.setNode, hk]
    | next p => rfl
  · by_cases hk : k = n
    · subst hk
      simpa [DevTree.setNode] using hpar
    · simp [DevTree.setNode, hk]

theorem nodeLink_setNode {v : DeviceNode} :
    (s.setNode n v).nodeLink =
      update (update s.nodeLink (.child n) v.child) (.sibling n) v.sibling := by
  funext slot
  cases slot with
  | child k =>
    by_cases hk : k = n
    · subst hk
      simp [DevTree.nodeLink, DevTree.setNode]
    · simp [DevTree.nodeLink, DevTree.setNode, hk]
  | sibling k =>
    by_cases hk : k = n
    · subst hk
      simp [DevTree.nodeLink, DevTree.setNode]
    · simp [DevTree.nodeLink, DevTree.setNode, hk]

theorem nodeLink_setChild {v : DeviceNode} (h : v.sibling = (s.node n).sibling) :
    (s.setNode n v).nodeLink = update s.nodeLink (.child n) v.child := by
  rw [nodeLink_setNode, h, update_comm (by simp)]
  exact congrArg (update · _ _) (update_eq_self (.sibling n) s.nodeLink)

theorem nodeLink_setSibling {v : DeviceNode} (h : v.child = (s.node n).child) :
    (s.setNode n v).nodeLink = update s.nodeLink (.sibling n) v.sibling := by
  rw [nodeLink_setNode, h]
  exact congrArg (update · _ _) (update_eq_self (.child n) s.nodeLink)

theorem nodeLink_setFlag {v : DeviceNode} (h : v.sibling = (s.node n).sibling)
    (h' : v.child = (s.node n).child) : (s.setNode n v).nodeLink = s.nodeLink := by
  rw [nodeLink_setChild h, h']
  exact update_eq_self (.child n) s.nodeLink

theorem setNode_detached {v : DeviceNode} :
    ((s.setNode n v).node c).detached = if c = n then v.detached else (s.node c).detached := by
  by_cases hc : c = n
  · subst hc
    simp [DevTree.setNode]
  · simp [DevTree.setNode, hc]

theorem setNode_phandle {v : DeviceNode} :
    ((s.setNode n v).node c).phandle = if c = n then v.phandle else (s.node c).phandle := by
  by_cases hc : c = n
  · subst hc
    simp [DevTree.setNode]
  · simp [DevTree.setNode, hc]

theorem ofAttachNode_eq {nm : Bytes} {ph : ℕ}
    (hid : ofNodeIdentity fuel s np = some { s.node np with name := nm, phandle := ph })
    (hpar : (s.node np).parent = some par) :
    ∃ s', ofAttachNode fuel s np = some s' ∧ NodesOnly s s' ∧
      (∀ n, (s'.node n).detached = if n = np then false else (s.node n).detached) ∧
      (∀ n ≠ np, (s'.node n).phandle = (s.node n).phandle) ∧ s'.phandleCache = s.phandleCache ∧
      s'.nodeLink = update (update (update s.nodeLink (.child np) none)
        (.sibling np) (update s.nodeLink (.child np) none (.child par))) (.child par)
        (some np) := by
  let s₁ := s.setNode np { s.node np with name := nm, phandle := ph, child := none }
  let s₂ := s₁.setNode np { s₁.node np with sibling := (s₁.node par).child }
  let s₃ := s₂.setNode par { s₂.node par with child := some np }
  let s₄ := s₃.setNode np { s₃.node np with detached := false }
  have h₁ : NodesOnly s s₁ := .setNode rfl rfl rfl
  have h₂ : NodesOnly s₁ s₂ := .setNode rfl rfl rfl
  have h₃ : NodesOnly s₂ s₃ := .setNode rfl rfl rfl
  have h₄ : NodesOnly s₃ s₄ := .setNode rfl rfl rfl
  have hpar₁ : (s₁.node np).parent = some par := (h₁.parent np).trans hpar
  have hl₁ : s₁.nodeLink = update s.nodeLink (.child np) none := nodeLink_setChild rfl
  have hl₂ : s₂.nodeLink = update s₁.nodeLink (.sibling np) (s₁.nodeLink (.child par)) :=
    nodeLink_setSibling rfl
  have hl₃ : s₃.nodeLink = update s₂.nodeLink (.child par) (some np) :=
    nodeLink_setChild rfl
  have hl₄ : s₄.nodeLink = s₃.nodeLink := nodeLink_setFlag rfl rfl
  refine ⟨s₄, ?_, ((h₁.trans h₂).trans h₃).trans h₄, fun n => ?_, fun n hn => ?_, rfl, ?_⟩
  · rw [ofAttachNode, hid]
    change Option.map _ (s₁.node np).parent = _
    rw [hpar₁]
    rfl
  · simp only [s₄, s₃, s₂, s₁, setNode_detached]
    split_ifs <;> simp_all
  · simp only [s₄, s₃, s₂, s₁, setNode_phandle, hn, if_false]
    split_ifs <;> simp_all
  · rw [hl₄, hl₃, hl₂, hl₁]

theorem ofNodeIdentity_some {v : DeviceNode} (h : ofNodeIdentity fuel s np = some v) :
    ∃ nm ph, v = { s.node np with name := nm, phandle := ph } := by
  unfold ofNodeIdentity at h
  split at h
  · exact ⟨_, _, (Option.some.inj h).symm⟩
  · simp only [Option.bind_eq_some_iff, Option.map_eq_some_iff] at h
    obtain ⟨-, -, -, -, -, -, rfl⟩ := h
    exact ⟨_, _, rfl⟩

theorem ofAttachNode_orphan {v : DeviceNode} (hid : ofNodeIdentity fuel s np = some v)
    (hv : v.parent = none) : ofAttachNode fuel s np = none := by
  rw [ofAttachNode, hid]
  simp [DevTree.setNode, hv]

/-- A link between nodes is written. -/
def NodeSlot.write (s : DevTree) (v : Option ℕ) : NodeSlot → DevTree
  | .child n => s.setNode n { s.node n with child := v }
  | .sibling n => s.setNode n { s.node n with sibling := v }

/-- `np` was unlinked at the slot `l` and marked, and its phandle is no longer cached. -/
structure Unlinked (s s' : DevTree) (np : ℕ) (l : NodeSlot) : Prop where
  only : NodesOnly s s'
  detached : ∀ n, (s'.node n).detached = if n = np then true else (s.node n).detached
  phandle : ∀ n, (s'.node n).phandle = (s.node n).phandle
  cache : ∀ c, s'.phandleCache 0 = some c → s.phandleCache 0 = some c ∧
    ((s.node np).phandle ≠ 0 → (s.node np).phandle ≠ (s.node c).phandle)
  link : s'.nodeLink = Function.update s.nodeLink l (s.nodeLink (.sibling np))

theorem ofPhandleCacheInvEntry_cache {handle : ℕ}
    (h : (ofPhandleCacheInvEntry s handle).phandleCache 0 = some c) :
    s.phandleCache 0 = some c ∧ (handle ≠ 0 → handle ≠ (s.node c).phandle) := by
  unfold ofPhandleCacheInvEntry at h
  split at h
  · exact ⟨h, fun hne => absurd ‹_› hne⟩
  · split at h
    · rename_i hnone
      rw [ofPhandleCacheHash] at hnone
      rw [hnone] at h
      cases h
    · rename_i d hd
      rw [ofPhandleCacheHash] at hd
      split at h
      · simp [ofPhandleCacheHash] at h
      · obtain rfl := Option.some.inj (hd.symm.trans h)
        exact ⟨h, fun _ => ‹_›⟩

theorem write_unlinked (l : NodeSlot) :
    let s₁ := l.write s (s.node np).sibling
    let s₂ := s₁.setNode np { s₁.node np with detached := true }
    Unlinked s (ofPhandleCacheInvEntry s₂ (s₂.node np).phandle) np l := by
  intro s₁ s₂
  have h₁ : NodesOnly s s₁ := by cases l <;> exact .setNode rfl rfl rfl
  have h₂ : NodesOnly s₁ s₂ := .setNode rfl rfl rfl
  have h₁₂ := h₁.trans h₂
  have hlink₁ : s₁.nodeLink = update s.nodeLink l (s.nodeLink (.sibling np)) := by
    cases l with
    | child n => exact nodeLink_setChild rfl
    | sibling n => exact nodeLink_setSibling rfl
  have hlink₂ : s₂.nodeLink = s₁.nodeLink := nodeLink_setFlag rfl rfl
  have hdet₁ : ∀ n, (s₁.node n).detached = (s.node n).detached := by
    intro n
    cases l <;> simp only [s₁, NodeSlot.write, setNode_detached] <;> split_ifs with h <;> simp [h]
  have hph₁ : ∀ n, (s₁.node n).phandle = (s.node n).phandle := by
    intro n
    cases l <;> simp only [s₁, NodeSlot.write, setNode_phandle] <;> split_ifs with h <;> simp [h]
  have hph₂ : ∀ n, (s₂.node n).phandle = (s.node n).phandle := by
    intro n
    simp only [s₂, setNode_phandle]
    split_ifs with h
    · rw [h, hph₁]
    · exact hph₁ n
  have hcache₂ : s₂.phandleCache = s.phandleCache := by
    cases l <;> rfl
  obtain ⟨cache, hcache⟩ := ofPhandleCacheInvEntry_eq (s := s₂) (s₂.node np).phandle
  constructor
  · rw [hcache]
    exact ⟨h₁₂.link, h₁₂.prop, h₁₂.root, h₁₂.parent⟩
  · intro n
    rw [hcache]
    change (s₂.node n).detached = _
    simp only [s₂, setNode_detached]
    split_ifs
    · rfl
    · exact hdet₁ n
  · intro n
    rw [hcache]
    exact hph₂ n
  · intro c hc
    obtain ⟨hold, hne⟩ := ofPhandleCacheInvEntry_cache hc
    rw [hph₂, hph₂] at hne
    exact ⟨by rw [← hcache₂]; exact hold, hne⟩
  · rw [hcache]
    exact hlink₂.trans hlink₁

theorem prevSibling_spec {x : Option ℕ} {z : ℕ} (h : prevSibling s np fuel x = some z) :
    (s.node z).sibling = some np := by
  induction fuel generalizing x with
  | zero => cases h
  | succ fuel ih =>
    cases x with
    | none => simp [prevSibling] at h
    | some y =>
      rw [prevSibling] at h
      split_ifs at h with hy
      · rw [← Option.some.inj h]
        exact hy
      · exact ih h

/-- Either nothing happens, or the node is unlinked from where a link led to it. -/
theorem ofDetachNode_some {s' : DevTree} (h : ofDetachNode fuel s np = some s') :
    s' = s ∨ ∃ par l, (s.node np).detached = false ∧ (s.node np).parent = some par ∧
      s.nodeLink l = some np ∧ (l = .child par ∨ ∃ z, l = .sibling z) ∧ Unlinked s s' np l := by
  rw [ofDetachNode] at h
  split_ifs at h with hdet
  · exact .inl (Option.some.inj h).symm
  · have hdet' : (s.node np).detached = false := by simpa using hdet
    cases hpar : (s.node np).parent with
    | none =>
      rw [hpar] at h
      exact .inl (Option.some.inj h).symm
    | some par =>
      rw [hpar] at h
      simp only [Option.map_eq_some_iff] at h
      obtain ⟨s₁, hs₁, rfl⟩ := h
      split_ifs at hs₁ with hchild
      · obtain rfl := Option.some.inj hs₁
        exact .inr ⟨par, .child par, hdet', rfl, hchild, .inl rfl, write_unlinked (.child par)⟩
      · obtain ⟨z, hz, rfl⟩ := Option.map_eq_some_iff.mp hs₁
        exact .inr ⟨par, .sibling z, hdet', rfl, prevSibling_spec hz, .inr ⟨z, rfl⟩,
          write_unlinked (.sibling z)⟩

/-- An attached node is taken out of the list of its parent. -/
theorem ofDetachNode_eq {xs ys : List ℕ} (hdet : (s.node np).detached = false)
    (hpar : (s.node np).parent = some par)
    (hc : Chain .sibling s.nodeLink (.child par) (xs ++ np :: ys)) (hnp : np ∉ xs)
    (hfuel : xs.length < fuel) :
    ∃ s', ofDetachNode fuel s np = some s' ∧
      Unlinked s s' np (locAfter .sibling (.child par) xs) := by
  refine ⟨_, ?_, write_unlinked _⟩
  rw [ofDetachNode, hdet, hpar]
  simp only [Bool.false_eq_true, if_false]
  cases xs with
  | nil =>
    rw [if_pos (show (s.node par).child = some np from hc.1)]
    rfl
  | cons x xs =>
    have hchild : (s.node par).child = some x := hc.1
    have hx : x ≠ np := by
      rintro rfl
      simp at hnp
    obtain ⟨z, hz, hloc⟩ := prevSibling_eq hc (fun hmem => hnp (by simp [hmem]))
      (by simp at hfuel; omega : xs.length < fuel)
    rw [if_neg (by simp [hchild, hx]), hchild, hz, hloc]
    rfl

end GfpDrivers.Of
