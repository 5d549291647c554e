import GfpDrivers.Of.FindNode

/-!
The phandle cache. Nodes are attached, detached and looked up in any order.
The cached node must always belong to the live tree; detaching a node takes it
out of the cache, but not the nodes below it.
-/

namespace GfpDrivers.Of

open Lib Function

variable {s s' : DevTree} {r n m c np par fuel handle : ℕ} {K L : Forest ℕ}

/-! ### Calls -/

/-- The caller sets the parent of a node before it is attached. -/
def DevTree.setParent (s : DevTree) (np par : ℕ) : DevTree :=
  s.setNode np { s.node np with parent := some par }

inductive TreeOp where
  | attach (np par : ℕ)
  | detach (np : ℕ)
  | find (handle : ℕ)

/-- No two nodes of the live tree have the same phandle. -/
def UniquePhandles (s : DevTree) : Prop :=
  ∀ n m, Live s n → Live s m → (s.node n).phandle ≠ 0 → (s.node n).phandle = (s.node m).phandle → n = m

/-- One call: `of_attach_node` of a node that is not in the tree, such that
phandles stay unique, `of_detach_node` of any node, or
`of_find_node_by_phandle`. -/
inductive TreeStep : DevTree → TreeOp → DevTree → Prop
  | attach {s s' : DevTree} {np par : ℕ} : ¬Live s np →
      Returns (fun fuel => ofAttachNode fuel (s.setParent np par) np) s' → UniquePhandles s' →
      TreeStep s (.attach np par) s'
  | detach {s s' : DevTree} {np : ℕ} :
      Returns (fun fuel => ofDetachNode fuel s np) s' → TreeStep s (.detach np) s'
  | find {s s' : DevTree} {handle : ℕ} {np : Option ℕ} :
      Returns (fun fuel => ofFindNodeByPhandle fuel s handle) (s', np) →
      TreeStep s (.find handle) s'

/-- The cached node is not below the node that is detached. -/
def SparesCached (s : DevTree) : TreeOp → Prop
  | .detach np => ∀ c, s.phandleCache (ofPhandleCacheHash (s.node np).phandle) = some c → ¬Below s np c
  | _ => True

/-- Calls, none of which detaches a node above the cached one. -/
inductive SparingRun : DevTree → DevTree → Prop
  | refl {s : DevTree} : SparingRun s s
  | step {s s₁ s₂ : DevTree} {op : TreeOp} :
      SparingRun s s₁ → TreeStep s₁ op s₂ → SparesCached s₁ op → SparingRun s s₂

/-! ### The tree after a call -/

/-- The tree stays as it is where none of its nodes is touched. -/
theorem LiveForest.frame (h : LiveForest s r K) (hroot : s'.root = s.root)
    (hparent : ∀ n ∈ (Forest.cons r K .nil).nodes, (s'.node n).parent = (s.node n).parent)
    (hdet : ∀ n ∈ (Forest.cons r K .nil).nodes, (s'.node n).detached = (s.node n).detached)
    (hchild : ∀ n ∈ (Forest.cons r K .nil).nodes, s'.nodeLink (.child n) = s.nodeLink (.child n))
    (hsib : ∀ n ∈ (Forest.cons r K .nil).nodes, s'.nodeLink (.sibling n) = s.nodeLink (.sibling n)) :
    LiveForest s' r K where
  root := hroot.trans h.root
  parent := (hparent r (by simp)).trans h.parent
  sibling := (hsib r (by simp)).trans h.sibling
  attached := (hdet r (by simp)).trans h.attached
  nodup := h.nodup
  family := h.family.inner h.nodup fun n cs hn hcs hfam =>
    hfam.frame (hchild n hn) (fun c hc => hsib c (hcs c hc).1) (fun c hc => hparent c (hcs c hc).1)
      fun c hc => hdet c (hcs c hc).1

theorem setParent_forest (h : LiveForest s r K) (hnp : np ∉ (Forest.cons r K .nil).nodes) :
    LiveForest (s.setParent np par) r K := by
  have hne : ∀ n ∈ (Forest.cons r K .nil).nodes, n ≠ np := fun n hn heq => hnp (heq ▸ hn)
  refine h.frame rfl (fun n hn => ?_) (fun n hn => ?_) (fun n hn => ?_) fun n hn => ?_
  · simp [DevTree.setParent, DevTree.setNode, hne n hn]
  · simp [DevTree.setParent, DevTree.setNode, hne n hn]
  · simp [DevTree.nodeLink, DevTree.setParent, DevTree.setNode, hne n hn]
  · simp [DevTree.nodeLink, DevTree.setParent, DevTree.setNode, hne n hn]

theorem LiveForest.grow (h : LiveForest s r K) (hnp : np ∉ (Forest.cons r K .nil).nodes)
    (hat : (Forest.cons r K .nil).At par L) (honly : NodesOnly s s')
    (hpar : (s.node np).parent = some par)
    (hdet : ∀ n, (s'.node n).detached = if n = np then false else (s.node n).detached)
    (hlink : s'.nodeLink = update (update (update s.nodeLink (.child np)
      none) (.sibling np) (update s.nodeLink (.child np) none (.child par))) (.child par)
      (some np)) :
    ∃ K', LiveForest s' r K' ∧ ∀ n, n ∈ (Forest.cons r K' .nil).nodes ↔
      n = np ∨ n ∈ (Forest.cons r K .nil).nodes := by
  have hne : ∀ n ∈ (Forest.cons r K .nil).nodes, n ≠ np := fun n hn heq => hnp (heq ▸ hn)
  have hparnp : par ≠ np := hne par hat.mem
  have hsib : ∀ n ≠ np, s'.nodeLink (.sibling n) = s.nodeLink (.sibling n) := by
    intro n hn
    simp [hlink, hn]
  have hchild : ∀ n, n ≠ np → n ≠ par → s'.nodeLink (.child n) = s.nodeLink (.child n) := by
    intro n hn hn'
    simp [hlink, hn, hn']
  have hdet' : ∀ n ≠ np, (s'.node n).detached = (s.node n).detached := by
    intro n hn
    simp [hdet, hn]
  obtain ⟨hfam, hL⟩ := hat.all h.family
  obtain ⟨hparL, hLnod⟩ := hat.nodup h.nodup
  obtain ⟨F', hrep⟩ := hat.replace (.cons np .nil L)
  have hfampar : Family s' par (np :: L.roots) := by
    refine ⟨⟨by simp [hlink], hfam.chain.moved ?_ fun c hc => ?_⟩, fun c hc => ?_, fun c hc => ?_⟩
    · simp [hlink, hparnp]
    · exact hsib c (hne c (hat.subset (Forest.roots_subset_nodes hc)))
    · rw [honly.parent]
      rcases List.mem_cons.mp hc with rfl | hc
      · exact hpar
      · exact hfam.parent c hc
    · rcases List.mem_cons.mp hc with rfl | hc
      · simp [hdet]
      · rw [hdet' c (hne c (hat.subset (Forest.roots_subset_nodes hc)))]
        exact hfam.attached c hc
  have hfamnp : Family s' np [] := ⟨by simp [Chain, hlink, hparnp.symm], by simp, by simp⟩
  have hLall : L.All (Family s') := hL.inner hLnod fun n cs hn hcs hfam => by
    have hcsne : ∀ c ∈ cs, c ≠ np := fun c hc => hne c (hat.subset (hcs c hc).1)
    refine hfam.frame (hchild n (hne n (hat.subset hn)) ?_) (fun c hc => hsib c (hcsne c hc))
      (fun c _ => honly.parent c) fun c hc => hdet' c (hcsne c hc)
    rintro rfl
    exact hparL hn
  have hall := hrep.all h.nodup h.family hfampar ⟨hfamnp, trivial, hLall⟩
    fun n cs hn hout hcs hfam =>
      hfam.frame (hchild n (hne n hn) fun heq => hout (by simp [heq]))
        (fun c hc => hsib c (hne c (hcs c hc).1)) (fun c _ => honly.parent c)
        fun c hc => hdet' c (hne c (hcs c hc).1)
  obtain ⟨K', rfl⟩ := Forest.eq_of_roots (hrep.roots_eq.trans (by simp : _ = [r]))
  obtain ⟨cs, hperm, hperm'⟩ := hrep.nodes_perm
  have hmem : ∀ n, n ∈ (Forest.cons r K' .nil).nodes ↔ n = np ∨ n ∈ (Forest.cons r K .nil).nodes := by
    intro n
    rw [hperm.mem_iff, hperm'.mem_iff]
    simp
    tauto
  refine ⟨K', ⟨honly.root.trans h.root, (honly.parent r).trans h.parent, ?_, ?_, ?_, hall⟩, hmem⟩
  · exact (hsib r (hne r (by simp))).trans h.sibling
  · exact (hdet' r (hne r (by simp))).trans h.attached
  · rw [hperm'.nodup_iff]
    have hnod := h.nodup
    rw [hperm.nodup_iff] at hnod
    rw [hperm.mem_iff] at hnp
    simp only [Forest.nodes_cons, Forest.nodes_nil, List.nil_append, List.cons_append,
      List.nodup_cons, List.mem_cons] at hnod hnp ⊢
    tauto

/-- A node is unlinked from the tree, with everything below it. -/
theorem LiveForest.shrink {G N H : Forest ℕ} (h : LiveForest s r K)
    (hat : (Forest.cons r K .nil).At par (G ++ .cons np N H))
    (hunl : Unlinked s s' np (locAfter .sibling (.child par) G.roots)) :
    ∃ K', LiveForest s' r K' ∧ ∀ n, n ∈ (Forest.cons r K' .nil).nodes ↔
      n ∈ (Forest.cons r K .nil).nodes ∧ n ≠ np ∧ n ∉ N.nodes := by
  obtain ⟨hfam, hL⟩ := hat.all h.family
  obtain ⟨hparL, hLnod⟩ := hat.nodup h.nodup
  obtain ⟨F', hrep⟩ := hat.replace (G ++ H)
  rw [Forest.roots_append, Forest.roots_cons] at hfam
  obtain ⟨hGall, -, -, hHall⟩ := Forest.all_append.mp hL
  rw [Forest.nodes_append, Forest.nodes_cons, List.nodup_append] at hLnod
  obtain ⟨hGnod, hrest, hdisj⟩ := hLnod
  obtain ⟨hnpout, hNH⟩ := List.nodup_cons.mp hrest
  have hHnod := (List.nodup_append.mp hNH).2.1
  have hGne : ∀ n ∈ G.nodes, n ≠ np := fun n hn => hdisj n hn np (by simp)
  have hHne : ∀ n ∈ H.nodes, n ≠ np := by
    rintro n hn rfl
    exact hnpout (by simp [hn])
  have hHG : ∀ n ∈ H.nodes, n ∉ G.roots := fun n hn hG =>
    hdisj n (Forest.roots_subset_nodes hG) n (by simp [hn]) rfl
  -- the only link that is written is the one behind the roots of `G`
  have hchild : ∀ n, n ≠ par → s'.nodeLink (.child n) = s.nodeLink (.child n) := by
    intro n hn
    rw [hunl.link]
    exact update_of_ne (Lists.loc_ne_head nodeLayout hn) ..
  have hsib : ∀ n, n ∉ G.roots → s'.nodeLink (.sibling n) = s.nodeLink (.sibling n) := by
    intro n hn
    rw [hunl.link]
    exact update_of_ne (Lists.loc_ne_nxt nodeLayout hn) ..
  have hdet : ∀ n, n ≠ np → (s'.node n).detached = (s.node n).detached := by
    intro n hn
    rw [hunl.detached, if_neg hn]
  have hfampar : Family s' par (G.roots ++ H.roots) := by
    refine ⟨?_, fun c hc => ?_, fun c hc => ?_⟩
    · rw [hunl.link]
      refine hfam.chain.remove
        (Lists.nodup_slots nodeLayout (hGnod.sublist Forest.roots_sublist_nodes)) fun b hb => ?_
      exact Lists.loc_ne_nxt nodeLayout (hHG b (Forest.roots_subset_nodes hb))
    · rw [hunl.only.parent]
      exact hfam.parent c (by simp at hc ⊢; tauto)
    · rw [hdet c]
      · exact hfam.attached c (by simp at hc ⊢; tauto)
      · rcases List.mem_append.mp hc with hc | hc
        · exact hGne c (Forest.roots_subset_nodes hc)
        · exact hHne c (Forest.roots_subset_nodes hc)
  have hGall' : G.All (Family s') := hGall.inner hGnod fun n cs hn hcs hf => by
    refine hf.frame (hchild n ?_) (fun c hc => hsib c (hcs c hc).2) (fun c _ => hunl.only.parent c)
      fun c hc => hdet c (hGne c (hcs c hc).1)
    rintro rfl
    exact hparL (by simp [hn])
  have hHall' : H.All (Family s') := hHall.inner hHnod fun n cs hn hcs hf => by
    refine hf.frame (hchild n ?_) (fun c hc => hsib c (hHG c (hcs c hc).1))
      (fun c _ => hunl.only.parent c) fun c hc => hdet c (hHne c (hcs c hc).1)
    rintro rfl
    exact hparL (by simp [hn])
  have hout : ∀ c, c ∉ (G ++ Forest.cons np N H).nodes → c ∉ G.roots ∧ c ≠ np := by
    intro c hc
    refine ⟨fun hG => hc (by simp [Forest.roots_subset_nodes hG]), ?_⟩
    rintro rfl
    exact hc (by simp)
  have hall := hrep.all h.nodup h.family (by rwa [Forest.roots_append])
    (Forest.all_append.mpr ⟨hGall', hHall'⟩) fun n cs hn hnout hcs hf =>
      hf.frame (hchild n fun heq => hnout (by simp [heq]))
        (fun c hc => hsib c (hout c (hcs c hc).2).1) (fun c _ => hunl.only.parent c)
        fun c hc => hdet c (hout c (hcs c hc).2).2
  obtain ⟨K', rfl⟩ := Forest.eq_of_roots (hrep.roots_eq.trans (by simp : _ = [r]))
  obtain ⟨cs, hperm, hperm'⟩ := hrep.nodes_perm
  have hnod := hperm.nodup_iff.mp h.nodup
  have hrnp : r ≠ np := by
    rintro rfl
    exact hrep.root_outside h.nodup (by simp : r ∈ (Forest.cons r K .nil).roots) (by simp)
  have hrG : r ∉ G.roots := fun hr => hrep.root_outside h.nodup
    (by simp : r ∈ (Forest.cons r K .nil).roots) (by simp [Forest.roots_subset_nodes hr])
  refine ⟨K', ⟨hunl.only.root.trans h.root, (hunl.only.parent r).trans h.parent,
    (hsib r hrG).trans h.sibling, (hdet r hrnp).trans h.attached, ?_, hall⟩, fun n => ?_⟩
  · rw [hperm'.nodup_iff]
    refine hnod.sublist (List.Sublist.cons_cons par (List.Sublist.append_right ?_ cs))
    simp only [Forest.nodes_append, Forest.nodes_cons]
    exact ((List.sublist_append_right ..).trans (List.sublist_cons_self ..)).append_left _
  · rw [hperm.mem_iff, hperm'.mem_iff]
    simp only [Forest.nodes_append, Forest.nodes_cons, List.mem_cons, List.mem_append,
      List.nodup_cons, List.nodup_append, not_or] at hnod hdisj hnpout hNH ⊢
    obtain ⟨⟨⟨-, hpnp, hpN, -⟩, -⟩, -, -, hcs⟩ := hnod
    refine ⟨fun hn => ⟨by tauto, ?_, ?_⟩, by tauto⟩
    · rcases hn with rfl | (hn | hn) | hn
      · exact hpnp
      · exact hGne n hn
      · exact hHne n hn
      · exact fun heq => hcs n (.inr (.inl heq)) n hn rfl
    · rcases hn with rfl | (hn | hn) | hn
      · exact hpN
      · exact fun hN => hdisj n hn n (.inr (.inl hN)) rfl
      · exact fun hN => hNH.2.2 n hN n hn rfl
      · exact fun hN => hcs n (.inr (.inr (.inl hN))) n hn rfl

/-! ### The cached node -/

/-- The cached node belongs to the tree. -/
structure CacheOk (s : DevTree) (r : ℕ) (K : Forest ℕ) : Prop where
  forest : LiveForest s r K
  unique : UniquePhandles s
  cached : ∀ c, s.phandleCache 0 = some c →
    c ∈ (Forest.cons r K .nil).nodes ∧ (s.node c).phandle ≠ 0

theorem LiveForest.find_iff (h : LiveForest s r K) (hu : UniquePhandles s) (hhandle : handle ≠ 0) :
    ((Forest.cons r K .nil).nodes.find? fun n => Matches s handle n) = some n ↔
      Live s n ∧ (s.node n).phandle = handle := by
  refine ⟨fun hfind => ?_, fun ⟨hlive, hph⟩ => ?_⟩
  · have hm := List.find?_some hfind
    rw [decide_eq_true_eq] at hm
    exact ⟨h.live_iff.mpr (List.mem_of_find?_eq_some hfind), hm.1⟩
  · have hn := h.live_iff.mp hlive
    cases hfind : (Forest.cons r K .nil).nodes.find? fun n => Matches s handle n with
    | none =>
      have hno := List.find?_eq_none.mp hfind n hn
      rw [decide_eq_true_eq] at hno
      exact absurd ⟨hph, h.detached hn⟩ hno
    | some m =>
      have hm := List.find?_some hfind
      rw [decide_eq_true_eq] at hm
      have hmlive := h.live_iff.mpr (List.mem_of_find?_eq_some hfind)
      rw [hu n m hlive hmlive (by rwa [hph]) (hph.trans hm.1.symm)]

/-- The answer of `of_find_node_by_phandle`, and what is cached afterwards. -/
theorem CacheOk.find (h : CacheOk s r K) (hhandle : handle ≠ 0) :
    ∃ s', Returns (fun fuel => ofFindNodeByPhandle fuel s handle)
        (s', (Forest.cons r K .nil).nodes.find? fun n => Matches s handle n) ∧ CacheOk s' r K := by
  have hscan := h.forest.scan hhandle
  have hiff := fun n => h.forest.find_iff (n := n) h.unique hhandle
  cases hhit : phandleCacheHit s handle with
  | some n =>
    obtain ⟨hcache, hph⟩ := Option.filter_eq_some_iff.mp hhit
    rw [decide_eq_true_eq] at hph
    have hn := (hiff n).mpr ⟨h.forest.live_iff.mpr (h.cached n hcache).1, hph.symm⟩
    rw [hn]
    exact ⟨s, ⟨0, fun fuel _ => by simp [ofFindNodeByPhandle, hhandle, hhit]⟩, h⟩
  | none =>
    obtain ⟨k, hk⟩ := hscan
    cases hfind : (Forest.cons r K .nil).nodes.find? fun n => Matches s handle n with
    | none =>
      refine ⟨s, ⟨k, fun fuel hfuel => ?_⟩, h⟩
      have hrun : ofScanByPhandle fuel s handle = some none := by rw [← hfind]; exact hk fuel hfuel
      simp [ofFindNodeByPhandle, hhandle, hhit, hrun]
    | some n =>
      let s' : DevTree := { s with
        phandleCache := update s.phandleCache (ofPhandleCacheHash handle) (some n) }
      have hforest : LiveForest s' r K :=
        h.forest.frame rfl (fun _ _ => rfl) (fun _ _ => rfl) (fun _ _ => rfl) fun _ _ => rfl
      refine ⟨s', ⟨k, fun fuel hfuel => ?_⟩, hforest, fun n m hn hm => ?_, fun c hc => ?_⟩
      · have hrun : ofScanByPhandle fuel s handle = some (some n) := by
          rw [← hfind]
          exact hk fuel hfuel
        simp [ofFindNodeByPhandle, hhandle, hhit, hrun, s']
      · rw [hforest.live_iff, ← h.forest.live_iff] at hn hm
        exact h.unique n m hn hm
      · obtain rfl : n = c := by simpa [s', ofPhandleCacheHash] using hc
        obtain ⟨hlive, hph⟩ := (hiff n).mp hfind
        exact ⟨h.forest.live_iff.mp hlive, by rwa [← hph] at hhandle⟩

theorem CacheOk.attach (h : CacheOk s r K) (hnp : ¬Live s np)
    (hrun : ofAttachNode fuel (s.setParent np par) np = some s') (hu : UniquePhandles s') :
    ∃ K', CacheOk s' r K' := by
  rw [h.forest.live_iff] at hnp
  have hne : ∀ n ∈ (Forest.cons r K .nil).nodes, n ≠ np := fun n hn heq => hnp (heq ▸ hn)
  have hforest : LiveForest (s.setParent np par) r K := setParent_forest h.forest hnp
  have hpar : ((s.setParent np par).node np).parent = some par := by
    simp [DevTree.setParent, DevTree.setNode]
  obtain ⟨v, hid⟩ : ∃ v, ofNodeIdentity fuel (s.setParent np par) np = some v := by
    rw [ofAttachNode] at hrun
    obtain ⟨v, hv, -⟩ := Option.bind_eq_some_iff.mp hrun
    exact ⟨v, hv⟩
  obtain ⟨nm, ph, rfl⟩ := ofNodeIdentity_some hid
  obtain ⟨s₁, hrun₁, honly, hdet, hph, hcache, hlink⟩ := ofAttachNode_eq hid hpar
  obtain rfl := Option.some.inj (hrun.symm.trans hrun₁)
  have hcached : ∀ K', (∀ n ∈ (Forest.cons r K .nil).nodes, n ∈ (Forest.cons r K' .nil).nodes) →
      ∀ c, s'.phandleCache 0 = some c →
        c ∈ (Forest.cons r K' .nil).nodes ∧ (s'.node c).phandle ≠ 0 := by
    intro K' hsub c hc
    rw [hcache] at hc
    obtain ⟨hmem, hne0⟩ := h.cached c hc
    refine ⟨hsub c hmem, ?_⟩
    rw [hph c (hne c hmem), DevTree.setParent, setNode_phandle, if_neg (hne c hmem)]
    exact hne0
  by_cases hlive : par ∈ (Forest.cons r K .nil).nodes
  · obtain ⟨L, hat⟩ := Forest.exists_at hlive
    obtain ⟨K', hK', hmem⟩ := hforest.grow hnp hat honly hpar hdet hlink
    exact ⟨K', hK', hu, hcached K' fun n hn => (hmem n).mpr (.inr hn)⟩
  · have hne' : ∀ n ∈ (Forest.cons r K .nil).nodes, n ≠ par := fun n hn heq => hlive (heq ▸ hn)
    refine ⟨K, hforest.frame honly.root (fun n _ => honly.parent n) (fun n hn => ?_) (fun n hn => ?_)
      fun n hn => ?_, hu, hcached K fun n hn => hn⟩
    · rw [hdet, if_neg (hne n hn)]
    · simp [hlink, hne n hn, hne' n hn]
    · simp [hlink, hne n hn]

/-- A node is detached that is not above the cached one. -/
theorem CacheOk.detach (h : CacheOk s r K) (hspare : SparesCached s (.detach np))
    (hrun : Returns (fun fuel => ofDetachNode fuel s np) s') : ∃ K', CacheOk s' r K' := by
  obtain ⟨k, hk⟩ := hrun
  by_cases hlive : np ∈ (Forest.cons r K .nil).nodes
  · rcases Forest.root_or_below hlive with hroot | ⟨par, L, hat, hL⟩
    · obtain rfl : np = r := by simpa using hroot
      rcases ofDetachNode_some (hk k le_rfl) with rfl | ⟨_, _, _, hpar, _⟩
      · exact ⟨K, h⟩
      · exact absurd (h.forest.parent.symm.trans hpar) (by simp)
    · have hfam := (hat.all h.forest.family).1
      obtain ⟨xs, ys, hsplit⟩ := List.append_of_mem hL
      obtain ⟨G, N, H, rfl, rfl, rfl⟩ := Forest.split_root hsplit
      have hnod := (hat.nodup h.forest.nodup).2
      have hnp : np ∉ G.roots := by
        rw [Forest.nodes_append, Forest.nodes_cons, List.nodup_append] at hnod
        exact fun hG => hnod.2.2 np (Forest.roots_subset_nodes hG) np (by simp) rfl
      obtain ⟨s₁, hs₁, hunl⟩ := ofDetachNode_eq (hfam.attached np hL) (hfam.parent np hL)
        (by rw [← hsplit]; exact hfam.chain) hnp (by omega : _ < max k (G.roots.length + 1))
      obtain rfl := Option.some.inj ((hk _ (le_max_left ..)).symm.trans hs₁)
      obtain ⟨K', hK', hmem⟩ := h.forest.shrink hat hunl
      refine ⟨K', hK', fun n m hn hm => ?_, fun c hc => ?_⟩
      · rw [hK'.live_iff, hmem, ← h.forest.live_iff] at hn hm
        rw [hunl.phandle, hunl.phandle]
        exact h.unique n m hn.1 hm.1
      · obtain ⟨hold, hkept⟩ := hunl.cache c hc
        obtain ⟨hcmem, hcph⟩ := h.cached c hold
        rw [hmem, hunl.phandle]
        refine ⟨⟨hcmem, ?_, fun hN => hspare c hold ?_⟩, hcph⟩
        · rintro rfl
          exact hkept hcph rfl
        · exact (below_iff h.forest.family hat.root).mpr hN
  · rcases ofDetachNode_some (hk k le_rfl) with rfl | ⟨_, l, _, _, hl, _, hunl⟩
    · exact ⟨K, h⟩
    · have hout : ∀ n ∈ (Forest.cons r K .nil).nodes,
          NodeSlot.child n ≠ l ∧ NodeSlot.sibling n ≠ l := by
        intro n hn
        refine ⟨?_, ?_⟩ <;> rintro rfl
        · exact hlive (h.forest.closed hn (.inl hl))
        · exact hlive (h.forest.closed hn (.inr hl))
      have hforest : LiveForest s' r K := by
        refine h.forest.frame hunl.only.root (fun n _ => hunl.only.parent n) (fun n hn => ?_)
          (fun n hn => ?_) fun n hn => ?_
        · rw [hunl.detached, if_neg]
          rintro rfl
          exact hlive hn
        · rw [hunl.link, update_of_ne (hout n hn).1]
        · rw [hunl.link, update_of_ne (hout n hn).2]
      refine ⟨K, hforest, fun n m hn hm => ?_, fun c hc => ?_⟩
      · rw [hforest.live_iff, ← h.forest.live_iff] at hn hm
        rw [hunl.phandle, hunl.phandle]
        exact h.unique n m hn hm
      · rw [hunl.phandle]
        exact h.cached c (hunl.cache c hc).1

theorem CacheOk.step {op : TreeOp} (h : CacheOk s r K) (hstep : TreeStep s op s')
    (hspare : SparesCached s op) : ∃ K', CacheOk s' r K' := by
  cases hstep with
  | attach hnp hrun hu =>
    obtain ⟨k, hk⟩ := hrun
    exact h.attach hnp (hk k le_rfl) hu
  | detach hrun => exact h.detach hspare hrun
  | @find _ handle np hrun =>
    by_cases hhandle : handle = 0
    · have hsame : Returns (fun fuel => ofFindNodeByPhandle fuel s handle) (s, none) :=
        ⟨0, fun fuel _ => by simp [ofFindNodeByPhandle, hhandle]⟩
      obtain ⟨rfl, -⟩ := Prod.mk.inj (hrun.unique hsame)
      exact ⟨K, h⟩
    · obtain ⟨s₁, hs₁, hok⟩ := h.find hhandle
      obtain ⟨rfl, -⟩ := Prod.mk.inj (hrun.unique hs₁)
      exact ⟨K, hok⟩

theorem CacheOk.run (h : CacheOk s r K) (hrun : SparingRun s s') : ∃ K', CacheOk s' r K' := by
  induction hrun with
  | refl => exact ⟨K, h⟩
  | step _ hstep hspare ih =>
    obtain ⟨K', hK'⟩ := ih
    exact hK'.step hstep hspare

/-- The cache does not change the answer, as long as no node is detached that
the cached one is below of. -/
theorem find_eq_scan (h : LiveForest s r K) (hu : UniquePhandles s) (hcache : s.phandleCache 0 = none)
    (hrun : SparingRun s s') (hhandle : handle ≠ 0) :
    ∃ s₂ np, Returns (fun fuel => ofFindNodeByPhandle fuel s' handle) (s₂, np) ∧
      Returns (fun fuel => ofScanByPhandle fuel s' handle) np ∧
      ∀ n, np = some n ↔ Live s' n ∧ (s'.node n).phandle = handle := by
  have hok : CacheOk s r K := ⟨h, hu, by simp [hcache]⟩
  obtain ⟨K', hK'⟩ := hok.run hrun
  obtain ⟨s₂, hs₂, -⟩ := hK'.find hhandle
  exact ⟨s₂, _, hs₂, hK'.forest.scan hhandle, fun n => hK'.forest.find_iff hK'.unique hhandle⟩

/-- The nodes `0`, `1` and `2`, each below the one before; `2` has a phandle. -/
def phandleTree : DevTree where
  node n :=
    if n = 0 then { bareNode with child := some 1, detached := false }
    else if n = 1 then { bareNode with parent := some 0, child := some 2, detached := false }
    else if n = 2 then { bareNode with parent := some 1, phandle := 7, detached := false }
    else bareNode
  prop _ := ⟨"", 0, cstring "", none⟩
  root := some 0
  phandleCache _ := none

theorem phandleTree_forest : LiveForest phandleTree 0 (.cons 1 (.cons 2 .nil .nil) .nil) := by
  refine ⟨rfl, rfl, rfl, rfl, by decide, ⟨⟨rfl, rfl⟩, ?_, ?_⟩,
    ⟨⟨⟨rfl, rfl⟩, ?_, ?_⟩, ⟨⟨rfl, ?_, ?_⟩, trivial, trivial⟩, trivial⟩, trivial⟩ <;> simp [phandleTree]

theorem phandleTree_unique : UniquePhandles phandleTree := by
  intro n m hn hm hne heq
  rw [(phandleTree_forest).live_iff] at hn hm
  simp only [Forest.nodes_cons, Forest.nodes_nil, List.append_nil, List.mem_cons,
    List.not_mem_nil, or_false] at hn hm
  rcases hn with rfl | rfl | rfl <;> rcases hm with rfl | rfl | rfl <;>
    simp_all [phandleTree, bareNode]

/-- The tree after the phandle was looked up. -/
def phandleTreeCached : DevTree :=
  { phandleTree with phandleCache := Function.update phandleTree.phandleCache 0 (some 2) }

theorem phandleTree_find : TreeStep phandleTree (.find 7) phandleTreeCached := by
  have hfind : Returns (fun fuel => ofFindNodeByPhandle fuel phandleTree 7)
      (phandleTreeCached, some 2) := by
    refine ⟨4, fun fuel hfuel => ?_⟩
    obtain ⟨fuel, rfl⟩ := Nat.exists_eq_add_of_le' hfuel
    rfl
  exact .find hfind

/-- A node is found by its phandle, the node above it is detached, and the
phandle still leads to it. -/
theorem cache_keeps_detached_node :
    LiveForest phandleTree 0 (.cons 1 (.cons 2 .nil .nil) .nil) ∧ UniquePhandles phandleTree ∧
    phandleTree.phandleCache 0 = none ∧ TreeStep phandleTree (.find 7) phandleTreeCached ∧
    ∃ s, TreeStep phandleTreeCached (.detach 1) s ∧
      Returns (fun fuel => ofFindNodeByPhandle fuel s 7) (s, some 2) ∧
      Returns (fun fuel => ofScanByPhandle fuel s 7) none ∧ ¬Live s 2 := by
  refine ⟨phandleTree_forest, phandleTree_unique, rfl, phandleTree_find, _,
    .detach ⟨0, fun _ _ => rfl⟩, ⟨0, fun _ _ => rfl⟩, ⟨3, fun fuel hfuel => ?_⟩, ?_⟩
  · obtain ⟨fuel, rfl⟩ := Nat.exists_eq_add_of_le' hfuel
    rfl
  · rintro ⟨r, hr, h2 | hbelow⟩
    · subst h2
      exact absurd (Option.some.inj hr) (by decide)
    · obtain rfl := Option.some.inj hr
      exact not_below rfl hbelow

/-- The node itself is detached, and the lookup agrees with the search. -/
theorem find_eq_scan_phandleTree :
    ∃ s, SparingRun phandleTree s ∧ ∃ s₂ np,
      Returns (fun fuel => ofFindNodeByPhandle fuel s 7) (s₂, np) ∧
      Returns (fun fuel => ofScanByPhandle fuel s 7) np ∧
      ∀ n, np = some n ↔ Live s n ∧ (s.node n).phandle = 7 := by
  have hdetach : TreeStep phandleTreeCached (.detach 2) _ := .detach ⟨1, fun fuel hfuel => by
    obtain ⟨fuel, rfl⟩ := Nat.exists_eq_add_of_le' hfuel
    rfl⟩
  have hrun := (SparingRun.refl.step phandleTree_find trivial).step hdetach
    fun c _ hbelow => not_below rfl hbelow
  exact ⟨_, hrun, find_eq_scan phandleTree_forest phandleTree_unique rfl hrun (by decide)⟩

end GfpDrivers.Of
