import GfpDrivers.Of.NodeLists

/-!
Applying and reverting changesets. What the tree stands for are two sets, the
live properties and the attached nodes, since a property keeps its node and a
node its parent. An entry that is applied adds one element to one of the sets,
takes one away, or exchanges one for another, and the inverted entry takes
this back.
-/

namespace GfpDrivers.Of

open Lib

variable {base s s' : DevTree} {home : ℕ → ℕ} {m n p q np par fuel : ℕ} {V V' A A' : Set ℕ}
  {prop old : Option ℕ} {ce : ChangesetEntry} {ces : List ChangesetEntry}

/-- The tree has the live properties `V` and the attached nodes `A`, and all
that never changes is as in `base`. -/
structure Rep (base : DevTree) (home : ℕ → ℕ) (m : ℕ) (V A : Set ℕ) (s : DevTree) : Prop where
  keeps : Keeps (fun p => (base.prop p).name) home m V s.link
  nodes : ∃ kids, NodeShape (fun n => (base.node n).parent) m A s.nodeLink kids
  attached : ∀ n, n ∈ A ↔ (s.node n).detached = false
  parent : ∀ n, (s.node n).parent = (base.node n).parent
  root : s.root = base.root
  data : ∀ p, (s.prop p).name = (base.prop p).name ∧ (s.prop p).length = (base.prop p).length ∧
    (s.prop p).value = (base.prop p).value

/-- A live tree with lists of at most `m` elements, in which each property
belongs to the node `home` gives for it. -/
def LiveTree (s : DevTree) (home : ℕ → ℕ) (m : ℕ) : Prop := ∃ V A, Rep s home m V A s

/-- Two states show the same tree, up to the order of siblings and properties. -/
structure SameTree (s s' : DevTree) : Prop where
  root : s'.root = s.root
  attached : ∀ n, (s'.node n).detached = (s.node n).detached
  parent : ∀ n, (s'.node n).parent = (s.node n).parent
  children : ∀ n c, Linked .sibling s'.nodeLink (.child n) c ↔ Linked .sibling s.nodeLink (.child n) c
  properties : ∀ n p, Linked .next s'.link (.properties n) p ↔ Linked .next s.link (.properties n) p
  data : ∀ p, (s'.prop p).name = (s.prop p).name ∧ (s'.prop p).length = (s.prop p).length ∧
    (s'.prop p).value = (s.prop p).value

namespace Rep

theorem name (h : Rep base home m V A s) (p : ℕ) : (s.prop p).name = (base.prop p).name :=
  (h.data p).1

theorem linked_prop (h : Rep base home m V A s) :
    Linked .next s.link (.properties n) p ↔ p ∈ V ∧ home p = n := by
  obtain ⟨props, h⟩ := h.keeps
  exact h.linked_iff

theorem linked_node (h : Rep base home m V A s) :
    Linked .sibling s.nodeLink (.child n) p ↔ p ∈ A ∧ (base.node p).parent = some n := by
  obtain ⟨kids, h⟩ := h.nodes
  exact h.linked_iff

theorem unique (h : Rep base home m V A s) (hp : p ∈ V) (hq : q ∈ V) (hhome : home p = home q)
    (hname : (base.prop p).name = (base.prop q).name) : p = q := by
  obtain ⟨props, h⟩ := h.keeps
  exact h.unique p hp q hq hhome hname

theorem no_children (h : Rep base home m V A s) (hchild : (s.node np).child = none) :
    ∀ c ∈ A, (base.node c).parent ≠ some np := by
  intro c hc hpar
  exact not_linked (show s.nodeLink (.child np) = none from hchild) (h.linked_node.mpr ⟨hc, hpar⟩)

theorem mono {m' : ℕ} (h : Rep base home m V A s) (hm : m ≤ m') : Rep base home m' V A s where
  keeps := by
    obtain ⟨props, hprops⟩ := h.keeps
    exact ⟨props, hprops.mono hm⟩
  nodes := by
    obtain ⟨kids, hkids⟩ := h.nodes
    exact ⟨kids, hkids.mono hm⟩
  attached := h.attached
  parent := h.parent
  root := h.root
  data := h.data

theorem sameTree {m₀ : ℕ} (h₀ : Rep s home m₀ V A s) (h : Rep s home m V A s') :
    SameTree s s' where
  root := h.root
  attached n := by
    have hn := (h.attached n).symm.trans (h₀.attached n)
    cases hd : (s.node n).detached <;> cases hd' : (s'.node n).detached <;> simp_all
  parent := h.parent
  children n c := h.linked_node.trans h₀.linked_node.symm
  properties n p := h.linked_prop.trans h₀.linked_prop.symm
  data := h.data

theorem withLink {link : PropSlot → Option ℕ} {m' : ℕ} (h : Rep base home m V A s)
    (hkeep : Keeps (fun p => (base.prop p).name) home m' V' link) (hm : m ≤ m') :
    Rep base home m' V' A (s.withLink link) where
  keeps := by rwa [withLink_link]
  nodes := by
    obtain ⟨kids, hkids⟩ := h.nodes
    exact ⟨kids, hkids.mono hm⟩
  attached := h.attached
  parent := h.parent
  root := h.root
  data := h.data

theorem nodesOnly {m' : ℕ} (h : Rep base home m V A s) (honly : NodesOnly s s')
    (hnodes : ∃ kids, NodeShape (fun n => (base.node n).parent) m' A' s'.nodeLink kids)
    (hatt : ∀ n, n ∈ A' ↔ (s'.node n).detached = false) (hm : m ≤ m') :
    Rep base home m' V A' s' where
  keeps := by
    obtain ⟨props, hprops⟩ := h.keeps
    rw [honly.link]
    exact ⟨props, hprops.mono hm⟩
  nodes := hnodes
  attached := hatt
  parent n := (honly.parent n).trans (h.parent n)
  root := honly.root.trans h.root
  data p := by rw [honly.prop]; exact h.data p

/-! ### The entries -/

theorem attachNode (h : Rep base home m V A s) (hfuel : m < fuel) (hA : np ∉ A)
    (hpar : (base.node np).parent = some par) (hkids : ∀ c ∈ A, (base.node c).parent ≠ some np) :
    ∃ s', ofChangesetEntryApply fuel s ⟨.attachNode, np, prop, old⟩ = some (s', 0) ∧
      Rep base home (m + 1) V (insert np A) s' := by
  obtain ⟨kids, hnodes⟩ := h.nodes
  have hchild : (s.node np).child = none := by
    have hnil : kids np = [] := List.eq_nil_iff_forall_not_mem.mpr fun c hc => by
      obtain ⟨hcA, hcp⟩ := (hnodes.mem_kids np c).mp hc
      exact hkids c hcA hcp
    have hfirst := (hnodes.lists.chain np).first
    rw [hnil] at hfirst
    exact hfirst
  obtain ⟨nm, ph, hid⟩ := ofNodeIdentity_eq np h.keeps h.name hfuel
  obtain ⟨s', hrun, honly, hflag, -, -, hlink⟩ := ofAttachNode_eq hid ((h.parent np).trans hpar)
  have hnone : Function.update s.nodeLink (.child np) none = s.nodeLink :=
    Function.update_eq_self_iff.mpr hchild.symm
  rw [hnone] at hlink
  obtain ⟨kids', hnodes'⟩ := hnodes.attach hA hpar
  refine ⟨s', by simp [ofChangesetEntryApply, hrun], ?_⟩
  refine h.nodesOnly honly ⟨kids', by rwa [hlink]⟩ (fun n => ?_) (Nat.le_succ m)
  rw [Set.mem_insert_iff, hflag, h.attached]
  by_cases hn : n = np <;> simp [hn]

theorem detachNode (h : Rep base home m V A s) (hfuel : m < fuel) (hA : np ∈ A)
    (hpar : (base.node np).parent = some par) :
    ∃ s', ofChangesetEntryApply fuel s ⟨.detachNode, np, prop, old⟩ = some (s', 0) ∧
      Rep base home (m + 1) V (A \ {np}) s' := by
  obtain ⟨kids, hnodes⟩ := h.nodes
  obtain ⟨xs, ys, heq⟩ := List.append_of_mem ((hnodes.mem_kids par np).mpr ⟨hA, hpar⟩)
  have hc := hnodes.lists.chain par
  have hnod := hnodes.lists.nodup par
  have hlen := hnodes.short par
  rw [heq] at hc hnod hlen
  have hnp : np ∉ xs := fun hmem => (List.nodup_append.mp hnod).2.2 np hmem np (by simp) rfl
  obtain ⟨s', hrun, hunl⟩ :=
    ofDetachNode_eq ((h.attached np).mp hA) ((h.parent np).trans hpar) hc hnp
      (by simp at hlen; omega : xs.length < fuel)
  obtain ⟨kids', hnodes'⟩ := hnodes.detach heq
  refine ⟨s', by simp [ofChangesetEntryApply, hrun], ?_⟩
  refine h.nodesOnly hunl.only ⟨kids', by rw [hunl.link]; exact hnodes'.mono (Nat.le_succ m)⟩
    (fun n => ?_) (Nat.le_succ m)
  rw [Set.mem_sdiff, Set.mem_singleton_iff, hunl.detached, h.attached]
  by_cases hn : n = np <;> simp [hn]

theorem addProperty (h : Rep base home m V A s) (hfuel : m < fuel) (hV : p ∉ V) (hp : home p = np)
    (old : Option ℕ) :
    ((∀ q ∈ V, home q = np → (base.prop q).name ≠ (base.prop p).name) →
      ∃ s', ofChangesetEntryApply fuel s ⟨.addProperty, np, some p, old⟩ = some (s', 0) ∧
        Rep base home (m + 1) (insert p V) A s') ∧
    ((∃ q ∈ V, home q = np ∧ (base.prop q).name = (base.prop p).name) →
      ∃ s', ofChangesetEntryApply fuel s ⟨.addProperty, np, some p, old⟩ = some (s', -EEXIST) ∧
        Rep base home m V A s') := by
  obtain ⟨props, hprops⟩ := h.keeps
  obtain ⟨link, props', htake, hprops', hfree⟩ := takeDeadprop_eq hprops hfuel hV hp
  have hlink : PropShape (fun p => (base.prop p).name) home m V (s.withLink link).link props' := by
    rwa [withLink_link]
  obtain ⟨hadd, hclash⟩ := ofAddProperty_eq (s := s.withLink link) hlink h.name hfuel hfree hp
  refine ⟨fun hfresh => ?_, fun hex => ?_⟩
  · obtain ⟨link', hrun, hkeep⟩ := hadd hfresh
    refine ⟨_, ?_, h.withLink hkeep (Nat.le_succ m)⟩
    simp [ofChangesetEntryApply, htake, hrun]
  · obtain ⟨link', hrun, hkeep⟩ := hclash hex
    refine ⟨_, ?_, h.withLink hkeep le_rfl⟩
    simp [ofChangesetEntryApply, htake, hrun]

theorem addProperty_live (h : Rep base home m V A s) (hfuel : m < fuel) (hV : p ∈ V)
    (hp : home p = np) (old : Option ℕ) :
    ∃ s', ofChangesetEntryApply fuel s ⟨.addProperty, np, some p, old⟩ = some (s', -EEXIST) := by
  obtain ⟨props, hprops⟩ := h.keeps
  obtain ⟨s', hrun⟩ := ofAddProperty_live hprops h.name hfuel hV hp
  exact ⟨s', by simp [ofChangesetEntryApply, takeDeadprop_live hprops hfuel hV, hrun]⟩

theorem removeProperty (h : Rep base home m V A s) (hfuel : m < fuel) (hp : home p = np)
    (old : Option ℕ) :
    (p ∈ V → ∃ s', ofChangesetEntryApply fuel s ⟨.removeProperty, np, some p, old⟩ = some (s', 0) ∧
      Rep base home (m + 1) (V \ {p}) A s') ∧
    (p ∉ V →
      ofChangesetEntryApply fuel s ⟨.removeProperty, np, some p, old⟩ = some (s, -ENODEV)) := by
  obtain ⟨props, hprops⟩ := h.keeps
  obtain ⟨hrem, hmiss⟩ := ofRemoveProperty_eq hprops hfuel hp
  refine ⟨fun hV => ?_, fun hV => by simp [ofChangesetEntryApply, hmiss hV]⟩
  obtain ⟨link, hrun, hkeep⟩ := hrem hV
  exact ⟨_, by simp [ofChangesetEntryApply, hrun], h.withLink hkeep (Nat.le_succ m)⟩

theorem updateProperty (h : Rep base home m V A s) (hfuel : m < fuel) (hV : p ∉ V)
    (hp : home p = np) (old : Option ℕ) :
    (∀ q ∈ V, home q = np → (base.prop q).name = (base.prop p).name →
      ∃ s', ofChangesetEntryApply fuel s ⟨.updateProperty, np, some p, old⟩ = some (s', 0) ∧
        Rep base home (m + 1) (insert p (V \ {q})) A s') ∧
    ((∀ q ∈ V, home q = np → (base.prop q).name ≠ (base.prop p).name) →
      ∃ s', ofChangesetEntryApply fuel s ⟨.updateProperty, np, some p, old⟩ = some (s', 0) ∧
        Rep base home (m + 1) (insert p V) A s') := by
  obtain ⟨props, hprops⟩ := h.keeps
  obtain ⟨link, props', htake, hprops', hfree⟩ := takeDeadprop_eq hprops hfuel hV hp
  have hlink : PropShape (fun p => (base.prop p).name) home m V (s.withLink link).link props' := by
    rwa [withLink_link]
  obtain ⟨hold, hnew⟩ := ofUpdateProperty_eq (s := s.withLink link) hlink h.name hfuel hfree hp
  refine ⟨fun q hq hqn hname => ?_, fun hfresh => ?_⟩
  · obtain ⟨link', hrun, hkeep⟩ := hold q hq hqn hname
    refine ⟨_, ?_, h.withLink hkeep (Nat.le_succ m)⟩
    simp [ofChangesetEntryApply, htake, hrun]
  · obtain ⟨link', hrun, hkeep⟩ := hnew hfresh
    refine ⟨_, ?_, h.withLink hkeep (Nat.le_succ m)⟩
    simp [ofChangesetEntryApply, htake, hrun]

end Rep

/-! ### What an entry does to the two sets -/

/-- The entry takes the live properties and the attached nodes from `V`, `A`
to `V'`, `A'`. The recorded old property is the one that is replaced. -/
inductive Effect (base : DevTree) (home : ℕ → ℕ) :
    ChangesetEntry → Set ℕ → Set ℕ → Set ℕ → Set ℕ → Prop
  | attach {np par : ℕ} {prop old : Option ℕ} {V A : Set ℕ} : np ∉ A → (base.node np).parent = some par →
      (∀ c ∈ A, (base.node c).parent ≠ some np) →
      Effect base home ⟨.attachNode, np, prop, old⟩ V A V (insert np A)
  | detach {np par : ℕ} {prop old : Option ℕ} {V A : Set ℕ} : np ∈ A → (base.node np).parent = some par →
      Effect base home ⟨.detachNode, np, prop, old⟩ V A V (A \ {np})
  | add {np p : ℕ} {old : Option ℕ} {V A : Set ℕ} : p ∉ V → home p = np →
      (∀ q ∈ V, home q = np → (base.prop q).name ≠ (base.prop p).name) →
      Effect base home ⟨.addProperty, np, some p, old⟩ V A (insert p V) A
  | remove {np p : ℕ} {old : Option ℕ} {V A : Set ℕ} : p ∈ V → home p = np →
      Effect base home ⟨.removeProperty, np, some p, old⟩ V A (V \ {p}) A
  | replace {np p q : ℕ} {V A : Set ℕ} : p ∉ V → home p = np → q ∈ V → home q = np →
      (base.prop q).name = (base.prop p).name →
      Effect base home ⟨.updateProperty, np, some p, some q⟩ V A (insert p (V \ {q})) A
  | supply {np p : ℕ} {V A : Set ℕ} : p ∉ V → home p = np →
      (∀ q ∈ V, home q = np → (base.prop q).name ≠ (base.prop p).name) →
      Effect base home ⟨.updateProperty, np, some p, none⟩ V A (insert p V) A

theorem Effect.apply (he : Effect base home ce V A V' A') (h : Rep base home m V A s)
    (hfuel : m < fuel) :
    ∃ s', ofChangesetEntryApply fuel s ce = some (s', 0) ∧ Rep base home (m + 1) V' A' s' := by
  cases he with
  | attach hA hpar hkids => exact h.attachNode hfuel hA hpar hkids
  | detach hA hpar => exact h.detachNode hfuel hA hpar
  | add hV hp hfresh => exact (h.addProperty hfuel hV hp _).1 hfresh
  | remove hV hp => exact (h.removeProperty hfuel hp _).1 hV
  | replace hV hp hq hqn hname => exact (h.updateProperty hfuel hV hp _).1 _ hq hqn hname
  | supply hV hp hfresh => exact (h.updateProperty hfuel hV hp _).2 hfresh

/-- The inverted entry takes the effect back, unless a node with children was detached. -/
theorem Effect.invert (he : Effect base home ce V A V' A') (h : Rep base home m V A s)
    (hleaf : ce.action = .detachNode → ∀ c ∈ A, (base.node c).parent ≠ some ce.np) :
    Effect base home ce.invert V' A' V A := by
  cases he with
  | @attach np par prop old _ _ hA hpar hkids =>
    have hdet : Effect base home ⟨.detachNode, np, prop, old⟩ V (insert np A) V (insert np A \ {np}) :=
      .detach (Set.mem_insert np A) hpar
    rwa [Set.insert_sdiff_self_of_notMem hA] at hdet
  | @detach np par prop old _ _ hA hpar =>
    have hatt : Effect base home ⟨.attachNode, np, prop, old⟩ V (A \ {np}) V
        (insert np (A \ {np})) :=
      .attach (by simp) hpar fun c hc => hleaf rfl c hc.1
    rwa [Set.insert_sdiff_self_of_mem hA] at hatt
  | @add np p old _ _ hV hp hfresh =>
    have hrem : Effect base home ⟨.removeProperty, np, some p, old⟩ (insert p V) A
        (insert p V \ {p}) A :=
      .remove (Set.mem_insert p V) hp
    rwa [Set.insert_sdiff_self_of_notMem hV] at hrem
  | @remove np p old _ _ hV hp =>
    have hadd : Effect base home ⟨.addProperty, np, some p, old⟩ (V \ {p}) A
        (insert p (V \ {p})) A := by
      refine .add (by simp) hp fun q hq hqn hname => hq.2 ?_
      exact h.unique hq.1 hV (hqn.trans hp.symm) hname
    rwa [Set.insert_sdiff_self_of_mem hV] at hadd
  | @replace np p q _ _ hV hp hq hqn hname =>
    have hpq : q ≠ p := by
      rintro rfl
      exact hV hq
    have hback : Effect base home ⟨.updateProperty, np, some q, some p⟩ (insert p (V \ {q})) A
        (insert q (insert p (V \ {q}) \ {p})) A :=
      .replace (by simp [hpq]) hqn (Set.mem_insert ..) hp hname.symm
    have hpV : p ∉ V \ {q} := fun hmem => hV hmem.1
    rwa [Set.insert_sdiff_self_of_notMem hpV, Set.insert_sdiff_self_of_mem hq]
      at hback
  | @supply np p _ _ hV hp hfresh =>
    have hrem : Effect base home ⟨.removeProperty, np, some p, some p⟩ (insert p V) A
        (insert p V \ {p}) A :=
      .remove (Set.mem_insert p V) hp
    rwa [Set.insert_sdiff_self_of_notMem hV] at hrem

/-- What several entries do, none of which detaches a node with children. -/
inductive Effects (base : DevTree) (home : ℕ → ℕ) :
    List ChangesetEntry → Set ℕ → Set ℕ → Set ℕ → Set ℕ → Prop
  | nil {V A : Set ℕ} : Effects base home [] V A V A
  | cons {ce : ChangesetEntry} {ces : List ChangesetEntry} {V A V₁ A₁ V₂ A₂ : Set ℕ} :
      Effect base home ce V A V₁ A₁ →
      (ce.action = .detachNode → ∀ c ∈ A, (base.node c).parent ≠ some ce.np) →
      Effects base home ces V₁ A₁ V₂ A₂ → Effects base home (ce :: ces) V A V₂ A₂

/-! ### Runs over the entries -/

/-- All entries are handled without an error. -/
inductive RunOk (entry : DevTree → ChangesetEntry → Option (DevTree × ℤ)) :
    DevTree → List ChangesetEntry → DevTree → Prop
  | nil {s : DevTree} : RunOk entry s [] s
  | cons {s s₁ s₂ : DevTree} {ce : ChangesetEntry} {ces : List ChangesetEntry} :
      entry s ce = some (s₁, 0) → RunOk entry s₁ ces s₂ → RunOk entry s (ce :: ces) s₂

section Runs

variable {entry back : DevTree → ChangesetEntry → Option (DevTree × ℤ)} {s₁ s₂ : DevTree}
  {done : List ChangesetEntry} {err err' ret : ℤ}

theorem RunOk.snoc (h : RunOk entry s ces s₁) (hce : entry s₁ ce = some (s₂, 0)) :
    RunOk entry s (ces ++ [ce]) s₂ := by
  induction h with
  | nil => exact .cons hce .nil
  | cons hfirst _ ih => exact .cons hfirst (ih hce)

theorem RunOk.replay (h : RunOk entry s ces s₁) :
    replayEntries entry s ces err = some (s₁, err) := by
  induction h with
  | nil => rfl
  | cons hfirst _ ih => simpa [replayEntries, hfirst] using ih

theorem RunOk.run (h : RunOk entry s ces s₁) :
    runEntries entry back s done ces err = some (s₁, 0, err) := by
  induction h generalizing done with
  | nil => rfl
  | cons hfirst _ ih => simpa [runEntries, hfirst] using ih

/-- The entries before the first one that fails are taken back. -/
theorem RunOk.run_failed {post : List ChangesetEntry} (h : RunOk entry s ces s₁)
    (hfail : entry s₁ ce = some (s₂, ret)) (hret : ret ≠ 0) :
    runEntries entry back s done (ces ++ ce :: post) err =
      (replayEntries back s₂ (ces.reverse ++ done) err).map fun (s, err) => (s, ret, err) := by
  induction h generalizing done with
  | nil => simp [runEntries, hfail, hret]
  | cons hfirst _ ih => simp [runEntries, hfirst, ih hfail]

theorem runOk_of_runEntries (h : runEntries entry back s done ces err = some (s', 0, err')) :
    RunOk entry s ces s' := by
  induction ces generalizing s done with
  | nil =>
    simp only [runEntries, Option.some.injEq, Prod.mk.injEq] at h
    rw [h.1]
    exact .nil
  | cons ce ces ih =>
    simp only [runEntries, Option.bind_eq_some_iff] at h
    obtain ⟨⟨s₁, ret⟩, hce, hrest⟩ := h
    simp only at hrest
    split_ifs at hrest with hret
    · simp only [Option.map_eq_some_iff, Prod.mk.injEq] at hrest
      obtain ⟨-, -, -, hz, -⟩ := hrest
      exact absurd hz hret
    · rw [not_not] at hret
      subst hret
      exact .cons hce (ih hrest)

end Runs

/-- Reverting entries in the reverse order leads back to the old sets. -/
theorem Effects.revert {m' : ℕ} (he : Effects base home ces V A V' A') (h : Rep base home m V A s)
    (h' : Rep base home m' V' A' s') (hm : m + ces.length < fuel) (hm' : m' + ces.length < fuel) :
    ∃ s₂, RunOk (ofChangesetEntryRevert fuel) s' ces.reverse s₂ ∧
      Rep base home (m' + ces.length) V A s₂ := by
  induction he generalizing s m with
  | nil => exact ⟨s', .nil, h'⟩
  | @cons ce ces V A V₁ A₁ V₂ A₂ hce hleaf _ ih =>
    rw [List.length_cons] at hm hm'
    obtain ⟨s₁, -, h₁⟩ := hce.apply h (by omega : m < fuel)
    obtain ⟨s₂, hrun, h₂⟩ := ih h₁ h' (by omega) (by omega)
    obtain ⟨s₃, hlast, h₃⟩ := (hce.invert h hleaf).apply h₂ (by omega : m' + ces.length < fuel)
    refine ⟨s₃, ?_, h₃⟩
    rw [List.reverse_cons]
    exact hrun.snoc hlast

/-! ### Reverting a changeset -/

/-- The entry `ce`, recorded in `s₀`, can be taken back after it is applied in
`s`: only a node without children is attached or detached, and it is not
attached twice or detached twice; a property that replaces another one is not
live itself, and the other one is still the one that was recorded. -/
def Undoable (s₀ s : DevTree) (ce : ChangesetEntry) : Prop :=
  match ce.action with
  | .attachNode => (s.node ce.np).detached = true ∧ (s.node ce.np).child = none
  | .detachNode => (s.node ce.np).detached = false ∧ (s.node ce.np).child = none ∧
      (s.node ce.np).parent ≠ none
  | .addProperty => True
  | .removeProperty => True
  | .updateProperty => ∀ p ∈ ce.prop, ¬Linked .next s.link (.properties ce.np) p ∧
      ∀ q, (s₀.prop q).name = (s₀.prop p).name →
        (Linked .next s.link (.properties ce.np) q ↔ Linked .next s₀.link (.properties ce.np) q)

/-- Each entry can be taken back at its turn. -/
def CleanRun (fuel : ℕ) (s₀ : DevTree) : DevTree → List ChangesetEntry → Prop
  | _, [] => True
  | s, ce :: ces => Undoable s₀ s ce ∧
      ∀ s', ofChangesetEntryApply fuel s ce = some (s', 0) → CleanRun fuel s₀ s' ces

section Revert

variable {V₀ A₀ : Set ℕ} {m₀ : ℕ} {s₀ : DevTree} {action : ReconfigAction}

/-- The property that `of_changeset_action` finds for an update. -/
theorem ofChangesetAction_update (h₀ : Rep base home m₀ V₀ A₀ s₀) (hfuel : m₀ < fuel)
    (hrec : ofChangesetAction fuel s₀ .updateProperty np (some p) = some ce) :
    ∃ old, ce = ⟨.updateProperty, np, some p, old⟩ ∧
      ∀ q, old = some q ↔ q ∈ V₀ ∧ home q = np ∧ (base.prop q).name = (base.prop p).name := by
  obtain ⟨props, hprops⟩ := h₀.keeps
  obtain ⟨r, hfind, hr⟩ := ofFindProperty_eq (n := np) hprops (base.prop p).name h₀.name hfuel
  rw [ofChangesetAction, h₀.name, hfind] at hrec
  exact ⟨r, (Option.some.inj hrec).symm, hr⟩

/-- The effect of an update whose recorded property is the live one. -/
theorem update_effect (hV : p ∉ V) (hp : home p = np)
    (hold : ∀ q, old = some q ↔ q ∈ V ∧ home q = np ∧ (base.prop q).name = (base.prop p).name) :
    ∃ V', Effect base home ⟨.updateProperty, np, some p, old⟩ V A V' A := by
  cases old with
  | none =>
    refine ⟨_, .supply hV hp fun q hq hqn hname => ?_⟩
    exact absurd ((hold q).mpr ⟨hq, hqn, hname⟩) (by simp)
  | some q =>
    obtain ⟨hq, hqn, hname⟩ := (hold q).mp rfl
    exact ⟨_, .replace hV hp hq hqn hname⟩

theorem ofChangesetAction_eq (hrec : ofChangesetAction fuel s₀ action np prop = some ce)
    (haction : action ≠ .updateProperty) : ce = ⟨action, np, prop, none⟩ := by
  unfold ofChangesetAction at hrec
  split at hrec
  · exact absurd rfl haction
  · exact (Option.some.inj hrec).symm

theorem undoable_effect (h₀ : Rep base home m₀ V₀ A₀ s₀) (h : Rep base home m V A s)
    (hfuel₀ : m₀ < fuel) (hfuel : m < fuel)
    (hrec : ofChangesetAction fuel s₀ action np prop = some ce)
    (hhome : ∀ p ∈ prop, home p = np) (hundo : Undoable s₀ s ce)
    (hrun : ofChangesetEntryApply fuel s ce = some (s', 0)) :
    ∃ V' A', Effect base home ce V A V' A' ∧
      (ce.action = .detachNode → ∀ c ∈ A, (base.node c).parent ≠ some ce.np) := by
  cases action with
  | attachNode =>
    obtain rfl := ofChangesetAction_eq hrec (by simp)
    obtain ⟨hdet, hchild⟩ := hundo
    have hA : np ∉ A := by simp [h.attached, hdet]
    cases hpar : (base.node np).parent with
    | none =>
      obtain ⟨nm, ph, hid⟩ := ofNodeIdentity_eq np h.keeps h.name hfuel
      rw [← h.parent] at hpar
      simp [ofChangesetEntryApply, ofAttachNode_orphan hid hpar] at hrun
    | some par => exact ⟨_, _, .attach hA hpar (h.no_children hchild), by simp⟩
  | detachNode =>
    obtain rfl := ofChangesetAction_eq hrec (by simp)
    obtain ⟨hdet, hchild, hpar⟩ := hundo
    rw [h.parent] at hpar
    obtain ⟨par, hpar⟩ := Option.ne_none_iff_exists'.mp hpar
    exact ⟨_, _, .detach ((h.attached np).mpr hdet) hpar, fun _ => h.no_children hchild⟩
  | addProperty =>
    obtain rfl := ofChangesetAction_eq hrec (by simp)
    cases prop with
    | none => simp [ofChangesetEntryApply] at hrun
    | some p =>
      have hp := hhome p rfl
      by_cases hV : p ∈ V
      · obtain ⟨s₁, hlive⟩ := h.addProperty_live hfuel hV hp none
        rw [hlive] at hrun
        simp [EEXIST] at hrun
      · by_cases hfresh : ∀ q ∈ V, home q = np → (base.prop q).name ≠ (base.prop p).name
        · exact ⟨_, _, .add hV hp hfresh, by simp⟩
        · push Not at hfresh
          obtain ⟨s₁, hclash, -⟩ := (h.addProperty hfuel hV hp none).2 hfresh
          rw [hclash] at hrun
          simp [EEXIST] at hrun
  | removeProperty =>
    obtain rfl := ofChangesetAction_eq hrec (by simp)
    cases prop with
    | none => simp [ofChangesetEntryApply] at hrun
    | some p =>
      have hp := hhome p rfl
      by_cases hV : p ∈ V
      · exact ⟨_, _, .remove hV hp, by simp⟩
      · rw [(h.removeProperty hfuel hp none).2 hV] at hrun
        simp [ENODEV] at hrun
  | updateProperty =>
    cases prop with
    | none =>
      obtain rfl := Option.some.inj hrec
      simp [ofChangesetEntryApply] at hrun
    | some p =>
      have hp := hhome p rfl
      obtain ⟨old, rfl, hold⟩ := ofChangesetAction_update h₀ hfuel₀ hrec
      obtain ⟨hlive, hsame⟩ := hundo p rfl
      have hV : p ∉ V := fun hV => hlive (h.linked_prop.mpr ⟨hV, hp⟩)
      have hcur : ∀ q, old = some q ↔
          q ∈ V ∧ home q = np ∧ (base.prop q).name = (base.prop p).name := by
        intro q
        rw [hold]
        refine ⟨fun ⟨hq, hqn, hname⟩ => ?_, fun ⟨hq, hqn, hname⟩ => ?_⟩
        · have hlink := (hsame q (by rw [h₀.name, h₀.name, hname])).mpr
            (h₀.linked_prop.mpr ⟨hq, hqn⟩)
          exact ⟨(h.linked_prop.mp hlink).1, hqn, hname⟩
        · have hlink := (hsame q (by rw [h₀.name, h₀.name, hname])).mp
            (h.linked_prop.mpr ⟨hq, hqn⟩)
          exact ⟨(h₀.linked_prop.mp hlink).1, hqn, hname⟩
      obtain ⟨V', heff⟩ := update_effect (A := A) hV hp hcur
      exact ⟨V', A, heff, by simp⟩

theorem cleanRun_effects {calls : List (ReconfigAction × ℕ × Option ℕ)}
    (h₀ : Rep base home m₀ V₀ A₀ s₀) (h : Rep base home m V A s) (hfuel₀ : m₀ < fuel)
    (hrec : ofChangesetActions fuel s₀ calls = some ces)
    (hhome : ∀ call ∈ calls, ∀ p ∈ call.2.2, home p = call.2.1) (hclean : CleanRun fuel s₀ s ces)
    (hrun : RunOk (ofChangesetEntryApply fuel) s ces s') (hfuel : m + ces.length < fuel) :
    ∃ V' A', Effects base home ces V A V' A' ∧ Rep base home (m + ces.length) V' A' s' := by
  induction calls generalizing s ces m V A with
  | nil =>
    obtain rfl := Option.some.inj hrec
    cases hrun
    exact ⟨V, A, .nil, h⟩
  | cons call calls ih =>
    obtain ⟨action, np, prop⟩ := call
    simp only [ofChangesetActions, Option.bind_eq_some_iff, Option.map_eq_some_iff] at hrec
    obtain ⟨ce, hce, ces, hrest, rfl⟩ := hrec
    obtain ⟨hundo, hlater⟩ := hclean
    rw [List.length_cons] at hfuel ⊢
    cases hrun with
    | @cons _ s₁ _ _ _ hfirst hrun =>
      have hfirstHome : ∀ p ∈ prop, home p = np := hhome (action, np, prop) (by simp)
      obtain ⟨V₁, A₁, heff, hleaf⟩ :=
        undoable_effect h₀ h hfuel₀ (by omega : m < fuel) hce hfirstHome hundo hfirst
      obtain ⟨s₂, hs₂, h₁⟩ := heff.apply h (by omega : m < fuel)
      obtain rfl : s₂ = s₁ := by simpa [hfirst] using hs₂.symm
      obtain ⟨V', A', heffs, h'⟩ := ih h₁ hrest (fun call hcall => hhome call (by simp [hcall]))
        (hlater _ hfirst) hrun (by omega)
      exact ⟨V', A', .cons heff hleaf heffs, by rwa [Nat.add_right_comm] at h'⟩

/-- A changeset whose entries can all be taken back is undone by reverting it. -/
theorem revert_undoes_apply {calls : List (ReconfigAction × ℕ × Option ℕ)} {err err₁ err₂ : ℤ}
    (htree : LiveTree s home m) (hrec : ofChangesetActions fuel s calls = some ces)
    (hhome : ∀ call ∈ calls, ∀ p ∈ call.2.2, home p = call.2.1) (hclean : CleanRun fuel s s ces)
    (hfuel : m + 2 * ces.length < fuel)
    (happly : ofChangesetApplyEntries fuel s ces err = some (s', 0, err₁)) :
    ∃ s₂, ofChangesetRevertEntries fuel s' ces err₂ = some (s₂, 0, err₂) ∧ SameTree s s₂ := by
  obtain ⟨V, A, h⟩ := htree
  obtain ⟨V', A', heffs, h'⟩ := cleanRun_effects h h (by omega : m < fuel) hrec hhome hclean
    (runOk_of_runEntries happly) (by omega)
  obtain ⟨s₂, hrun, h₂⟩ := heffs.revert h h' (by omega : _ < fuel) (by omega)
  exact ⟨s₂, hrun.run, h.sameTree h₂⟩

/-- A root with one child, which has a child of its own. -/
def nestedTree : DevTree where
  node n :=
    if n = 0 then { bareNode with child := some 1, detached := false }
    else if n = 1 then { bareNode with parent := some 0, child := some 2, detached := false }
    else if n = 2 then { bareNode with parent := some 1, detached := false }
    else bareNode
  prop _ := ⟨"", 0, cstring "", none⟩
  root := some 0
  phandleCache _ := none

theorem nestedTree_live : LiveTree nestedTree (fun _ => 0) 1 := by
  have hlink : ∀ slot, nestedTree.link slot = none := by
    intro slot
    cases slot with
    | next p => rfl
    | properties n =>
      simp only [DevTree.link, PropSlot.read, nestedTree]
      split_ifs <;> rfl
    | deadprops n =>
      simp only [DevTree.link, PropSlot.read, nestedTree]
      split_ifs <;> rfl
  refine ⟨∅, {0, 1, 2}, ⟨fun _ => [], ?_⟩,
    ⟨fun n => if n = 0 then [1] else if n = 1 then [2] else [], ?_⟩, ?_, fun n => rfl, rfl,
    fun p => ⟨rfl, rfl, rfl⟩⟩
  · exact ⟨⟨fun k => hlink _, by simp, by simp⟩, by simp, by simp, by simp, by simp⟩
  · have hmem : ∀ n c, c ∈ (if n = 0 then [1] else if n = 1 then [2] else []) ↔
        c ∈ ({0, 1, 2} : Set ℕ) ∧ (nestedTree.node c).parent = some n := by
      intro n c
      rcases c with _ | _ | _ | c <;> simp [nestedTree, bareNode] <;> split_ifs <;>
        simp_all [eq_comm]
    refine ⟨⟨fun n => ?_, fun n => ?_, fun n n' c hc hc' => ?_⟩, hmem, fun n => ?_⟩
    · by_cases h0 : n = 0
      · subst h0
        exact ⟨rfl, rfl⟩
      · by_cases h1 : n = 1
        · subst h1
          exact ⟨rfl, rfl⟩
        · simp only [h0, h1, if_false, Chain]
          simp only [DevTree.nodeLink, nestedTree, h0, h1, if_false]
          split_ifs <;> rfl
    · split_ifs <;> simp
    · exact Option.some.inj (((hmem n c).mp hc).2.symm.trans ((hmem n' c).mp hc').2)
    · split_ifs <;> simp
  · intro n
    rcases n with _ | _ | _ | n <;> simp [nestedTree, bareNode]

/-- A node with a child is detached, and reverting this loses the child. -/
theorem revert_loses_children :
    LiveTree nestedTree (fun _ => 0) 1 ∧
    ofChangesetActions 4 nestedTree [(.detachNode, 1, none)] = some [⟨.detachNode, 1, none, none⟩] ∧
    ∃ s', ofChangesetApplyEntries 4 nestedTree [⟨.detachNode, 1, none, none⟩] 0 = some (s', 0, 0) ∧
      ∃ s₂, ofChangesetRevertEntries 4 s' [⟨.detachNode, 1, none, none⟩] 0 = some (s₂, 0, 0) ∧
        ¬SameTree nestedTree s₂ := by
  refine ⟨nestedTree_live, rfl, _, rfl, _, rfl, fun hsame => ?_⟩
  have hchild := (hsame.children 1 2).mpr (.first rfl)
  exact not_linked rfl hchild

/-- A root with two properties, `10` and `11`, and one child. -/
def smallTree : DevTree where
  node n :=
    if n = 0 then { bareNode with child := some 1, properties := some 10, detached := false }
    else if n = 1 then { bareNode with parent := some 0, detached := false }
    else bareNode
  prop p := ⟨if p = 10 then "compatible" else "status", 0, cstring "", if p = 10 then some 11 else none⟩
  root := some 0
  phandleCache _ := none

theorem smallTree_live : LiveTree smallTree (fun _ => 0) 2 := by
  refine ⟨{10, 11}, {0, 1}, ⟨fun k => if k = .live 0 then [10, 11] else [], ?_⟩,
    ⟨fun n => if n = 0 then [1] else [], ?_⟩, ?_, fun n => rfl, rfl, fun p => ⟨rfl, rfl, rfl⟩⟩
  · refine ⟨⟨fun k => ?_, fun k => ?_, fun k k' p => ?_⟩, fun k p => ?_, by simp, fun k => ?_, ?_⟩
    · by_cases hk : k = .live 0
      · subst hk
        exact ⟨rfl, rfl, rfl⟩
      · rw [if_neg hk]
        cases k with
        | live n =>
          have hn : n ≠ 0 := fun h => hk (by rw [h])
          simp only [Chain, PropList.head, DevTree.link, PropSlot.read, smallTree, hn, if_false]
          split_ifs <;> rfl
        | dead n =>
          simp only [Chain, PropList.head, DevTree.link, PropSlot.read, smallTree]
          split_ifs <;> rfl
    · split_ifs <;> simp
    · by_cases hk : k = .live 0 <;> by_cases hk' : k' = .live 0 <;> simp [hk, hk']
    · split_ifs with h <;> simp [h, PropList.node]
    · split_ifs <;> simp
    · simp [smallTree]
  · have hmem : ∀ n c, c ∈ (if n = 0 then [1] else []) ↔
        c ∈ ({0, 1} : Set ℕ) ∧ (smallTree.node c).parent = some n := by
      intro n c
      rcases c with _ | _ | c <;> simp [smallTree, bareNode, eq_comm]
    refine ⟨⟨fun n => ?_, fun n => ?_, fun n n' c hc hc' => ?_⟩, hmem, fun n => ?_⟩
    · by_cases h0 : n = 0
      · subst h0
        exact ⟨rfl, rfl⟩
      · simp only [h0, if_false, Chain, DevTree.nodeLink, smallTree]
        split_ifs <;> rfl
    · split_ifs <;> simp
    · exact Option.some.inj (((hmem n c).mp hc).2.symm.trans ((hmem n' c).mp hc').2)
    · split_ifs <;> simp
  · intro n
    rcases n with _ | _ | n <;> simp [smallTree, bareNode]

/-- The changeset replaces `11` by `12`, which is not live, and detaches the child. -/
theorem smallTree_clean :
    CleanRun 9 smallTree smallTree
      [⟨.updateProperty, 0, some 12, some 11⟩, ⟨.detachNode, 1, none, none⟩] := by
  refine ⟨?_, fun s' hs' => ⟨?_, fun _ _ => trivial⟩⟩
  · intro p hp
    obtain rfl : 12 = p := by simpa using hp
    refine ⟨fun hlink => ?_, fun q _ => Iff.rfl⟩
    have hchain : Chain .next smallTree.link (.properties 0) [10, 11] := ⟨rfl, rfl, rfl⟩
    simpa using hchain.linked_iff.mp hlink
  · have hnode : (ofChangesetEntryApply 9 smallTree ⟨.updateProperty, 0, some 12, some 11⟩).map
        (fun r => ((r.1.node 1).detached, (r.1.node 1).child, (r.1.node 1).parent)) =
        some (false, none, some 0) := rfl
    simp only [hs', Option.map_some, Option.some.injEq, Prod.mk.injEq] at hnode
    exact ⟨hnode.1, hnode.2.1, by simp [hnode.2.2]⟩

/-- Replacing the property and detaching the child is undone. -/
theorem revert_undoes_apply_smallTree :
    ∃ s' s₂ : DevTree,
      ofChangesetApplyEntries 9 smallTree
        [⟨.updateProperty, 0, some 12, some 11⟩, ⟨.detachNode, 1, none, none⟩] 0 = some (s', 0, 0) ∧
      ofChangesetRevertEntries 9 s'
        [⟨.updateProperty, 0, some 12, some 11⟩, ⟨.detachNode, 1, none, none⟩] 0 = some (s₂, 0, 0) ∧
      SameTree smallTree s₂ := by
  have hrec : ofChangesetActions 9 smallTree
      [(.updateProperty, 0, some 12), (.detachNode, 1, none)] =
      some [⟨.updateProperty, 0, some 12, some 11⟩, ⟨.detachNode, 1, none, none⟩] := rfl
  obtain ⟨s', happly⟩ : ∃ s', ofChangesetApplyEntries 9 smallTree
      [⟨.updateProperty, 0, some 12, some 11⟩, ⟨.detachNode, 1, none, none⟩] 0 = some (s', 0, 0) :=
    ⟨_, rfl⟩
  obtain ⟨s₂, hrevert, hsame⟩ := revert_undoes_apply smallTree_live hrec (by simp) smallTree_clean
    (by decide) happly
  exact ⟨s', s₂, happly, hrevert, hsame⟩

end Revert

/-! ### A changeset that fails -/

/-- A property entry that is recorded for the live properties `V`: what it adds
is not live, and what it replaces is. -/
def Ready (base : DevTree) (home : ℕ → ℕ) (V : Set ℕ) (ce : ChangesetEntry) : Prop :=
  ∃ p, ce.prop = some p ∧ home p = ce.np ∧
    match ce.action with
    | .addProperty => p ∉ V
    | .removeProperty => True
    | .updateProperty => p ∉ V ∧
        ∀ q, ce.oldProp = some q ↔ q ∈ V ∧ home q = ce.np ∧ (base.prop q).name = (base.prop p).name
    | _ => False

/-- The node and the name that an entry is about. -/
def ChangesetEntry.key (base : DevTree) (ce : ChangesetEntry) : ℕ × Option String :=
  (ce.np, ce.prop.map fun p => (base.prop p).name)

theorem Effect.frame (he : Effect base home ce V A V' A')
    (hq : (home q, some (base.prop q).name) ≠ ce.key base) : q ∈ V' ↔ q ∈ V := by
  cases he with
  | attach => rfl
  | detach => rfl
  | @add np p old _ _ hV hp hfresh =>
    have hqp : q ≠ p := by
      rintro rfl
      simp [ChangesetEntry.key, hp] at hq
    simp [hqp]
  | @remove np p old _ _ hV hp =>
    have hqp : q ≠ p := by
      rintro rfl
      simp [ChangesetEntry.key, hp] at hq
    simp [hqp]
  | @replace np p r _ _ hV hp hr hrn hname =>
    have hqp : q ≠ p := by
      rintro rfl
      simp [ChangesetEntry.key, hp] at hq
    have hqr : q ≠ r := by
      rintro rfl
      simp [ChangesetEntry.key, hrn, hname] at hq
    simp [hqp, hqr]
  | @supply np p _ _ hV hp hfresh =>
    have hqp : q ≠ p := by
      rintro rfl
      simp [ChangesetEntry.key, hp] at hq
    simp [hqp]

theorem Ready.frame {ce' : ChangesetEntry} (h : Ready base home V ce')
    (he : Effect base home ce V A V' A') (hkey : ce'.key base ≠ ce.key base) :
    Ready base home V' ce' := by
  obtain ⟨p, hprop, hp, hready⟩ := h
  have hframe : ∀ q, home q = ce'.np → (base.prop q).name = (base.prop p).name →
      (q ∈ V' ↔ q ∈ V) := by
    intro q hq hname
    refine he.frame ?_
    rw [hq, hname]
    simpa [ChangesetEntry.key, hprop] using hkey
  refine ⟨p, hprop, hp, ?_⟩
  split at hready
  · rwa [hframe p hp rfl]
  · trivial
  · refine ⟨by rw [hframe p hp rfl]; exact hready.1, fun q => (hready.2 q).trans ?_⟩
    refine ⟨fun ⟨hq, hqn, hname⟩ => ⟨(hframe q hqn hname).mpr hq, hqn, hname⟩, ?_⟩
    exact fun ⟨hq, hqn, hname⟩ => ⟨(hframe q hqn hname).mp hq, hqn, hname⟩
  · exact hready.elim

/-- An entry that is ready has its effect, or fails and changes nothing. -/
theorem Ready.apply (hready : Ready base home V ce) (h : Rep base home m V A s) (hfuel : m < fuel) :
    (∃ s' V', ofChangesetEntryApply fuel s ce = some (s', 0) ∧ Effect base home ce V A V' A ∧
      Rep base home (m + 1) V' A s') ∨
    ∃ s' ret, ofChangesetEntryApply fuel s ce = some (s', ret) ∧ ret ≠ 0 ∧
      Rep base home (m + 1) V A s' := by
  obtain ⟨p, hprop, hp, hready⟩ := hready
  obtain ⟨action, np, prop, old⟩ := ce
  obtain rfl : prop = some p := hprop
  cases action with
  | attachNode => exact hready.elim
  | detachNode => exact hready.elim
  | addProperty =>
    have hV : p ∉ V := hready
    by_cases hfresh : ∀ q ∈ V, home q = np → (base.prop q).name ≠ (base.prop p).name
    · obtain ⟨s', hrun, h'⟩ := (h.addProperty hfuel hV hp old).1 hfresh
      exact .inl ⟨s', _, hrun, .add hV hp hfresh, h'⟩
    · push Not at hfresh
      obtain ⟨s', hrun, h'⟩ := (h.addProperty hfuel hV hp old).2 hfresh
      exact .inr ⟨s', _, hrun, by decide, h'.mono (Nat.le_succ m)⟩
  | removeProperty =>
    by_cases hV : p ∈ V
    · obtain ⟨s', hrun, h'⟩ := (h.removeProperty hfuel hp old).1 hV
      exact .inl ⟨s', _, hrun, .remove hV hp, h'⟩
    · have hrun := (h.removeProperty hfuel hp old).2 hV
      exact .inr ⟨s, _, hrun, by decide, h.mono (Nat.le_succ m)⟩
  | updateProperty =>
    obtain ⟨hV, hold⟩ := hready
    obtain ⟨V', heff⟩ := update_effect (A := A) hV hp hold
    obtain ⟨s', hrun, h'⟩ := heff.apply h hfuel
    exact .inl ⟨s', V', hrun, heff, h'⟩

/-- The entries before the one that fails have their effects. -/
theorem ready_effects {rest : List ChangesetEntry} (h : Rep base home m V A s)
    (hready : ∀ ce ∈ ces ++ rest, Ready base home V ce)
    (hkeys : ((ces ++ rest).map (·.key base)).Nodup)
    (hrun : RunOk (ofChangesetEntryApply fuel) s ces s') (hfuel : m + ces.length < fuel) :
    ∃ V', Effects base home ces V A V' A ∧ Rep base home (m + ces.length) V' A s' ∧
      ∀ ce ∈ rest, Ready base home V' ce := by
  induction hrun generalizing m V with
  | nil => exact ⟨V, .nil, h, hready⟩
  | @cons s s₁ s₂ ce ces hfirst _ ih =>
    rw [List.length_cons] at hfuel ⊢
    rw [List.cons_append, List.map_cons, List.nodup_cons] at hkeys
    obtain hok | ⟨s', ret, hfail, hret, -⟩ :=
      (hready ce (by simp)).apply h (by omega : m < fuel)
    · obtain ⟨s', V₁, hs', heff, h₁⟩ := hok
      obtain rfl : s' = s₁ := by simpa [hfirst] using hs'.symm
      have hlater : ∀ ce' ∈ ces ++ rest, Ready base home V₁ ce' := by
        intro ce' hce'
        refine (hready ce' (List.mem_cons_of_mem ce hce')).frame heff fun heq => hkeys.1 ?_
        rw [← heq]
        exact List.mem_map_of_mem hce'
      obtain ⟨V', heffs, h', hrest⟩ := ih h₁ hlater hkeys.2 (by omega)
      refine ⟨V', .cons heff (fun hdet => ?_) heffs, by rwa [Nat.add_right_comm] at h', hrest⟩
      obtain ⟨p, -, -, hkind⟩ := hready ce (by simp)
      rw [hdet] at hkind
      exact hkind.elim
    · rw [hfirst] at hfail
      simp only [Option.some.injEq, Prod.mk.injEq] at hfail
      exact absurd hfail.2.symm hret

/-- Recorded property entries are ready, unless they add or replace with a
property that is live already. -/
theorem ready_of_recorded {calls : List (ReconfigAction × ℕ × Option ℕ)}
    (h : Rep base home m V A s) (hfuel : m < fuel)
    (hrec : ofChangesetActions fuel s calls = some ces)
    (hkind : ∀ call ∈ calls, call.1 ≠ .attachNode ∧ call.1 ≠ .detachNode ∧ call.2.2 ≠ none)
    (hhome : ∀ call ∈ calls, ∀ p ∈ call.2.2, home p = call.2.1)
    (hnew : ∀ call ∈ calls, call.1 ≠ .removeProperty → ∀ p ∈ call.2.2,
      ¬Linked .next s.link (.properties call.2.1) p) :
    ∀ ce ∈ ces, Ready base home V ce := by
  induction calls generalizing ces with
  | nil =>
    obtain rfl := Option.some.inj hrec
    simp
  | cons call calls ih =>
    obtain ⟨action, np, prop⟩ := call
    simp only [ofChangesetActions, Option.bind_eq_some_iff, Option.map_eq_some_iff] at hrec
    obtain ⟨ce, hce, ces, hrest, rfl⟩ := hrec
    have hlater := ih hrest (fun call hc => hkind call (by simp [hc]))
      (fun call hc => hhome call (by simp [hc])) fun call hc => hnew call (by simp [hc])
    obtain ⟨hatt, hdet, hsome⟩ := hkind (action, np, prop) (by simp)
    obtain ⟨p, rfl⟩ := Option.ne_none_iff_exists'.mp hsome
    have hp := hhome (action, np, some p) (by simp) p rfl
    have hV : action ≠ .removeProperty → p ∉ V := fun haction hV =>
      hnew (action, np, some p) (by simp) haction p rfl (h.linked_prop.mpr ⟨hV, hp⟩)
    refine List.forall_mem_cons.mpr ⟨?_, hlater⟩
    cases action with
    | attachNode => exact absurd rfl hatt
    | detachNode => exact absurd rfl hdet
    | addProperty =>
      obtain rfl := ofChangesetAction_eq hce (by simp)
      exact ⟨p, rfl, hp, hV (by simp)⟩
    | removeProperty =>
      obtain rfl := ofChangesetAction_eq hce (by simp)
      exact ⟨p, rfl, hp, trivial⟩
    | updateProperty =>
      obtain ⟨old, rfl, hold⟩ := ofChangesetAction_update h hfuel hce
      exact ⟨p, rfl, hp, hV (by simp), hold⟩

end GfpDrivers.Of
