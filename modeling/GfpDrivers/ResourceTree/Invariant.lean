import GfpDrivers.Lib.Runs
import GfpDrivers.ResourceTree.Operations

/-!
Runs of the operations on one resource tree. A caller brings its own
descriptor, with whatever it has written in it, or `__request_region`
allocates one; the tree is what the links lead to from the root.
-/

namespace GfpDrivers.ResourceTree

open Lib

inductive TreeAct where
  | request (parent new : ℕ) (r : Resource)
  | insert (parent new : ℕ) (r : Resource)
  | remove (old : ℕ)
  | release (old : ℕ)
  | requestRegion (parent start n flags : ℕ) (res : Option ℕ)
  | releaseRegion (parent start n : ℕ)

/-- A call, and whether it returns an error. -/
def call (fuel : ℕ) (h : Heap) : TreeAct → Option (Heap × Bool)
  | .request parent new r =>
      (requestResource fuel (Function.update h new r) parent new).map fun (h, ret) =>
        (h, ret ≠ 0)
  | .insert parent new r =>
      (insertResource fuel (Function.update h new r) parent new).map fun (h, ret) => (h, ret ≠ 0)
  | .remove old => (removeResource fuel h old).map fun (h, ret) => (h, ret ≠ 0)
  | .release old => (releaseResource fuel h old).map fun (h, ret) => (h, ret ≠ 0)
  | .requestRegion parent start n flags res =>
      (requestRegion fuel h parent start n flags res).map fun (h, res) => (h, res.isNone)
  | .releaseRegion parent start n => (releaseRegion fuel h parent start n).map (·, false)

def step (fuel : ℕ) (h : Heap) (a : TreeAct) : Option Heap := (call fuel h a).map Prod.fst

/-- What the callers promise. A descriptor that is passed in, or that the
allocator returns, is not in the tree and has no children; what is removed
or released is in the tree, below the root. The root itself has no parent
whose children it could be taken from. -/
def Allows (root : ℕ) (h : Heap) : TreeAct → Prop
  | .request parent new r => InTree h root parent ∧ ¬InTree h root new ∧ r.child = none
  | .insert parent new r => InTree h root parent ∧ ¬InTree h root new ∧ r.child = none
  | .remove old => InTree h root old ∧ old ≠ root
  | .release old => InTree h root old ∧ old ≠ root
  | .requestRegion parent _ _ flags res =>
      InTree h root parent ∧ (∀ a ∈ res, ¬InTree h root a) ∧ flags &&& IORESOURCE_MUXED = 0
  | .releaseRegion parent _ _ => InTree h root parent

variable {h : Heap} {root fuel : ℕ} {T : Forest ℕ}

/-- The heap `h'` after a call: the tree is well formed, with at most one resource
more, and if the call returned an error, the tree is the old one. -/
def KeptTree (h : Heap) (root : ℕ) (T : Forest ℕ) (h' : Heap) (err : Bool) : Prop :=
  ∃ T', WellFormed h' root T' ∧ T'.nodes.length ≤ T.nodes.length + 1 ∧
    (err = true → ∀ a, InTree h root a → h' a = h a)

theorem WellFormed.kept_of_same {h' : Heap} {err : Bool} (hwf : WellFormed h root T)
    (hsame : ∀ a ∈ (tree root T).nodes, h' a = h a) : KeptTree h root T h' err :=
  ⟨T, hwf.congr hsame, Nat.le_succ _, fun _ a ha => hsame a (hwf.inTree_iff.mp ha)⟩

/-- A descriptor that is not in the tree may be written. -/
theorem WellFormed.update {new : ℕ} (hwf : WellFormed h root T) (hnew : ¬InTree h root new)
    (r : Resource) :
    new ∉ (tree root T).nodes ∧ WellFormed (Function.update h new r) root T ∧
      ∀ a ∈ (tree root T).nodes, Function.update h new r a = h a := by
  rw [hwf.inTree_iff] at hnew
  have hsame : ∀ a ∈ (tree root T).nodes, Function.update h new r a = h a := by
    intro a ha
    refine Function.update_of_ne ?_ _ _
    rintro rfl
    exact hnew ha
  exact ⟨hnew, hwf.congr hsame, hsame⟩

/-- **One call.** Every allowed call returns, and keeps the tree well formed. -/
theorem WellFormed.call {a : TreeAct} (fuel : ℕ) (hwf : WellFormed h root T)
    (hfuel : T.nodes.length + 1 < fuel) (ha : Allows root h a) :
    ∃ h' err, call fuel h a = some (h', err) ∧ KeptTree h root T h' err := by
  cases a with
  | request parent new r =>
    obtain ⟨hparent, hnew, hchild⟩ := ha
    obtain ⟨hnew, hwf₁, hsame⟩ := hwf.update hnew r
    obtain ⟨K, hq⟩ := Forest.exists_at (hwf.inTree_iff.mp hparent)
    have hlenK := length_below_le hq
    have hroots := Forest.length_roots_le (F := K)
    rcases hwf₁.requestResourceConflict hq hnew (by simpa using hchild)
      (by omega : K.roots.length < fuel) with
      ⟨F, G, T', rfl, -, hrun, hT', hwf'⟩ | ⟨-, hrun⟩ | ⟨_, c, _, _, -, -, -, -, -, hrun⟩
    · refine ⟨_, false, ?_, T', hwf', Nat.le_of_eq (Replaced.length_insert (M := .nil) hT'), by simp⟩
      simp [ResourceTree.call, requestResource, hrun]
    · refine ⟨_, true, ?_, hwf.kept_of_same hsame⟩
      simp [ResourceTree.call, requestResource, hrun, EBUSY]
    · refine ⟨_, true, ?_, hwf.kept_of_same hsame⟩
      simp [ResourceTree.call, requestResource, hrun, EBUSY]
  | insert parent new r =>
    obtain ⟨hparent, hnew, hchild⟩ := ha
    obtain ⟨hnew, hwf₁, hsame⟩ := hwf.update hnew r
    obtain ⟨K, hq⟩ := Forest.exists_at (hwf.inTree_iff.mp hparent)
    rcases hwf₁.insertResourceConflict hq hnew (by simpa using hchild) hfuel with
      ⟨q', F, M, G, h', T', -, -, -, -, hrun, hT', hwf'⟩ | ⟨c, -, hrun⟩
    · refine ⟨h', false, ?_, T', hwf', Nat.le_of_eq hT'.length_insert, by simp⟩
      simp [ResourceTree.call, insertResource, hrun]
    · refine ⟨_, true, ?_, hwf.kept_of_same hsame⟩
      simp [ResourceTree.call, insertResource, hrun, EBUSY]
  | remove old =>
    obtain ⟨hold, hne⟩ := ha
    obtain ⟨h', T', hrun, hT', hlen⟩ :=
      hwf.doReleaseResource (hwf.inTree_iff.mp hold) hne false (by omega : _ < fuel)
    refine ⟨h', false, ?_, T', hT', by omega, by simp⟩
    simp [ResourceTree.call, removeResource, hrun]
  | release old =>
    obtain ⟨hold, hne⟩ := ha
    obtain ⟨h', T', hrun, hT', hlen⟩ :=
      hwf.doReleaseResource (hwf.inTree_iff.mp hold) hne true (by omega : _ < fuel)
    refine ⟨h', false, ?_, T', hT', by omega, by simp⟩
    simp [ResourceTree.call, releaseResource, hrun]
  | requestRegion parent start n flags res =>
    obtain ⟨hparent, hres, hflags⟩ := ha
    have hres' : ∀ a ∈ res, a ∉ (tree root T).nodes := fun a ha hmem =>
      hres a ha (hwf.inTree_iff.mpr hmem)
    rcases hwf.requestRegion (hwf.inTree_iff.mp hparent) start n flags hres' hflags hfuel with
      ⟨h', T', b, hrun, hT', hlen⟩ | ⟨h', hrun, hsame⟩
    · refine ⟨h', false, ?_, T', hT', by omega, by simp⟩
      simp [ResourceTree.call, hrun]
    · refine ⟨h', true, ?_, hwf.kept_of_same fun a ha => hsame a fun h => hres' a h.symm ha⟩
      simp [ResourceTree.call, hrun]
  | releaseRegion parent start n =>
    obtain ⟨K, hq⟩ := Forest.exists_at (hwf.inTree_iff.mp ha)
    have hlenK := length_below_le hq
    obtain ⟨h', T', hrun, hT', hlen⟩ := hwf.releaseRegionLoop (F := .nil) (G := K) hq
      (by omega : _ < fuel)
    refine ⟨h', false, ?_, T', hT', by omega, by simp⟩
    have hrun' : ResourceTree.releaseRegion fuel h parent start n = some h' := hrun
    simp [ResourceTree.call, hrun']

/-- **The resource tree stays well formed.** From a well-formed tree, after any
allowed run of the six operations the tree is well formed; every further
allowed call returns, keeps it so, and leaves all resources of the tree as
they were if it returns an error. -/
theorem resource_tree_stays_well_formed (fuel root : ℕ) (h : Heap) (T : Forest ℕ)
    (acts : List TreeAct) (hwf : WellFormed h root T)
    (hfuel : T.nodes.length + acts.length + 1 < fuel)
    (hacts : Along (step fuel) (Allows root) h acts) :
    ∃ h₁ T₁, exec (step fuel) h acts = some h₁ ∧ WellFormed h₁ root T₁ ∧
      ∀ a, Allows root h₁ a → ∃ h₂ T₂ err, call fuel h₁ a = some (h₂, err) ∧
        WellFormed h₂ root T₂ ∧ (err = true → ∀ n, InTree h₁ root n → h₂ n = h₁ n) := by
  obtain ⟨h₁, hrun, T₁, hT₁, hlen⟩ := exec_total_along (fuel - 1) (n := T.nodes.length)
    (J := fun n h => ∃ T, WellFormed h root T ∧ T.nodes.length ≤ n)
    (fun n h a hn ⟨T, hT, hlen⟩ ha => by
      obtain ⟨h', err, hcall, T', hT', hlen', -⟩ := hT.call fuel (by omega) ha
      exact ⟨h', by rw [step, hcall, Option.map_some], T', hT', by omega⟩)
    ⟨T, hwf, Nat.le_refl _⟩ (by omega) hacts
  refine ⟨h₁, T₁, hrun, hT₁, fun a ha => ?_⟩
  obtain ⟨h₂, err, hcall, T₂, hT₂, -, hsame⟩ := hT₁.call fuel (by omega) ha
  exact ⟨h₂, T₂, err, hcall, hT₂, hsame⟩

/-- A root at `0` with the single child `1`. -/
def sampleHeap : Heap := fun a =>
  if a = 0 then ⟨0, 2 ^ 64 - 1, 0x200, 0, none, none, some 1⟩
  else ⟨0x100, 0x1ff, 0x200, 0, some 0, none, none⟩

theorem sampleHeap_wellFormed : WellFormed sampleHeap 0 (.cons 1 .nil .nil) where
  nodup := by decide
  family := by
    refine ⟨⟨⟨rfl, rfl⟩, ?_, ?_, ?_, ?_, ?_⟩, ⟨⟨rfl, ?_, ?_, ?_, ?_, ?_⟩, trivial, trivial⟩, trivial⟩
    all_goals simp [sampleHeap]

/-- The same, and a descriptor `2` outside of the tree with a range that covers the child. -/
def coverHeap : Heap := Function.update sampleHeap 2 ⟨0, 0xfff, 0x200, 0, none, none, none⟩

theorem coverHeap_wellFormed : WellFormed coverHeap 0 (.cons 1 .nil .nil) := by
  refine (sampleHeap_wellFormed).congr fun a ha => Function.update_of_ne ?_ _ _
  rintro rfl
  exact absurd ha (by decide)

/-- A resource is inserted above the child and removed again. -/
def sampleRun : List TreeAct :=
  [.insert 0 2 ⟨0, 0xfff, 0x200, 0, none, none, none⟩, .remove 2]

theorem resource_tree_stays_well_formed_sample :
    ∃ h₁ T₁, exec (step 5) sampleHeap sampleRun = some h₁ ∧ WellFormed h₁ 0 T₁ := by
  have hinsert : (step 5 sampleHeap (.insert 0 2 ⟨0, 0xfff, 0x200, 0, none, none, none⟩)).map
      (fun h => (h 0).child) = some (some 2) := by
    decide
  obtain ⟨h₁, T₁, hrun, hT₁, -⟩ := resource_tree_stays_well_formed 5 0 sampleHeap
    (.cons 1 .nil .nil) sampleRun sampleHeap_wellFormed (by decide) (by
      refine ⟨⟨.root, ?_, rfl⟩, fun h ht => ⟨⟨InTree.root.child ?_, by decide⟩, fun _ _ => trivial⟩⟩
      · rw [sampleHeap_wellFormed.inTree_iff]
        decide
      · rw [ht] at hinsert
        exact Option.some.inj hinsert)
  exact ⟨h₁, T₁, hrun, hT₁⟩

end GfpDrivers.ResourceTree
