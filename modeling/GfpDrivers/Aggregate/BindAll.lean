import GfpDrivers.Aggregate.Component
import GfpDrivers.Devres.OpenGroups

/-!
Binding the components of an aggregate device (`component_bind_all`). Every component is bound in a group of its own
device and in one of the parent. When one fails, those bound before are unbound in the reverse order, and their
groups are released.

What the drivers' functions and the allocator answer is given from outside; a `bind` function adds entries to its
own device and to the parent. `none` stands for a loop of the devres functions that makes too many rounds, or for one
of their `BUG_ON`s.
-/

namespace GfpDrivers.Aggregate

open Devres Function List

inductive BindCall where
  | bind (c : ℕ)
  | unbind (c : ℕ)
  deriving DecidableEq

/-- What changes when components are bound: `bound` of each component, the resources of each device, and the calls of
the drivers' functions so far. -/
structure BindState where
  bound : ℕ → Bool
  dev : ℕ → Dev
  calls : List BindCall

/-- What is answered from outside about each component. -/
structure BindAnswers where
  /-- `component->ops->bind` -/
  ret : ℕ → ℤ
  /-- The entries that it adds, to the parent or to its own device. -/
  adds : ℕ → List (Bool × ℕ)
  /-- The release function of an entry. -/
  release : ℕ → ℕ
  /-- `component->ops->unbind` is there. -/
  hasUnbind : ℕ → Bool
  /-- What `kmalloc` gives for the group of the parent. -/
  parentGroup : ℕ → Option ℕ
  /-- What `kmalloc` gives for the group of the component's device. -/
  ownGroup : ℕ → Option ℕ

namespace BindState

def setDev (b : BindState) (v : ℕ) (d : Dev) : BindState := { b with dev := Function.update b.dev v d }

def setBound (b : BindState) (c : ℕ) (bound : Bool) : BindState := { b with bound := Function.update b.bound c bound }

def call (b : BindState) (e : BindCall) : BindState := { b with calls := b.calls ++ [e] }

/-- `devres_open_group`, and whether it succeeds. -/
def openGroup (b : BindState) (v : ℕ) (id : Option GroupId) (grp : Option ℕ) : Option (BindState × Bool) :=
  (devresOpenGroup (b.dev v) id grp).map fun p => (b.setDev v p.1, p.2.isSome)

/-- `devres_close_group` -/
def closeGroup (fuel : ℕ) (b : BindState) (v : ℕ) (id : Option GroupId) : Option BindState :=
  (devresCloseGroup fuel (b.dev v) id).map (b.setDev v)

/-- `devres_remove_group` -/
def removeGroup (fuel : ℕ) (b : BindState) (v : ℕ) (id : Option GroupId) : Option BindState :=
  (devresRemoveGroup fuel (b.dev v) id).map fun p => b.setDev v p.1

/-- `devres_release_group` -/
def releaseGroup (fuel : ℕ) (b : BindState) (v : ℕ) (id : Option GroupId) : Option BindState :=
  (devresReleaseGroup fuel (b.dev v) id).map fun p => b.setDev v p.1

/-- `devres_alloc` and `devres_add` -/
def addEntry (b : BindState) (v r release : ℕ) : Option BindState :=
  (devresAdd (allocDr (b.dev v) r release) r).map (b.setDev v)

end BindState

variable (ans : BindAnswers) (fuel parent : ℕ)

/-- The entries that a `bind` function adds. -/
def addEntries (dev : ℕ) : List (Bool × ℕ) → BindState → Option BindState
  | [], b => some b
  | e :: rest, b => (b.addEntry (if e.1 then parent else dev) e.2 (ans.release e.2)).bind (addEntries dev rest)

/-- `component_bind` -/
def componentBind (dev c : ℕ) (b : BindState) : Option (BindState × ℤ) :=
  (b.openGroup parent none (ans.parentGroup c)).bind fun p =>
    if p.2 = false then some (p.1, -ENOMEM)
    else
      (p.1.openGroup dev (some (.ptr c)) (ans.ownGroup c)).bind fun q =>
        if q.2 = false then (q.1.releaseGroup fuel parent none).map (·, -ENOMEM)
        else
          (addEntries ans parent dev (ans.adds c) (q.1.call (.bind c))).bind fun b =>
            if ans.ret c = 0 then
              ((b.setBound c true).closeGroup fuel dev none).bind fun b => (b.removeGroup fuel parent none).map (·, 0)
            else (b.releaseGroup fuel dev none).bind fun b => (b.releaseGroup fuel parent none).map (·, ans.ret c)

/-- `component_unbind` -/
def componentUnbind (dev c : ℕ) (b : BindState) : Option BindState :=
  ((if ans.hasUnbind c then b.call (.unbind c) else b).setBound c false).releaseGroup fuel dev (some (.ptr c))

/-- The loop of `component_bind_all` over the entries of the match list, and the entries before the one that failed,
the last one first. -/
def bindEntries (dev : ℕ → ℕ) :
    List ComponentMatchArray → List ComponentMatchArray → BindState → Option (BindState × ℤ × List ComponentMatchArray)
  | done, [], b => some (b, 0, done)
  | done, mc :: rest, b =>
      if mc.duplicate then bindEntries dev (mc :: done) rest b
      else
        mc.component.bind fun c =>
          (componentBind ans fuel parent (dev c) c b).bind fun p =>
            if p.2 ≠ 0 then some (p.1, p.2, done) else bindEntries dev (mc :: done) rest p.1

/-- The loop that goes back. -/
def unbindEntries (dev : ℕ → ℕ) : List ComponentMatchArray → BindState → Option BindState
  | [], b => some b
  | mc :: rest, b =>
      if mc.duplicate then unbindEntries dev rest b
      else mc.component.bind fun c => (componentUnbind ans fuel (dev c) c b).bind (unbindEntries dev rest)

/-- `__aggregate_find` without an `ops` argument. -/
def aggregateFindParent (s : State) (parent : ℕ) : Option ℕ :=
  s.aggregateDevices.find? fun m => (s.aggregate m).parent = parent

/-- The part of `component_bind_all` behind the search. -/
def bindMatch (dev : ℕ → ℕ) (compare : List ComponentMatchArray) (b : BindState) : Option (BindState × ℤ) :=
  (bindEntries ans fuel parent dev [] compare b).bind fun p =>
    if p.2.1 ≠ 0 then (unbindEntries ans fuel dev p.2.2 p.1).map (·, p.2.1) else some (p.1, p.2.1)

/-- `component_bind_all` -/
def componentBindAll (s : State) (b : BindState) : Option (BindState × ℤ) :=
  (aggregateFindParent s parent).elim (some (b, -EINVAL)) fun adev =>
    bindMatch ans fuel parent (fun c => (s.component c).dev) (s.aggregate adev).compare b

/-! ### The lists of the devices -/

/-- The lists of all devices. -/
def BindState.Lists (b : BindState) (xs : ℕ → List DevNode) : Prop := ∀ v, DevList (b.dev v) (xs v)

/-- What all operations but the opening of a group keep. -/
structure BindState.Keeps (b b' : BindState) : Prop where
  id : ∀ v, (b'.dev v).id = (b.dev v).id
  bound : b'.bound = b.bound
  calls : b'.calls = b.calls

variable {ans fuel parent} {b b' b'' : BindState} {xs ys : ℕ → List DevNode} {v w dev c g gp go r : ℕ} {d : Dev}
  {pre mid : List DevNode} {rs : List ℕ} {id : Option GroupId}

namespace BindState

theorem setDev_dev_self : (b.setDev v d).dev v = d := update_self ..

theorem setDev_dev_of_ne (h : w ≠ v) : (b.setDev v d).dev w = b.dev w := update_of_ne h ..

theorem Keeps.refl : b.Keeps b := ⟨fun _ => rfl, rfl, rfl⟩

theorem Keeps.trans (h : b.Keeps b') (h' : b'.Keeps b'') : b.Keeps b'' :=
  ⟨fun v => (h'.id v).trans (h.id v), h'.bound.trans h.bound, h'.calls.trans h.calls⟩

theorem keeps_setDev (hid : d.id = (b.dev v).id) : b.Keeps (b.setDev v d) := by
  refine ⟨fun w => ?_, rfl, rfl⟩
  by_cases hw : w = v
  · rw [hw, setDev_dev_self, hid]
  · rw [setDev_dev_of_ne hw]

theorem Lists.setDev (h : b.Lists xs) (hd : DevList d pre) : (b.setDev v d).Lists (update xs v pre) := fun w => by
  by_cases hw : w = v
  · subst hw
    rw [setDev_dev_self, update_self]
    exact hd
  · rw [setDev_dev_of_ne hw, update_of_ne hw]
    exact h w

theorem Lists.openGroup (h : b.Lists xs) (hg : .opn g ∉ xs v) (id : Option GroupId) :
    ∃ b', b.openGroup v id (some g) = some (b', true) ∧ b'.Lists (update xs v (xs v ++ [.opn g])) ∧
      (b'.dev v).id g = id.getD (.addr g) ∧ (∀ w, ∀ g' ≠ g, (b'.dev w).id g' = (b.dev w).id g') ∧
      b'.bound = b.bound ∧ b'.calls = b.calls := by
  obtain ⟨d, hrun, hd, hid⟩ := (h v).openGroup hg id
  refine ⟨b.setDev v d, ?_, h.setDev hd, ?_, fun w g' hg' => ?_, rfl, rfl⟩
  · rw [BindState.openGroup, hrun]
    rfl
  · rw [setDev_dev_self, hid, update_self]
  · by_cases hw : w = v
    · rw [hw, setDev_dev_self, hid, update_of_ne hg']
    · rw [setDev_dev_of_ne hw]

theorem Lists.closeGroup (h : b.Lists xs) (hlist : xs v = pre ++ .opn g :: mid) (hfuel : (xs v).length < fuel)
    (hcls : .cls g ∉ xs v) (hclosed : ∀ g', .opn g' ∈ mid → .cls g' ∈ mid) :
    ∃ b', b.closeGroup fuel v none = some b' ∧ b'.Lists (update xs v (xs v ++ [.cls g])) ∧ b.Keeps b' := by
  have hv := h v
  rw [hlist] at hv hfuel hcls
  obtain ⟨d, hrun, hd, hid⟩ := hv.closeGroup hfuel hcls hclosed
  rw [← hlist] at hd
  refine ⟨b.setDev v d, ?_, h.setDev hd, keeps_setDev hid⟩
  rw [BindState.closeGroup, hrun]
  rfl

theorem Lists.removeGroup (h : b.Lists xs) (hlist : xs v = pre ++ .opn g :: mid) (hfuel : (xs v).length < fuel)
    (hcls : .cls g ∉ xs v) (hclosed : ∀ g', .opn g' ∈ mid → .cls g' ∈ mid) :
    ∃ b', b.removeGroup fuel v none = some b' ∧ b'.Lists (update xs v (pre ++ mid)) ∧ b.Keeps b' := by
  have hv := h v
  rw [hlist] at hv hfuel hcls
  obtain ⟨d, hrun, hd, hid⟩ := hv.removeGroup hfuel hcls hclosed
  refine ⟨b.setDev v d, ?_, h.setDev hd, keeps_setDev hid⟩
  rw [BindState.removeGroup, hrun]
  rfl

theorem Lists.releaseOpen (h : b.Lists xs) (hlist : xs v = pre ++ .opn g :: regs rs) (hfuel : (xs v).length < fuel)
    (hcls : .cls g ∉ xs v) :
    ∃ b', b.releaseGroup fuel v none = some b' ∧ b'.Lists (update xs v pre) ∧ b.Keeps b' := by
  have hv := h v
  rw [hlist] at hv hfuel hcls
  obtain ⟨d, cnt, hrun, hd, hid⟩ := hv.releaseOpen hfuel hcls
  refine ⟨b.setDev v d, ?_, h.setDev hd, keeps_setDev hid⟩
  rw [BindState.releaseGroup, hrun]
  rfl

theorem Lists.releaseClosed {rs' : List ℕ} {gid : GroupId} (h : b.Lists xs)
    (hlist : xs v = pre ++ .opn g :: (regs rs ++ [.cls g] ++ regs rs')) (hfuel : (xs v).length < fuel)
    (hid : (b.dev v).id g = gid) :
    ∃ b', b.releaseGroup fuel v (some gid) = some b' ∧ b'.Lists (update xs v (pre ++ regs rs')) ∧
      b.Keeps b' := by
  have hv := h v
  rw [hlist] at hv hfuel
  obtain ⟨d, cnt, hrun, hd, hsame⟩ := hv.releaseClosed hfuel hid
  refine ⟨b.setDev v d, ?_, h.setDev hd, keeps_setDev hsame⟩
  rw [BindState.releaseGroup, hrun]
  rfl

theorem Lists.addEntry (h : b.Lists xs) (hr : .reg r ∉ xs v) (release : ℕ) :
    ∃ b', b.addEntry v r release = some b' ∧ b'.Lists (update xs v (xs v ++ [.reg r])) ∧ b.Keeps b' := by
  obtain ⟨d, hrun, hd, hid⟩ := (h v).add hr release
  refine ⟨b.setDev v d, ?_, h.setDev hd, keeps_setDev hid⟩
  rw [BindState.addEntry, hrun]
  rfl

end BindState

open BindState

/-- The entries of some that go to a device. -/
def entriesOn (parent dev : ℕ) (l : List (Bool × ℕ)) (v : ℕ) : List ℕ :=
  l.filterMap fun e => if (if e.1 then parent else dev) = v then some e.2 else none

theorem entriesOn_cons (e : Bool × ℕ) (l : List (Bool × ℕ)) (v : ℕ) :
    entriesOn parent dev (e :: l) v =
      if (if e.1 then parent else dev) = v then e.2 :: entriesOn parent dev l v else entriesOn parent dev l v := by
  rw [entriesOn, filterMap_cons]
  split <;> simp_all [entriesOn]

theorem length_entriesOn_le (parent dev : ℕ) (l : List (Bool × ℕ)) (v : ℕ) : (entriesOn parent dev l v).length ≤ l.length :=
  length_filterMap_le _ l

theorem addEntries_spec (ans : BindAnswers) {l : List (Bool × ℕ)} (h : b.Lists xs) (hnodup : (l.map Prod.snd).Nodup)
    (hnew : ∀ e ∈ l, ∀ v, .reg e.2 ∉ xs v) :
    ∃ b', addEntries ans parent dev l b = some b' ∧ b'.Lists (fun v => xs v ++ regs (entriesOn parent dev l v)) ∧
      b.Keeps b' := by
  induction l generalizing b xs with
  | nil => exact ⟨b, rfl, fun v => by simpa [entriesOn] using h v, .refl⟩
  | cons e l ih =>
    rw [map_cons, nodup_cons] at hnodup
    obtain ⟨he, hnodup⟩ := hnodup
    obtain ⟨hfresh, hnew⟩ := forall_mem_cons.mp hnew
    obtain ⟨b₁, hrun, hb₁, hkeep⟩ := h.addEntry (hfresh (if e.1 then parent else dev)) (ans.release e.2)
    have hnew₁ : ∀ e' ∈ l, ∀ w, .reg e'.2 ∉ update xs (if e.1 then parent else dev)
        (xs (if e.1 then parent else dev) ++ [.reg e.2]) w := fun e' he' w hmem => by
      by_cases hw : w = if e.1 then parent else dev
      · rw [hw, update_self, mem_append, mem_singleton] at hmem
        rcases hmem with hmem | heq
        · exact hnew e' he' _ hmem
        · exact he (DevNode.reg.inj heq ▸ mem_map_of_mem he')
      · rw [update_of_ne hw] at hmem
        exact hnew e' he' w hmem
    obtain ⟨b₂, hrun₂, hb₂, hkeep₂⟩ := ih hb₁ hnodup hnew₁
    refine ⟨b₂, ?_, fun w => ?_, hkeep.trans hkeep₂⟩
    · rw [addEntries, hrun]
      exact hrun₂
    · have hw := hb₂ w
      dsimp only at hw ⊢
      rw [entriesOn_cons]
      by_cases hwv : w = if e.1 then parent else dev
      · rw [hwv, update_self, append_assoc, singleton_append] at hw
        rw [if_pos hwv.symm, hwv]
        exact hw
      · rw [update_of_ne hwv] at hw
        rwa [if_neg (Ne.symm hwv)]

/-! ### One component -/

/-- What the allocator and the driver promise about a component: groups and entries are not in use. -/
structure FreshFor (ans : BindAnswers) (xs : ℕ → List DevNode) (c : ℕ) : Prop where
  parentGroup : ∀ g ∈ ans.parentGroup c, ∀ v, .opn g ∉ xs v
  ownGroup : ∀ g ∈ ans.ownGroup c, ∀ v, .opn g ∉ xs v
  ne : ∀ g ∈ ans.parentGroup c, g ∉ ans.ownGroup c
  nodup : ((ans.adds c).map Prod.snd).Nodup
  adds : ∀ e ∈ ans.adds c, ∀ v, .reg e.2 ∉ xs v

/-- What a component that is bound has in the list of a device: its group with the entries, or the entries. -/
def bindPart (ans : BindAnswers) (parent dev c v : ℕ) : List DevNode :=
  if v = dev then
    ((ans.ownGroup c).toList.map DevNode.opn ++ regs (entriesOn parent dev (ans.adds c) v)) ++
      (ans.ownGroup c).toList.map DevNode.cls
  else regs (entriesOn parent dev (ans.adds c) v)

theorem openGroup_none (b : BindState) (v : ℕ) (id : Option GroupId) : b.openGroup v id none = some (b, false) := by
  have hsame : b.setDev v (b.dev v) = b := by rw [setDev, update_eq_self]
  rw [BindState.openGroup, devresOpenGroup, Option.map_some, hsame]
  rfl

/-- The opening marker of a group in the list of its device. -/
def opening (w g v : ℕ) : List DevNode := if v = w then [.opn g] else []

/-- The closing marker. -/
def closing (w g v : ℕ) : List DevNode := if v = w then [.cls g] else []

theorem opening_self (w g : ℕ) : opening w g w = [.opn g] := if_pos rfl

theorem closing_self (w g : ℕ) : closing w g w = [.cls g] := if_pos rfl

theorem BindState.Lists.of_eq (h : b.Lists xs) (heq : ∀ v, xs v = ys v) : b.Lists ys := fun v => heq v ▸ h v

theorem update_append (xs : ℕ → List DevNode) (w g v : ℕ) :
    update xs w (xs w ++ [.opn g]) v = xs v ++ opening w g v := by
  by_cases hv : v = w
  · rw [hv, update_self, opening_self]
  · rw [update_of_ne hv, opening, if_neg hv, append_nil]

/-- The lists when both groups are open. -/
def openLists (xs : ℕ → List DevNode) (parent dev gp go v : ℕ) : List DevNode :=
  xs v ++ opening parent gp v ++ opening dev go v

/-- Both groups are opened, and the `bind` function adds its entries. -/
theorem openBoth_spec (h : b.Lists xs) (hfresh : FreshFor ans xs c) (hgp : ans.parentGroup c = some gp)
    (hgo : ans.ownGroup c = some go) :
    ∃ b₁ b₂ b₃, b.openGroup parent none (some gp) = some (b₁, true) ∧
      b₁.openGroup dev (some (.ptr c)) (some go) = some (b₂, true) ∧
      addEntries ans parent dev (ans.adds c) (b₂.call (.bind c)) = some b₃ ∧
      b₁.Lists (fun v => xs v ++ opening parent gp v) ∧
      b₃.Lists (fun v => openLists xs parent dev gp go v ++ regs (entriesOn parent dev (ans.adds c) v)) ∧
      (∀ v g, .opn g ∈ xs v → (b₃.dev v).id g = (b.dev v).id g) ∧ (b₃.dev dev).id go = .ptr c ∧
      b₃.bound = b.bound ∧ b₃.calls = b.calls ++ [.bind c] := by
  have hgpNew := hfresh.parentGroup gp hgp
  have hgoNew := hfresh.ownGroup go hgo
  have hne : gp ≠ go := fun heq => hfresh.ne gp hgp (heq ▸ hgo)
  obtain ⟨b₁, hrun₁, hb₁, -, hids₁, hbound₁, hcalls₁⟩ := h.openGroup (hgpNew parent) none
  have hb₁ : b₁.Lists (fun v => xs v ++ opening parent gp v) := hb₁.of_eq (update_append xs parent gp)
  have hgoNew₁ : .opn go ∉ xs dev ++ opening parent gp dev := by
    rw [mem_append, opening]
    split <;> simp [hgoNew dev, hne.symm]
  obtain ⟨b₂, hrun₂, hb₂, hid₂, hids₂, hbound₂, hcalls₂⟩ := hb₁.openGroup hgoNew₁ (some (.ptr c))
  have hb₂ : (b₂.call (.bind c)).Lists (openLists xs parent dev gp go) := hb₂.of_eq (update_append _ dev go)
  have hadds : ∀ e ∈ ans.adds c, ∀ v, .reg e.2 ∉ openLists xs parent dev gp go v := fun e he v => by
    have hout := hfresh.adds e he v
    rw [openLists, opening, opening]
    split <;> split <;> simp [hout]
  obtain ⟨b₃, hrun₃, hb₃, hkeep⟩ := addEntries_spec ans hb₂ hfresh.nodup hadds
  refine ⟨b₁, b₂, b₃, hrun₁, hrun₂, hrun₃, hb₁, hb₃, fun v g hg => ?_, ?_, ?_, ?_⟩
  · have hgp' : g ≠ gp := fun heq => hgpNew v (heq ▸ hg)
    have hgo' : g ≠ go := fun heq => hgoNew v (heq ▸ hg)
    rw [hkeep.id]
    exact (hids₂ v g hgo').trans (hids₁ v g hgp')
  · rw [hkeep.id]
    exact hid₂
  · exact hkeep.bound.trans (hbound₂.trans hbound₁)
  · rw [hkeep.calls, call, hcalls₂, hcalls₁]

section Both

variable {es : ℕ → List ℕ}

theorem cls_not_mem_openLists {g v : ℕ} (hg : .cls g ∉ xs v) (rs : List ℕ) :
    .cls g ∉ openLists xs parent dev gp go v ++ regs rs := by
  have hregs : .cls g ∉ regs rs := cls_not_mem_regs
  rw [openLists, opening, opening]
  split <;> split <;> simp [hg, hregs]

theorem length_openLists (xs : ℕ → List DevNode) (parent dev gp go v : ℕ) (rs : List ℕ) :
    (openLists xs parent dev gp go v ++ regs rs).length ≤ (xs v).length + rs.length + 2 := by
  rw [openLists, opening, opening]
  split <;> split <;> simp [regs] <;> omega

/-- The part of the list behind the mark of the parent's group when the group of the device is closed. -/
theorem bindPart_eq (hgo : ans.ownGroup c = some go) (v : ℕ) :
    bindPart ans parent dev c v =
      opening dev go v ++ regs (entriesOn parent dev (ans.adds c) v) ++ closing dev go v := by
  rw [bindPart, hgo, opening, closing]
  split <;> simp

/-- After success the group of the device is closed, and that of the parent is removed. -/
theorem closeBoth_spec (h : b.Lists (fun v => openLists xs parent dev gp go v ++ regs (es v)))
    (hgp : ∀ v, .cls gp ∉ xs v) (hgo : ∀ v, .cls go ∉ xs v) (hne : gp ≠ go)
    (hfuel : ∀ v, (xs v).length + (es v).length + 3 < fuel) :
    ∃ b₁ b₂, b.closeGroup fuel dev none = some b₁ ∧ b₁.removeGroup fuel parent none = some b₂ ∧
      b₂.Lists (fun v => xs v ++ (opening dev go v ++ regs (es v) ++ closing dev go v)) ∧ b.Keeps b₂ := by
  have hlen : ∀ v, (openLists xs parent dev gp go v ++ regs (es v)).length + 1 < fuel := fun v => by
    have hle := length_openLists xs parent dev gp go v (es v)
    have hlt := hfuel v
    omega
  have hlist : openLists xs parent dev gp go dev ++ regs (es dev) =
      (xs dev ++ opening parent gp dev) ++ .opn go :: regs (es dev) := by
    rw [openLists, opening_self, append_assoc _ [_], singleton_append]
  obtain ⟨b₁, hrun₁, hb₁, hkeep₁⟩ := h.closeGroup hlist (Nat.lt_of_succ_lt (hlen dev))
    (cls_not_mem_openLists (hgo dev) _) fun g' hg' => absurd hg' opn_not_mem_regs
  have hb₁ : b₁.Lists (fun v => openLists xs parent dev gp go v ++ regs (es v) ++ closing dev go v) :=
    hb₁.of_eq fun v => by
      by_cases hv : v = dev
      · rw [hv, update_self, closing_self]
      · rw [update_of_ne hv, closing, if_neg hv, append_nil]
  have hlist' : openLists xs parent dev gp go parent ++ regs (es parent) ++ closing dev go parent =
      xs parent ++ .opn gp :: (opening dev go parent ++ regs (es parent) ++ closing dev go parent) := by
    rw [openLists, opening_self]
    simp
  have hfuel' : (openLists xs parent dev gp go parent ++ regs (es parent) ++ closing dev go parent).length < fuel := by
    have hlt := hlen parent
    rw [length_append, closing]
    split
    · exact hlt
    · exact Nat.lt_of_succ_lt hlt
  have hcls : .cls gp ∉ openLists xs parent dev gp go parent ++ regs (es parent) ++ closing dev go parent := fun hmem => by
    rcases mem_append.mp hmem with hmem | hmem
    · exact cls_not_mem_openLists (hgp parent) _ hmem
    · rw [closing] at hmem
      split at hmem
      · exact hne (DevNode.cls.inj (mem_singleton.mp hmem))
      · cases hmem
  have hclosed : ∀ g', .opn g' ∈ opening dev go parent ++ regs (es parent) ++ closing dev go parent →
      .cls g' ∈ opening dev go parent ++ regs (es parent) ++ closing dev go parent := fun g' hg' => by
    have hregs : .opn g' ∉ regs (es parent) := opn_not_mem_regs
    rw [opening, closing] at hg' ⊢
    split at hg'
    · next hv =>
      rw [if_pos hv, if_pos hv]
      simp only [mem_append, mem_singleton, hregs, or_false, reduceCtorEq] at hg'
      rw [DevNode.opn.inj hg']
      simp
    · simp [hregs] at hg'
  obtain ⟨b₂, hrun₂, hb₂, hkeep₂⟩ := hb₁.removeGroup hlist' hfuel' hcls hclosed
  refine ⟨b₁, b₂, hrun₁, hrun₂, hb₂.of_eq fun v => ?_, hkeep₁.trans hkeep₂⟩
  by_cases hv : v = parent
  · rw [hv, update_self]
  · rw [update_of_ne hv, openLists, opening, if_neg hv]
    simp

/-- After a failure both groups are released, and the lists are as before. -/
theorem releaseBoth_spec (h : b.Lists (fun v => openLists xs parent dev gp go v ++ regs (es v)))
    (hes : ∀ v, v ≠ dev → v ≠ parent → es v = []) (hgp : ∀ v, .cls gp ∉ xs v) (hgo : ∀ v, .cls go ∉ xs v)
    (hfuel : ∀ v, (xs v).length + (es v).length + 3 < fuel) :
    ∃ b₁ b₂, b.releaseGroup fuel dev none = some b₁ ∧ b₁.releaseGroup fuel parent none = some b₂ ∧ b₂.Lists xs ∧
      b.Keeps b₂ := by
  have hlen : ∀ v, (openLists xs parent dev gp go v ++ regs (es v)).length < fuel := fun v => by
    have hle := length_openLists xs parent dev gp go v (es v)
    have hlt := hfuel v
    omega
  have hlist : openLists xs parent dev gp go dev ++ regs (es dev) =
      (xs dev ++ opening parent gp dev) ++ .opn go :: regs (es dev) := by
    rw [openLists, opening_self, append_assoc _ [_], singleton_append]
  obtain ⟨b₁, hrun₁, hb₁, hkeep₁⟩ := h.releaseOpen hlist (hlen dev) (cls_not_mem_openLists (hgo dev) _)
  have hb₁ : b₁.Lists (fun v => xs v ++ opening parent gp v ++ if v = dev then [] else regs (es v)) :=
    hb₁.of_eq fun v => by
      by_cases hv : v = dev
      · rw [hv, update_self, if_pos rfl, append_nil]
      · rw [update_of_ne hv, openLists, opening, opening, if_neg hv, if_neg hv, append_nil]
  have hlist' : xs parent ++ opening parent gp parent ++ (if parent = dev then [] else regs (es parent)) =
      xs parent ++ .opn gp :: regs (if parent = dev then [] else es parent) := by
    rw [opening_self]
    split <;> simp
  have hfuel' : (xs parent ++ opening parent gp parent ++ if parent = dev then [] else regs (es parent)).length < fuel := by
    have hlt := hfuel parent
    rw [opening_self]
    split <;> simp [regs] <;> omega
  have hcls : .cls gp ∉ xs parent ++ opening parent gp parent ++ if parent = dev then [] else regs (es parent) := by
    have hregs : .cls gp ∉ regs (es parent) := cls_not_mem_regs
    rw [opening_self]
    split <;> simp [hgp parent, hregs]
  obtain ⟨b₂, hrun₂, hb₂, hkeep₂⟩ := hb₁.releaseOpen hlist' hfuel' hcls
  refine ⟨b₁, b₂, hrun₁, hrun₂, hb₂.of_eq fun v => ?_, hkeep₁.trans hkeep₂⟩
  by_cases hv : v = parent
  · rw [hv, update_self]
  · rw [update_of_ne hv, opening, if_neg hv]
    by_cases hd : v = dev
    · simp [hd]
    · simp [hd, hes v hd hv]

end Both

theorem entriesOn_of_ne {l : List (Bool × ℕ)} (hdev : v ≠ dev) (hparent : v ≠ parent) : entriesOn parent dev l v = [] := by
  refine filterMap_eq_nil_iff.mpr fun e _ => if_neg ?_
  split
  · exact hparent.symm
  · exact hdev.symm

/-- What `component_bind` leaves when a component is bound, and when it is not. -/
def BindOutcome (ans : BindAnswers) (parent dev c : ℕ) (xs : ℕ → List DevNode) (b b' : BindState) (ret : ℤ) : Prop :=
  ret = 0 ∧ b'.Lists (fun v => xs v ++ bindPart ans parent dev c v) ∧ b'.bound = Function.update b.bound c true ∧
      b'.calls = b.calls ++ [.bind c] ∧ (∃ g ∈ ans.ownGroup c, (b'.dev dev).id g = .ptr c) ∨
    ret ≠ 0 ∧ b'.Lists xs ∧ b'.bound = b.bound ∧
      (b'.calls = b.calls ∧ ret = -ENOMEM ∨ b'.calls = b.calls ++ [.bind c] ∧ ret = ans.ret c)

theorem componentBind_spec (dev : ℕ) (h : b.Lists xs) (hfresh : FreshFor ans xs c)
    (hfuel : ∀ v, (xs v).length + (ans.adds c).length + 3 < fuel) :
    ∃ b' ret, componentBind ans fuel parent dev c b = some (b', ret) ∧
      (∀ v g, .opn g ∈ xs v → (b'.dev v).id g = (b.dev v).id g) ∧ BindOutcome ans parent dev c xs b b' ret := by
  have hENOMEM : -ENOMEM ≠ 0 := by decide
  cases hgp : ans.parentGroup c with
  | none =>
    refine ⟨b, -ENOMEM, ?_, fun _ _ _ => rfl, .inr ⟨hENOMEM, h, rfl, .inl ⟨rfl, rfl⟩⟩⟩
    rw [componentBind, hgp, openGroup_none]
    rfl
  | some gp =>
    have hgpNew := hfresh.parentGroup gp hgp
    have hgpCls : ∀ v, DevNode.cls gp ∉ xs v := fun v hmem => hgpNew v ((h v).grouped.paired gp hmem)
    cases hgo : ans.ownGroup c with
    | none =>
      obtain ⟨b₁, hrun₁, hb₁, -, hids₁, hbound₁, hcalls₁⟩ := h.openGroup (hgpNew parent) none
      have hlist : update xs parent (xs parent ++ [DevNode.opn gp]) parent = xs parent ++ DevNode.opn gp :: regs [] :=
        update_self ..
      have hlen : (update xs parent (xs parent ++ [DevNode.opn gp]) parent).length < fuel := by
        have hlt := hfuel parent
        rw [update_self, length_append, length_singleton]
        omega
      have hcls : DevNode.cls gp ∉ update xs parent (xs parent ++ [DevNode.opn gp]) parent := by
        rw [update_self]
        simp [hgpCls parent]
      obtain ⟨b₂, hrun₂, hb₂, hkeep⟩ := hb₁.releaseOpen hlist hlen hcls
      refine ⟨b₂, -ENOMEM, ?_, fun v g hg => ?_, .inr ⟨hENOMEM, hb₂.of_eq fun v => ?_, ?_, .inl ⟨?_, rfl⟩⟩⟩
      · rw [componentBind, hgp, hrun₁, Option.bind_some, if_neg (by simp), hgo, openGroup_none, Option.bind_some,
          if_pos rfl, hrun₂]
        rfl
      · rw [hkeep.id]
        exact hids₁ v g fun heq => hgpNew v (heq ▸ hg)
      · rw [update_idem, update_eq_self]
      · exact hkeep.bound.trans hbound₁
      · exact hkeep.calls.trans hcalls₁
    | some go =>
      have hgoNew := hfresh.ownGroup go hgo
      have hgoCls : ∀ v, .cls go ∉ xs v := fun v hmem => hgoNew v ((h v).grouped.paired go hmem)
      have hne : gp ≠ go := fun heq => hfresh.ne gp hgp (heq ▸ hgo)
      have hfuel' : ∀ v, (xs v).length + (entriesOn parent dev (ans.adds c) v).length + 3 < fuel := fun v => by
        have hle := length_entriesOn_le parent dev (ans.adds c) v
        have hlt := hfuel v
        omega
      obtain ⟨b₁, b₂, b₃, hrun₁, hrun₂, hrun₃, -, hb₃, hids, hid, hbound, hcalls⟩ := openBoth_spec h hfresh hgp hgo
      have hrun : componentBind ans fuel parent dev c b =
          if ans.ret c = 0 then
            ((b₃.setBound c true).closeGroup fuel dev none).bind fun b => (b.removeGroup fuel parent none).map (·, 0)
          else (b₃.releaseGroup fuel dev none).bind fun b => (b.releaseGroup fuel parent none).map (·, ans.ret c) := by
        rw [componentBind, hgp, hrun₁, Option.bind_some, if_neg (by simp), hgo, hrun₂, Option.bind_some,
          if_neg (by simp), hrun₃, Option.bind_some]
      by_cases hret : ans.ret c = 0
      · have hb₃' : (b₃.setBound c true).Lists
            (fun v => openLists xs parent dev gp go v ++ regs (entriesOn parent dev (ans.adds c) v)) := hb₃
        obtain ⟨b₄, b₅, hrun₄, hrun₅, hb₅, hkeep⟩ := closeBoth_spec hb₃' hgpCls hgoCls hne hfuel'
        refine ⟨b₅, 0, ?_, fun v g hg => ?_, .inl ⟨rfl, hb₅.of_eq fun v => ?_, ?_, ?_, go, hgo, ?_⟩⟩
        · rw [hrun, if_pos hret, hrun₄, Option.bind_some, hrun₅]
          rfl
        · rw [hkeep.id]
          exact hids v g hg
        · rw [bindPart_eq hgo]
        · rw [hkeep.bound, BindState.setBound, hbound]
        · exact hkeep.calls.trans hcalls
        · rw [hkeep.id]
          exact hid
      · have hes : ∀ v, v ≠ dev → v ≠ parent → entriesOn parent dev (ans.adds c) v = [] := fun v => entriesOn_of_ne
        obtain ⟨b₄, b₅, hrun₄, hrun₅, hb₅, hkeep⟩ := releaseBoth_spec hb₃ hes hgpCls hgoCls hfuel'
        refine ⟨b₅, ans.ret c, ?_, fun v g hg => ?_, .inr ⟨hret, hb₅, hkeep.bound.trans hbound, .inr ⟨?_, rfl⟩⟩⟩
        · rw [hrun, if_neg hret, hrun₄, Option.bind_some, hrun₅]
          rfl
        · rw [hkeep.id]
          exact hids v g hg
        · exact hkeep.calls.trans hcalls

/-- Releasing the group of a component that is bound, when behind it there are entries only. -/
theorem componentUnbind_spec {es : ℕ → List ℕ} (hgo : ans.ownGroup c = some go)
    (h : b.Lists (fun v => xs v ++ bindPart ans parent dev c v ++ regs (es v))) (hid : (b.dev dev).id go = .ptr c)
    (hfuel : (xs dev ++ bindPart ans parent dev c dev ++ regs (es dev)).length < fuel) :
    ∃ b', componentUnbind ans fuel dev c b = some b' ∧ (∀ v, (b'.dev v).id = (b.dev v).id) ∧
      b'.Lists (fun v => xs v ++ regs ((if v = dev then [] else entriesOn parent dev (ans.adds c) v) ++ es v)) ∧
      b'.bound = update b.bound c false ∧
      b'.calls = b.calls ++ if ans.hasUnbind c then [.unbind c] else [] := by
  have hlist : xs dev ++ bindPart ans parent dev c dev ++ regs (es dev) =
      xs dev ++ DevNode.opn go :: (regs (entriesOn parent dev (ans.adds c) dev) ++ [DevNode.cls go] ++ regs (es dev)) := by
    rw [bindPart_eq hgo, opening_self, closing_self]
    simp
  obtain ⟨b₀, hb₀⟩ : ∃ b₀, b₀ = (if ans.hasUnbind c then b.call (.unbind c) else b).setBound c false := ⟨_, rfl⟩
  have hdev : b₀.dev = b.dev := by
    rw [hb₀]
    split <;> rfl
  have hlists : b₀.Lists (fun v => xs v ++ bindPart ans parent dev c v ++ regs (es v)) := fun v => hdev ▸ h v
  obtain ⟨b', hrun, hb', hkeep⟩ := hlists.releaseClosed hlist hfuel (by rw [hdev, hid])
  refine ⟨b', ?_, fun v => ?_, hb'.of_eq fun v => ?_, ?_, ?_⟩
  · rw [componentUnbind, ← hb₀, hrun]
  · rw [hkeep.id, hdev]
  · by_cases hv : v = dev
    · rw [hv, update_self, if_pos rfl, nil_append]
    · rw [update_of_ne hv, if_neg hv, bindPart, if_neg hv, regs_append, append_assoc]
  · rw [hkeep.bound, hb₀]
    split <;> rfl
  · rw [hkeep.calls, hb₀]
    split
    · rfl
    · exact (append_nil _).symm

/-! ### All components -/

variable {devOf : ℕ → ℕ} {cs bs ts : List ℕ} {done l : List ComponentMatchArray}

/-- The components that are bound, in the order of the match list. -/
def bindOrder (l : List ComponentMatchArray) : List ℕ := (l.filter fun mc => !mc.duplicate).filterMap (·.component)

/-- The entries that a component leaves on a device when it is unbound: those of the parent. -/
def leftPart (ans : BindAnswers) (parent : ℕ) (devOf : ℕ → ℕ) (c v : ℕ) : List ℕ :=
  if v = devOf c then [] else entriesOn parent (devOf c) (ans.adds c) v

theorem length_leftPart_le (ans : BindAnswers) (parent : ℕ) (devOf : ℕ → ℕ) (c v : ℕ) :
    (leftPart ans parent devOf c v).length ≤ (bindPart ans parent (devOf c) c v).length := by
  rw [leftPart, bindPart]
  split
  · exact Nat.zero_le _
  · simp [regs]

/-- What the components that are bound have in the list of a device. -/
def bindParts (ans : BindAnswers) (parent : ℕ) (devOf : ℕ → ℕ) (cs : List ℕ) (v : ℕ) : List DevNode :=
  cs.flatMap fun c => bindPart ans parent (devOf c) c v

/-- What they leave on a device. -/
def leftBehind (ans : BindAnswers) (parent : ℕ) (devOf : ℕ → ℕ) (cs : List ℕ) (v : ℕ) : List ℕ :=
  cs.flatMap fun c => leftPart ans parent devOf c v

theorem bindParts_concat (cs : List ℕ) (c v : ℕ) :
    bindParts ans parent devOf (cs ++ [c]) v = bindParts ans parent devOf cs v ++ bindPart ans parent (devOf c) c v := by
  simp [bindParts]

theorem leftBehind_concat (cs : List ℕ) (c v : ℕ) :
    leftBehind ans parent devOf (cs ++ [c]) v = leftBehind ans parent devOf cs v ++ leftPart ans parent devOf c v := by
  simp [leftBehind]

/-- What is promised while the components are bound one after the other. -/
def FreshRun (ans : BindAnswers) (parent : ℕ) (devOf : ℕ → ℕ) : (ℕ → List DevNode) → List ℕ → Prop
  | _, [] => True
  | xs, c :: cs =>
      FreshFor ans xs c ∧ FreshRun ans parent devOf (fun v => xs v ++ bindPart ans parent (devOf c) c v) cs

/-- A bound on how much the lists grow. -/
def cost (ans : BindAnswers) (cs : List ℕ) : ℕ := (cs.map fun c => (ans.adds c).length + 3).sum

theorem bindOrder_cons_duplicate {mc : ComponentMatchArray} (h : mc.duplicate = true) :
    bindOrder (mc :: l) = bindOrder l := by simp [bindOrder, h]

theorem bindOrder_cons {mc : ComponentMatchArray} (h : mc.duplicate = false) (hc : mc.component = some c) :
    bindOrder (mc :: l) = c :: bindOrder l := by simp [bindOrder, h, hc]

/-- The groups of components that are bound, the last one first, have their ids. -/
def HasIds (ans : BindAnswers) (devOf : ℕ → ℕ) (b : BindState) (bs : List ℕ) : Prop :=
  ∀ c ∈ bs, ∃ g ∈ ans.ownGroup c, (b.dev (devOf c)).id g = .ptr c

theorem unbindEntries_spec (es : ℕ → List ℕ) (hfull : ∀ mc ∈ done, mc.component ≠ none)
    (hids : HasIds ans devOf b (bindOrder done))
    (h : b.Lists (fun v => xs v ++ bindParts ans parent devOf (bindOrder done).reverse v ++ regs (es v)))
    (hfuel : ∀ v, (xs v ++ bindParts ans parent devOf (bindOrder done).reverse v ++ regs (es v)).length < fuel) :
    ∃ b', unbindEntries ans fuel devOf done b = some b' ∧
      b'.Lists (fun v => xs v ++ regs (leftBehind ans parent devOf (bindOrder done).reverse v ++ es v)) ∧
      (∀ c, b'.bound c = (b.bound c && decide (c ∉ bindOrder done))) ∧
      b'.calls = b.calls ++ ((bindOrder done).filter (ans.hasUnbind ·)).map .unbind := by
  induction done generalizing b es with
  | nil =>
    refine ⟨b, rfl, h.of_eq fun v => ?_, fun c => ?_, ?_⟩
    · simp [bindOrder, bindParts, leftBehind]
    · simp [bindOrder]
    · simp [bindOrder]
  | cons mc done ih =>
    obtain ⟨hmc, hfull⟩ := forall_mem_cons.mp hfull
    rw [unbindEntries]
    cases hdup : mc.duplicate with
    | true =>
      rw [bindOrder_cons_duplicate hdup] at hids h hfuel ⊢
      exact ih es hfull hids h hfuel
    | false =>
      obtain ⟨c, hc⟩ := Option.ne_none_iff_exists'.mp hmc
      rw [bindOrder_cons hdup hc] at hids h hfuel ⊢
      obtain ⟨⟨g, hg, hid⟩, hids⟩ := forall_mem_cons.mp hids
      simp only [reverse_cons, bindParts_concat, leftBehind_concat] at h hfuel ⊢
      have h : b.Lists (fun v => (xs v ++ bindParts ans parent devOf (bindOrder done).reverse v) ++
          bindPart ans parent (devOf c) c v ++ regs (es v)) := h.of_eq fun v => by simp only [append_assoc]
      have hfuel₁ := hfuel (devOf c)
      rw [← append_assoc (xs _)] at hfuel₁
      obtain ⟨b₁, hrun₁, hid₁, hb₁, hbound₁, hcalls₁⟩ := componentUnbind_spec hg h hid hfuel₁
      have hfuel₂ : ∀ v, (xs v ++ bindParts ans parent devOf (bindOrder done).reverse v ++
          regs (leftPart ans parent devOf c v ++ es v)).length < fuel := fun v => by
        have hlt := hfuel v
        have hle := length_leftPart_le ans parent devOf c v
        simp only [length_append, regs, length_map] at hlt ⊢
        omega
      obtain ⟨b₂, hrun₂, hb₂, hbound₂, hcalls₂⟩ :=
        ih _ hfull (fun x hx => (hids x hx).imp fun g' hg' => ⟨hg'.1, by rw [hid₁, hg'.2]⟩) hb₁ hfuel₂
      refine ⟨b₂, ?_, hb₂.of_eq fun v => ?_, fun x => ?_, ?_⟩
      · rw [if_neg Bool.false_ne_true, hc, Option.bind_some, hrun₁, Option.bind_some, hrun₂]
      · simp only [leftPart, append_assoc]
      · rw [hbound₂, hbound₁]
        by_cases hx : x = c
        · simp [hx]
        · simp [hx]
      · rw [hcalls₂, hcalls₁, filter_cons]
        split <;> simp

/-- What holds while the components are bound: `done` are the entries so far, the last one first. -/
structure BoundSoFar (ans : BindAnswers) (parent : ℕ) (devOf : ℕ → ℕ) (xs : ℕ → List DevNode) (b : BindState)
    (bs : List ℕ) : Prop where
  lists : b.Lists fun v => xs v ++ bindParts ans parent devOf bs.reverse v
  ids : HasIds ans devOf b bs

theorem length_bindPart_le (ans : BindAnswers) (parent dev c v : ℕ) :
    (bindPart ans parent dev c v).length ≤ (ans.adds c).length + 2 := by
  have hle := length_entriesOn_le parent dev (ans.adds c) v
  rw [bindPart]
  cases ans.ownGroup c <;> split <;> simp [regs] <;> omega

theorem length_bindParts_le (ans : BindAnswers) (parent : ℕ) (devOf : ℕ → ℕ) (cs : List ℕ) (v : ℕ) :
    (bindParts ans parent devOf cs v).length ≤ cost ans cs := by
  induction cs with
  | nil => exact Nat.zero_le _
  | cons c cs ih =>
    have hle := length_bindPart_le ans parent (devOf c) c v
    rw [bindParts, flatMap_cons, length_append, cost, map_cons, sum_cons]
    rw [bindParts, cost] at ih
    omega

theorem opn_mem_bindParts {x : ℕ} (hx : x ∈ cs) (hg : g ∈ ans.ownGroup x) :
    .opn g ∈ bindParts ans parent devOf cs (devOf x) := by
  refine mem_flatMap.mpr ⟨x, hx, ?_⟩
  rw [bindPart_eq hg, opening_self]
  simp

theorem HasIds.of_same (h : BoundSoFar ans parent devOf xs b bs)
    (hsame : ∀ v g, .opn g ∈ xs v ++ bindParts ans parent devOf bs.reverse v → (b'.dev v).id g = (b.dev v).id g) :
    HasIds ans devOf b' bs := fun x hx => by
  obtain ⟨g, hg, hid⟩ := h.ids x hx
  have hmem : DevNode.opn g ∈ bindParts ans parent devOf bs.reverse (devOf x) :=
    opn_mem_bindParts (mem_reverse.mpr hx) hg
  exact ⟨g, hg, (hsame _ _ (mem_append_right _ hmem)).trans hid⟩

/-- The loop binds all components, or those before one that fails. -/
theorem bindEntries_spec (hfull : ∀ mc ∈ l, mc.component ≠ none) (hdoneFull : ∀ mc ∈ done, mc.component ≠ none)
    (h : BoundSoFar ans parent devOf xs b (bindOrder done))
    (hfresh : FreshRun ans parent devOf (fun v => xs v ++ bindParts ans parent devOf (bindOrder done).reverse v) (bindOrder l))
    (hfuel : ∀ v, (xs v ++ bindParts ans parent devOf (bindOrder done).reverse v).length + cost ans (bindOrder l) < fuel) :
    ∃ b' ret done', bindEntries ans fuel parent devOf done l b = some (b', ret, done') ∧
      BoundSoFar ans parent devOf xs b' (bindOrder done') ∧ (∀ mc ∈ done', mc.component ≠ none) ∧
      ∃ cs rest, bindOrder l = cs ++ rest ∧ bindOrder done' = cs.reverse ++ bindOrder done ∧
        (∀ x, b'.bound x = (b.bound x || decide (x ∈ cs))) ∧
        (ret = 0 ∧ rest = [] ∧ b'.calls = b.calls ++ cs.map .bind ∨
          ret ≠ 0 ∧ ∃ c rest', rest = c :: rest' ∧
            (b'.calls = b.calls ++ cs.map .bind ∧ ret = -ENOMEM ∨
              b'.calls = b.calls ++ (cs ++ [c]).map .bind ∧ ret = ans.ret c)) := by
  induction l generalizing b done with
  | nil =>
    refine ⟨b, 0, done, rfl, h, hdoneFull, [], [], rfl, rfl, fun x => ?_, .inl ⟨rfl, rfl, (append_nil _).symm⟩⟩
    simp
  | cons mc l ih =>
    obtain ⟨hmc, hfull⟩ := forall_mem_cons.mp hfull
    have hdoneFull' : ∀ m ∈ mc :: done, m.component ≠ none := forall_mem_cons.mpr ⟨hmc, hdoneFull⟩
    rw [bindEntries]
    cases hdup : mc.duplicate with
    | true =>
      have hdone : bindOrder (mc :: done) = bindOrder done := bindOrder_cons_duplicate hdup
      rw [bindOrder_cons_duplicate hdup] at hfresh hfuel ⊢
      rw [← hdone] at h hfresh hfuel ⊢
      exact ih hfull hdoneFull' h hfresh hfuel
    | false =>
      obtain ⟨c, hc⟩ := Option.ne_none_iff_exists'.mp hmc
      have hdone : bindOrder (mc :: done) = c :: bindOrder done := bindOrder_cons hdup hc
      rw [bindOrder_cons hdup hc] at hfresh hfuel ⊢
      obtain ⟨hfreshC, hfresh⟩ := hfresh
      have hfuelC : ∀ v, (xs v ++ bindParts ans parent devOf (bindOrder done).reverse v).length +
          (ans.adds c).length + 3 < fuel := fun v => by
        have hlt := hfuel v
        rw [cost, map_cons, sum_cons] at hlt
        omega
      obtain ⟨b₁, ret, hrun, hsame, hcase⟩ := componentBind_spec (devOf c) h.lists hfreshC hfuelC
      have hids₁ : HasIds ans devOf b₁ (bindOrder done) := HasIds.of_same h hsame
      rw [if_neg Bool.false_ne_true, hc, Option.bind_some, hrun, Option.bind_some]
      dsimp only
      rcases hcase with ⟨rfl, hlists₁, hbound₁, hcalls₁, hid⟩ | ⟨hret, hlists₁, hbound₁, hcalls₁⟩
      · have hparts : ∀ v, xs v ++ bindParts ans parent devOf (bindOrder done).reverse v ++ bindPart ans parent (devOf c) c v =
            xs v ++ bindParts ans parent devOf (bindOrder (mc :: done)).reverse v := fun v => by
          rw [hdone, reverse_cons, bindParts_concat, append_assoc]
        have hnext : BoundSoFar ans parent devOf xs b₁ (bindOrder (mc :: done)) := by
          refine ⟨hlists₁.of_eq hparts, ?_⟩
          rw [hdone]
          exact forall_mem_cons.mpr ⟨hid, hids₁⟩
        have hfuelNext : ∀ v, (xs v ++ bindParts ans parent devOf (bindOrder (mc :: done)).reverse v).length +
            cost ans (bindOrder l) < fuel := fun v => by
          have hlt := hfuel v
          have hle := length_bindPart_le ans parent (devOf c) c v
          rw [cost, map_cons, sum_cons] at hlt
          rw [← hparts, length_append, cost]
          omega
        obtain ⟨b₂, ret, done', hrun₂, hb₂, hdone', cs, rest, hsplit, hrev, hbound₂, hcase⟩ :=
          ih hfull hdoneFull' hnext (funext hparts ▸ hfresh) hfuelNext
        refine ⟨b₂, ret, done', ?_, hb₂, hdone', c :: cs, rest, by rw [hsplit, cons_append], ?_, fun x => ?_, ?_⟩
        · rw [if_neg (by simp)]
          exact hrun₂
        · rw [hrev, hdone, reverse_cons, append_assoc, singleton_append]
        · rw [hbound₂, hbound₁]
          by_cases hx : x = c
          · simp [hx]
          · simp [hx]
        · rw [hcalls₁] at hcase
          simpa using hcase
      · rw [if_pos hret]
        refine ⟨b₁, ret, done, rfl, ⟨hlists₁, hids₁⟩, hdoneFull, [], c :: bindOrder l, rfl, rfl, fun x => ?_,
          .inr ⟨hret, c, bindOrder l, rfl, ?_⟩⟩
        · rw [hbound₁]
          simp
        · simpa using hcalls₁

/-- What `component_bind_all` leaves: all components are bound, or none of them. -/
def BindAllOutcome (ans : BindAnswers) (parent : ℕ) (devOf : ℕ → ℕ) (order : List ℕ) (xs : ℕ → List DevNode)
    (b b' : BindState) (ret : ℤ) : Prop :=
  ret = 0 ∧ b'.calls = b.calls ++ order.map .bind ∧ (∀ x, b'.bound x = (b.bound x || decide (x ∈ order))) ∧
      b'.Lists (fun v => xs v ++ bindParts ans parent devOf order v) ∨
    ret ≠ 0 ∧ ∃ cs c rest called, order = cs ++ c :: rest ∧ (called = [] ∧ ret = -ENOMEM ∨ called = [.bind c] ∧ ret = ans.ret c) ∧
      b'.calls = b.calls ++ cs.map .bind ++ called ++ (cs.reverse.filter (ans.hasUnbind ·)).map .unbind ∧
      (∀ x, b'.bound x = (b.bound x && decide (x ∉ cs))) ∧
      b'.Lists (fun v => xs v ++ regs (leftBehind ans parent devOf cs v))

theorem bindMatch_spec (hfull : ∀ mc ∈ l, mc.component ≠ none) (h : b.Lists xs)
    (hfresh : FreshRun ans parent devOf xs (bindOrder l)) (hfuel : ∀ v, (xs v).length + cost ans (bindOrder l) < fuel) :
    ∃ b' ret, bindMatch ans fuel parent devOf l b = some (b', ret) ∧
      BindAllOutcome ans parent devOf (bindOrder l) xs b b' ret := by
  have hnil : ∀ v, xs v = xs v ++ bindParts ans parent devOf (bindOrder []).reverse v := fun v => (append_nil _).symm
  have hstart : BoundSoFar ans parent devOf xs b (bindOrder []) := ⟨h.of_eq hnil, fun _ hx => absurd hx not_mem_nil⟩
  obtain ⟨b₁, ret, done, hrun, hb₁, hdone, cs, rest, hsplit, hrev, hbound, hcase⟩ :=
    bindEntries_spec hfull (fun _ hm => absurd hm not_mem_nil) hstart (funext hnil ▸ hfresh) fun v => hnil v ▸ hfuel v
  have hrev : bindOrder done = cs.reverse := hrev.trans (append_nil _)
  rw [bindMatch, hrun, Option.bind_some]
  dsimp only
  rcases hcase with ⟨rfl, rfl, hcalls⟩ | ⟨hret, c, rest, rfl, hcase⟩
  · rw [append_nil] at hsplit
    rw [if_neg (by simp)]
    refine ⟨b₁, 0, rfl, .inl ⟨rfl, by rw [hcalls, hsplit], fun x => by rw [hbound, hsplit], hb₁.lists.of_eq fun v => ?_⟩⟩
    rw [hrev, reverse_reverse, hsplit]
  · rw [if_pos hret]
    have hlists : b₁.Lists (fun v => xs v ++ bindParts ans parent devOf (bindOrder done).reverse v ++ regs []) :=
      hb₁.lists.of_eq fun v => (append_nil _).symm
    have hfuel' : ∀ v, (xs v ++ bindParts ans parent devOf (bindOrder done).reverse v ++ regs []).length < fuel := fun v => by
      have hlt := hfuel v
      have hle := length_bindParts_le ans parent devOf cs v
      rw [hsplit, cost, map_append, sum_append] at hlt
      rw [hrev, reverse_reverse, regs_nil, append_nil, length_append]
      rw [cost] at hle
      omega
    obtain ⟨b₂, hrun₂, hlists₂, hbound₂, hcalls₂⟩ := unbindEntries_spec (fun _ => []) hdone hb₁.ids hlists hfuel'
    have hbound' : ∀ x, b₂.bound x = (b.bound x && decide (x ∉ cs)) := fun x => by
      rw [hbound₂, hbound, hrev]
      by_cases hx : x ∈ cs <;> simp [hx]
    have hleft : b₂.Lists (fun v => xs v ++ regs (leftBehind ans parent devOf cs v)) := hlists₂.of_eq fun v => by
      rw [hrev, reverse_reverse, append_nil]
    rw [hrev] at hcalls₂
    have hrun : (unbindEntries ans fuel devOf done b₁).map (fun b => (b, ret)) = some (b₂, ret) := by
      rw [hrun₂, Option.map_some]
    rcases hcase with ⟨hcalls, hret'⟩ | ⟨hcalls, hret'⟩
    · refine ⟨b₂, ret, hrun, .inr ⟨hret, cs, c, rest, [], hsplit, .inl ⟨rfl, hret'⟩, ?_, hbound', hleft⟩⟩
      rw [hcalls₂, hcalls, append_nil]
    · refine ⟨b₂, ret, hrun, .inr ⟨hret, cs, c, rest, [.bind c], hsplit, .inr ⟨rfl, hret'⟩, ?_, hbound', hleft⟩⟩
      rw [hcalls₂, hcalls, map_append, ← append_assoc b.calls]
      rfl

end GfpDrivers.Aggregate
