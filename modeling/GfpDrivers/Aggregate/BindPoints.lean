import GfpDrivers.Aggregate.BindAll
import GfpDrivers.Aggregate.Ownership

/-!
When components are bound, each of them has one entry of the match list that is no duplicate. This holds whenever a
`bind` function of an aggregate device may be called: between the calls, and inside of them while aggregate devices
are brought up one after the other.
-/

namespace GfpDrivers.Aggregate

open Devres

variable {s s' : State} {a b c d i : ℕ} {mc x : ComponentMatchArray} {out : Outcome} {l : List ComponentMatchArray}

/-- A component that the list points to has one entry that is no duplicate. -/
def SoleIn (l : List ComponentMatchArray) : Prop :=
  ∀ c, (∃ mc ∈ l, mc.component = some c) → (bindOrder l).count c = 1

/-- The same for all registered aggregate devices. -/
def Sole (s : State) : Prop := ∀ a ∈ s.aggregateDevices, SoleIn (s.aggregate a).compare

theorem count_bindOrder (l : List ComponentMatchArray) (c : ℕ) :
    (bindOrder l).count c = l.countP fun mc => mc.component = some c ∧ mc.duplicate = false := by
  rw [bindOrder, List.count_filterMap, List.countP_filter]
  refine List.countP_congr fun mc _ => ?_
  cases mc.duplicate <;> simp

theorem count_bindOrder_of_not_mem (h : ¬∃ mc ∈ l, mc.component = some c) : (bindOrder l).count c = 0 := by
  rw [count_bindOrder, List.countP_eq_zero]
  intro mc hmc hc
  exact h ⟨mc, hmc, (of_decide_eq_true hc).1⟩

theorem soleIn_of_none (h : ∀ mc ∈ l, mc.component = none) : SoleIn l := fun c hc => by
  obtain ⟨mc, hmc, hc⟩ := hc
  rw [h mc hmc] at hc
  cases hc

theorem mem_bindOrder (h : SoleIn l) : c ∈ bindOrder l ↔ ∃ mc ∈ l, mc.component = some c := by
  refine ⟨fun hc => ?_, fun hc => List.count_pos_iff.mp (by rw [h c hc]; exact Nat.one_pos)⟩
  obtain ⟨mc, hmc, hc⟩ := List.mem_filterMap.mp hc
  exact ⟨mc, (List.mem_filter.mp hmc).1, hc⟩

theorem nodup_bindOrder (h : SoleIn l) : (bindOrder l).Nodup := by
  refine List.nodup_iff_count_le_one.mpr fun c => ?_
  by_cases hc : ∃ mc ∈ l, mc.component = some c
  · exact Nat.le_of_eq (h c hc)
  · rw [count_bindOrder_of_not_mem hc]
    exact Nat.zero_le 1

/-- An entry without a component gets one. It is a duplicate if the list points to the component already. -/
theorem SoleIn.set (h : SoleIn l) (hi : l[i]? = some mc) (hmc : mc.component = none) (hx : x.component = some c)
    (hdup : x.duplicate = true ↔ ∃ m ∈ l, m.component = some c) : SoleIn (l.set i x) := fun d hd => by
  obtain ⟨hlt, hget⟩ := List.getElem?_eq_some_iff.mp hi
  have hold : ¬(l[i].component = some d ∧ l[i].duplicate = false) := fun hold => by
    rw [hget, hmc] at hold
    cases hold.1
  rw [count_bindOrder, List.countP_set hlt, if_neg (by simpa using hold), Nat.sub_zero, ← count_bindOrder, hx]
  by_cases hpoints : ∃ m ∈ l, m.component = some d
  · have hnot : ¬(some c = some d ∧ x.duplicate = false) := fun hnew => by
      obtain rfl := Option.some.inj hnew.1
      rw [hdup.mpr hpoints] at hnew
      cases hnew.2
    rw [h d hpoints, if_neg (by simpa using hnot)]
  · obtain rfl := ((points_set hi hmc hx).mp hd).resolve_left hpoints
    have hfalse : x.duplicate = false := Bool.eq_false_iff.mpr fun htrue => hpoints (hdup.mp htrue)
    rw [count_bindOrder_of_not_mem hpoints, if_pos (by simp [hfalse])]

theorem SoleIn.clear (h : SoleIn l) :
    SoleIn (l.map fun mc => if mc.component = some c then { mc with component := none } else mc) := fun d hd => by
  obtain ⟨m, hm, hd⟩ := hd
  obtain ⟨mc, hmc, rfl⟩ := List.mem_map.mp hm
  have hdc : d ≠ c ∧ mc.component = some d := by
    split_ifs at hd with hc
    refine ⟨?_, hd⟩
    rintro rfl
    exact hc hd
  rw [count_bindOrder, List.countP_map, ← h d ⟨mc, hmc, hdc.2⟩, count_bindOrder]
  refine List.countP_congr fun m _ => ?_
  rw [Function.comp_apply]
  split_ifs with hc
  · simp [hc, Ne.symm hdc.1]
  · rfl

/-! ### The states in which an aggregate device is bound -/

/-- The match lists agree with the `adev` pointers, and each component has one entry that is no duplicate. -/
structure Matched (s : State) : Prop where
  owned : Owned s
  sole : Sole s

theorem Sole.of_compare (h : Sole s) (hdevs : ∀ a ∈ s'.aggregateDevices, a ∈ s.aggregateDevices)
    (hcompare : ∀ a ∈ s'.aggregateDevices, (s'.aggregate a).compare = (s.aggregate a).compare) : Sole s' := fun a ha => by
  rw [hcompare a ha]
  exact h a (hdevs a ha)

/-- A component is attached: the entry is a duplicate if the aggregate device owns the component already. -/
theorem Matched.attach (h : Matched s) (ha : a ∈ s.aggregateDevices) (hi : (s.aggregate a).compare[i]? = some mc)
    (hmc : mc.component = none) (hc : c ∈ s.componentList)
    (hfree : (s.component c).adev = none ∨ (s.component c).adev = some a) : Matched (attachComponent s a i mc c) where
  owned := h.owned.attach ha hi hmc hc hfree
  sole b hb := by
    by_cases hba : b = a
    · subst hba
      rw [attachComponent_compare]
      refine (h.sole b ha).set hi hmc rfl ?_
      have hagree := h.owned.agree b c
      simp only [Points, ha, true_and, hc] at hagree
      rw [hagree]
      rcases hfree with hfree | hfree <;> simp [hfree]
    · have hsame : (attachComponent s a i mc c).aggregate b = s.aggregate b := by
        simp [attachComponent, setCompare_of_ne hba]
      rw [hsame]
      exact h.sole b hb

theorem Matched.findLoop (h : Matched s) (ha : a ∈ s.aggregateDevices) (left : ℕ) :
    Matched (findComponentsLoop a left i s).1 := by
  induction left generalizing s i with
  | zero => exact h
  | succ left ih =>
    rw [findComponentsLoop]
    cases hi : (s.aggregate a).compare[i]? with
    | none => exact h
    | some mc =>
      dsimp only
      split_ifs with hsome
      · exact ih h ha
      · cases hfind : findComponent s a mc with
        | none => exact h
        | some c =>
          obtain ⟨hc, hfree⟩ := findComponent_spec hfind
          exact ih (h.attach ha hi (by simpa using hsome) hc hfree) ha

theorem Matched.find (h : Matched s) (ha : a ∈ s.aggregateDevices) : Matched (findComponents s a).1 := h.findLoop ha _

theorem Matched.tryBringUp (h : Matched s) (out : Outcome) (component : Option ℕ) (ha : a ∈ s.aggregateDevices) :
    Matched (tryToBringUpAggregateDevice out s a component).1 := by
  refine ⟨(tryToBringUpAggregateDevice_spec out component h.owned ha).1, ?_⟩
  have hfind := (h.find ha).sole
  unfold tryToBringUpAggregateDevice
  dsimp only
  split_ifs
  · exact hfind
  · exact hfind
  · exact hfind
  · exact hfind
  · exact hfind.of_compare (fun _ hb => hb) fun _ _ => setBound_compare

theorem Matched.tryMasters (h : Matched s) (out : Outcome) {adevs : List ℕ} (hsub : ∀ a ∈ adevs, a ∈ s.aggregateDevices) :
    Matched (tryToBringUpMasters out c s adevs).1 := by
  induction adevs generalizing s with
  | nil => exact h
  | cons a adevs ih =>
    obtain ⟨ha, hsub⟩ := List.forall_mem_cons.mp hsub
    have hnext := h.tryBringUp out (some c) ha
    have hdevs := (tryToBringUpAggregateDevice_spec out (some c) h.owned ha).2.2.1
    rw [tryToBringUpMasters]
    dsimp only
    split_ifs
    · exact ih h hsub
    · exact hnext
    · exact ih hnext (by rwa [hdevs])

theorem Matched.insertComponent (h : Matched s) (hc : c ∉ s.componentList) (x : Component) (hx : x.adev = none) :
    Matched { s with
      component := Function.update s.component c x
      componentList := s.componentList ++ [c] } :=
  ⟨h.owned.insertComponent hc x hx, h.sole⟩

theorem Matched.insertAggregate (h : Matched s) (ha : a ∉ s.aggregateDevices) (x : AggregateDevice) (hx : x.bound = false)
    (hnone : ∀ mc ∈ x.compare, mc.component = none) :
    Matched { s with
      aggregate := Function.update s.aggregate a x
      aggregateDevices := a :: s.aggregateDevices } := by
  refine ⟨h.owned.insertAggregate ha x hx hnone, fun b hb => ?_⟩
  by_cases hba : b = a
  · subst hba
    simpa using soleIn_of_none hnone
  · simp only [Function.update_of_ne hba]
    exact h.sole b (by simpa [hba] using hb)

/-! ### The calls -/

theorem Sole.remove (h : Sole s) : Sole (removeComponent s a c) := fun b hb => by
  by_cases hba : b = a
  · subst hba
    rw [removeComponent, setCompare_self]
    exact (h b hb).clear
  · rw [removeComponent, setCompare_of_ne hba]
    exact h b hb

theorem Sole.takeDown (h : Sole s) : Sole (takeDownAggregateDevice s a) := by
  unfold takeDownAggregateDevice
  split_ifs
  · exact h.of_compare (fun _ hb => hb) fun _ _ => setBound_compare
  · exact h

theorem Sole.free (h : Sole s) : Sole (freeAggregateDevice s a) := by
  obtain ⟨-, hdevs, hagg, -⟩ := releaseComponents_eq
    (s := { s with aggregateDevices := s.aggregateDevices.erase a }) (l := (s.aggregate a).compare)
  change (freeAggregateDevice s a).aggregateDevices = s.aggregateDevices.erase a at hdevs
  change (freeAggregateDevice s a).aggregate = s.aggregate at hagg
  refine h.of_compare (fun b hb => ?_) fun b _ => by rw [hagg]
  rw [hdevs] at hb
  exact List.mem_of_mem_erase hb

theorem Matched.step (h : Matched s) (hstep : Step s s') : Matched s' := by
  refine ⟨h.owned.step hstep, ?_⟩
  cases hstep with
  | componentAdd out c dev ops subcomponent hnew =>
    cases c with
    | none => exact h.sole
    | some c =>
      have hmasters := ((h.insertComponent (hnew c rfl) ⟨none, ops, subcomponent, dev⟩ rfl).tryMasters (c := c) out
        fun a ha => ha).sole
      rw [componentAdd]
      dsimp only
      split_ifs
      · split
        · exact hmasters.remove
        · exact hmasters
      · exact hmasters
  | componentDel dev ops =>
    unfold componentDel
    split
    · exact h.sole
    · dsimp only
      split
      · exact Sole.remove (Sole.takeDown (s := { s with componentList := _ }) h.sole)
      · exact h.sole
  | componentMasterAdd out adev parent ops compare hnew hmatch =>
    cases adev with
    | none => exact h.sole
    | some a =>
      have hnone : ∀ mc ∈ compare, mc.component = none := fun mc hmc => by
        obtain ⟨f, g, data, duplicate, rfl⟩ := hmatch mc hmc
        rfl
      have htry := ((h.insertAggregate (hnew a rfl) ⟨false, ops, parent, compare⟩ rfl hnone).tryBringUp out none
        (List.mem_cons_self ..)).sole
      rw [componentMasterAddWithMatch]
      dsimp only
      split_ifs
      · exact htry.free
      · exact htry
  | componentMasterDel parent ops =>
    unfold componentMasterDel
    split
    · exact h.sole
    · exact h.sole.takeDown.free

/-- The states in which the `bind` function of an aggregate device may be called: between the calls, when a component
or an aggregate device is in the list, and when some aggregate devices have looked for their components. -/
inductive Binding : State → Prop
  | reachable {s : State} : Reachable s → Binding s
  | component {s : State} (c dev ops : ℕ) (subcomponent : ℤ) : Binding s → c ∉ s.componentList →
      Binding { s with
        component := Function.update s.component c ⟨none, ops, subcomponent, dev⟩
        componentList := s.componentList ++ [c] }
  | aggregate {s : State} (adev parent ops : ℕ) (compare : List ComponentMatchArray) : Binding s →
      adev ∉ s.aggregateDevices → (∀ mc ∈ compare, ∃ f g data duplicate, mc = componentMatchAdd f g data duplicate) →
      Binding { s with
        aggregate := Function.update s.aggregate adev ⟨false, ops, parent, compare⟩
        aggregateDevices := adev :: s.aggregateDevices }
  | find {s : State} (adev : ℕ) : Binding s → adev ∈ s.aggregateDevices → Binding (findComponents s adev).1
  | bringUp {s : State} (out : Outcome) (adev : ℕ) (component : Option ℕ) : Binding s → adev ∈ s.aggregateDevices →
      Binding (tryToBringUpAggregateDevice out s adev component).1

theorem Reachable.matched (h : Reachable s) : Matched s := by
  induction h with
  | init hcomponents hdevices =>
    refine ⟨Reachable.owned (.init hcomponents hdevices), fun a ha => ?_⟩
    rw [hdevices] at ha
    cases ha
  | step _ hstep ih => exact ih.step hstep

theorem Binding.matched (h : Binding s) : Matched s := by
  induction h with
  | reachable h => exact h.matched
  | component c dev ops subcomponent _ hc ih => exact ih.insertComponent hc _ rfl
  | aggregate adev parent ops compare _ ha hmatch ih =>
    refine ih.insertAggregate ha _ rfl fun mc hmc => ?_
    obtain ⟨f, g, data, duplicate, rfl⟩ := hmatch mc hmc
    rfl
  | find adev _ ha ih => exact ih.find ha
  | bringUp out adev component _ ha ih => exact ih.tryBringUp out component ha

/-! ### All or nothing -/

theorem leftBehind_of_ne {ans : BindAnswers} {parent v : ℕ} {devOf : ℕ → ℕ} {cs : List ℕ} (hv : v ≠ parent) :
    leftBehind ans parent devOf cs v = [] := by
  refine List.flatMap_eq_nil_iff.mpr fun c _ => ?_
  rw [leftPart]
  split_ifs with hdev
  · rfl
  · refine List.filterMap_eq_nil_iff.mpr fun e _ => if_neg ?_
    split_ifs
    · exact Ne.symm hv
    · exact Ne.symm hdev

theorem BindAllOutcome.failed {ans : BindAnswers} {parent : ℕ} {devOf : ℕ → ℕ} {order : List ℕ} {xs : ℕ → List DevNode}
    {b b' : BindState} {ret : ℤ} (h : BindAllOutcome ans parent devOf order xs b b' ret) (hret : ret ≠ 0) :
    (∀ c, b.bound c = false → b'.bound c = false) ∧ ∀ v ≠ parent, DevList (b'.dev v) (xs v) := by
  rcases h with ⟨hzero, -⟩ | ⟨-, cs, c, rest, called, -, -, -, hbound, hlists⟩
  · exact absurd hzero hret
  · refine ⟨fun c hc => by rw [hbound, hc, Bool.false_and], fun v hv => ?_⟩
    have hlist : DevList (b'.dev v) (xs v ++ regs (leftBehind ans parent devOf cs v)) := hlists v
    rwa [leftBehind_of_ne hv, regs_nil, List.append_nil] at hlist

/-- `component_bind_all` binds each component once, in the order of the entries that are no duplicates. If one fails,
those before it are unbound in the reverse order, and only the parent may have entries more than before: those that
the components added to it. -/
theorem componentBindAll_atomic {s : State} {a : ℕ} (ans : BindAnswers) (fuel parent : ℕ) (xs : ℕ → List DevNode)
    (b : BindState) (hs : Binding s) (hfind : aggregateFindParent s parent = some a)
    (hfull : ∀ mc ∈ (s.aggregate a).compare, mc.component ≠ none) (h : b.Lists xs)
    (hfresh : FreshRun ans parent (fun c => (s.component c).dev) xs (bindOrder (s.aggregate a).compare))
    (hfuel : ∀ v, (xs v).length + cost ans (bindOrder (s.aggregate a).compare) < fuel) :
    (bindOrder (s.aggregate a).compare).Nodup ∧
      (∀ c, c ∈ bindOrder (s.aggregate a).compare ↔ ∃ mc ∈ (s.aggregate a).compare, mc.component = some c) ∧
      ∃ b' ret, componentBindAll ans fuel parent s b = some (b', ret) ∧
        BindAllOutcome ans parent (fun c => (s.component c).dev) (bindOrder (s.aggregate a).compare) xs b b' ret ∧
        (ret ≠ 0 → (∀ c, b.bound c = false → b'.bound c = false) ∧ ∀ v ≠ parent, DevList (b'.dev v) (xs v)) := by
  have ha : a ∈ s.aggregateDevices := List.mem_of_find?_eq_some hfind
  have hsole := hs.matched.sole a ha
  obtain ⟨b', ret, hrun, hout⟩ := bindMatch_spec hfull h hfresh hfuel
  refine ⟨nodup_bindOrder hsole, fun c => mem_bindOrder hsole, b', ret, ?_, hout, fun hret => hout.failed hret⟩
  rw [componentBindAll, hfind]
  exact hrun

theorem opn_mem_bindPart {ans : BindAnswers} {parent dev v g : ℕ} (h : .opn g ∈ bindPart ans parent dev c v) :
    g ∈ ans.ownGroup c := by
  rw [bindPart] at h
  split_ifs at h
  · simpa [regs] using h
  · simp [regs] at h

theorem reg_mem_bindPart {ans : BindAnswers} {parent dev v r : ℕ} (h : .reg r ∈ bindPart ans parent dev c v) :
    r ∈ (ans.adds c).map Prod.snd := by
  have hmem : r ∈ entriesOn parent dev (ans.adds c) v := by
    rw [bindPart] at h
    split_ifs at h
    · simpa [regs] using h
    · simpa [regs] using h
  obtain ⟨e, he, hr⟩ := List.mem_filterMap.mp hmem
  refine List.mem_map.mpr ⟨e, he, ?_⟩
  exact Option.some.inj (Option.ite_none_right_eq_some.mp hr).2

/-- Two components; the first one is accepted by two entries. -/
def twoComponents : State :=
  let out : Outcome := ⟨fun _ => 0, fun _ => true⟩
  let empty : State := ⟨fun _ => ⟨none, 0, 0, 0⟩, fun _ => ⟨false, 0, 0, []⟩, [], []⟩
  let s := (componentAdd out (componentAdd out empty (some 1) 11 0 0).1 (some 2) 12 0 0).1
  (componentMasterAddWithMatch out s (some 5) 10 0
    [componentMatchAdd (some fun dev data => dev = data) none 11 false,
      componentMatchAdd (some fun dev data => dev = data) none 11 false,
      componentMatchAdd (some fun dev data => dev = data) none 12 false]).1

theorem twoComponents_binding : Binding twoComponents := by
  refine .reachable (.step (.step (.step (.init rfl rfl) (.componentAdd _ (some 1) 11 0 0 (by simp)))
    (.componentAdd _ (some 2) 12 0 0 ?_)) (.componentMasterAdd _ (some 5) 10 0 _ ?_ ?_))
  · intro c hc
    obtain rfl : 2 = c := by simpa using hc
    decide
  · intro a ha
    obtain rfl : 5 = a := by simpa using ha
    decide
  · simp only [List.forall_mem_cons]
    exact ⟨⟨_, _, _, _, rfl⟩, ⟨_, _, _, _, rfl⟩, ⟨_, _, _, _, rfl⟩, fun _ hmc => absurd hmc List.not_mem_nil⟩

/-- The first component adds an entry to its device and one to the parent. The second one fails. -/
def secondFails : BindAnswers where
  ret c := if c = 2 then -5 else 0
  adds c := if c = 1 then [(true, 1), (false, 2)] else [(true, 3)]
  release _ := 0
  hasUnbind _ := true
  parentGroup c := some (2 * c)
  ownGroup c := some (2 * c + 1)

def noneBound : BindState := ⟨fun _ => false, fun _ => deviceInit blankDev, []⟩

theorem noneBound_lists : noneBound.Lists fun _ => [] := fun _ =>
  have h := DevSys.registered_start blankDev
  ⟨h.listed, h.todo, h.grouped⟩

theorem secondFails_fresh : FreshRun secondFails 10 (fun c => (twoComponents.component c).dev) (fun _ => [])
    (bindOrder (twoComponents.aggregate 5).compare) := by
  have horder : bindOrder (twoComponents.aggregate 5).compare = [1, 2] := by decide
  rw [horder]
  refine ⟨⟨by simp, by simp, by decide, by decide, by simp⟩, ⟨?_, ?_, by decide, by decide, ?_⟩, trivial⟩
  · intro g hg v hmem
    obtain rfl : 4 = g := by simpa [secondFails] using hg
    have hown := opn_mem_bindPart hmem
    simp [secondFails] at hown
  · intro g hg v hmem
    obtain rfl : 5 = g := by simpa [secondFails] using hg
    have hown := opn_mem_bindPart hmem
    simp [secondFails] at hown
  · intro e he v hmem
    obtain rfl : e = (true, 3) := by simpa [secondFails] using he
    have hadds := reg_mem_bindPart hmem
    simp [secondFails] at hadds

theorem secondFails_undone :
    ∃ b', componentBindAll secondFails 30 10 twoComponents noneBound = some (b', -5) ∧
      b'.calls = [.bind 1, .bind 2, .unbind 1] ∧ (∀ c, b'.bound c = false) ∧ DevList (b'.dev 11) [] := by
  obtain ⟨-, -, b', ret, hrun, -, hfailed⟩ := componentBindAll_atomic (a := 5) secondFails 30 10 (fun _ => []) noneBound
    twoComponents_binding (by decide) (by decide) noneBound_lists secondFails_fresh (fun _ => by decide)
  have hval : (componentBindAll secondFails 30 10 twoComponents noneBound).map (fun p => (p.2, p.1.calls)) =
      some (-5, [.bind 1, .bind 2, .unbind 1]) := by decide
  rw [hrun, Option.map_some, Option.some.injEq, Prod.mk.injEq] at hval
  obtain ⟨rfl, hcalls⟩ := hval
  obtain ⟨hbound, hlists⟩ := hfailed (by decide)
  exact ⟨b', hrun, hcalls, fun c => hbound c rfl, hlists 11 (by decide)⟩

/-- The entry on the parent is still there. -/
theorem secondFails_parent :
    Binding twoComponents ∧ aggregateFindParent twoComponents 10 = some 5 ∧
      (∀ mc ∈ (twoComponents.aggregate 5).compare, mc.component ≠ none) ∧ noneBound.Lists (fun _ => []) ∧
      FreshRun secondFails 10 (fun c => (twoComponents.component c).dev) (fun _ => [])
        (bindOrder (twoComponents.aggregate 5).compare) ∧
      (noneBound.dev 10).nodes 30 = [] ∧
      (componentBindAll secondFails 30 10 twoComponents noneBound).map (fun p => (p.2, (p.1.dev 10).nodes 30)) =
        some (-5, [.reg 1]) :=
  ⟨twoComponents_binding, by decide, by decide, noneBound_lists, secondFails_fresh, by decide, by decide⟩

end GfpDrivers.Aggregate
