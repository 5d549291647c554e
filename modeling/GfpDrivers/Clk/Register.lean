import GfpDrivers.Clk.Counts

/-!
Registration of a clock (`__clk_core_init`). The clock is linked into the
tree, a critical one is prepared and enabled, and orphans that find their
parent now are moved to it. All failures leave through one exit, which unlinks
the clock again.

A critical clock that cannot be enabled is not unprepared, as
`clk_core_unprepare` never gives up the last reference on a critical clock.
So its parent stays prepared. Apart from that a failed registration leaves no
trace.
-/

namespace GfpDrivers.Clk

open Lib Function

variable {κ υ R : Type} [DecidableEq κ]

section Model

variable (P : Platform κ υ R) (fuel : ℕ)

/-- The loops of `__clk_lookup_subtree` and `clk_core_lookup` over a list. -/
def lookupEach (f : κ → Option (Option κ)) : List κ → Option (Option κ)
  | [] => some none
  | c :: cs =>
      (f c).bind fun ret =>
        match ret with
        | some d => some (some d)
        | none => lookupEach f cs

/-- `__clk_lookup_subtree` -/
def clkLookupSubtree (s : ClkTree κ υ R) (name : String) : ℕ → κ → Option (Option κ)
  | 0, _ => none
  | fuel + 1, c =>
      if P.name c = name then some (some c)
      else lookupEach (clkLookupSubtree s name fuel) (s.list (.children c))

/-- `clk_core_lookup` -/
def clkCoreLookup (s : ClkTree κ υ R) (name : String) : Option (Option κ) :=
  lookupEach (clkLookupSubtree P s name fuel) (s.list .roots ++ s.list .orphans)

/-- `__clk_init_parent`. An entry of the table of parents is of use once its
clock is there. -/
def clkInitParent (a : Answers κ R) (s : ClkTree κ υ R) (c : κ) : Option κ :=
  let index := if 1 < (P.parents c).length ∧ (P.ops c).getParent then a.getParent c else 0
  (P.parents c)[index]?.filter fun p => s.hwCore p

/-- `clk_core_get_rate_nolock` -/
def clkCoreGetRateNolock (s : ClkTree κ υ R) : Option κ → ℕ
  | none => 0
  | some c => if (P.parents c).length = 0 ∨ (s.core c).parent.isSome then (s.core c).rate else 0

/-- The checks of `clk_ops` in `__clk_core_init`. -/
def ClkOps.sane (ops : ClkOps) (numParents : ℕ) : Bool :=
  !(ops.setRate && !((ops.roundRate || ops.determineRate) && ops.recalcRate)) &&
    !(ops.setParent && !ops.getParent) && !(decide (1 < numParents) && !ops.getParent) &&
    !(ops.setRateAndParent && !(ops.setParent && ops.setRate))

/-- The list that a new clock is put on. -/
def homeOf (c : κ) : Option κ → Home κ
  | some p => .children p
  | none => if (P.parents c).length = 0 then .roots else .orphans

/-- The clock is linked to its parent. -/
def clkLink (s : ClkTree κ υ R) (c : κ) (parent : Option κ) : ClkTree κ υ R :=
  let s := s.setCore c { s.core c with parent := parent }
  { s with list := hlistAddHead s.list c (homeOf P c parent) }

/-- The rate of the clock is read for the first time. -/
def clkFirstRate (s : ClkTree κ υ R) (c : κ) (parent : Option κ) : ClkTree κ υ R :=
  let rate :=
    if (P.ops c).recalcRate then P.recalcRate c (s.core c).reg (clkCoreGetRateNolock P s parent)
    else
      match parent with
      | some p => (s.core p).rate
      | none => 0
  s.setCore c { s.core c with rate := rate, reqRate := rate }

/-- A critical clock is prepared and enabled. -/
def clkStartCritical (s : ClkTree κ υ R) (c : κ) : Option (ClkTree κ υ R × ℤ) :=
  if (P.flags c).isCritical then
    (clkCorePrepareLock P fuel s (some c)).bind fun (s, ret) =>
      if ret ≠ 0 then some (s, ret)
      else
        (clkCoreEnableLock P fuel s (some c)).bind fun (s, ret) =>
          if ret ≠ 0 then (clkCoreUnprepare P fuel s (some c)).map (·, ret) else some (s, 0)
  else some (s, 0)

/-- One round of `clk_core_reparent_orphans_nolock`. -/
def clkReparentOrphan (s : ClkTree κ υ R) (orphan : κ) : Option (ClkTree κ υ R) :=
  match clkInitParent P (P.answers s.time) s orphan with
  | none => some s.tick
  | some parent =>
      (clkSetParentBefore P fuel s.tick orphan (some parent)).bind fun (s, _) =>
        (clkSetParentAfter P fuel s orphan (some parent) none).bind fun s =>
          (clkRecalcRates P (P.answers s.time) fuel s.tick orphan).map fun s =>
            s.setCore orphan { s.core orphan with reqRate := (s.core orphan).rate }

/-- `clk_core_reparent_orphans_nolock`. A round takes no other clock off the
list of orphans than its own, so that the rounds go through the list as it was
at first. -/
def clkCoreReparentOrphansNolock (s : ClkTree κ υ R) : Option (ClkTree κ υ R) :=
  (s.list .orphans).foldlM (clkReparentOrphan P fuel) s

/-- The part of `__clk_core_init` that comes after `init`. -/
def clkInitLinked (a : Answers κ R) (s : ClkTree κ υ R) (c : κ) : Option (ClkTree κ υ R × ℤ) :=
  let parent := clkInitParent P a s c
  let s := clkLink P s c parent
  if a.getPhase c < 0 then some (s, a.getPhase c)
  else
    (clkStartCritical P fuel (clkFirstRate P s c parent) c).bind fun (s, ret) =>
      if ret ≠ 0 then some (s, ret) else (clkCoreReparentOrphansNolock P fuel s).map (·, 0)

/-- The exit of `__clk_core_init`. -/
def clkInitOut (s : ClkTree κ υ R) (c : κ) (ret : ℤ) : ClkTree κ υ R :=
  if ret ≠ 0 then { s with list := hlistDel s.list c, hwCore := Function.update s.hwCore c false } else s

/-- `core->hw->core = core` -/
def ClkTree.enter (s : ClkTree κ υ R) (c : κ) : ClkTree κ υ R :=
  { s with hwCore := Function.update s.hwCore c true }

/-- `__clk_core_init` -/
def clkCoreInit (s : ClkTree κ υ R) (c : κ) : Option (ClkTree κ υ R × ℤ) :=
  let a := P.answers s.time
  let s := s.tick.enter c
  (if a.runtimeGet c ≠ 0 then some (s, a.runtimeGet c)
    else
      (clkCoreLookup P fuel s (P.name c)).bind fun found =>
        if found.isSome then some (s, -EEXIST)
        else if (P.ops c).sane (P.parents c).length = false then some (s, -EINVAL)
        else if a.init c ≠ 0 then some (s, a.init c)
        else clkInitLinked P fuel a s c).map fun (s, ret) => (clkInitOut s c ret, ret)

end Model

/-! ### What is expected -/

variable {P : Platform κ υ R} {s s' s₁ : ClkTree κ υ R} {fuel : ℕ} {c d p : κ} {ret : ℤ}
  {parent : Option κ} {a : Answers κ R}

/-- The clocks that are there form a forest, and the critical ones run. -/
structure Registered (P : Platform κ υ R) (s : ClkTree κ υ R) : Prop where
  acyclic : Acyclic s.parent
  parents : ∀ d p, s.parent d = some p → s.hwCore p
  prepared : ∀ d, s.hwCore d → P.critical d → 0 < s.prepares d
  enabled : ∀ d, s.hwCore d → P.critical d → 0 < s.enables d

/-- The clock is not there yet. -/
structure Fresh (P : Platform κ υ R) (s : ClkTree κ υ R) (c : κ) : Prop where
  unknown : s.hwCore c = false
  unlisted : ∀ h, c ∉ s.list h
  prepares : s.prepares c = 0
  enables : s.enables c = 0
  loopless : c ∉ P.parents c

/-- Nothing has happened to the clock `d`. -/
structure SameClock (s s' : ClkTree κ υ R) (d : κ) : Prop where
  parent : (s'.core d).parent = (s.core d).parent
  children : s'.list (.children d) = s.list (.children d)
  prepareCount : (s'.core d).prepareCount = (s.core d).prepareCount
  enableCount : (s'.core d).enableCount = (s.core d).enableCount
  protectCount : (s'.core d).protectCount = (s.core d).protectCount
  rate : (s'.core d).rate = (s.core d).rate

/-- Nothing has happened to the clocks that were there. -/
def Untouched (s s' : ClkTree κ υ R) : Prop := ∀ d, s.hwCore d → SameClock s s' d

/-- A critical clock with a parent passes all checks, and can be prepared. -/
structure StaysPrepared (P : Platform κ υ R) (fuel : ℕ) (s : ClkTree κ υ R) (c : κ) : Prop where
  runtimeGet : (P.answers s.time).runtimeGet c = 0
  unknown : clkCoreLookup P fuel s (P.name c) = some none
  sane : (P.ops c).sane (P.parents c).length = true
  init : (P.answers s.time).init c = 0
  phase : 0 ≤ (P.answers s.time).getPhase c
  critical : P.critical c
  hasParent : clkInitParent P (P.answers s.time) s c ≠ none
  canPrepare : CanPrepare (P.answers (s.time + 1))
    (Function.update s.parent c (clkInitParent P (P.answers s.time) s c)) s.prepares fuel (some c)

/-! ### Failed registrations -/

/-- Only the clock `c` was touched, and it may have been put on a list. -/
structure Quiet (s s' : ClkTree κ υ R) (c : κ) : Prop where
  core : ∀ d ≠ c, s'.core d = s.core d
  list : ∀ h, (s'.list h).erase c = s.list h

theorem Quiet.untouched (h : Quiet s s₁ c) (hc : s.hwCore c = false) (hret : ret ≠ 0) :
    Untouched s (clkInitOut s₁ c ret) := by
  intro d hd
  have hne : d ≠ c := fun heq => by simp [heq, hc] at hd
  have hcore := h.core d hne
  rw [clkInitOut, if_pos hret]
  refine ⟨?_, h.list (.children d), ?_, ?_, ?_, ?_⟩ <;> simp only [hcore]

theorem Quiet.setCore {v : ClkCore κ R} (h : Quiet s s₁ c) : Quiet s (s₁.setCore c v) c where
  core d hd := (update_of_ne hd ..).trans (h.core d hd)
  list := h.list

theorem quiet_start (h : Fresh P s c) : Quiet s (s.tick.enter c) c where
  core _ _ := rfl
  list l := List.erase_of_not_mem (h.unlisted l)

theorem quiet_link (h : Fresh P s c) : Quiet s (clkLink P (s.tick.enter c) c parent) c where
  core d hd := update_of_ne hd ..
  list l := by
    by_cases hl : l = homeOf P c parent
    · subst hl
      simp [clkLink, hlistAddHead, ClkTree.setCore, ClkTree.enter, ClkTree.tick]
    · simp [clkLink, hlistAddHead, ClkTree.setCore, ClkTree.enter, ClkTree.tick, hl,
        List.erase_of_not_mem (h.unlisted l)]

omit [DecidableEq κ] in
theorem clkInitParent_mem (h : clkInitParent P a s c = some p) : p ∈ P.parents c ∧ s.hwCore p := by
  obtain ⟨hp, hcore⟩ := Option.filter_eq_some_iff.mp h
  exact ⟨List.mem_of_getElem? hp, hcore⟩

theorem clkInitParent_enter (h : c ∉ P.parents c) :
    clkInitParent P a (s.tick.enter c) c = clkInitParent P a s c := by
  simp only [clkInitParent]
  cases hp : (P.parents c)[if 1 < (P.parents c).length ∧ (P.ops c).getParent = true then a.getParent c
    else 0]? with
  | none => rfl
  | some p =>
    have hmem : p ∈ P.parents c := List.mem_of_getElem? hp
    have hne : p ≠ c := by
      rintro rfl
      exact h hmem
    simp [Option.filter, hne, ClkTree.enter, ClkTree.tick]

theorem clkStartCritical_eq :
    clkStartCritical P fuel s c =
      if P.critical c then
        (clkCorePrepare P (P.answers s.time) fuel s.tick (some c)).bind fun r =>
          if r.2 ≠ 0 then some r
          else
            (clkCoreEnable P (P.answers r.1.time) fuel r.1.tick (some c)).bind fun r =>
              if r.2 ≠ 0 then (clkCoreUnprepare P fuel r.1 (some c)).map (·, r.2) else some (r.1, 0)
      else some (s, 0) := rfl

/-- A critical clock that cannot be started is left as it was, or prepared. -/
theorem clkStartCritical_failed [Fintype κ] (hacyc : Acyclic s.parent) (hfuel : Fintype.card κ ≤ fuel)
    (hprep : ∀ d, Under s.parent c d → P.critical d → 0 < s.prepares d)
    (hen : ∀ d, Under s.parent c d → P.critical d → 0 < s.enables d) (hzero : s.prepares c = 0)
    (h : clkStartCritical P fuel s c = some (s', ret)) (hret : ret ≠ 0) :
    P.critical c ∧
      (¬CanPrepare (P.answers s.time) s.parent s.prepares fuel (some c) ∧ s' = s.tick ∨
        CanPrepare (P.answers s.time) s.parent s.prepares fuel (some c) ∧
          ∃ n m, s' = ((s.tick.withPrepares n).withProtects m).tick ∧
            acquire s.parent fuel s.prepares (some c) = some n ∧
            ∀ d, ¬Above s.parent (some c) d → m d = s.protects d) := by
  rw [clkStartCritical_eq] at h
  by_cases hcrit : P.critical c
  · refine ⟨hcrit, ?_⟩
    rw [if_pos hcrit] at h
    obtain ⟨s₁, ret₁, hrun, hcase⟩ := clkCorePrepare_cases (P := P) (a := P.answers s.time) (s := s.tick)
      (q := some c) hacyc (fun b hb d hd => hprep d (Option.some.inj hb ▸ hd)) (hacyc.reaches hfuel)
    have hcan := clkCorePrepare_ret hrun
    rw [tick_parent, tick_prepares] at hcan
    rw [hrun, Option.bind_some] at h
    rcases hcase with ⟨hret₁, rfl⟩ | ⟨rfl, ⟨n, m, rfl, hn, hm⟩, -⟩
    · rw [if_pos hret₁] at h
      exact .inl ⟨fun hok => hret₁ (hcan.mpr hok), (Prod.mk.inj (Option.some.inj h)).1.symm⟩
    · -- enabling fails, and the clock is not unprepared
      refine .inr ⟨hcan.mp rfl, n, m, ?_, hn, hm⟩
      have hreach : Reaches s.parent fuel (some c) := hacyc.reaches hfuel
      obtain ⟨n', ret₂, henable, hcase⟩ := clkCoreEnable_cases (P := P)
        (a := P.answers ((s.tick.withPrepares n).withProtects m).time)
        (s := ((s.tick.withPrepares n).withProtects m).tick) (q := some c)
        hacyc (fun b hb d hd => hen d (Option.some.inj hb ▸ hd)) hreach
      rw [if_neg (by simp), henable, Option.bind_some] at h
      rcases hcase with ⟨hret₂, rfl⟩ | ⟨rfl, -⟩
      · have hone : n c = 1 := by rw [acquire_self hacyc hn, tick_prepares, hzero]
        rw [if_pos hret₂, withEnables_self] at h
        cases fuel with
        | zero => exact hreach.elim
        | succ fuel =>
          rw [clkCoreUnprepare_succ, if_pos (.inr ⟨hone, hcrit⟩), Option.map_some] at h
          exact (Prod.mk.inj (Option.some.inj h)).1.symm
      · rw [if_neg (by simp)] at h
        exact absurd (Prod.mk.inj (Option.some.inj h)).2.symm hret
  · rw [if_neg hcrit] at h
    exact absurd (Prod.mk.inj (Option.some.inj h)).2.symm hret

omit [DecidableEq κ] in
theorem clkCoreLookup_congr {name : String} (h : s'.list = s.list) :
    clkCoreLookup P fuel s' name = clkCoreLookup P fuel s name := by
  have hsub : ∀ k, clkLookupSubtree P s' name k = clkLookupSubtree P s name k := by
    intro k
    induction k with
    | zero => rfl
    | succ k ih =>
      funext d
      simp only [clkLookupSubtree, ih, h]
  rw [clkCoreLookup, clkCoreLookup, hsub, h]

/-- The tree with the new clock on its place, before it is started. -/
def placed (P : Platform κ υ R) (s : ClkTree κ υ R) (c : κ) : ClkTree κ υ R :=
  let parent := clkInitParent P (P.answers s.time) s c
  clkFirstRate P (clkLink P (s.tick.enter c) c parent) c parent

theorem quiet_placed (h : Fresh P s c) : Quiet s (placed P s c) c := (quiet_link h).setCore

theorem placed_parent :
    (placed P s c).parent = update s.parent c (clkInitParent P (P.answers s.time) s c) := by
  funext d
  by_cases hd : d = c
  · subst hd
    simp [placed, clkFirstRate, clkLink, ClkTree.setCore, ClkTree.parent]
  · simp [placed, clkFirstRate, clkLink, ClkTree.setCore, ClkTree.parent, hd, ClkTree.tick,
      ClkTree.enter]

theorem placed_prepares : (placed P s c).prepares = s.prepares := by
  funext d
  by_cases hd : d = c
  · subst hd
    simp [placed, clkFirstRate, clkLink, ClkTree.setCore, ClkTree.prepares, ClkTree.tick,
      ClkTree.enter]
  · simp [placed, clkFirstRate, clkLink, ClkTree.setCore, ClkTree.prepares, hd, ClkTree.tick,
      ClkTree.enter]

theorem placed_enables : (placed P s c).enables = s.enables := by
  funext d
  by_cases hd : d = c
  · subst hd
    simp [placed, clkFirstRate, clkLink, ClkTree.setCore, ClkTree.enables, ClkTree.tick,
      ClkTree.enter]
  · simp [placed, clkFirstRate, clkLink, ClkTree.setCore, ClkTree.enables, hd, ClkTree.tick,
      ClkTree.enter]

theorem Fresh.acyclic (h : Fresh P s c) (hreg : Registered P s) : Acyclic (placed P s c).parent := by
  rw [placed_parent]
  refine hreg.acyclic.reparent fun p hp hpc => ?_
  obtain rfl | ⟨d, -, hd⟩ := Relation.ReflTransGen.cases_tail_iff .. |>.mp hpc
  · exact h.loopless (clkInitParent_mem hp).1
  · have := hreg.parents d c hd
    simp [h.unknown] at this

theorem Fresh.above (h : Fresh P s c) (hreg : Registered P s) (hd : Under (placed P s c).parent c d) :
    s.hwCore d := by
  rw [placed_parent] at hd
  obtain ⟨e, -, he⟩ := Relation.TransGen.tail'_iff.mp hd
  by_cases hec : e = c
  · subst hec
    exact (clkInitParent_mem (by simpa [ChildOf] using he)).2
  · exact hreg.parents e d (by simpa [ChildOf, hec] using he)

/-- The clock is prepared for good. The clocks above it are counted when it
has a parent. -/
theorem untouched_prepared_iff (hreg : Registered P s) (hfresh : Fresh P s c) {n m : κ → ℕ}
    (hn : acquire (placed P s c).parent fuel (placed P s c).prepares (some c) = some n)
    (hm : ∀ d, ¬Above (placed P s c).parent (some c) d → m d = (placed P s c).protects d)
    (hret : ret ≠ 0) :
    Untouched s (clkInitOut ((((placed P s c).tick.withPrepares n).withProtects m).tick) c ret) ↔
      clkInitParent P (P.answers s.time) s c = none := by
  have hquiet := quiet_placed hfresh
  have hacyc := hfresh.acyclic hreg
  rw [clkInitOut, if_pos hret]
  refine ⟨fun h => ?_, fun hnone d hd => ?_⟩
  · by_contra hparent
    obtain ⟨p, hp⟩ := Option.ne_none_iff_exists'.mp hparent
    have hpc : p ≠ c := by
      rintro rfl
      exact hfresh.loopless (clkInitParent_mem hp).1
    have hsame : n p = s.prepares p := (h p (clkInitParent_mem hp).2).prepareCount
    have hup : (placed P s c).parent c = some p := by
      rw [placed_parent, update_self, hp]
    have hzero : (placed P s c).prepares c = 0 := by
      rw [placed_prepares]
      exact hfresh.prepares
    cases fuel with
    | zero => cases hn
    | succ fuel =>
      rw [acquire_succ, if_pos hzero, hup] at hn
      obtain ⟨n₁, hn₁, rfl⟩ := Option.map_eq_some_iff.mp hn
      rw [update_of_ne hpc, acquire_self hacyc hn₁, placed_prepares] at hsame
      omega
  · have hne : d ≠ c := fun heq => by simp [heq, hfresh.unknown] at hd
    have hnot : ¬Above (placed P s c).parent (some c) d := by
      rintro ⟨b, hb, hbd⟩
      obtain rfl : c = b := Option.some.inj hb
      rcases Relation.ReflTransGen.cases_head hbd with heq | ⟨e, he, -⟩
      · exact hne heq.symm
      · simp [ChildOf, placed_parent, hnone] at he
    have hfield : ∀ {β : Type} (f : ClkCore κ R → β), f ((placed P s c).core d) = f (s.core d) :=
      fun f => congrArg f (hquiet.core d hne)
    refine ⟨hfield (·.parent), hquiet.list (.children d), ?_, hfield (·.enableCount), ?_, hfield (·.rate)⟩
    · exact (acquire_frame hn hnot).trans (hfield (·.prepareCount))
    · exact (hm d hnot).trans (hfield (·.protectCount))

/-- A failed registration leaves the other clocks as they were, unless a
critical clock with a parent got as far as being prepared. -/
theorem failed_init_untouched_iff [Fintype κ] (hreg : Registered P s) (hfresh : Fresh P s c)
    (hfuel : Fintype.card κ ≤ fuel) (h : clkCoreInit P fuel s c = some (s', ret)) (hret : ret ≠ 0) :
    Untouched s s' ↔ ¬StaysPrepared P fuel s c := by
  obtain ⟨⟨s₂, ret₂⟩, hstage, heq⟩ := Option.map_eq_some_iff.mp h
  obtain ⟨rfl, rfl⟩ : clkInitOut s₂ c ret₂ = s' ∧ ret₂ = ret := Prod.mk.inj heq
  have hstart : ∀ r, some (s.tick.enter c, r) = some (s₂, ret₂) →
      Untouched s (clkInitOut s₂ c ret₂) := fun r heq => by
    rw [← (Prod.mk.inj (Option.some.inj heq)).1]
    exact (quiet_start hfresh).untouched hfresh.unknown hret
  by_cases hget : (P.answers s.time).runtimeGet c = 0
  swap
  · rw [if_pos hget] at hstage
    exact iff_of_true (hstart _ hstage) fun hst => hget hst.runtimeGet
  rw [if_neg (not_not.mpr hget)] at hstage
  obtain ⟨found, hfound, hstage⟩ := Option.bind_eq_some_iff.mp hstage
  have hlook : clkCoreLookup P fuel s (P.name c) = some found := by
    rw [← hfound]
    exact clkCoreLookup_congr rfl
  by_cases hnew : found.isSome
  · rw [if_pos hnew] at hstage
    refine iff_of_true (hstart _ hstage) fun hst => ?_
    rw [Option.some.inj (hlook.symm.trans hst.unknown)] at hnew
    exact absurd hnew (by simp)
  rw [if_neg hnew] at hstage
  obtain rfl : found = none := Option.not_isSome_iff_eq_none.mp hnew
  by_cases hsane : (P.ops c).sane (P.parents c).length = true
  swap
  · rw [if_pos (by simpa using hsane)] at hstage
    exact iff_of_true (hstart _ hstage) fun hst => hsane hst.sane
  rw [if_neg (by simpa using hsane)] at hstage
  by_cases hinit : (P.answers s.time).init c = 0
  swap
  · rw [if_pos hinit] at hstage
    exact iff_of_true (hstart _ hstage) fun hst => hinit hst.init
  rw [if_neg (not_not.mpr hinit), clkInitLinked, clkInitParent_enter hfresh.loopless] at hstage
  by_cases hphase : (P.answers s.time).getPhase c < 0
  · rw [if_pos hphase] at hstage
    rw [← (Prod.mk.inj (Option.some.inj hstage)).1]
    exact iff_of_true ((quiet_link hfresh).untouched hfresh.unknown hret) fun hst => hst.phase.not_gt hphase
  rw [if_neg hphase] at hstage
  -- the clock is on its place and is started
  obtain ⟨⟨s₃, ret₃⟩, hstarted, hstage⟩ := Option.bind_eq_some_iff.mp hstage
  dsimp only at hstage
  by_cases hret₃ : ret₃ = 0
  · rw [if_neg (not_not.mpr hret₃)] at hstage
    obtain ⟨s₄, -, heq⟩ := Option.map_eq_some_iff.mp hstage
    exact absurd (Prod.mk.inj heq).2.symm hret
  rw [if_pos hret₃] at hstage
  obtain ⟨rfl, rfl⟩ := Prod.mk.inj (Option.some.inj hstage)
  have habove : ∀ d, Under (placed P s c).parent c d → s.hwCore d := fun d hd => hfresh.above hreg hd
  obtain ⟨hcrit, hcase⟩ := clkStartCritical_failed (s := placed P s c) (hfresh.acyclic hreg) hfuel
    (fun d hd hc => by
      rw [placed_prepares]
      exact hreg.prepared d (habove d hd) hc)
    (fun d hd hc => by
      rw [placed_enables]
      exact hreg.enabled d (habove d hd) hc)
    (by
      rw [placed_prepares]
      exact hfresh.prepares) hstarted hret
  rw [placed_parent, placed_prepares] at hcase
  rcases hcase with ⟨hcan, rfl⟩ | ⟨hcan, n, m, rfl, hn, hm⟩
  · have hquiet : Quiet s (placed P s c).tick c := ⟨(quiet_placed hfresh).core, (quiet_placed hfresh).list⟩
    exact iff_of_true (hquiet.untouched hfresh.unknown hret) fun hst => hcan hst.canPrepare
  · rw [← placed_parent, ← placed_prepares (P := P)] at hn
    rw [← placed_parent] at hm
    rw [untouched_prepared_iff hreg hfresh hn hm hret, ← not_iff_not, not_not]
    exact ⟨fun hpar => ⟨hget, hlook, hsane, hinit, not_lt.mp hphase, hcrit, hpar, hcan⟩,
      fun hst => hst.hasParent⟩

/-- A clock `1` that is to be registered under the clock `0`. It is critical,
and it answers `init` and `enable` as given. -/
def cpuClock (init enable : ℤ) : Platform (Fin 2) Empty Unit where
  name c := if c = 1 then "cpu" else "osc"
  flags c := ⟨false, false, false, c = 1, false, false⟩
  ops _ := ⟨false, false, false, false, false, false, false⟩
  parents c := if c = 1 then [0] else []
  recalcRate _ _ parentRate := parentRate
  coreOf := nofun
  answers _ := ⟨fun _ => 0, fun _ => 0, fun c => if c = 1 then enable else 0, fun _ _ r => (r, 0), fun _ => 0,
    fun c => if c = 1 then init else 0, fun _ => 0, fun _ => 0⟩

/-- Only the clock `0` is there. -/
def oscOnly : ClkTree (Fin 2) Empty Unit where
  core _ := ⟨none, 24, 24, 24, none, 0, none, 0, 0, 0, ()⟩
  hwCore c := c = 0
  list h := if h = .roots then [0] else []
  user := nofun
  time := 0

theorem oscOnly_registered {init enable : ℤ} : Registered (cpuClock init enable) oscOnly where
  acyclic c h := by
    obtain ⟨d, hd, -⟩ := Relation.TransGen.head'_iff.mp h
    simp [ChildOf, ClkTree.parent, oscOnly] at hd
  parents d p h := by simp [ClkTree.parent, oscOnly] at h
  prepared d h hc := by simp_all [oscOnly, Platform.critical, cpuClock]
  enabled d h hc := by simp_all [oscOnly, Platform.critical, cpuClock]

theorem cpu_fresh {init enable : ℤ} : Fresh (cpuClock init enable) oscOnly 1 where
  unknown := rfl
  unlisted h := by
    by_cases hr : h = .roots <;> simp [oscOnly, hr]
  prepares := rfl
  enables := rfl
  loopless := by simp [cpuClock]

theorem failed_init_of_cpu : ∃ s', clkCoreInit (cpuClock (-5) 0) 2 oscOnly 1 = some (s', -5) ∧
    (Untouched oscOnly s' ↔ ¬StaysPrepared (cpuClock (-5) 0) 2 oscOnly 1) := by
  obtain ⟨s', hs'⟩ : ∃ s', clkCoreInit (cpuClock (-5) 0) 2 oscOnly 1 = some (s', -5) := ⟨_, rfl⟩
  exact ⟨s', hs', failed_init_untouched_iff oscOnly_registered cpu_fresh (by decide) hs' (by decide)⟩

/-- The clock `0` stays prepared when its child cannot be enabled. -/
theorem failed_enable_leaves_parent_prepared :
    ∃ s', clkCoreInit (cpuClock 0 (-5)) 2 oscOnly 1 = some (s', -5) ∧ ¬Untouched oscOnly s' := by
  refine ⟨_, rfl, fun h => ?_⟩
  have hcount := (h 0 rfl).prepareCount
  revert hcount
  decide

end GfpDrivers.Clk
