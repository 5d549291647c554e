import GfpDrivers.Clk.Plan

/-!
Exclusive control over the rate of a clock (`clk_rate_exclusive_get`). While a
consumer has it, the clock and all clocks above it are protected. A request that
comes to a protected clock is answered with the rate that the clock has, and the
clock is then set to this rate again, with everything below it.

So nothing changes as long as the rates that are kept are those of the hardware.
A protected clock that only passes requests on to its parent gets the rate of the
parent as its new rate, whatever its own rate is. If these two differ, wrong rates
are planned for its children, and set.
-/

namespace GfpDrivers.Clk

open Lib Function

variable {κ υ R : Type} [DecidableEq κ] {Q : RatePlatform κ υ R} {fuel k : ℕ} {t t' : ClkTree κ υ R}
  {s s' : RateTree κ υ R} {c d : κ} {rate : ℕ} {ret : ℤ}

/-! ### What is protected -/

/-- Where a clock is protected, so is its parent. -/
def ProtectedUp (t : ClkTree κ υ R) : Prop := ∀ d p, t.parent d = some p → 0 < t.protects d → 0 < t.protects p

theorem clkCoreReqRoundRateNolock_eq (hacyc : Acyclic t.parent) (hup : ProtectedUp t)
    (h : clkCoreReqRoundRateNolock Q fuel t c rate = some (t', k)) : t' = t.tick := by
  obtain ⟨⟨t₁, cnt⟩, ht₁, hrest⟩ := Option.bind_eq_some_iff.mp h
  obtain ⟨⟨req, ret⟩, -, hrest⟩ := Option.bind_eq_some_iff.mp hrest
  obtain ⟨t₂, ht₂, heq⟩ := Option.map_eq_some_iff.mp hrest
  obtain ⟨rfl, -⟩ := Prod.mk.inj heq
  unfold clkCoreRateNukeProtect at ht₁
  dsimp only at ht₁
  split at ht₁
  · obtain ⟨rfl, rfl⟩ := Prod.mk.inj (Option.some.inj ht₁)
    exact (Option.some.inj ht₂).symm
  · next hcnt =>
      obtain ⟨t₃, ht₃, heq⟩ := Option.map_eq_some_iff.mp ht₁
      obtain ⟨rfl, rfl⟩ := Prod.mk.inj heq
      rw [setCore_protectCount, clkCoreRateUnprotect_eq] at ht₃
      obtain ⟨m, hm, rfl⟩ := Option.map_eq_some_iff.mp ht₃
      have hcpos : 0 < t.protects c := Nat.pos_of_ne_zero hcnt
      have hback : acquire t.parent fuel m (some c) = some (update t.protects c 1) := by
        refine acquire_release hacyc (fun b hb => ?_) (fun b p _ hp hpos => ?_) hm
        · rw [← Option.some.inj hb]
          simp
        · by_cases hpc : p = c
          · subst hpc
            simp
          · rw [update_of_ne hpc]
            refine hup b p hp ?_
            by_cases hbc : b = c
            · rw [hbc]
              exact hcpos
            · rwa [update_of_ne hbc] at hpos
      unfold clkCoreRateRestoreProtect at ht₂
      rw [if_neg hcnt, clkCoreRateProtect_eq] at ht₂
      change Option.map _ ((acquire t.parent fuel m (some c)).map _) = _ at ht₂
      rw [hback, Option.map_some, Option.map_some] at ht₂
      rw [← Option.some.inj ht₂]
      refine setCore_protectCount.trans ?_
      change t.tick.withProtects (update (update t.protects c 1) c (t.protects c)) = t.tick
      rw [update_idem, update_eq_self]
      rfl

/-- The protected clocks are steady: the rates that are kept are those of the
hardware, a clock that passes requests on has the rate of its parent, and the
hardware can always be read. -/
structure Steady (Q : RatePlatform κ υ R) (t : ClkTree κ υ R) : Prop where
  runtimeGet : ∀ n d, 0 < t.protects d → (Q.answers n).runtimeGet d = 0
  rate : ∀ d, 0 < t.protects d → Q.recalcRate d (t.core d).reg (t.parentRate d) = (t.core d).rate
  passOn : ∀ d p, 0 < t.protects d → t.parent d = some p → clkCoreCanRound Q d = false →
    (Q.flags d).setRateParent → (t.core d).rate = (t.core p).rate

/-- `set_rate` with the rate that a clock has keeps this rate. -/
def KeepsRate (Q : RatePlatform κ υ R) : Prop :=
  ∀ n d rate parentRate reg, Q.recalcRate d reg parentRate = rate →
    Q.recalcRate d ((Q.rateAnswers n).setRate d rate parentRate reg) parentRate = rate

/-! ### Setting a rate -/

/-- What a walk keeps of the clocks that are protected in `t₀`. -/
structure Kept (Q : RatePlatform κ υ R) (V : κ → Prop) (t₀ t : ClkTree κ υ R) (d : κ) : Prop where
  rate : (t.core d).rate = (t₀.core d).rate
  parent : t.parent d = t₀.parent d
  reg : Q.recalcRate d (t.core d).reg (t₀.parentRate d) = (t₀.core d).rate
  newRate : V d → (t.core d).newRate = (t₀.core d).rate
  stays : V d → ¬Moves t d

variable {V : κ → Prop} {t₀ : ClkTree κ υ R}

theorem plannedParentRate_of_stays (h : ¬Moves t c) : plannedParentRate t c = t.parentRate c := by
  unfold plannedParentRate ClkTree.parentRate
  cases hnew : (t.core c).newParent with
  | none =>
    rw [Option.none_or]
    cases (t.core c).parent <;> rfl
  | some p =>
    have hparent : (t.core c).parent = some p := by
      by_contra hne
      exact h ⟨by simp [hnew], by rw [hnew]; exact Ne.symm hne⟩
    rw [hparent]
    rfl

theorem Kept.change (hkeep : KeepsRate Q) (hup : ProtectedUp t₀)
    (hruntime : ∀ n d, 0 < t₀.protects d → (Q.answers n).runtimeGet d = 0)
    (h : ∀ d, 0 < t₀.protects d → Kept Q V t₀ t d) (hc : V c) (hrun : changeClock Q fuel t c = some t')
    (hd : 0 < t₀.protects d) : Kept Q V t₀ t' d := by
  obtain ⟨n, n', reg, hbare, hreg⟩ := changeClock_bare hrun
  obtain ⟨hrate, hparent, hregd, hnew, hstays⟩ := h d hd
  by_cases hdc : d = c
  · subst hdc
    have hstay := hstays hc
    have hprate : plannedParentRate t d = t₀.parentRate d := by
      rw [plannedParentRate_of_stays hstay]
      unfold ClkTree.parentRate
      rw [show (t.core d).parent = (t₀.core d).parent from hparent]
      cases hp : (t₀.core d).parent with
      | none => rfl
      | some p => exact (h p (hup d p hp hd)).rate
    rw [hprate] at hbare hreg
    have hregs : Q.recalcRate d reg (t₀.parentRate d) = (t₀.core d).rate := by
      rw [hreg hstay, writeRate, hnew hc]
      split
      · exact hkeep _ _ _ _ _ hregd
      · exact hregd
    have hread : readRate Q n d reg (t₀.parentRate d) = (t₀.core d).rate := by
      rw [readRate, if_pos (hruntime n d hd), hregs]
    rw [hread] at hbare
    refine ⟨?_, ?_, ?_, fun hV => ?_, fun hV => ?_⟩
    · rw [bare_field hbare (·.rate) fun _ => rfl, changed_core_self]
    · rw [parent_of_bare hbare, changed_parent, if_neg fun hm => hstay hm.2, hparent]
    · rw [bare_field hbare (·.reg) fun _ => rfl, changed_core_self]
      exact hregs
    · rw [bare_field hbare (·.newRate) fun _ => rfl, changed_newRate]
      exact hnew hV
    · rw [moves_of_bare hbare]
      exact not_moves_changed
  · have hfield {β : Type} (f : ClkCore κ R → β)
        (hf : ∀ v : ClkCore κ R, f { v with enableCount := 0, prepareCount := 0, protectCount := 0 } = f v)
        (hf' : ∀ v : ClkCore κ R, f { v with newChild := none } = f v) : f (t'.core d) = f (t.core d) := by
      rw [bare_field hbare f hf, changed_field hdc f hf']
    refine ⟨?_, ?_, ?_, fun hV => ?_, fun hV hm => ?_⟩
    · rw [hfield (·.rate) (fun _ => rfl) fun _ => rfl, hrate]
    · rw [← hparent]
      exact hfield (·.parent) (fun _ => rfl) fun _ => rfl
    · rw [hfield (·.reg) (fun _ => rfl) fun _ => rfl]
      exact hregd
    · rw [hfield (·.newRate) (fun _ => rfl) fun _ => rfl]
      exact hnew hV
    · exact hstays hV (moves_of_changed ((moves_of_bare hbare).mp hm)).2

/-- A clock keeps its rate and its parent. -/
def SameRate (t t' : ClkTree κ υ R) (d : κ) : Prop :=
  (t'.core d).rate = (t.core d).rate ∧ t'.parent d = t.parent d

omit [DecidableEq κ] in
theorem SameRate.of_bare (h : t'.bare = t.bare) : SameRate t t' d :=
  ⟨bare_field h (·.rate) fun _ => rfl, by rw [parent_of_bare h]⟩

omit [DecidableEq κ] in
theorem SameRate.trans {t₁ : ClkTree κ υ R} (h : SameRate t t₁ d) (h' : SameRate t₁ t' d) : SameRate t t' d :=
  ⟨h'.1.trans h.1, h'.2.trans h.2⟩

theorem sameRate_reqRate : SameRate t (t.setCore c { t.core c with reqRate := k }) d := by
  unfold SameRate ClkTree.parent
  by_cases hd : d = c
  · subst hd
    rw [setCore_core_self]
    exact ⟨rfl, rfl⟩
  · rw [setCore_core_of_ne hd]
    exact ⟨rfl, rfl⟩

/-- Setting the rate of a clock leaves the protected clocks alone. -/
theorem clkCoreSetRateNolock_sameRate (hkeep : KeepsRate Q) (hrecalc : ∀ c, Q.recalcNewRates c = false)
    (hacyc : Acyclic s.parent) (hup : ProtectedUp s.toClkTree) (hsync : Synced s.toClkTree)
    (hsteady : Steady Q s.toClkTree) (h : clkCoreSetRateNolock Q fuel s c rate = some (s', ret))
    (hd : 0 < s.protects d) : SameRate s.toClkTree s'.toClkTree d := by
  obtain ⟨t₀, rounded, ht₀, hcase⟩ := clkCoreSetRateNolock_cases h
  obtain rfl := clkCoreReqRoundRateNolock_eq hacyc hup ht₀
  rcases hcase with heq | ⟨-, t₁, top, ht₁, hcase⟩
  · rw [heq]
    exact ⟨rfl, rfl⟩
  · have hun : t₁.unplanned = s.toClkTree.tick.unplanned := clkCalcNewRates_unplanned ht₁
    rcases hcase with ⟨time, heq⟩ | ⟨top', s₁, s₂, time, rfl, hs₁, hrun, rfl⟩
    · rw [heq]
      exact ⟨unplanned_field hun (·.rate) fun _ => rfl, congrFun (parent_of_unplanned hun) d⟩
    · -- the plan gives the protected clocks the rates that they have
      obtain ⟨V, -, htop, hclosed⟩ := clkCalcNewRates_closed
        (N := fun d r => 0 < s.protects d → r = (s.core d).rate) (unplanned_tick (s := s.toClkTree))
        (fun n e d r hmem hr hd => by
          have hparent := hsync.parent e d hmem
          have hprate : s.toClkTree.parentRate d = (s.core e).rate := by
            unfold ClkTree.parentRate
            rw [show (s.core d).parent = some e from hparent]
          rw [hr (hup d e hparent hd), clkRecalc_eq, readRate, if_pos (hsteady.runtimeGet n d hd), ← hprate]
          exact hsteady.rate d hd)
        (fun t c r ht _ hc => by
          have hprot : 0 < (t.core c).protectCount := by
            rw [unplanned_field ht (·.protectCount) fun _ => rfl]
            exact hc
          rw [(roundedRequest_protected hprot).1]
          exact unplanned_field ht (·.rate) fun _ => rfl)
        (fun c p r hround hflag hp hr hc => by
          rw [hr (hup c p hp hc)]
          exact (hsteady.passOn c p hc hp hround hflag).symm) ht₁
      have hfree : ∀ d, V d → Moves t₁ d → s.protects d = 0 := fun d hV hm =>
        (unplanned_field hun (·.protectCount) fun _ => rfl).symm.trans (hclosed.free d hV hm)
      have hstart : ∀ d, 0 < s.protects d → Kept Q V s.toClkTree s₁.toClkTree d := by
        intro d hd
        rw [hs₁]
        refine ⟨?_, ?_, ?_, fun hV => hclosed.rates d hV hd, fun hV hm => ?_⟩
        · exact unplanned_field hun (·.rate) fun _ => rfl
        · exact congrFun (parent_of_unplanned hun) d
        · have hreg : (t₁.core d).reg = (s.core d).reg := unplanned_field hun (·.reg) fun _ => rfl
          rw [← hsteady.rate d hd]
          exact congrArg (Q.recalcRate d · _) hreg
        · rw [hfree d hV hm] at hd
          omega
      have hclosed' : PlanClosed (fun d r => 0 < s.protects d → r = (s.core d).rate) V top' s₁.toClkTree := by
        rw [hs₁]
        exact ⟨hclosed.children, hclosed.newChild, hclosed.moves, hclosed.free, hclosed.rates⟩
      have hsync' : Synced s₁.toClkTree := by
        rw [hs₁]
        exact hsync.congr (list_of_unplanned hun) (parent_of_unplanned hun)
      have hkept := clkChangeRate_planned
        (fun t => ∀ d, 0 < s.protects d → Kept Q V s.toClkTree t d) hrecalc
        (fun t ht d hd => ⟨(ht d hd).rate, (ht d hd).parent, (ht d hd).reg, (ht d hd).newRate, (ht d hd).stays⟩)
        (fun t t' c hV ht hrun d hd => Kept.change hkeep hup hsteady.runtimeGet ht hV hrun hd)
        hrun htop hclosed' hsync' hstart d hd
      exact SameRate.trans ⟨hkept.rate, hkept.parent⟩ sameRate_reqRate

/-! ### Changing a parent -/

section Parent

variable {P : Platform κ υ R} {a : Answers κ R} {A : κ → Prop} {q : Option κ}

theorem clkRecalcRates_frame (h : clkRecalcRates P a fuel t c = some t')
    (hbelow : ∀ d, Below t.list c d → ¬A d) : t'.list = t.list ∧ ∀ d, A d → t'.core d = t.core d := by
  induction fuel generalizing t t' c with
  | zero => cases h
  | succ fuel ih =>
    rw [clkRecalcRates] at h
    have heach : ∀ (l : List κ) (t₁ t₂ : ClkTree κ υ R), (∀ child ∈ l, child ∈ t.list (.children c)) →
        t₁.list = t.list → l.foldlM (clkRecalcRates P a fuel) t₁ = some t₂ →
        t₂.list = t.list ∧ ∀ d, A d → t₂.core d = t₁.core d := by
      intro l
      induction l with
      | nil =>
        intro t₁ t₂ _ hlist hrun
        obtain rfl := Option.some.inj hrun
        exact ⟨hlist, fun _ _ => rfl⟩
      | cons child l ihl =>
        intro t₁ t₂ hmem hlist hrun
        rw [List.forall_mem_cons] at hmem
        obtain ⟨t₃, ht₃, hrest⟩ := Option.bind_eq_some_iff.mp hrun
        obtain ⟨hlist₃, hsame₃⟩ := ih ht₃ fun d hd => hbelow d (.head hmem.1 (hlist ▸ hd))
        obtain ⟨hlist₂, hsame₂⟩ := ihl t₃ t₂ hmem.2 (hlist₃.trans hlist) hrest
        exact ⟨hlist₂, fun d hd => (hsame₂ d hd).trans (hsame₃ d hd)⟩
    obtain ⟨hlist, hsame⟩ := heach _ _ _ (fun _ hmem => hmem) (by rfl) h
    refine ⟨hlist, fun d hd => (hsame d hd).trans (setCore_core_of_ne ?_)⟩
    rintro rfl
    exact hbelow d .refl hd

theorem Synced.reparent (h : Synced t) : Synced (clkReparent t c q) := by
  refine ⟨fun p d hd => ?_, fun p => ?_⟩
  · change ((clkReparent t c q).core d).parent = some p
    rw [reparent_core]
    rw [reparent_list, hlistAddHead] at hd
    by_cases hp : Home.children p = newHome q
    · rw [← hp, update_self, List.mem_cons] at hd
      by_cases hdc : d = c
      · cases q with
        | none => cases hp
        | some p' =>
          cases hp
          simp [hdc]
      · rw [if_neg hdc]
        exact h.parent p d (List.mem_of_mem_erase (hd.resolve_left hdc))
    · rw [update_of_ne hp] at hd
      obtain ⟨hdc, hd⟩ := (h.nodup p).mem_erase_iff.mp hd
      rw [if_neg hdc]
      exact h.parent p d hd
  · rw [reparent_list, hlistAddHead]
    by_cases hp : Home.children p = newHome q
    · rw [← hp, update_self]
      exact List.nodup_cons.mpr ⟨fun hmem => ((h.nodup p).mem_erase_iff.mp hmem).1 rfl, (h.nodup p).erase c⟩
    · rw [update_of_ne hp]
      exact (h.nodup p).erase c

/-- Apart from counts, `__clk_set_parent` moves the clock or leaves it where it
was, and changes the state of its registers. -/
theorem clkSetParentRaw_bare {pIndex : ℕ} (h : clkSetParentRaw P fuel t c q pIndex = some (t', ret)) :
    ∃ reg, t'.bare = ((clkReparent t c q).bare.setCore c { (clkReparent t c q).bare.core c with reg := reg }) ∨
      t'.bare = clkReparent ((clkReparent t c q).bare.setCore c
        { (clkReparent t c q).bare.core c with reg := reg }) c (t.parent c) := by
  unfold clkSetParentRaw at h
  obtain ⟨⟨t₁, old⟩, ht₁, hrest⟩ := Option.bind_eq_some_iff.mp h
  obtain ⟨hbefore, rfl⟩ := clkSetParentBefore_bare ht₁
  rw [← bare_reparent] at hbefore
  dsimp only at hrest
  generalize (if q.isSome then (P.answers t₁.time).setParent c pIndex (t₁.core c).reg
    else ((t₁.core c).reg, 0)) = answer at hrest
  refine ⟨answer.1, ?_⟩
  rw [← hbefore]
  split at hrest
  · obtain ⟨t₂, ht₂, heq⟩ := Option.bind_eq_some_iff.mp hrest
    obtain ⟨rfl, -⟩ := Prod.mk.inj (Option.some.inj heq)
    rw [clkSetParentAfter_bare ht₂, bare_reparent, bare_setCore]
    exact .inr rfl
  · obtain ⟨t₂, ht₂, heq⟩ := Option.bind_eq_some_iff.mp hrest
    obtain ⟨rfl, -⟩ := Prod.mk.inj (Option.some.inj heq)
    rw [clkSetParentAfter_bare ht₂, bare_setCore]
    exact .inl rfl

theorem sameRate_reg {reg : R} : SameRate t (t.setCore c { t.core c with reg := reg }) d := by
  unfold SameRate ClkTree.parent
  by_cases hd : d = c
  · subst hd
    rw [setCore_core_self]
    exact ⟨rfl, rfl⟩
  · rw [setCore_core_of_ne hd]
    exact ⟨rfl, rfl⟩

theorem sameRate_reparent (hd : d ≠ c) : SameRate t (clkReparent t c q) d := by
  unfold SameRate ClkTree.parent
  rw [reparent_core, if_neg hd]
  exact ⟨rfl, rfl⟩

/-- After `__clk_set_parent` the lists fit, and the other clocks have their rates
and parents. -/
theorem clkSetParentRaw_sameRate {pIndex : ℕ} (hsync : Synced t)
    (h : clkSetParentRaw P fuel t c q pIndex = some (t', ret)) :
    Synced t' ∧ ∀ d, d ≠ c → SameRate t t' d := by
  obtain ⟨reg, hbare⟩ := clkSetParentRaw_bare h
  have hkey : ∀ {X : ClkTree κ υ R}, t'.bare = X → Synced X → (∀ d, d ≠ c → SameRate t X d) →
      Synced t' ∧ ∀ d, d ≠ c → SameRate t t' d := by
    rintro X rfl hX hsame
    exact ⟨hX.congr rfl rfl, hsame⟩
  have hmoved : Synced ((clkReparent t c q).bare.setCore c
      { (clkReparent t c q).bare.core c with reg := reg }) :=
    hsync.reparent.congr rfl (funext fun d => sameRate_reg.2)
  have hsame : ∀ d, d ≠ c → SameRate t ((clkReparent t c q).bare.setCore c
      { (clkReparent t c q).bare.core c with reg := reg }) d :=
    fun d hd => by
      have hbare : SameRate (clkReparent t c q) (clkReparent t c q).bare d := ⟨rfl, rfl⟩
      exact (sameRate_reparent hd).trans (hbare.trans sameRate_reg)
  rcases hbare with hbare | hbare
  · exact hkey hbare hmoved hsame
  · exact hkey hbare hmoved.reparent fun d hd => (hsame d hd).trans (sameRate_reparent hd)

theorem clkCoreSetParentNolock_sameRate (hup : ProtectedUp t) (hsync : Synced t)
    (h : clkCoreSetParentNolock P fuel t c q = some (t', ret)) (hd : 0 < t.protects d) : SameRate t t' d := by
  have hdo : ∀ pIndex, t.protects c = 0 → clkCoreDoSetParent P fuel t c q pIndex = some (t', ret) →
      SameRate t t' d := by
    intro pIndex hc hrun
    unfold clkCoreDoSetParent at hrun
    dsimp only at hrun
    split at hrun
    · obtain ⟨rfl, -⟩ := Prod.mk.inj (Option.some.inj hrun)
      exact ⟨rfl, rfl⟩
    · obtain ⟨ret₁, -, hrest⟩ := Option.bind_eq_some_iff.mp hrun
      split at hrest
      · obtain ⟨rfl, -⟩ := Prod.mk.inj (Option.some.inj hrest)
        exact ⟨rfl, rfl⟩
      · obtain ⟨⟨t₁, ret₂⟩, ht₁, hrest⟩ := Option.bind_eq_some_iff.mp hrest
        obtain ⟨t₂, ht₂, heq⟩ := Option.bind_eq_some_iff.mp hrest
        obtain ⟨rfl, -⟩ := Prod.mk.inj (Option.some.inj heq)
        obtain ⟨hsync₁, hsame⟩ := clkSetParentRaw_sameRate (hsync.congr rfl rfl : Synced t.tick) ht₁
        -- nothing below the clock is protected
        have hbelow : ∀ d, Below t₁.tick.list c d → ¬0 < t.protects d := by
          intro d hd
          induction hd with
          | refl => omega
          | @tail e d _ hmem ih =>
            intro hpos
            by_cases hdc : d = c
            · rw [hdc] at hpos
              omega
            · have hparent : t.parent d = some e :=
                (hsame d hdc).2.symm.trans (hsync₁.parent e d hmem)
              exact ih (hup d e hparent hpos)
        have hdc : d ≠ c := by
          rintro rfl
          omega
        have hcore := (clkRecalcRates_frame (A := fun d => 0 < t.protects d) ht₂ hbelow).2 d hd
        refine SameRate.trans (hsame d hdc) ?_
        unfold SameRate ClkTree.parent
        rw [hcore]
        exact ⟨rfl, rfl⟩
  have hstop : ∀ r, some (t, r) = some (t', ret) → SameRate t t' d := by
    intro r heq
    obtain ⟨rfl, -⟩ := Prod.mk.inj (Option.some.inj heq)
    exact ⟨rfl, rfl⟩
  unfold clkCoreSetParentNolock at h
  split at h
  · exact hstop _ h
  · split at h
    · exact hstop _ h
    · split at h
      · exact hstop _ h
      · split at h
        · exact hstop _ h
        · next hprot =>
            have hc : t.protects c = 0 := Nat.eq_zero_of_not_pos hprot
            cases q with
            | none => exact hdo 0 hc h
            | some p =>
              dsimp only at h
              split at h
              · exact hstop _ h
              · exact hdo _ hc h

end Parent

/-! ### Consumers -/

/-- The protections that the consumers of a clock have. -/
def exclusives (Q : RatePlatform κ υ R) (t : ClkTree κ υ R) (c : κ) : ℕ :=
  ((Q.clks c).map fun u => (t.user u).exclusiveCount).sum

/-- The protections of a clock that do not come from its children. -/
def protectOwn (Q : RatePlatform κ υ R) (t : ClkTree κ υ R) (c : κ) : ℕ :=
  exclusives Q t c + if Q.toPlatform.gated c then t.prepares c else 0

/-- Each clock counts the protections of its consumers, one for each time that it
is prepared if it has `CLK_SET_RATE_GATE`, and one for each protected child. -/
def ProtectBalanced [Fintype κ] (Q : RatePlatform κ υ R) (t : ClkTree κ υ R) : Prop :=
  Balanced t.parent (protectOwn Q t) t.protects

section Consumers

variable [Fintype κ] {u x : υ}

omit [DecidableEq κ] [Fintype κ] in
theorem add_le_exclusives (hx : x ∈ Q.clks c) (hu : u ∈ Q.clks c) (hne : x ≠ u) :
    (t.user x).exclusiveCount + (t.user u).exclusiveCount ≤ exclusives Q t c := by
  classical
  unfold exclusives
  rw [← List.sum_map_erase (fun u => (t.user u).exclusiveCount) hu]
  have hmem : x ∈ (Q.clks c).erase u := (List.mem_erase_of_ne hne).mpr hx
  have hle := List.single_le_sum (fun _ _ => Nat.zero_le _) _
    (List.mem_map_of_mem (f := fun u => (t.user u).exclusiveCount) hmem)
  omega

omit [DecidableEq κ] [Fintype κ] in
theorem le_exclusives (hx : x ∈ Q.clks c) : (t.user x).exclusiveCount ≤ exclusives Q t c :=
  List.single_le_sum (fun _ _ => Nat.zero_le _) _
    (List.mem_map_of_mem (f := fun u => (t.user u).exclusiveCount) hx)

theorem ProtectBalanced.protectedUp (h : ProtectBalanced Q t) : ProtectedUp t :=
  fun _ _ hp hd => h.pos_parent hp hd

/-- Without the protection of a consumer, the protection of another one is still
there. -/
theorem ProtectBalanced.unprotect (h : ProtectBalanced Q t) (hmem : ∀ u, u ∈ Q.clks (Q.coreOf u))
    (hx : 0 < (t.user x).exclusiveCount) (hne : x ≠ u)
    (hrun : (if 0 < (t.user u).exclusiveCount then clkCoreRateUnprotect fuel t (some (Q.coreOf u))
      else some t) = some t') :
    (∃ m, t' = t.withProtects m ∧ ∀ d, m d ≤ t.protects d) ∧ ProtectedUp t' ∧
      0 < t'.protects (Q.coreOf x) := by
  split at hrun
  · next hu =>
      rw [clkCoreRateUnprotect_eq] at hrun
      obtain ⟨m, hm, rfl⟩ := Option.map_eq_some_iff.mp hrun
      refine ⟨⟨m, rfl, fun d => release_le hm⟩, ?_⟩
      have hown : 0 < protectOwn Q t (Q.coreOf u) := by
        have := le_exclusives (Q := Q) (t := t) (hmem u)
        unfold protectOwn
        omega
      obtain ⟨own, hhold⟩ : ∃ own, protectOwn Q t = hold own (some (Q.coreOf u)) := by
        refine ⟨update (protectOwn Q t) (Q.coreOf u) (protectOwn Q t (Q.coreOf u) - 1), ?_⟩
        rw [hold_some, update_self, update_idem, Nat.sub_add_cancel hown,
          update_eq_self]
      unfold ProtectBalanced at h
      rw [hhold] at h
      have hbal : Balanced t.parent own m := balanced_of_release h (by simp) hm
      have hownx : 0 < own (Q.coreOf x) := by
        have hat := congrFun hhold (Q.coreOf x)
        unfold hold protectOwn at hat
        by_cases heq : some (Q.coreOf u) = some (Q.coreOf x)
        · rw [if_pos heq] at hat
          have hle := add_le_exclusives (Q := Q) (t := t) (hmem x)
            (by rw [← Option.some.inj heq]; exact hmem u) hne
          omega
        · rw [if_neg heq] at hat
          have hle := le_exclusives (Q := Q) (t := t) (hmem x)
          omega
      refine ⟨fun d p hp hd => hbal.pos_parent hp hd, ?_⟩
      change 0 < m (Q.coreOf x)
      rw [hbal]
      omega
  · obtain rfl := Option.some.inj hrun
    refine ⟨⟨t.protects, rfl, fun _ => le_rfl⟩, h.protectedUp, ?_⟩
    rw [h]
    have hle := le_exclusives (Q := Q) (t := t) (hmem x)
    unfold protectOwn
    omega

end Consumers

/-! ### Calls of others -/

/-- A call that asks for another rate or another parent. -/
inductive RateCall (υ : Type) where
  | setRate (u : υ) (rate : ℕ)
  | setRateRange (u : υ) (minRate maxRate : ℕ)
  | setParent (u : υ) (parent : Option υ)

namespace RateCall

def user : RateCall υ → υ
  | .setRate u _ => u
  | .setRateRange u _ _ => u
  | .setParent u _ => u

def run [DecidableEq υ] (Q : RatePlatform κ υ R) (fuel : ℕ) (s : RateTree κ υ R) :
    RateCall υ → Option (RateTree κ υ R × ℤ)
  | .setRate u rate => clkSetRate Q fuel s u rate
  | .setRateRange u minRate maxRate => clkSetRateRange Q fuel s u minRate maxRate
  | .setParent u parent =>
      (clkSetParent Q.toPlatform fuel s.toClkTree u parent).map fun r => (s.setTree r.1, r.2)

end RateCall

section Calls

variable [Fintype κ] [DecidableEq υ] {u x : υ}

omit [DecidableEq κ] [Fintype κ] [DecidableEq υ] in
theorem Steady.withProtects {m : κ → ℕ} (h : Steady Q t) (hm : ∀ d, m d ≤ t.protects d) :
    Steady Q (t.withProtects m) :=
  ⟨fun n d hd => h.runtimeGet n d (hd.trans_le (hm d)), fun d hd => h.rate d (hd.trans_le (hm d)),
    fun d p hd => h.passOn d p (hd.trans_le (hm d))⟩

omit [DecidableEq κ] [Fintype κ] [DecidableEq υ] in
theorem ProtectedUp.above (h : ProtectedUp t) (hc : 0 < t.protects c) (hd : Above t.parent (some c) d) :
    0 < t.protects d := by
  obtain ⟨b, hb, hbd⟩ := hd
  cases hb
  induction hbd with
  | refl => exact hc
  | tail _ hp ih => exact h _ _ hp ih

omit [Fintype κ] [DecidableEq υ] in
theorem withoutProtection_eq {P : Platform κ υ R} {f : ClkTree κ υ R → Option (ClkTree κ υ R × ℤ)} :
    withoutProtection P fuel t u f =
      (if 0 < (t.user u).exclusiveCount then clkCoreRateUnprotect fuel t (some (P.coreOf u))
        else some t).bind fun t => (f t).bind fun r =>
          (if 0 < (r.1.user u).exclusiveCount then clkCoreRateProtect fuel r.1 (some (P.coreOf u))
            else some r.1).map (·, r.2) := by
  have hback (r : ClkTree κ υ R × ℤ) :
      (if 0 < (r.1.user u).exclusiveCount then
        (clkCoreRateProtect fuel r.1 (some (P.coreOf u))).bind fun t => some (t, r.2)
      else some r) =
      (if 0 < (r.1.user u).exclusiveCount then clkCoreRateProtect fuel r.1 (some (P.coreOf u))
        else some r.1).map (·, r.2) := by
    split
    · rw [Option.map_eq_bind]
      rfl
    · rfl
  simp only [← hback]
  unfold withoutProtection
  split <;> rfl

omit [Fintype κ] in
theorem clkTryRange_sameRate {minRate maxRate : ℕ} (hkeep : KeepsRate Q)
    (hrecalc : ∀ c, Q.recalcNewRates c = false) (hacyc : Acyclic s.parent) (hup : ProtectedUp s.toClkTree)
    (hsync : Synced s.toClkTree) (hsteady : Steady Q s.toClkTree)
    (h : clkTryRange Q fuel s u minRate maxRate = some (s', ret)) (hd : 0 < s.protects d) :
    SameRate s.toClkTree s'.toClkTree d := by
  unfold clkTryRange at h
  dsimp only at h
  split at h
  · obtain ⟨rfl, -⟩ := Prod.mk.inj (Option.some.inj h)
    exact ⟨rfl, rfl⟩
  · obtain ⟨⟨s₁, ret₁⟩, hs₁, hrest⟩ := Option.map_eq_some_iff.mp h
    have hsame := clkCoreSetRateNolock_sameRate (s := s.setUser u _) hkeep hrecalc hacyc hup (hsync.congr rfl rfl)
      ⟨hsteady.runtimeGet, hsteady.rate, hsteady.passOn⟩ hs₁ hd
    dsimp only at hrest
    split at hrest
    · obtain ⟨rfl, -⟩ := Prod.mk.inj hrest
      exact hsame
    · obtain ⟨rfl, -⟩ := Prod.mk.inj hrest
      exact hsame

end Calls

/-- A clock `0` with a clock `1` below it that passes requests on, and two clocks
`2` and `3` with dividers below that. The clock `3` asks for another rate of its
parent. -/
def passClocks : RatePlatform (Fin 4) Bool ℕ where
  name c := if c = 0 then "pll" else if c = 1 then "bus" else if c = 2 then "uart" else "spi"
  flags c := ⟨false, false, c = 1 ∨ c = 3, false, false, false⟩
  ops c := ⟨true, c ≠ 1, false, false, false, c = 2 ∨ c = 3, false⟩
  parents c := if c = 0 then [] else if c = 1 then [0] else [1]
  recalcRate c reg parentRate := if c = 0 then 100 else parentRate / reg
  coreOf u := if u then 2 else 3
  answers _ := ⟨fun _ => 0, fun _ => 0, fun _ => 0, fun _ _ r => (r, 0), fun _ => 0, fun _ => 0, fun _ => 0,
    fun _ => 0⟩
  minRate _ := 0
  maxRate _ := 1000
  clks c := if c = 2 then [true] else if c = 3 then [false] else []
  notifier _ := false
  recalcNewRates _ := false
  rateAnswers _ := ⟨fun _ req => (req, 0), fun c rate parentRate => (rate, if c = 3 then 60 else parentRate),
    fun c rate parentRate reg => if (if c = 0 then 100 else parentRate / reg) = rate then reg else parentRate / rate,
    fun _ _ _ _ r => r⟩

def passParent (c : Fin 4) : Option (Fin 4) := if c = 0 then none else if c = 1 then some 0 else some 1

def passList (h : Home (Fin 4)) : List (Fin 4) :=
  if h = .roots then [0] else if h = .children 0 then [1] else if h = .children 1 then [2, 3] else []

/-- The clocks when the clock `1` divides by `div`. The clock `2` is under
exclusive control. -/
def passTree (div : ℕ) : RateTree (Fin 4) Bool ℕ where
  core c :=
    ⟨passParent c, if c = 0 then 100 else if c = 1 then 100 / div else 100 / div / 5, 0, 0, none, 0, none,
      0, 0, if c = 3 then 0 else 1, if c = 1 then div else 5⟩
  hwCore _ := true
  list := passList
  user u := ⟨0, 1000, if u then 1 else 0⟩
  time := 0
  notices := []

theorem passTree_acyclic (div : ℕ) : Acyclic (passTree div).parent :=
  acyclic_of_lt Fin.val (show ∀ c p, passParent c = some p → p.val < c.val by decide)

theorem passTree_synced (div : ℕ) : Synced (passTree div).toClkTree where
  parent := show ∀ p d, d ∈ passList (.children p) → passParent d = some p by decide
  nodup := show ∀ p, (passList (.children p)).Nodup by decide

theorem passClocks_keepsRate : KeepsRate passClocks := by
  intro n d rate parentRate reg h
  have hreg : (passClocks.rateAnswers n).setRate d rate parentRate reg = reg := if_pos h
  rw [hreg]
  exact h

end GfpDrivers.Clk
