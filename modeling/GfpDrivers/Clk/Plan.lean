import GfpDrivers.Clk.Walk

/-!
The plan that `clk_calc_new_rates` makes. Only clocks below the ones on the way up
are planned for, and only the ones on the way can get other parents. Each of them
goes to the next one, so that a walk along the plan stays among the planned
clocks; the topmost clock alone may go elsewhere.
-/

namespace GfpDrivers.Clk

open Function

variable {κ υ R : Type} [DecidableEq κ] {Q : RatePlatform κ υ R} {a : Answers κ R} {fuel : ℕ}
  {s s' s₀ : ClkTree κ υ R} {c d : κ} {q : Option κ} {newRate pIndex : ℕ} {N : κ → ℕ → Prop}

/-! ### Below a clock -/

/-- The children lists lead from `c` to `d`. -/
def Below (list : Home κ → List κ) : κ → κ → Prop := Relation.ReflTransGen fun e d => d ∈ list (.children e)

/-- The plan of a clock below `c`: a rate that `N` allows, and no other parent
except for `c` itself. -/
def PlannedFor (N : κ → ℕ → Prop) (c : κ) (q : Option κ) (d : κ) (v : ClkCore κ R) : Prop :=
  N d v.newRate ∧ (v.newParent = none ∨ d = c ∧ v.newParent = q) ∧
    (v.newChild = none ∨ q = some d ∧ v.newChild = some c)

/-- The clock has been left alone, or it is the new parent of `c`. -/
def LeftAlone (s s' : ClkTree κ υ R) (c : κ) (q : Option κ) (d : κ) : Prop :=
  s'.core d = s.core d ∨ q = some d ∧ s'.core d = { s.core d with newChild := some c }

theorem planClock_self (h : N c newRate) : PlannedFor N c q c ((planClock s c newRate q pIndex).core c) := by
  unfold planClock PlannedFor
  cases q with
  | none => simp [h]
  | some p =>
    dsimp only
    split
    · by_cases hp : p = c
      · subst hp
        simp [h]
      · simp [ClkTree.setCore, Ne.symm hp, h]
    · simp [h]

theorem planClock_other (hd : d ≠ c) : LeftAlone s (planClock s c newRate q pIndex) c q d := by
  unfold planClock LeftAlone
  cases q with
  | none => exact .inl (update_of_ne hd ..)
  | some p =>
    dsimp only
    split
    · by_cases hp : d = p
      · subst hp
        right
        simp [ClkTree.setCore, hd]
      · left
        simp [ClkTree.setCore, hd, hp]
    · exact .inl (update_of_ne hd ..)

omit [DecidableEq κ] in
/-- The loop of `clk_calc_subtree` over children. -/
theorem planEach {f : ClkTree κ υ R → κ → Option (ClkTree κ υ R)} {l : List κ}
    (hf : ∀ {t t' child}, child ∈ l → t.unplanned = s₀.unplanned → f t child = some t' →
      t'.unplanned = s₀.unplanned ∧
        ∀ d, (Below s₀.list child d → PlannedFor N child none d (t'.core d)) ∧
          (¬Below s₀.list child d → t'.core d = t.core d))
    (hs : s.unplanned = s₀.unplanned) (h : l.foldlM f s = some s') :
    (∀ d, (PlannedFor N c q d (s.core d) ∨ ∃ child ∈ l, Below s₀.list child d) →
        PlannedFor N c q d (s'.core d)) ∧
      ∀ d, (∀ child ∈ l, ¬Below s₀.list child d) → s'.core d = s.core d := by
  induction l generalizing s with
  | nil =>
    obtain rfl := Option.some.inj h
    exact ⟨fun d hd => by simpa using hd, fun _ _ => rfl⟩
  | cons child l ih =>
    obtain ⟨s₁, hs₁, hrest⟩ := Option.bind_eq_some_iff.mp h
    obtain ⟨hun, hchild⟩ := hf List.mem_cons_self hs hs₁
    obtain ⟨hplanned, hleft⟩ := ih (fun hmem => hf (List.mem_cons_of_mem _ hmem)) hun hrest
    have hone : ∀ d, Below s₀.list child d → PlannedFor N c q d (s₁.core d) := fun d hd => by
      obtain ⟨hrate, hparent, hnew⟩ := (hchild d).1 hd
      refine ⟨hrate, .inl ?_, .inl ?_⟩
      · rcases hparent with hparent | ⟨-, hparent⟩ <;> exact hparent
      · rcases hnew with hnew | ⟨hnone, -⟩
        · exact hnew
        · cases hnone
    refine ⟨fun d hd => hplanned d ?_, fun d hd => ?_⟩
    · by_cases hbelow : Below s₀.list child d
      · exact .inl (hone d hbelow)
      · rcases hd with hd | ⟨e, he, hed⟩
        · rw [(hchild d).2 hbelow]
          exact .inl hd
        · rcases List.mem_cons.mp he with rfl | he
          · exact absurd hed hbelow
          · exact .inr ⟨e, he, hed⟩
    · rw [List.forall_mem_cons] at hd
      rw [hleft d hd.2, (hchild d).2 hd.1]

/-- Everything below the clock is planned for, and nothing else. -/
theorem clkCalcSubtree_plan (hs : s.unplanned = s₀.unplanned)
    (hN : ∀ e d r, d ∈ s₀.list (.children e) → N e r → N d (clkRecalc Q.toPlatform a s₀ d r))
    (h : clkCalcSubtree Q a fuel s c newRate q pIndex = some s') (hc : N c newRate) :
    s'.unplanned = s₀.unplanned ∧
      ∀ d, (Below s₀.list c d → PlannedFor N c q d (s'.core d)) ∧
        (¬Below s₀.list c d → LeftAlone s s' c q d) := by
  induction fuel generalizing s s' c newRate q pIndex with
  | zero => cases h
  | succ fuel ih =>
    refine ⟨(clkCalcSubtree_unplanned h).trans hs, ?_⟩
    rw [clkCalcSubtree] at h
    have hplan : (planClock s c newRate q pIndex).unplanned = s₀.unplanned := planClock_unplanned.trans hs
    have hlist : (planClock s c newRate q pIndex).list = s₀.list := list_of_unplanned hplan
    rw [hlist] at h
    obtain ⟨hplanned, hleft⟩ := planEach (N := N) (c := c) (q := q) (fun {t t' child} hmem ht hrun => by
      have hreg : (t.core child).reg = (s₀.core child).reg := unplanned_field ht (·.reg) fun _ => rfl
      have hrate : clkRecalc Q.toPlatform a t child newRate = clkRecalc Q.toPlatform a s₀ child newRate := by
        unfold clkRecalc
        rw [hreg]
      rw [hrate] at hrun
      obtain ⟨hun, hbelow⟩ := ih ht hrun (hN c child newRate hmem hc)
      refine ⟨hun, fun d => ⟨(hbelow d).1, fun hd => ?_⟩⟩
      rcases (hbelow d).2 hd with hsame | ⟨hnone, -⟩
      · exact hsame
      · cases hnone) hplan h
    intro d
    constructor
    · intro hd
      refine hplanned d ?_
      rcases Relation.ReflTransGen.cases_head hd with rfl | ⟨child, hmem, hchild⟩
      · exact .inl (planClock_self hc)
      · exact .inr ⟨child, hmem, hchild⟩
    · intro hd
      have hne : d ≠ c := by
        rintro rfl
        exact hd .refl
      have hsame := hleft d fun child hmem hchild => hd (.head hmem hchild)
      unfold LeftAlone
      rw [hsame]
      exact planClock_other hne

/-! ### The whole plan -/

/-- The clocks that `V` is for are planned for, and so are all clocks that a walk
along the plan gets to from them. -/
structure PlanClosed (N : κ → ℕ → Prop) (V : κ → Prop) (top : κ) (s : ClkTree κ υ R) : Prop where
  children : ∀ c, V c → ∀ d ∈ s.list (.children c), V d
  newChild : ∀ c d, V c → (s.core c).newChild = some d → V d
  moves : ∀ c, V c → c ≠ top → Moves s c → ∃ p, (s.core c).newParent = some p ∧ V p
  free : ∀ c, V c → Moves s c → (s.core c).protectCount = 0
  rates : ∀ c, V c → N c (s.core c).newRate

variable {V : κ → Prop} {top : κ}

omit [DecidableEq κ] in
theorem PlanClosed.none : PlanClosed N (fun _ => False) top s :=
  ⟨fun _ h => h.elim, fun _ _ h => h.elim, fun _ h => h.elim, fun _ h => h.elim, fun _ h => h.elim⟩

omit [DecidableEq κ] in
theorem PlanClosed.tick (h : PlanClosed N V top s) : PlanClosed N V top s.tick :=
  ⟨h.children, h.newChild, h.moves, h.free, h.rates⟩

/-- The subtree of a clock is planned for after other clocks. -/
theorem PlanClosed.extend (h : PlanClosed N V top s) (hs : s.unplanned = s₀.unplanned)
    (hN : ∀ t e d r, d ∈ s₀.list (.children e) → N e r →
      N d (clkRecalc Q.toPlatform (Q.answers t) s₀ d r))
    {top₁ top₂ : Option κ} (hplan : planSubtree Q fuel s c newRate q pIndex top₁ = some (s', top₂))
    (hc : N c newRate) (hq : ∀ p, q = some p → c ≠ top → V p)
    (hfree : q.isSome → q ≠ s₀.parent c → (s₀.core c).protectCount = 0) :
    PlanClosed N (fun d => V d ∨ Below s₀.list c d) top s' := by
  obtain ⟨t, ht, heq⟩ := Option.map_eq_some_iff.mp hplan
  obtain ⟨rfl, -⟩ := Prod.mk.inj heq
  obtain ⟨hun, hplanned⟩ := clkCalcSubtree_plan (unplanned_tick.trans hs) (hN _) ht hc
  have hlist : t.list = s₀.list := list_of_unplanned hun
  have hlist' : s.list = s₀.list := list_of_unplanned hs
  -- a clock of `V` that is not below `c` keeps its plan
  have hkeep : ∀ d, V d ∨ Below s₀.list c d → ¬Below s₀.list c d →
      V d ∧ (t.core d = s.core d ∨ t.core d = { s.core d with newChild := some c }) := by
    intro d hd hbelow
    refine ⟨hd.resolve_right hbelow, ?_⟩
    rcases (hplanned d).2 hbelow with hsame | ⟨-, hsame⟩
    · exact .inl hsame
    · exact .inr hsame
  have hmoves : ∀ d, V d ∨ Below s₀.list c d → Moves t d →
      (d = c ∧ (t.core d).newParent = q) ∨
        V d ∧ Moves s d ∧ (t.core d).newParent = (s.core d).newParent := by
    intro d hd hmoves
    by_cases hbelow : Below s₀.list c d
    · rcases ((hplanned d).1 hbelow).2.1 with hnone | hself
      · rw [Moves, hnone] at hmoves
        exact absurd hmoves.1 (by simp)
      · exact .inl hself
    · obtain ⟨hV, hsame | hsame⟩ := hkeep d hd hbelow <;> rw [Moves, hsame] at hmoves <;> rw [hsame] <;>
        exact .inr ⟨hV, hmoves, rfl⟩
  have hprotect : ∀ d, (t.core d).protectCount = (s₀.core d).protectCount :=
    fun d => unplanned_field hun (·.protectCount) fun _ => rfl
  refine ⟨fun e he d hd => ?_, fun e d he hnew => ?_, fun d hd htop hm => ?_, fun d hd hm => ?_, fun d hd => ?_⟩
  · rw [hlist] at hd
    rcases he with he | he
    · exact .inl (h.children e he d (by rw [hlist']; exact hd))
    · exact .inr (he.tail hd)
  · by_cases hbelow : Below s₀.list c e
    · rcases ((hplanned e).1 hbelow).2.2 with hnone | ⟨-, hself⟩
      · rw [hnone] at hnew
        cases hnew
      · obtain rfl := Option.some.inj (hself.symm.trans hnew)
        exact .inr .refl
    · obtain ⟨hV, hsame | hsame⟩ := hkeep e he hbelow
      · rw [hsame] at hnew
        exact .inl (h.newChild e d hV hnew)
      · rw [hsame] at hnew
        obtain rfl := Option.some.inj hnew
        exact .inr .refl
  · rcases hmoves d hd hm with ⟨rfl, hself⟩ | ⟨hV, hm', hsame⟩
    · obtain ⟨p, hp⟩ := Option.isSome_iff_exists.mp hm.1
      exact ⟨p, hp, .inl (hq p (hself.symm.trans hp) htop)⟩
    · obtain ⟨p, hp, hVp⟩ := h.moves d hV htop hm'
      exact ⟨p, hsame.trans hp, .inl hVp⟩
  · rw [hprotect]
    rcases hmoves d hd hm with ⟨rfl, hself⟩ | ⟨hV, hm', -⟩
    · have hparent : (t.core d).parent = s₀.parent d := unplanned_field hun (·.parent) fun _ => rfl
      rw [Moves, hself, hparent] at hm
      exact hfree hm.1 hm.2
    · rw [← h.free d hV hm']
      exact (unplanned_field hs (·.protectCount) fun _ => rfl).symm
  · by_cases hbelow : Below s₀.list c d
    · exact ((hplanned d).1 hbelow).1
    · obtain ⟨hV, hsame | hsame⟩ := hkeep d hd hbelow <;> rw [hsame] <;> exact h.rates d hV

omit [DecidableEq κ] in
/-- A protected clock is rounded to the rate that it has. -/
theorem roundedRequest_protected {rate : ℕ} (h : 0 < (s.core c).protectCount) :
    (roundedRequest Q s c rate).rate = (s.core c).rate ∧
      (roundedRequest Q s c rate).bestParent = s.parent c ∧
      (roundedRequest Q s c rate).bestParentRate = s.parentRate c := by
  unfold roundedRequest clkCoreDetermineRoundNolock
  rw [if_pos h]
  exact ⟨rfl, rfl, rfl⟩

theorem clkCalcNewRates_closed {k rate : ℕ} (hs : s.unplanned = s₀.unplanned)
    (hN : ∀ t e d r, d ∈ s₀.list (.children e) → N e r →
      N d (clkRecalc Q.toPlatform (Q.answers t) s₀ d r))
    (hround : ∀ t c rate, t.unplanned = s₀.unplanned → clkCoreCanRound Q c →
      N c (roundedRequest Q t c rate).rate)
    (hpass : ∀ c p r, clkCoreCanRound Q c = false → (Q.flags c).setRateParent → s₀.parent c = some p →
      N p r → N c r)
    (h : clkCalcNewRates Q fuel k s c rate = some (s', some top)) :
    ∃ V, V c ∧ V top ∧ PlanClosed N V top s' := by
  induction k generalizing s s' c rate with
  | zero => cases h
  | succ k ih =>
    have hfree : ∀ q, q = (roundedRequest Q s c rate).bestParent → q ≠ s₀.parent c →
        (s₀.core c).protectCount = 0 := by
      rintro q rfl hne
      by_contra hprot
      have hcount : (s.core c).protectCount = (s₀.core c).protectCount :=
        unplanned_field hs (·.protectCount) fun _ => rfl
      refine hne ((roundedRequest_protected (by omega)).2.1.trans ?_)
      rw [parent_of_unplanned hs]
    rcases clkCalcNewRates_cases h with ⟨hnone, -⟩ | ⟨pIndex, hcan, hplan⟩ |
      ⟨p, pIndex, s₁, top₁, hcan, hbest, -, hup, hplan⟩ | ⟨p, s₁, top₁, hcan, hflag, hparent, hup, hplan⟩
    · cases hnone
    · obtain rfl := Option.some.inj (planSubtree_unplanned hplan).2
      refine ⟨_, .inr .refl, .inr .refl, PlanClosed.none.extend (unplanned_tick.trans hs) hN hplan
        (hround _ _ _ hs hcan)
        (fun p _ hne => absurd rfl hne) fun _ hne => hfree _ rfl hne⟩
    · obtain rfl := (planSubtree_unplanned hplan).2
      obtain ⟨V, hVp, hVtop, hclosed⟩ := ih (unplanned_tick.trans hs) hup
      have hs₁ : s₁.unplanned = s₀.unplanned := (clkCalcNewRates_unplanned hup).trans (unplanned_tick.trans hs)
      refine ⟨_, .inr .refl, .inl hVtop, hclosed.extend hs₁ hN hplan (hround _ _ _ hs hcan)
        (fun p' hp' _ => Option.some.inj hp' ▸ hVp) fun _ hne => hfree _ hbest.symm hne⟩
    · obtain rfl := (planSubtree_unplanned hplan).2
      obtain ⟨V, hVp, hVtop, hclosed⟩ := ih hs hup
      have hs₁ : s₁.unplanned = s₀.unplanned := (clkCalcNewRates_unplanned hup).trans hs
      rw [parent_of_unplanned hs] at hparent
      refine ⟨_, .inr .refl, .inl hVtop, hclosed.extend hs₁ hN hplan
        (hpass c p _ hcan hflag hparent (hclosed.rates p hVp))
        (fun p' hp' _ => Option.some.inj hp' ▸ hVp) fun _ hne => absurd hparent.symm hne⟩

/-! ### After one clock was changed -/

section Changed

variable {reg : R} {rate : ℕ}

theorem moved_core :
    (moved s c).core d = s.core d ∨ Moves s c ∧ (moved s c).core d =
      { s.core d with
        parent := if d = c then (s.core c).newParent else (s.core d).parent
        newChild :=
          if (s.core c).newParent = some d ∧ (s.core d).newChild = some c then none
          else (s.core d).newChild } := by
  by_cases hmoves : Moves s c
  · rw [moved, if_pos hmoves]
    exact .inr ⟨hmoves, reparent_core d⟩
  · rw [moved, if_neg hmoves]
    exact .inl rfl

/-- A clock is changed, and nothing happens to the others; but its new parent
has it as a child now. -/
theorem changed_core_of_ne (hd : d ≠ c) :
    (changed s c reg rate).core d = s.core d ∨
      (changed s c reg rate).core d = { s.core d with newChild := none } := by
  unfold changed
  rw [setCore_core_of_ne hd]
  rcases moved_core (s := s) (c := c) (d := d) with hsame | ⟨-, hmoved⟩
  · exact .inl hsame
  · rw [hmoved, if_neg hd]
    split
    · exact .inr rfl
    · exact .inl rfl

theorem changed_field {β : Type*} (hd : d ≠ c) (f : ClkCore κ R → β)
    (hf : ∀ v : ClkCore κ R, f { v with newChild := none } = f v) :
    f ((changed s c reg rate).core d) = f (s.core d) := by
  rcases changed_core_of_ne hd with h | h <;> rw [h]
  exact hf _

theorem changed_core_self :
    (changed s c reg rate).core c =
      { s.core c with
        parent := if Moves s c then (s.core c).newParent else (s.core c).parent
        newChild := if Moves s c ∧ (s.core c).newParent = some c ∧ (s.core c).newChild = some c then none
          else (s.core c).newChild
        reg := reg
        rate := rate } := by
  unfold changed moved
  by_cases hmoves : Moves s c
  · simp [hmoves, reparent_core]
  · simp [hmoves]

theorem changed_list (hnodup : ∀ e, (s.list (.children e)).Nodup) (e : κ) :
    ((changed s c reg rate).list (.children e)).Nodup ∧
      ∀ d ∈ (changed s c reg rate).list (.children e),
        (d ∈ s.list (.children e) ∧ ¬(d = c ∧ Moves s c)) ∨
          d = c ∧ Moves s c ∧ (s.core c).newParent = some e := by
  have hlist : (changed s c reg rate).list = (moved s c).list := rfl
  rw [hlist, moved]
  by_cases hmoves : Moves s c
  · have hold : ∀ d ∈ (s.list (.children e)).erase c, d ∈ s.list (.children e) ∧ ¬(d = c ∧ Moves s c) := by
      intro d hd
      obtain ⟨hne, hmem⟩ := (hnodup e).mem_erase_iff.mp hd
      exact ⟨hmem, fun h => hne h.1⟩
    rw [if_pos hmoves, reparent_list, hlistAddHead]
    obtain ⟨p, hp⟩ := Option.isSome_iff_exists.mp hmoves.1
    rw [hp, newHome]
    by_cases he : e = p
    · subst he
      rw [update_self]
      refine ⟨List.nodup_cons.mpr ⟨?_, (hnodup e).erase c⟩, fun d hd => ?_⟩
      · exact fun hmem => (hold c hmem).2 ⟨rfl, hmoves⟩
      · rcases List.mem_cons.mp hd with rfl | hd
        · exact .inr ⟨rfl, hmoves, rfl⟩
        · exact .inl (hold d hd)
    · rw [update_of_ne (by simpa using he)]
      exact ⟨(hnodup e).erase c, fun d hd => .inl (hold d hd)⟩
  · rw [if_neg hmoves]
    exact ⟨hnodup e, fun d hd => .inl ⟨hd, fun h => hmoves h.2⟩⟩

theorem changed_newParent : ((changed s c reg rate).core d).newParent = (s.core d).newParent := by
  by_cases hd : d = c
  · subst hd
    rw [changed_core_self]
  · exact changed_field hd (·.newParent) fun _ => rfl

theorem changed_newRate : ((changed s c reg rate).core d).newRate = (s.core d).newRate := by
  by_cases hd : d = c
  · subst hd
    rw [changed_core_self]
  · exact changed_field hd (·.newRate) fun _ => rfl

theorem changed_newChild {e : κ} (h : ((changed s c reg rate).core d).newChild = some e) :
    (s.core d).newChild = some e := by
  by_cases hd : d = c
  · subst hd
    rw [changed_core_self] at h
    dsimp only at h
    split at h
    · cases h
    · exact h
  · have hcore : (changed s c reg rate).core d = s.core d ∨
        (changed s c reg rate).core d = { s.core d with newChild := none } := changed_core_of_ne hd
    rcases hcore with heq | heq <;> rw [heq] at h
    · exact h
    · cases h

theorem changed_parent :
    (changed s c reg rate).parent d =
      if d = c ∧ Moves s c then (s.core c).newParent else s.parent d := by
  by_cases hd : d = c
  · subst hd
    change ((changed s d reg rate).core d).parent = _
    rw [changed_core_self]
    by_cases hmoves : Moves s d
    · exact (if_pos hmoves).trans (if_pos ⟨rfl, hmoves⟩).symm
    · exact (if_neg hmoves).trans (if_neg fun h => hmoves h.2).symm
  · rw [if_neg fun h => hd h.1]
    exact changed_field hd (·.parent) fun _ => rfl

theorem not_moves_changed : ¬Moves (changed s c reg rate) c := by
  rintro ⟨hsome, hne⟩
  rw [changed_newParent] at hsome hne
  have hparent : ((changed s c reg rate).core c).parent = (changed s c reg rate).parent c := rfl
  rw [hparent, changed_parent] at hne
  by_cases hmoves : Moves s c
  · rw [if_pos ⟨rfl, hmoves⟩] at hne
    exact hne rfl
  · rw [if_neg fun h => hmoves h.2] at hne
    exact hmoves ⟨hsome, hne⟩

theorem moves_of_changed (h : Moves (changed s c reg rate) d) : d ≠ c ∧ Moves s d := by
  have hd : d ≠ c := by
    rintro rfl
    exact not_moves_changed h
  refine ⟨hd, ?_⟩
  unfold Moves at h ⊢
  rw [changed_newParent, changed_field hd (·.parent) fun _ => rfl] at h
  exact h

end Changed

/-! ### Walking along the plan -/

/-- The lists of children hold children only, and each of them once. -/
structure Synced (s : ClkTree κ υ R) : Prop where
  parent : ∀ p d, d ∈ s.list (.children p) → s.parent d = some p
  nodup : ∀ p, (s.list (.children p)).Nodup

/-- A walk that is among the clocks of `V` stays there. -/
structure WalkClosed (V : κ → Prop) (s : ClkTree κ υ R) : Prop where
  children : ∀ c, V c → ∀ d ∈ s.list (.children c), V d
  newChild : ∀ c d, V c → (s.core c).newChild = some d → V d
  moves : ∀ c, V c → Moves s c → ∃ p, (s.core c).newParent = some p ∧ V p
  synced : Synced s

omit [DecidableEq κ] in
theorem Synced.congr (h : Synced s) (hlist : s'.list = s.list) (hparent : s'.parent = s.parent) : Synced s' := by
  refine ⟨?_, ?_⟩ <;> rw [hlist]
  · rw [hparent]
    exact h.parent
  · exact h.nodup

theorem Synced.changed {reg : R} {rate : ℕ} (h : Synced s) : Synced (changed s c reg rate) := by
  refine ⟨fun p d hd => ?_, fun p => (changed_list h.nodup p).1⟩
  rw [changed_parent]
  rcases (changed_list h.nodup p).2 d hd with ⟨hd, hstay⟩ | ⟨rfl, hmoves, hp⟩
  · rw [if_neg hstay]
    exact h.parent p d hd
  · rw [if_pos ⟨rfl, hmoves⟩, hp]

omit [DecidableEq κ] in
theorem WalkClosed.of_bare (h : WalkClosed V s) (hs : s'.bare = s.bare) : WalkClosed V s' := by
  refine ⟨?_, fun c d hc hd => ?_, fun c hc hm => ?_, h.synced.congr (list_of_bare hs) (parent_of_bare hs)⟩
  · rw [list_of_bare hs]
    exact h.children
  · rw [bare_field hs (·.newChild) fun _ => rfl] at hd
    exact h.newChild c d hc hd
  · rw [bare_field hs (·.newParent) fun _ => rfl]
    exact h.moves c hc ((moves_of_bare hs).mp hm)

/-- The walk goes on after a clock was changed, wherever the clock has gone. -/
theorem walkClosed_changed {reg : R} {rate : ℕ} (hchildren : ∀ c, V c → ∀ d ∈ s.list (.children c), V d)
    (hnew : ∀ c d, V c → (s.core c).newChild = some d → V d)
    (hmoves : ∀ d, V d → d ≠ c → Moves s d → ∃ p, (s.core d).newParent = some p ∧ V p) (hsync : Synced s)
    (hc : V c) : WalkClosed V (changed s c reg rate) := by
  refine ⟨fun e he d hd => ?_, fun e d he hd => ?_, fun d hd hm => ?_, hsync.changed⟩
  · rcases (changed_list hsync.nodup e).2 d hd with ⟨hd, -⟩ | ⟨rfl, -, -⟩
    · exact hchildren e he d hd
    · exact hc
  · exact hnew e d he (changed_newChild hd)
  · obtain ⟨hne, hm⟩ := moves_of_changed hm
    rw [changed_newParent]
    exact hmoves d hd hne hm

/-- The clocks of a list whose clock is among `V`. -/
def Waits (V : κ → Prop) (s : ClkTree κ υ R) (d : κ) : Prop := ∃ p, s.parent d = some p ∧ V p ∧ V d

theorem nextClock_mem {p d' : κ} (hp : s.parent d = some p) (h : nextClock s d = some d') :
    d' ∈ s.list (.children p) := by
  unfold nextClock at h
  rw [show (s.core d).parent = some p from hp] at h
  exact List.mem_of_getElem? h

/-- What each change of a clock keeps, a walk along a plan keeps, where nothing is
planned anew on the way. -/
theorem clkChangeRate_planned (inv : ClkTree κ υ R → Prop) {s s' : RateTree κ υ R} {k : ℕ}
    (hrecalc : ∀ c, Q.recalcNewRates c = false) (htick : ∀ t, inv t → inv t.tick)
    (hchange : ∀ t t' c, V c → inv t → changeClock Q fuel t c = some t' → inv t')
    (h : clkChangeRate Q fuel k s top = some s') (htop : V top) (hplan : PlanClosed N V top s.toClkTree)
    (hsync : Synced s.toClkTree) (hinv : inv s.toClkTree) : inv s'.toClkTree := by
  have hkeep : ∀ {t t' : ClkTree κ υ R} {c}, changePlan Q fuel t c = some t' → t' = t := by
    intro t t' c ht
    rw [changePlan, hrecalc c] at ht
    exact (Option.some.inj ht).symm
  have hw : WalkInvariant Q fuel (fun t => inv t ∧ WalkClosed V t) V (Waits V) :=
    { tick := fun t ht => ⟨htick t ht.1, ht.2.children, ht.2.newChild, ht.2.moves, ht.2.synced.parent,
        ht.2.synced.nodup⟩
      waitsTick := fun t d hd => hd
      change := fun t t₁ t' c hc ht ht₁ ht' => by
        obtain rfl := hkeep ht'
        obtain ⟨_, _, reg, hbare, -⟩ := changeClock_bare ht₁
        have hclosed : WalkClosed V t' := WalkClosed.of_bare (walkClosed_changed ht.2.children ht.2.newChild
          (fun d hd _ => ht.2.moves d hd) ht.2.synced hc) hbare
        refine ⟨⟨hchange t t' c hc ht.1 ht₁, hclosed⟩, fun d ⟨p, hp, hVp, hVd⟩ => ?_⟩
        unfold Waits
        rw [parent_of_bare hbare, changed_parent]
        by_cases hmove : d = c ∧ Moves t c
        · obtain ⟨p', hp', hVp'⟩ := ht.2.moves c hc hmove.2
          exact ⟨p', by rw [if_pos hmove, hp'], hVp', hVd⟩
        · exact ⟨p, by rw [if_neg hmove, hp], hVp, hVd⟩
      children := fun t c d ht hc hd => ⟨c, ht.2.synced.parent c d hd, hc, ht.2.children c hc d hd⟩
      next := fun t d d' ht ⟨p, hp, hVp, hVd⟩ hnext =>
        have hmem := nextClock_mem hp hnext
        ⟨p, ht.2.synced.parent p d' hmem, hVp, ht.2.children p hVp d' hmem⟩
      known_of_waits := fun t d _ ⟨_, _, _, hVd⟩ => hVd
      newChild := fun t c d ht hc hd => ht.2.newChild c d hc hd }
  cases k with
  | zero => cases h
  | succ k =>
    rw [clkChangeRate] at h
    dsimp only at h
    split at h
    · exact Option.some.inj h ▸ htick _ hinv
    · obtain ⟨t, ht, hrest⟩ := Option.bind_eq_some_iff.mp h
      obtain ⟨t', ht', hrest⟩ := Option.bind_eq_some_iff.mp hrest
      obtain rfl := hkeep ht'
      obtain ⟨_, _, reg, hbare, -⟩ := changeClock_bare ht
      have hplan' := hplan.tick
      have hclosed : WalkClosed V t' := WalkClosed.of_bare (walkClosed_changed hplan'.children hplan'.newChild
        hplan'.moves ⟨hsync.parent, hsync.nodup⟩ htop) hbare
      exact (hw.rest (fun hrun hd => hw.run hrun hd) hrest htop
        ⟨hchange _ _ _ htop (htick _ hinv) ht, hclosed⟩).1.1

end GfpDrivers.Clk
