import GfpDrivers.Clk.Exclusive

/-!
The references that are held on the clocks from outside, for preparing and for
enabling. Each function of the framework takes or gives back references; while
the parent of a clock is changed, some more of them are held on the clock, its
old parent and its new parent.
-/

namespace GfpDrivers.Clk

open Lib Function

variable {κ υ R : Type} [DecidableEq κ] [Fintype κ] {P : Platform κ υ R} {fuel : ℕ} {s s' : ClkTree κ υ R}
  {c : κ} {q : Option κ} {p e : κ → ℕ}

/-- The counts fit the references that are held on the clocks: `p` of them for
preparing and `e` for enabling. Critical clocks always have some. -/
structure Held (P : Platform κ υ R) (s : ClkTree κ υ R) (p e : κ → ℕ) : Prop where
  acyclic : Acyclic s.parent
  prepares : Balanced s.parent p s.prepares
  enables : Balanced s.parent e s.enables
  critical : ∀ c, P.critical c → 0 < p c ∧ 0 < e c

theorem Held.tick (h : Held P s p e) : Held P s.tick p e := ⟨h.acyclic, h.prepares, h.enables, h.critical⟩

theorem Held.reaches (h : Held P s p e) (hfuel : Fintype.card κ ≤ fuel) : Reaches s.parent fuel q :=
  h.acyclic.reaches hfuel

omit [Fintype κ] in
theorem hold_pos {own : κ → ℕ} (h : 0 < own c) : 0 < hold own q c := by
  unfold hold
  omega

/-- The operations of the clock succeed. -/
def Works (a : Answers κ R) (c : κ) : Prop := a.runtimeGet c = 0 ∧ a.prepare c = 0 ∧ a.enable c = 0

omit [DecidableEq κ] [Fintype κ] in
theorem canPrepare_of_works {a : Answers κ R} {parent : κ → Option κ} {n : κ → ℕ} (hreach : Reaches parent fuel q)
    (hok : ∀ d, Above parent q d → Works a d) : CanPrepare a parent n fuel q := by
  induction fuel generalizing q with
  | zero =>
    cases q with
    | none => trivial
    | some c => exact hreach.elim
  | succ fuel ih =>
    cases q with
    | none => trivial
    | some c =>
      intro _
      obtain ⟨hget, hprep, -⟩ := hok c above_self
      exact ⟨hget, ih hreach fun d hd => hok d hd.of_parent, hprep⟩

/-! ### Taking and giving back -/

/-- Preparing a clock takes a reference, or fails and leaves the tree alone. -/
theorem Held.prepare (h : Held P s p e) (hfuel : Fintype.card κ ≤ fuel) :
    ∃ s' ret, clkCorePrepareLock P fuel s q = some (s', ret) ∧ s'.time = s.time + 1 ∧ s'.bare = s.bare ∧
      s'.enables = s.enables ∧
      (ret ≠ 0 ∧ s' = s.tick ∨ ret = 0 ∧ Held P s' (hold p q) e ∧
        ∀ d, ¬Above s.parent q d → s'.prepares d = s.prepares d) := by
  have hpos : ∀ d, P.critical d → 0 < s.prepares d := fun d hd => by
    have := (h.critical d hd).1
    rw [h.prepares d]
    omega
  obtain ⟨s', ret, hrun, hcase⟩ := clkCorePrepare_cases (P := P) (a := P.answers s.time) (s := s.tick) (q := q)
    h.acyclic (fun _ _ d _ => hpos d) (h.tick.reaches hfuel)
  refine ⟨s', ret, hrun, ?_⟩
  rcases hcase with ⟨hret, rfl⟩ | ⟨rfl, ⟨n, m, rfl, hn, -⟩, -⟩
  · exact ⟨rfl, rfl, rfl, .inl ⟨hret, rfl⟩⟩
  · exact ⟨rfl, rfl, rfl, .inr ⟨rfl, ⟨h.acyclic, acquire_balanced h.acyclic h.prepares hn, h.enables,
      fun d hd => ⟨hold_pos (h.critical d hd).1, (h.critical d hd).2⟩⟩, fun d hd => acquire_frame hn hd⟩⟩

theorem Held.unprepare (h : Held P s (hold p q) e) (hcrit : ∀ c, P.critical c → 0 < p c)
    (hfuel : Fintype.card κ ≤ fuel) :
    ∃ s', clkCoreUnprepare P fuel s q = some s' ∧ s'.bare = s.bare ∧ Held P s' p e ∧
      ∀ d, ¬Above s.parent q d → s'.prepares d = s.prepares d := by
  obtain ⟨n, m, hrun, hn⟩ := clkCoreUnprepare_eq (P := P) (h.reaches hfuel)
  exact ⟨_, hrun, rfl, ⟨h.acyclic, balanced_of_release h.prepares hcrit hn, h.enables,
    fun d hd => ⟨hcrit d hd, (h.critical d hd).2⟩⟩, fun d hd => release_frame hn hd⟩

/-- Enabling a clock takes a reference, or fails and leaves the tree alone. -/
theorem Held.enable (h : Held P s p e) (hfuel : Fintype.card κ ≤ fuel) :
    ∃ s' ret, clkCoreEnableLock P fuel s q = some (s', ret) ∧ s'.time = s.time + 1 ∧ s'.bare = s.bare ∧
      s'.prepares = s.prepares ∧
      (ret ≠ 0 ∧ s' = s.tick ∨ ret = 0 ∧ Held P s' p (hold e q) ∧
        ∀ d, ¬Above s.parent q d → s'.enables d = s.enables d) := by
  have hpos : ∀ d, P.critical d → 0 < s.enables d := fun d hd => by
    have := (h.critical d hd).2
    rw [h.enables d]
    omega
  obtain ⟨n, ret, hrun, hcase⟩ := clkCoreEnable_cases (P := P) (a := P.answers s.time) (s := s.tick) (q := q)
    h.acyclic (fun _ _ d _ => hpos d) (h.tick.reaches hfuel)
  refine ⟨_, ret, hrun, rfl, rfl, rfl, ?_⟩
  rcases hcase with ⟨hret, rfl⟩ | ⟨rfl, hn⟩
  · exact .inl ⟨hret, rfl⟩
  · exact .inr ⟨rfl, ⟨h.acyclic, h.prepares, acquire_balanced h.acyclic h.enables hn,
      fun d hd => ⟨(h.critical d hd).1, hold_pos (h.critical d hd).2⟩⟩, fun d hd => acquire_frame hn hd⟩

theorem Held.disable (h : Held P s p (hold e q)) (hcrit : ∀ c, P.critical c → 0 < e c)
    (hfuel : Fintype.card κ ≤ fuel) :
    ∃ s', clkCoreDisable P fuel s q = some s' ∧ s'.bare = s.bare ∧ Held P s' p e ∧
      s'.prepares = s.prepares := by
  obtain ⟨n, hn, hbal⟩ := release_balanced h.enables hcrit (h.reaches hfuel)
  exact ⟨s.withEnables n, by rw [clkCoreDisable_eq, hn]; rfl, rfl,
    ⟨h.acyclic, h.prepares, hbal, fun d hd => ⟨(h.critical d hd).1, hcrit d hd⟩⟩, rfl⟩

/-- Preparing and enabling a clock succeeds when the operations of all clocks
above do. -/
theorem Held.prepareEnable (h : Held P s p e) (hfuel : Fintype.card κ ≤ fuel)
    (hok : ∀ n, s.time ≤ n → n < s.time + 2 → ∀ d, Above s.parent q d → Works (P.answers n) d) :
    ∃ s', clkCorePrepareEnable P fuel s q = some (s', 0) ∧ s'.time = s.time + 2 ∧ s'.bare = s.bare ∧
      Held P s' (hold p q) (hold e q) ∧
      ∀ d, ¬Above s.parent q d → s'.prepares d = s.prepares d ∧ s'.enables d = s.enables d := by
  obtain ⟨s₁, ret, hrun, htime, hbare, hen₁, hcase⟩ := h.prepare (q := q) hfuel
  have hret : ret = 0 := (clkCorePrepare_ret hrun).mpr
    (canPrepare_of_works (h.tick.reaches hfuel) (hok s.time le_rfl (by omega)))
  obtain ⟨hne, -⟩ | ⟨-, h₁, hframe⟩ := hcase
  · exact absurd hret hne
  · obtain ⟨s₂, ret₂, hrun₂, htime₂, hbare₂, hprep₂, hcase₂⟩ := h₁.enable (q := q) hfuel
    have hparent : s₁.parent = s.parent := parent_of_bare hbare
    obtain ⟨n, hn⟩ := clkCoreEnable_ok (P := P) (a := P.answers s₁.time) (s := s₁.tick) (q := q)
      (h₁.tick.reaches hfuel) (fun d hd => by
        refine ⟨h₁.prepares.pos_above (fun c hc => ?_) hd, ?_⟩
        · cases hc
          exact h₁.prepares.pos_of_hold
        · rw [tick_parent, hparent] at hd
          exact (hok s₁.time (by omega) (by omega) d hd).2.2)
    have hret₂ : ret₂ = 0 := by
      have heq := hrun₂.symm.trans hn
      exact (Prod.mk.inj (Option.some.inj heq)).2
    obtain ⟨hne, -⟩ | ⟨-, h₂, hframe₂⟩ := hcase₂
    · exact absurd hret₂ hne
    · subst hret hret₂
      refine ⟨s₂, ?_, by omega, hbare₂.trans hbare, h₂, fun d hd => ?_⟩
      · rw [clkCorePrepareEnable, hrun, Option.bind_some]
        dsimp only
        rw [if_neg (by simp), hrun₂, Option.bind_some]
        exact if_neg (by simp)
      · rw [hprep₂, hframe d hd, hframe₂ d (hparent ▸ hd), hen₁]
        exact ⟨rfl, rfl⟩

theorem Held.disableUnprepare (h : Held P s (hold p q) (hold e q)) (hcrit : ∀ c, P.critical c → 0 < p c ∧ 0 < e c)
    (hfuel : Fintype.card κ ≤ fuel) :
    ∃ s', clkCoreDisableUnprepare P fuel s q = some s' ∧ s'.bare = s.bare ∧ Held P s' p e := by
  obtain ⟨s₁, hrun₁, hbare₁, h₁, -⟩ := h.disable (fun d hd => (hcrit d hd).2) hfuel
  obtain ⟨s₂, hrun₂, hbare₂, h₂, -⟩ := h₁.unprepare (fun d hd => (hcrit d hd).1) hfuel
  exact ⟨s₂, by rw [clkCoreDisableUnprepare, hrun₁, Option.bind_some, hrun₂], hbare₂.trans hbare₁, h₂⟩

/-! ### Changing the parent -/

omit [Fintype κ] in
theorem reparent_parent : (clkReparent s c q).parent = update s.parent c q := by
  funext d
  change ((clkReparent s c q).core d).parent = _
  rw [reparent_core]
  by_cases hd : d = c
  · subst hd
    simp
  · rw [update_of_ne hd]
    exact if_neg hd

omit [Fintype κ] in
theorem reparent_prepares : (clkReparent s c q).prepares = s.prepares := by
  funext d
  change ((clkReparent s c q).core d).prepareCount = _
  rw [reparent_core]
  rfl

omit [Fintype κ] in
theorem reparent_enables : (clkReparent s c q).enables = s.enables := by
  funext d
  change ((clkReparent s c q).core d).enableCount = _
  rw [reparent_core]
  rfl

/-- A clock that is prepared and enabled goes to another parent, and the
references on the new parent become ones on the old parent. -/
theorem Held.reparent (h : Held P s (hold p q) (hold e q)) (hcrit : ∀ c, P.critical c → 0 < p c ∧ 0 < e c)
    (hp : 0 < s.prepares c) (he : 0 < s.enables c) (hacyc : Acyclic (update s.parent c q)) :
    Held P (clkReparent s c q) (hold p (s.parent c)) (hold e (s.parent c)) := by
  refine ⟨?_, ?_, ?_, fun d hd => ⟨hold_pos (hcrit d hd).1, hold_pos (hcrit d hd).2⟩⟩
  · rw [reparent_parent]
    exact hacyc
  · rw [reparent_parent, reparent_prepares]
    exact h.prepares.move hp
  · rw [reparent_parent, reparent_enables]
    exact h.enables.move he

theorem Held.reparent_zero (h : Held P s p e) (hp : s.prepares c = 0) (he : s.enables c = 0)
    (hacyc : Acyclic (update s.parent c q)) : Held P (clkReparent s c q) p e := by
  refine ⟨?_, ?_, ?_, h.critical⟩
  · rw [reparent_parent]
    exact hacyc
  · rw [reparent_parent, reparent_prepares]
    exact h.prepares.move_zero hp
  · rw [reparent_parent, reparent_enables]
    exact h.enables.move_zero he

/-- The references with those on both parents, if `CLK_OPS_PARENT_ENABLE` asks for
them. -/
def forced (P : Platform κ υ R) (c : κ) (own : κ → ℕ) (old q : Option κ) : κ → ℕ :=
  if (P.flags c).opsParentEnable then hold (hold own old) q else own

omit [Fintype κ] in
theorem forced_pos {old : Option κ} {own : κ → ℕ} {d : κ} (h : 0 < own d) : 0 < forced P c own old q d := by
  unfold forced
  split
  · exact hold_pos (hold_pos h)
  · exact h

/-- While the parent of a clock is changed, a prepared clock is enabled, and there
are references on the parent `r` that it does not have. -/
structure Migrating (P : Platform κ υ R) (s : ClkTree κ υ R) (c : κ) (p e : κ → ℕ) (r : Option κ) : Prop where
  held : Held P s (if 0 < s.prepares c then hold p r else p)
    (if 0 < s.prepares c then hold (hold e (some c)) r else e)
  covered : 0 < s.enables c → 0 < s.prepares c

theorem Held.congr (h : Held P s p e) (hparent : s'.parent = s.parent) (hp : s'.prepares = s.prepares)
    (he : s'.enables = s.enables) : Held P s' p e :=
  ⟨hparent ▸ h.acyclic, by rw [hparent, hp]; exact h.prepares, by rw [hparent, he]; exact h.enables, h.critical⟩

theorem Migrating.congr {r : Option κ} (h : Migrating P s c p e r) (hparent : s'.parent = s.parent)
    (hp : s'.prepares = s.prepares) (he : s'.enables = s.enables) : Migrating P s' c p e r := by
  refine ⟨?_, ?_⟩
  · rw [hp]
    exact h.held.congr hparent hp he
  · rw [hp, he]
    exact h.covered

theorem Migrating.reparent (h : Migrating P s c p e q) (hcrit : ∀ c, P.critical c → 0 < p c ∧ 0 < e c)
    (hacyc : Acyclic (update s.parent c q)) : Migrating P (clkReparent s c q) c p e (s.parent c) := by
  have hheld := h.held
  refine ⟨?_, ?_⟩
  · rw [reparent_prepares]
    by_cases hp : 0 < s.prepares c
    · rw [if_pos hp, if_pos hp] at hheld ⊢
      have he : 0 < s.enables c := by
        rw [hheld.enables c]
        simp only [hold, if_true]
        omega
      exact hheld.reparent (fun d hd => ⟨(hcrit d hd).1, hold_pos (hcrit d hd).2⟩) hp he hacyc
    · rw [if_neg hp, if_neg hp] at hheld ⊢
      exact hheld.reparent_zero (by omega) (Nat.eq_zero_of_not_pos fun he => hp (h.covered he)) hacyc
  · rw [reparent_prepares, reparent_enables]
    exact h.covered

theorem Held.forceParents (h : Held P s p e) (hfuel : Fintype.card κ ≤ fuel)
    (hacyc : Acyclic (update s.parent c q))
    (hok : ∀ n, s.time ≤ n → n < s.time + 4 → ∀ d, Above s.parent (s.parent c) d ∨ Above s.parent q d →
      Works (P.answers n) d) :
    ∃ s', forceParents P fuel s c (s.parent c) q = some s' ∧ s'.bare = s.bare ∧
      s'.time = s.time + (if (P.flags c).opsParentEnable then 4 else 0) ∧
      Held P s' (forced P c p (s.parent c) q) (forced P c e (s.parent c) q) ∧
      s'.prepares c = s.prepares c ∧ s'.enables c = s.enables c := by
  unfold Clk.forceParents forced
  by_cases hflag : (P.flags c).opsParentEnable = true
  · obtain ⟨s₁, hrun₁, htime₁, hbare₁, h₁, hframe₁⟩ := h.prepareEnable (q := s.parent c) hfuel
      fun n hn hn' d hd => hok n hn (by omega) d (.inl hd)
    have hparent : s₁.parent = s.parent := parent_of_bare hbare₁
    obtain ⟨s₂, hrun₂, htime₂, hbare₂, h₂, hframe₂⟩ := h₁.prepareEnable (q := q) hfuel
      fun n hn hn' d hd => hok n (by omega) (by omega) d (.inr (hparent ▸ hd))
    obtain ⟨hp₁, he₁⟩ := hframe₁ c h.acyclic.not_above_parent
    obtain ⟨hp₂, he₂⟩ := hframe₂ c (hparent ▸ hacyc.not_above_of_reparent)
    simp only [if_pos hflag]
    refine ⟨s₂, ?_, hbare₂.trans hbare₁, by omega, h₂, hp₂.trans hp₁, he₂.trans he₁⟩
    rw [hrun₁, Option.bind_some, hrun₂]
    rfl
  · simp only [if_neg hflag]
    exact ⟨s, rfl, rfl, rfl, h, rfl, rfl⟩

/-- A prepared clock is enabled for the time of its move. -/
theorem Held.migratePrepare (h : Held P s p e) (hcovered : 0 < s.enables c → 0 < s.prepares c)
    (hfuel : Fintype.card κ ≤ fuel) (hacyc : Acyclic (update s.parent c q))
    (hok : ∀ n, s.time ≤ n → n < s.time + 3 → ∀ d, Above s.parent (s.parent c) d ∨ Above s.parent q d →
      Works (P.answers n) d)
    (hself : 0 < s.prepares c → s.enables c = 0 → (P.answers (s.time + 2)).enable c = 0) :
    ∃ s', migratePrepare P fuel s c q = some s' ∧ s'.bare = s.bare ∧ Migrating P s' c p e q := by
  by_cases hp : 0 < s.prepares c
  · obtain ⟨s₁, hrun₁, htime₁, hbare₁, h₁, hframe₁⟩ := h.prepareEnable (q := q) hfuel
      fun n hn hn' d hd => hok n hn (by omega) d (.inr hd)
    obtain ⟨hp₁, he₁⟩ := hframe₁ c hacyc.not_above_of_reparent
    have hparent : s₁.parent = s.parent := parent_of_bare hbare₁
    obtain ⟨s₂, ret, hrun₂, -, hbare₂, hp₂, hcase⟩ := h₁.enable (q := some c) hfuel
    -- the clock itself can be enabled, or is enabled already
    have hret : ret = 0 := by
      by_cases he : s.enables c = 0
      · have hworks : ∀ d, Above s₁.parent (some c) d → 0 < s₁.prepares d ∧ (P.answers s₁.time).enable d = 0 := by
          intro d hd
          refine ⟨h₁.prepares.pos_above (fun b hb => ?_) hd, ?_⟩
          · cases hb
            rw [hp₁]
            exact hp
          · rw [hparent] at hd
            obtain ⟨b, hb, hbd⟩ := hd
            cases hb
            rcases Relation.ReflTransGen.cases_head hbd with rfl | ⟨r, hr, hrd⟩
            · rw [htime₁]
              exact hself hp he
            · exact (hok s₁.time (by omega) (by omega) d (.inl ⟨r, hr, hrd⟩)).2.2
        obtain ⟨n, hn⟩ := clkCoreEnable_ok (P := P) (s := s₁.tick) (h₁.tick.reaches hfuel) hworks
        exact (Prod.mk.inj (Option.some.inj (hrun₂.symm.trans hn))).2
      · cases fuel with
        | zero => exact (h₁.reaches (q := some c) hfuel).elim
        | succ fuel =>
          rw [clkCoreEnableLock, clkCoreEnable_succ, if_neg (by rw [tick_prepares, hp₁]; omega),
            if_neg (by rw [tick_enables, he₁]; exact he)] at hrun₂
          exact (Prod.mk.inj (Option.some.inj hrun₂)).2.symm
    obtain ⟨hne, -⟩ | ⟨-, h₂, -⟩ := hcase
    · exact absurd hret hne
    · have hpos : 0 < s₂.prepares c := by rw [hp₂, hp₁]; exact hp
      refine ⟨s₂, ?_, hbare₂.trans hbare₁, ?_, fun _ => hpos⟩
      · unfold Clk.migratePrepare
        rw [if_pos (show 0 < (s.core c).prepareCount from hp), hrun₁, Option.bind_some, hrun₂]
        rfl
      · rw [if_pos hpos, if_pos hpos, hold_comm]
        exact h₂
  · refine ⟨s, if_neg hp, rfl, ?_, hcovered⟩
    rw [if_neg hp, if_neg hp]
    exact h

/-- `__clk_set_parent_before` takes references on the new parent for a prepared
clock, and the move leaves them on the old one. The operations of the parents
succeed, and so does the operation that enables the clock, if it is called. -/
theorem Held.setParentBefore (h : Held P s p e) (hcovered : 0 < s.enables c → 0 < s.prepares c)
    (hfuel : Fintype.card κ ≤ fuel) (hacyc : Acyclic (update s.parent c q))
    (hok : ∀ n, s.time ≤ n → n < s.time + 7 → ∀ d, Above s.parent (s.parent c) d ∨ Above s.parent q d →
      Works (P.answers n) d)
    (hself : 0 < s.prepares c → s.enables c = 0 →
      (P.answers (s.time + if (P.flags c).opsParentEnable then 6 else 2)).enable c = 0) :
    ∃ s', clkSetParentBefore P fuel s c q = some (s', s.parent c) ∧
      s'.parent = update s.parent c q ∧
      Migrating P s' c (forced P c p (s.parent c) q) (forced P c e (s.parent c) q) (s.parent c) := by
  obtain ⟨s₁, hrun₁, hbare₁, htime₁, h₁, hp₁, he₁⟩ := h.forceParents hfuel hacyc
    fun n hn hn' => hok n hn (by omega)
  have hparent₁ : s₁.parent = s.parent := parent_of_bare hbare₁
  obtain ⟨s₂, hrun₂, hbare₂, h₂⟩ := h₁.migratePrepare (c := c) (q := q) (by rw [hp₁, he₁]; exact hcovered) hfuel
    (hparent₁ ▸ hacyc)
    (fun n hn hn' => by
      rw [hparent₁]
      refine hok n (by omega) ?_
      split at htime₁ <;> omega)
    (by
      rw [hp₁, he₁, htime₁]
      intro hp he
      have henable := hself hp he
      split at henable <;> simp_all)
  have hparent₂ : s₂.parent = s.parent := (parent_of_bare hbare₂).trans hparent₁
  refine ⟨clkReparent s₂ c q, ?_, ?_, ?_⟩
  · rw [clkSetParentBefore_eq, hrun₁, Option.bind_some, hrun₂]
    rfl
  · rw [reparent_parent, hparent₂]
  · rw [← hparent₂]
    refine Migrating.reparent ?_ (fun d hd => ?_) (hparent₂ ▸ hacyc)
    · rw [hparent₂]
      exact h₂
    · exact ⟨forced_pos (h.critical d hd).1, forced_pos (h.critical d hd).2⟩

/-- `__clk_set_parent_after` gives all references back. -/
theorem Migrating.setParentAfter {r : Option κ}
    (h : Migrating P s c (forced P c p r q) (forced P c e r q) r)
    (hcrit : ∀ c, P.critical c → 0 < p c ∧ 0 < e c) (hfuel : Fintype.card κ ≤ fuel) :
    ∃ s', clkSetParentAfter P fuel s c q r = some s' ∧ s'.parent = s.parent ∧ Held P s' p e := by
  have hforced : ∀ c', P.critical c' → 0 < forced P c p r q c' ∧ 0 < forced P c e r q c' := fun d hd =>
    ⟨forced_pos (hcrit d hd).1, forced_pos (hcrit d hd).2⟩
  obtain ⟨s₁, hrun₁, hbare₁, h₁⟩ : ∃ s₁, finishMigration P fuel s c r = some s₁ ∧ s₁.bare = s.bare ∧
      Held P s₁ (forced P c p r q) (forced P c e r q) := by
    have hheld := h.held
    unfold finishMigration
    by_cases hp : 0 < s.prepares c
    · rw [if_pos hp, if_pos hp, hold_comm] at hheld
      obtain ⟨s₁, hrun₁, hbare₁, h₁, -⟩ := hheld.disable (fun d hd => hold_pos (hforced d hd).2) hfuel
      obtain ⟨s₂, hrun₂, hbare₂, h₂⟩ := h₁.disableUnprepare hforced hfuel
      refine ⟨s₂, ?_, hbare₂.trans hbare₁, h₂⟩
      rw [if_pos (show 0 < (s.core c).prepareCount from hp), hrun₁, Option.bind_some, hrun₂]
    · rw [if_neg hp, if_neg hp] at hheld
      exact ⟨s, if_neg hp, rfl, hheld⟩
  rw [clkSetParentAfter_eq, hrun₁, Option.bind_some]
  unfold unforceParents
  unfold forced at h₁
  by_cases hflag : (P.flags c).opsParentEnable = true
  · simp only [if_pos hflag] at h₁ ⊢
    obtain ⟨s₂, hrun₂, hbare₂, h₂⟩ := h₁.disableUnprepare
      (fun d hd => ⟨hold_pos (hcrit d hd).1, hold_pos (hcrit d hd).2⟩) hfuel
    obtain ⟨s₃, hrun₃, hbare₃, h₃⟩ := h₂.disableUnprepare hcrit hfuel
    refine ⟨s₃, by rw [hrun₂, Option.bind_some, hrun₃], ?_, h₃⟩
    rw [parent_of_bare hbare₃, parent_of_bare hbare₂, parent_of_bare hbare₁]
  · simp only [if_neg hflag] at h₁ ⊢
    exact ⟨s₁, rfl, parent_of_bare hbare₁, h₁⟩

/-- `__clk_set_parent` moves the clock or leaves it where it was, and the
references stay. -/
theorem Held.setParentRaw (h : Held P s p e) (pIndex : ℕ) (hcovered : 0 < s.enables c → 0 < s.prepares c)
    (hfuel : Fintype.card κ ≤ fuel) (hacyc : Acyclic (update s.parent c q))
    (hok : ∀ n, s.time ≤ n → n < s.time + 7 → ∀ d, Above s.parent (s.parent c) d ∨ Above s.parent q d →
      Works (P.answers n) d)
    (hself : 0 < s.prepares c → s.enables c = 0 →
      (P.answers (s.time + if (P.flags c).opsParentEnable then 6 else 2)).enable c = 0) :
    ∃ s' ret, clkSetParentRaw P fuel s c q pIndex = some (s', ret) ∧ Held P s' p e ∧
      s'.parent = if ret = 0 then update s.parent c q else s.parent := by
  obtain ⟨s₁, hrun₁, hparent₁, h₁⟩ := h.setParentBefore hcovered hfuel hacyc hok hself
  have hforced : ∀ d, P.critical d → 0 < forced P c p (s.parent c) q d ∧ 0 < forced P c e (s.parent c) q d :=
    fun d hd => ⟨forced_pos (h.critical d hd).1, forced_pos (h.critical d hd).2⟩
  unfold clkSetParentRaw
  rw [hrun₁]
  simp only [Option.bind_eq_bind, Option.bind_some]
  generalize (if q.isSome then (P.answers s₁.time).setParent c pIndex (s₁.core c).reg
    else ((s₁.core c).reg, 0)) = answer
  -- the registers are of no account here
  have hreg : ∀ {f : ClkCore κ R → ℕ}, (∀ v : ClkCore κ R, f { v with reg := answer.1 } = f v) → ∀ d,
      f ((s₁.tick.setCore c { s₁.core c with reg := answer.1 }).core d) = f (s₁.core d) := by
    intro f hf d
    by_cases hd : d = c
    · subst hd
      rw [setCore_core_self]
      exact hf _
    · rw [setCore_core_of_ne hd]
      rfl
  have hparent : (s₁.tick.setCore c { s₁.core c with reg := answer.1 }).parent = s₁.parent := by
    funext d
    unfold ClkTree.parent
    by_cases hd : d = c
    · subst hd
      rw [setCore_core_self]
    · rw [setCore_core_of_ne hd]
      rfl
  have hwritten := h₁.congr hparent (funext (hreg (f := (·.prepareCount)) fun _ => rfl))
    (funext (hreg (f := (·.enableCount)) fun _ => rfl))
  by_cases hret : answer.2 = 0
  · rw [if_neg (not_not.mpr hret)]
    obtain ⟨s₂, hrun₂, hparent₂, h₂⟩ := hwritten.setParentAfter h.critical hfuel
    refine ⟨s₂, 0, by rw [hrun₂]; rfl, h₂, ?_⟩
    rw [if_pos rfl, hparent₂, hparent, hparent₁]
  · rw [if_pos hret]
    have hback : update s₁.parent c (s.parent c) = s.parent := by
      rw [hparent₁, update_idem, update_eq_self]
    have hmoved := hwritten.reparent hforced (by rw [hparent, hback]; exact h.acyclic)
    rw [hparent, hparent₁, update_self] at hmoved
    have hcomm : ∀ own, forced P c own (s.parent c) q = forced P c own q (s.parent c) := by
      intro own
      unfold forced
      rw [hold_comm]
    rw [hcomm, hcomm] at hmoved
    obtain ⟨s₂, hrun₂, hparent₂, h₂⟩ := hmoved.setParentAfter h.critical hfuel
    refine ⟨s₂, answer.2, by rw [hrun₂]; rfl, h₂, ?_⟩
    rw [if_neg hret, hparent₂, reparent_parent, hparent, hback]

end GfpDrivers.Clk
