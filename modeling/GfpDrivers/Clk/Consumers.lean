import GfpDrivers.Clk.Held

/-!
The calls of the consumers that prepare and enable clocks, or give them another
parent. Along a run, the counts of each clock are the references that its
consumers hold and one for each child that has a count.
-/

namespace GfpDrivers.Clk

open Lib Function

variable {κ υ R : Type} [DecidableEq κ] [Fintype κ] {P : Platform κ υ R} {a : Answers κ R} {fuel : ℕ}
  {s s' : ClkTree κ υ R} {c : κ} {q : Option κ} {p e : κ → ℕ} {ret : ℤ}

/-! ### Walking down -/

omit [DecidableEq κ] in
/-- The walk of `__clk_speculate_rates` ends. -/
theorem exists_clkSpeculateRates (hsync : Synced s) (hacyc : Acyclic s.parent) {parentRate : ℕ}
    (hfuel : Fintype.card κ ≤ fuel + depth s.parent c) :
    ∃ r, clkSpeculateRates P a s fuel c parentRate = some r := by
  induction fuel generalizing c parentRate with
  | zero =>
    have := hacyc.depth_lt_card (c := c)
    omega
  | succ fuel ih =>
    have heach : ∀ (l : List κ) (rate : ℕ) (r : ℤ), (∀ d ∈ l, d ∈ s.list (.children c)) →
        ∃ r', speculateEach (fun child => clkSpeculateRates P a s fuel child rate) l r = some r' := by
      intro l rate
      induction l with
      | nil => exact fun r _ => ⟨r, rfl⟩
      | cons child l ihl =>
        intro r hmem
        rw [List.forall_mem_cons] at hmem
        have := hacyc.depth_lt (hsync.parent c child hmem.1)
        obtain ⟨r₁, hr₁⟩ : ∃ r₁, clkSpeculateRates P a s fuel child rate = some r₁ := ih (by omega)
        rw [speculateEach, hr₁, Option.bind_some]
        by_cases hstop : notifyStop r₁ = true
        · exact ⟨r₁, if_pos hstop⟩
        · rw [if_neg hstop]
          exact ihl r₁ hmem.2
    rw [clkSpeculateRates]
    split
    · exact ⟨_, rfl⟩
    · exact heach _ _ _ fun _ hd => hd

/-- Only rates are different. -/
def OnlyRates (s s' : ClkTree κ υ R) : Prop :=
  s'.list = s.list ∧ s'.user = s.user ∧ ∀ d, ∃ rate, s'.core d = { s.core d with rate := rate }

omit [DecidableEq κ] [Fintype κ] in
theorem OnlyRates.trans {s₁ : ClkTree κ υ R} (h : OnlyRates s s₁) (h' : OnlyRates s₁ s') : OnlyRates s s' := by
  refine ⟨h'.1.trans h.1, h'.2.1.trans h.2.1, fun d => ?_⟩
  obtain ⟨rate, hrate⟩ := h.2.2 d
  obtain ⟨rate', hrate'⟩ := h'.2.2 d
  exact ⟨rate', by rw [hrate', hrate]⟩

omit [DecidableEq κ] [Fintype κ] in
theorem OnlyRates.field {β : Type*} (h : OnlyRates s s') (f : ClkCore κ R → β)
    (hf : ∀ (v : ClkCore κ R) rate, f { v with rate := rate } = f v) : (fun d => f (s'.core d)) = fun d => f (s.core d) := by
  funext d
  obtain ⟨rate, hrate⟩ := h.2.2 d
  rw [hrate, hf]

/-- The walk of `__clk_recalc_rates` ends, and only sets rates. -/
theorem exists_clkRecalcRates (hsync : Synced s) (hacyc : Acyclic s.parent)
    (hfuel : Fintype.card κ ≤ fuel + depth s.parent c) :
    ∃ s', clkRecalcRates P a fuel s c = some s' ∧ OnlyRates s s' := by
  induction fuel generalizing s c with
  | zero =>
    have := hacyc.depth_lt_card (c := c)
    omega
  | succ fuel ih =>
    have heach : ∀ (l : List κ) (t : ClkTree κ υ R), OnlyRates s t → (∀ d ∈ l, d ∈ s.list (.children c)) →
        ∃ t', l.foldlM (clkRecalcRates P a fuel) t = some t' ∧ OnlyRates s t' := by
      intro l
      induction l with
      | nil => exact fun t ht _ => ⟨t, rfl, ht⟩
      | cons child l ihl =>
        intro t ht hmem
        rw [List.forall_mem_cons] at hmem
        have hparent : t.parent = s.parent := ht.field (·.parent) fun _ _ => rfl
        have := hacyc.depth_lt (hsync.parent c child hmem.1)
        obtain ⟨t₁, ht₁, honly⟩ := ih (s := t) (c := child) (hsync.congr ht.1 hparent) (hparent ▸ hacyc)
          (by rw [hparent]; omega)
        obtain ⟨t', ht', honly'⟩ := ihl t₁ (ht.trans honly) hmem.2
        exact ⟨t', by rw [List.foldlM_cons, ht₁]; exact ht', honly'⟩
    rw [clkRecalcRates]
    refine heach _ _ ⟨rfl, rfl, fun d => ?_⟩ fun _ hd => hd
    by_cases hd : d = c
    · subst hd
      exact ⟨_, setCore_core_self⟩
    · exact ⟨_, setCore_core_of_ne hd⟩

/-! ### Changing the parent -/

/-- The operations above the old and the new parent of a clock succeed while the
parent of the clock is changed. -/
def ParentsWork (P : Platform κ υ R) (s : ClkTree κ υ R) (c : κ) (q : Option κ) : Prop :=
  ∀ n, s.time ≤ n → n < s.time + 8 → ∀ d, Above s.parent (s.parent c) d ∨ Above s.parent q d →
    Works (P.answers n) d

/-- A clock that is prepared but not enabled can be enabled, at the time when
`__clk_set_parent_before` tries it. -/
def OwnEnableWorks (P : Platform κ υ R) (s : ClkTree κ υ R) (c : κ) : Prop :=
  0 < s.prepares c → s.enables c = 0 →
    (P.answers (s.time + if (P.flags c).opsParentEnable then 7 else 3)).enable c = 0

omit [DecidableEq κ] [Fintype κ] in
theorem ne_zero_of_notifyStop (h : notifyStop ret = true) : ret ≠ 0 := by
  rintro rfl
  simp [notifyStop] at h

theorem Held.doSetParent {pIndex : ℕ} (h : Held P s p e) (hsync : Synced s)
    (hcovered : 0 < s.enables c → 0 < s.prepares c) (hfuel : Fintype.card κ ≤ fuel)
    (hacyc : Acyclic (update s.parent c q)) (hok : ParentsWork P s c q) (hself : OwnEnableWorks P s c) :
    ∃ s' ret, clkCoreDoSetParent P fuel s c q pIndex = some (s', ret) ∧ Held P s' p e ∧ Synced s' ∧
      s'.parent = if ret = 0 then update s.parent c q else s.parent := by
  have hsync' : Synced s.tick := hsync.congr rfl rfl
  unfold clkCoreDoSetParent
  dsimp only
  by_cases hget : (P.answers s.time).runtimeGet c = 0
  · rw [if_neg (not_not.mpr hget)]
    have hspeculate (rate : ℕ) : ∃ r, clkSpeculateRates P (P.answers s.time) s.tick fuel c rate = some r :=
      exists_clkSpeculateRates hsync' h.acyclic (by omega)
    rw [(hspeculate _).choose_spec]
    generalize (hspeculate _).choose = r
    simp only [Option.bind_eq_bind, Option.bind_some]
    by_cases hstop : notifyStop r = true
    · rw [if_pos hstop]
      exact ⟨_, r, rfl, h.tick, hsync', (if_neg (ne_zero_of_notifyStop hstop)).symm⟩
    · rw [if_neg hstop]
      obtain ⟨s₁, ret, hrun₁, h₁, hparent₁⟩ := h.tick.setParentRaw pIndex hcovered hfuel hacyc
        (fun n hn hn' => hok n (by simp only [ClkTree.tick] at hn; omega)
          (by simp only [ClkTree.tick] at hn'; omega))
        (fun hp he => by
          have henable := hself hp he
          simp only [ClkTree.tick]
          split at henable
          · next hflag => simpa [hflag, Nat.add_assoc] using henable
          · next hflag => simpa [hflag, Nat.add_assoc] using henable)
      have hsync₁ : Synced s₁ := (clkSetParentRaw_sameRate hsync' hrun₁).1
      obtain ⟨s₂, hrun₂, honly⟩ : ∃ s₂, clkRecalcRates P (P.answers s₁.time) fuel s₁.tick c = some s₂ ∧
          OnlyRates s₁.tick s₂ :=
        exists_clkRecalcRates (hsync₁.congr rfl rfl) h₁.acyclic (by omega)
      have hparent₂ : s₂.parent = s₁.parent := honly.field (·.parent) fun _ _ => rfl
      refine ⟨s₂, ret, ?_, ?_, ?_, ?_⟩
      · rw [hrun₁, Option.bind_some, hrun₂]
        rfl
      · exact h₁.congr hparent₂ (honly.field (·.prepareCount) fun _ _ => rfl)
          (honly.field (·.enableCount) fun _ _ => rfl)
      · exact hsync₁.congr honly.1 hparent₂
      · rw [hparent₂, hparent₁]
        rfl
  · rw [if_pos hget]
    exact ⟨_, _, rfl, h.tick, hsync', (if_neg hget).symm⟩

theorem Held.setParentNolock (h : Held P s p e) (hsync : Synced s)
    (hcovered : 0 < s.enables c → 0 < s.prepares c) (hfuel : Fintype.card κ ≤ fuel)
    (hacyc : Acyclic (update s.parent c q)) (hok : ParentsWork P s c q)
    (hself : s.parent c ≠ q → (P.flags c).setParentGate = false → OwnEnableWorks P s c) :
    ∃ s' ret, clkCoreSetParentNolock P fuel s c q = some (s', ret) ∧ Held P s' p e ∧ Synced s' ∧
      s'.parent = if ret = 0 then update s.parent c q else s.parent := by
  unfold clkCoreSetParentNolock
  by_cases hsame : (s.core c).parent = q
  · rw [if_pos hsame]
    refine ⟨s, 0, rfl, h, hsync, ?_⟩
    rw [if_pos rfl, ← hsame]
    exact (update_eq_self c s.parent).symm
  · rw [if_neg hsame]
    split
    · exact ⟨s, _, rfl, h, hsync, rfl⟩
    · by_cases hgate : (P.flags c).setParentGate = true ∧ 0 < (s.core c).prepareCount
      · rw [if_pos hgate]
        exact ⟨s, _, rfl, h, hsync, rfl⟩
      · rw [if_neg hgate]
        have hself' : OwnEnableWorks P s c := by
          by_cases hflag : (P.flags c).setParentGate = true
          · exact fun hp => absurd ⟨hflag, hp⟩ hgate
          · exact hself hsame (by simpa using hflag)
        split
        · exact ⟨s, _, rfl, h, hsync, rfl⟩
        · cases q with
          | none => exact h.doSetParent hsync hcovered hfuel hacyc hok hself'
          | some r =>
            dsimp only
            cases (P.parents c).idxOf? r with
            | none => exact ⟨s, _, rfl, h, hsync, rfl⟩
            | some pIndex => exact h.doSetParent hsync hcovered hfuel hacyc hok hself'

theorem Held.setParent {u : υ} (parent : Option υ) (h : Held P s p e) (hsync : Synced s)
    (hcovered : 0 < s.enables (P.coreOf u) → 0 < s.prepares (P.coreOf u)) (hfuel : Fintype.card κ ≤ fuel)
    (hacyc : Acyclic (update s.parent (P.coreOf u) (parent.map P.coreOf)))
    (hok : ParentsWork P s (P.coreOf u) (parent.map P.coreOf))
    (hself : s.parent (P.coreOf u) ≠ parent.map P.coreOf → (P.flags (P.coreOf u)).setParentGate = false →
      OwnEnableWorks P s (P.coreOf u)) :
    ∃ s' ret, clkSetParent P fuel s u parent = some (s', ret) ∧ Held P s' p e ∧ Synced s' ∧
      s'.parent = if ret = 0 then update s.parent (P.coreOf u) (parent.map P.coreOf) else s.parent := by
  -- the protection of the consumer is taken away and given back
  have hprotect : ∀ {t : ClkTree κ υ R} (b : Prop) [Decidable b], Acyclic t.parent → ∃ m,
      (if b then clkCoreRateProtect fuel t (some (P.coreOf u)) else some t) = some (t.withProtects m) := by
    intro t b _ hacyc
    split
    · obtain ⟨m, hm⟩ := exists_acquire t.protects (hacyc.reaches hfuel : Reaches _ fuel (some (P.coreOf u)))
      exact ⟨m, by rw [clkCoreRateProtect_eq, hm]; rfl⟩
    · exact ⟨t.protects, rfl⟩
  have hunprotect : ∃ m, (if 0 < (s.user u).exclusiveCount then clkCoreRateUnprotect fuel s (some (P.coreOf u))
      else some s) = some (s.withProtects m) := by
    split
    · obtain ⟨m, hm⟩ := exists_release (fun _ => false) s.protects
        (h.reaches hfuel : Reaches _ fuel (some (P.coreOf u)))
      exact ⟨m, by rw [clkCoreRateUnprotect_eq, hm]; rfl⟩
    · exact ⟨s.protects, rfl⟩
  obtain ⟨m, hm⟩ := hunprotect
  obtain ⟨s₁, ret, hrun₁, h₁, hsync₁, hparent₁⟩ := Held.setParentNolock (s := s.withProtects m)
    (h.congr rfl rfl rfl) (hsync.congr rfl rfl) hcovered hfuel hacyc hok hself
  obtain ⟨m', hm'⟩ := hprotect (0 < (s₁.user u).exclusiveCount) h₁.acyclic
  refine ⟨s₁.withProtects m', ret, ?_, h₁.congr rfl rfl rfl, hsync₁.congr rfl rfl, hparent₁⟩
  rw [clkSetParent, withoutProtection_eq, hm, Option.bind_some, hrun₁, Option.bind_some, hm']
  rfl

/-! ### What consumers hold -/

/-- How often each consumer has prepared and enabled its clock and not undone it. -/
structure Holdings (υ : Type) where
  prepares : υ → ℕ
  enables : υ → ℕ

section Ledger

variable [Fintype υ] {l : Holdings υ} {u : υ}

/-- The references on a clock that its consumers hold. On a critical clock the
framework has one more. -/
def clkHeld (P : Platform κ υ R) (f : υ → ℕ) (c : κ) : ℕ :=
  heldBy P.coreOf f c + if P.critical c then 1 else 0

/-- The counts fit what the consumers hold, and a consumer that has enabled its
clock has prepared it. -/
structure Counted (P : Platform κ υ R) (s : ClkTree κ υ R) (l : Holdings υ) : Prop where
  held : Held P s (clkHeld P l.prepares) (clkHeld P l.enables)
  synced : Synced s
  covered : ∀ u, 0 < l.enables u → 0 < l.prepares u

theorem Counted.prepared (h : Counted P s l) (hc : 0 < s.enables c) : 0 < s.prepares c := by
  refine h.held.enables.pos_of_pos h.held.acyclic h.held.prepares (fun d hd => ?_) c hc
  unfold clkHeld at hd ⊢
  by_cases hheld : 0 < heldBy P.coreOf l.enables d
  · obtain ⟨u, rfl, hu⟩ := exists_of_heldBy_pos hheld
    have := le_heldBy P.coreOf l.prepares u
    have := h.covered u hu
    omega
  · omega

variable [DecidableEq υ] {f : υ → ℕ}

omit [Fintype κ] in
theorem clkHeld_take :
    clkHeld P (update f u (f u + 1)) = hold (clkHeld P f) (some (P.coreOf u)) := by
  funext c
  unfold clkHeld
  rw [heldBy_take]
  simp only [hold]
  omega

omit [Fintype κ] in
theorem clkHeld_drop (h : 0 < f u) :
    clkHeld P f = hold (clkHeld P (update f u (f u - 1))) (some (P.coreOf u)) := by
  rw [← clkHeld_take, update_self, update_idem, Nat.sub_add_cancel h, update_eq_self]

/-! ### Calls -/

/-- The calls that take and give back references, or change a parent. -/
inductive CountCall (υ : Type) where
  | prepare (u : υ)
  | unprepare (u : υ)
  | enable (u : υ)
  | disable (u : υ)
  | setParent (u : υ) (parent : Option υ)

namespace CountCall

def run (P : Platform κ υ R) (fuel : ℕ) (s : ClkTree κ υ R) : CountCall υ → Option (ClkTree κ υ R × ℤ)
  | .prepare u => clkPrepare P fuel s u
  | .unprepare u => (clkUnprepare P fuel s u).map (·, 0)
  | .enable u => clkEnable P fuel s u
  | .disable u => (clkDisable P fuel s u).map (·, 0)
  | .setParent u parent => clkSetParent P fuel s u parent

/-- What the consumers hold after a call that returns `ret`. -/
def enter (l : Holdings υ) (ret : ℤ) : CountCall υ → Holdings υ
  | .prepare u => if ret = 0 then { l with prepares := Function.update l.prepares u (l.prepares u + 1) } else l
  | .unprepare u => { l with prepares := Function.update l.prepares u (l.prepares u - 1) }
  | .enable u => if ret = 0 then { l with enables := Function.update l.enables u (l.enables u + 1) } else l
  | .disable u => { l with enables := Function.update l.enables u (l.enables u - 1) }
  | .setParent _ _ => l

/-- The consumers undo only what they have done. They prepare before they enable,
and disable before they unprepare. The change of a parent leads to a forest
again, and the parents can be prepared and enabled during it. -/
def Allowed (P : Platform κ υ R) (s : ClkTree κ υ R) (l : Holdings υ) : CountCall υ → Prop
  | .prepare _ => True
  | .unprepare u => 0 < l.prepares u ∧ (l.enables u = 0 ∨ 1 < l.prepares u)
  | .enable u => 0 < l.prepares u
  | .disable u => 0 < l.enables u
  | .setParent u parent =>
      Acyclic (Function.update s.parent (P.coreOf u) (parent.map P.coreOf)) ∧
        ∀ n, s.time ≤ n → n < s.time + 8 → ∀ d,
          Above s.parent (s.parent (P.coreOf u)) d ∨ Above s.parent (parent.map P.coreOf) d →
            (P.answers n).prepare d = 0 ∧ (P.answers n).enable d = 0

/-- No result that `__clk_set_parent_before` does not look at is an error: runtime
power management of the parents succeeds, and a clock that is prepared but not
enabled can be enabled, if it gets another parent. -/
def Settles (P : Platform κ υ R) (s : ClkTree κ υ R) : CountCall υ → Prop
  | .setParent u parent =>
      (∀ n, s.time ≤ n → n < s.time + 8 → ∀ d,
        Above s.parent (s.parent (P.coreOf u)) d ∨ Above s.parent (parent.map P.coreOf) d →
          (P.answers n).runtimeGet d = 0) ∧
        (s.parent (P.coreOf u) ≠ parent.map P.coreOf → (P.flags (P.coreOf u)).setParentGate = false →
          OwnEnableWorks P s (P.coreOf u))
  | _ => True

/-- The parents after a call that returns `ret`. -/
def parents (P : Platform κ υ R) (parent : κ → Option κ) (ret : ℤ) : CountCall υ → κ → Option κ
  | .setParent u q => if ret = 0 then Function.update parent (P.coreOf u) (q.map P.coreOf) else parent
  | _ => parent

end CountCall

theorem CountCall.run_counted {call : CountCall υ} (hfuel : Fintype.card κ ≤ fuel) (h : Counted P s l)
    (hallowed : call.Allowed P s l) (hsettles : call.Settles P s) :
    ∃ s' ret, call.run P fuel s = some (s', ret) ∧ Counted P s' (call.enter l ret) ∧
      s'.parent = call.parents P s.parent ret ∧ (ret ≠ 0 → call.enter l ret = l) := by
  have hcrit : ∀ (f : υ → ℕ) c, P.critical c → 0 < clkHeld P f c := by
    intro f c hc
    unfold clkHeld
    rw [if_pos hc]
    omega
  cases call with
  | prepare u =>
    obtain ⟨s', ret, hrun, -, hbare, -, hcase⟩ := h.held.prepare (q := some (P.coreOf u)) hfuel
    refine ⟨s', ret, hrun, ?_, parent_of_bare hbare, fun hret => if_neg hret⟩
    have hsync : Synced s' := h.synced.congr (list_of_bare hbare) (parent_of_bare hbare)
    rcases hcase with ⟨hret, rfl⟩ | ⟨rfl, hheld, -⟩
    · rw [enter, if_neg hret]
      exact ⟨h.held.tick, hsync, h.covered⟩
    · rw [enter, if_pos rfl]
      refine ⟨?_, hsync, fun v hv => ?_⟩
      · rw [clkHeld_take]
        exact hheld
      · have := h.covered v hv
        by_cases hvu : v = u
        · subst hvu
          simp
        · simpa [hvu] using this
  | unprepare u =>
    obtain ⟨hpos, hdis⟩ := hallowed
    have hheld := h.held
    rw [clkHeld_drop hpos] at hheld
    obtain ⟨s', hrun, hbare, hheld', -⟩ := hheld.unprepare (hcrit _) hfuel
    refine ⟨s', 0, by rw [run, clkUnprepare, hrun]; rfl, ⟨hheld', ?_, fun v hv => ?_⟩, parent_of_bare hbare,
      fun hret => absurd rfl hret⟩
    · exact h.synced.congr (list_of_bare hbare) (parent_of_bare hbare)
    · by_cases hvu : v = u
      · subst hvu
        simp only [enter, update_self] at hv ⊢
        omega
      · simpa [enter, hvu] using h.covered v hv
  | enable u =>
    obtain ⟨s', ret, hrun, -, hbare, -, hcase⟩ := h.held.enable (q := some (P.coreOf u)) hfuel
    refine ⟨s', ret, hrun, ?_, parent_of_bare hbare, fun hret => if_neg hret⟩
    have hsync : Synced s' := h.synced.congr (list_of_bare hbare) (parent_of_bare hbare)
    rcases hcase with ⟨hret, rfl⟩ | ⟨rfl, hheld, -⟩
    · rw [enter, if_neg hret]
      exact ⟨h.held.tick, hsync, h.covered⟩
    · rw [enter, if_pos rfl]
      refine ⟨?_, hsync, fun v hv => ?_⟩
      · rw [clkHeld_take]
        exact hheld
      · by_cases hvu : v = u
        · subst hvu
          exact hallowed
        · exact h.covered v (by simpa [hvu] using hv)
  | disable u =>
    have hheld := h.held
    rw [clkHeld_drop (f := l.enables) hallowed] at hheld
    obtain ⟨s', hrun, hbare, hheld', -⟩ := hheld.disable (hcrit _) hfuel
    refine ⟨s', 0, by rw [run, clkDisable, hrun]; rfl, ⟨hheld', ?_, fun v hv => ?_⟩, parent_of_bare hbare,
      fun hret => absurd rfl hret⟩
    · exact h.synced.congr (list_of_bare hbare) (parent_of_bare hbare)
    · by_cases hvu : v = u
      · subst hvu
        exact h.covered v hallowed
      · exact h.covered v (by simpa [enter, hvu] using hv)
  | setParent u parent =>
    obtain ⟨s', ret, hrun, hheld, hsync, hparent⟩ := h.held.setParent parent h.synced h.prepared hfuel
      hallowed.1 (fun n hn hn' d hd => ⟨hsettles.1 n hn hn' d hd, hallowed.2 n hn hn' d hd⟩) hsettles.2
    exact ⟨s', ret, hrun, ⟨hheld, hsync, h.covered⟩, hparent, fun _ => rfl⟩

/-! ### Runs -/

/-- What allowed calls lead to, if all of them settle. -/
inductive Managed (P : Platform κ υ R) (fuel : ℕ) : ClkTree κ υ R → Holdings υ → Prop
  | start {s : ClkTree κ υ R} {l : Holdings υ} (h : Counted P s l) : Managed P fuel s l
  | call {s s' : ClkTree κ υ R} {l : Holdings υ} {call : CountCall υ} {ret : ℤ} (h : Managed P fuel s l)
      (hallowed : call.Allowed P s l) (hsettles : call.Settles P s) (hrun : call.run P fuel s = some (s', ret)) :
      Managed P fuel s' (call.enter l ret)

theorem Managed.counted (hfuel : Fintype.card κ ≤ fuel) (h : Managed P fuel s l) : Counted P s l := by
  induction h with
  | start h => exact h
  | call _ hallowed hsettles hrun ih =>
    obtain ⟨s'', ret', hrun', hcounted, -⟩ := CountCall.run_counted hfuel ih hallowed hsettles
    obtain ⟨rfl, rfl⟩ := Prod.mk.inj (Option.some.inj (hrun.symm.trans hrun'))
    exact hcounted

/-- In every state of a run, each clock counts what its consumers hold and its
children with a count. Each further call returns; if it fails it changes no
count and no parent, and a change of a parent takes the references of the clock
along from the old parent to the new one. -/
theorem counts_kept (hfuel : Fintype.card κ ≤ fuel) (h : Managed P fuel s l) :
    (∀ c, s.prepares c = clkHeld P l.prepares c + refs s.parent s.prepares c) ∧
      (∀ c, s.enables c = clkHeld P l.enables c + refs s.parent s.enables c) ∧
      (∀ c, 0 < s.enables c → 0 < s.prepares c) ∧
      ∀ call : CountCall υ, call.Allowed P s l → call.Settles P s →
        ∃ s' ret, call.run P fuel s = some (s', ret) ∧ Counted P s' (call.enter l ret) ∧
          (ret ≠ 0 → s'.parent = s.parent ∧ s'.prepares = s.prepares ∧ s'.enables = s.enables) ∧
          ∀ u parent, call = .setParent u parent → ret = 0 →
            s'.parent = Function.update s.parent (P.coreOf u) (parent.map P.coreOf) ∧
              Carried s.parent fuel (P.coreOf u) (parent.map P.coreOf) s.prepares s'.prepares ∧
              Carried s.parent fuel (P.coreOf u) (parent.map P.coreOf) s.enables s'.enables := by
  have hcounted := h.counted hfuel
  refine ⟨hcounted.held.prepares, hcounted.held.enables, fun c => hcounted.prepared, ?_⟩
  intro call hallowed hsettles
  obtain ⟨s', ret, hrun, hcounted', hparent, henter⟩ := CountCall.run_counted hfuel hcounted hallowed hsettles
  refine ⟨s', ret, hrun, hcounted', fun hret => ?_, ?_⟩
  · have hsame : s'.parent = s.parent := by
      rw [hparent]
      cases call with
      | setParent u parent => exact if_neg hret
      | _ => rfl
    have hheld := hcounted'.held
    rw [henter hret] at hheld
    refine ⟨hsame, ?_, ?_⟩
    · exact hcounted.held.prepares.unique hcounted.held.acyclic (hsame ▸ hheld.prepares)
    · exact hcounted.held.enables.unique hcounted.held.acyclic (hsame ▸ hheld.enables)
  · rintro u parent rfl rfl
    have hmoved : s'.parent = Function.update s.parent (P.coreOf u) (parent.map P.coreOf) := by
      rw [hparent, CountCall.parents, if_pos rfl]
    have hheld := hcounted'.held
    have hacyc := hheld.acyclic
    have hp := hheld.prepares
    have he := hheld.enables
    rw [hmoved] at hacyc hp he
    exact ⟨hmoved, hcounted.held.prepares.carried hcounted.held.acyclic hacyc hp hfuel,
      hcounted.held.enables.carried hcounted.held.acyclic hacyc he hfuel⟩

end Ledger

/-! ### A clock that cannot be enabled -/

/-- Two oscillators `0` and `1`, and a clock `2` that can have each of them as its
parent. Enabling the clock `2` returns `err`. -/
def muxClocks (err : ℤ) : Platform (Fin 3) Bool Unit where
  name c := if c = 0 then "osc" else if c = 1 then "rtc" else "mux"
  flags _ := ⟨false, false, false, false, false, false⟩
  ops c := ⟨true, false, false, c = 2, false, false, false⟩
  parents c := if c = 2 then [0, 1] else []
  recalcRate _ _ parentRate := parentRate
  coreOf u := if u then 2 else 1
  answers _ := ⟨fun _ => 0, fun _ => 0, fun c => if c = 2 then err else 0, fun _ _ r => (r, 0), fun _ => 0,
    fun _ => 0, fun _ => 0, fun _ => 0⟩

def muxParent (c : Fin 3) : Option (Fin 3) := if c = 2 then some 0 else none

def muxList (h : Home (Fin 3)) : List (Fin 3) :=
  if h = .roots then [0, 1] else if h = .children 0 then [2] else []

/-- The clock `2` is prepared and not enabled. -/
def muxTree : ClkTree (Fin 3) Bool Unit where
  core c := ⟨muxParent c, 0, 0, 0, none, 0, none, 0, if c = 1 then 0 else 1, 0, ()⟩
  hwCore _ := true
  list := muxList
  user _ := ⟨0, 1000, 0⟩
  time := 0

def muxHoldings : Holdings Bool := ⟨fun u => if u then 1 else 0, fun _ => 0⟩

theorem muxTree_counted (err : ℤ) : Counted (muxClocks err) muxTree muxHoldings where
  held :=
    { acyclic := acyclic_of_lt Fin.val (show ∀ c p, muxParent c = some p → p.val < c.val by decide)
      prepares := show ∀ c, muxTree.prepares c = heldBy (muxClocks 0).coreOf muxHoldings.prepares c + 0 +
        refs muxParent muxTree.prepares c by decide
      enables := show ∀ c, muxTree.enables c = heldBy (muxClocks 0).coreOf muxHoldings.enables c + 0 +
        refs muxParent muxTree.enables c by decide
      critical := fun _ h => absurd h (by simp [Platform.critical, muxClocks]) }
  synced :=
    { parent := show ∀ p d, d ∈ muxList (.children p) → muxParent d = some p by decide
      nodup := show ∀ p, (muxList (.children p)).Nodup by decide }
  covered := fun _ h => absurd h (by simp [muxHoldings])

theorem muxTree_allowed (err : ℤ) :
    (CountCall.setParent true (some false)).Allowed (muxClocks err) muxTree muxHoldings := by
  refine ⟨?_, fun n _ _ d hd => ⟨rfl, ?_⟩⟩
  · refine acyclic_of_lt Fin.val ?_
    change ∀ c p, update muxParent 2 (some 1) c = some p → p.val < c.val
    decide
  · -- no parent is above the clock itself
    have hne : d ≠ 2 := by
      rintro rfl
      have hup : ∀ b : Fin 3, b ≠ 2 → ¬Relation.ReflTransGen (ChildOf muxTree.parent) b 2 := by
        intro b hb hpath
        rcases Relation.ReflTransGen.cases_head hpath with rfl | ⟨b', hb', -⟩
        · exact hb rfl
        · have hroot : muxTree.parent b = none := if_neg hb
          unfold ChildOf at hb'
          rw [hroot] at hb'
          cases hb'
      rcases hd with ⟨b, hb, hpath⟩ | ⟨b, hb, hpath⟩
      · cases hb
        exact hup 0 (by decide) hpath
      · cases hb
        exact hup 1 (by decide) hpath
    exact if_neg hne

theorem muxTree_counts_kept :
    ∃ s' ret, (CountCall.setParent true (some false)).run (muxClocks 0) 3 muxTree = some (s', ret) ∧
      Counted (muxClocks 0) s' muxHoldings := by
  have hstart : Managed (muxClocks 0) 3 muxTree muxHoldings := .start (muxTree_counted 0)
  obtain ⟨s', ret, hrun, hcounted, -⟩ := (counts_kept (by simp) hstart).2.2.2 (.setParent true (some false))
    (muxTree_allowed 0)
    ⟨fun _ _ _ _ _ => rfl, fun _ _ _ _ => by simp [muxClocks]⟩
  exact ⟨s', ret, hrun, hcounted⟩

/-- The clock `2` gets the clock `1` as its parent, and enabling it fails on the
way. The call succeeds, and the clock `1` stays enabled for nobody. -/
theorem failed_enable_leaves_parent_enabled :
    Counted (muxClocks (-5)) muxTree muxHoldings ∧
      (CountCall.setParent true (some false)).Allowed (muxClocks (-5)) muxTree muxHoldings ∧
      ∃ s', (CountCall.setParent true (some false)).run (muxClocks (-5)) 3 muxTree = some (s', 0) ∧
        s'.enables 1 = 1 ∧ clkHeld (muxClocks (-5)) muxHoldings.enables 1 + refs s'.parent s'.enables 1 = 0 :=
  ⟨muxTree_counted _, muxTree_allowed _, _, rfl, by decide, by decide⟩

end GfpDrivers.Clk
