import GfpDrivers.Clk.Frame

/-!
The walk of `clk_change_rate`. What has to be known about one clock, so that
something holds after the whole walk: the clocks that the walk comes to are
among those that `known` is for, and the ones that the loops over children have
before them satisfy `waits`, also after clocks have been moved.
-/

namespace GfpDrivers.Clk

variable {κ υ R : Type} [DecidableEq κ] {Q : RatePlatform κ υ R} {fuel k : ℕ} {s s' : RateTree κ υ R} {c : κ}

/-- What a walk needs to keep `inv`. -/
structure WalkInvariant (Q : RatePlatform κ υ R) (fuel : ℕ) (inv : ClkTree κ υ R → Prop) (known : κ → Prop)
    (waits : ClkTree κ υ R → κ → Prop) : Prop where
  tick : ∀ t, inv t → inv t.tick
  waitsTick : ∀ t d, waits t d → waits t.tick d
  change : ∀ t t₁ t' c, known c → inv t → changeClock Q fuel t c = some t₁ →
    changePlan Q fuel t₁ c = some t' → inv t' ∧ ∀ d, waits t d → waits t' d
  children : ∀ t c d, inv t → known c → d ∈ t.list (.children c) → waits t d
  next : ∀ t d d', inv t → waits t d → nextClock t d = some d' → waits t d'
  known_of_waits : ∀ t d, inv t → waits t d → known d
  newChild : ∀ t c d, inv t → known c → (t.core c).newChild = some d → known d

namespace WalkInvariant

variable {inv : ClkTree κ υ R → Prop} {known : κ → Prop} {waits : ClkTree κ υ R → κ → Prop}

theorem each {f : RateTree κ υ R → κ → Option (RateTree κ υ R)} (hw : WalkInvariant Q fuel inv known waits)
    (hf : ∀ {s s' : RateTree κ υ R} {d}, f s d = some s' → known d → inv s.toClkTree →
      inv s'.toClkTree ∧ ∀ d, waits s.toClkTree d → waits s'.toClkTree d) {next : Option κ}
    (h : changeEach f c k s next = some s') (hinv : inv s.toClkTree)
    (hnext : ∀ d, next = some d → waits s.toClkTree d) :
    inv s'.toClkTree ∧ ∀ d, waits s.toClkTree d → waits s'.toClkTree d := by
  induction k generalizing s next with
  | zero =>
    cases next with
    | none => exact Option.some.inj h ▸ ⟨hinv, fun _ hd => hd⟩
    | some child => cases h
  | succ k ih =>
    cases next with
    | none => exact Option.some.inj h ▸ ⟨hinv, fun _ hd => hd⟩
    | some child =>
      obtain ⟨s₁, hs₁, hrest⟩ := Option.bind_eq_some_iff.mp h
      have hchild := hnext child rfl
      have hone : inv s₁.toClkTree ∧ ∀ d, waits s.toClkTree d → waits s₁.toClkTree d := by
        split at hs₁
        · exact Option.some.inj hs₁ ▸ ⟨hinv, fun _ hd => hd⟩
        · exact hf hs₁ (hw.known_of_waits _ _ hinv hchild) hinv
      obtain ⟨hinv', hwaits⟩ := ih hrest hone.1 fun d hd => hone.2 d (hw.next _ _ _ hinv hchild hd)
      exact ⟨hinv', fun d hd => hwaits d (hone.2 d hd)⟩

theorem rest (hw : WalkInvariant Q fuel inv known waits)
    (hf : ∀ {s s' : RateTree κ υ R} {d}, clkChangeRate Q fuel k s d = some s' → known d → inv s.toClkTree →
      inv s'.toClkTree ∧ ∀ d, waits s.toClkTree d → waits s'.toClkTree d)
    (h : ((changeEach (clkChangeRate Q fuel k) c fuel s (s.list (.children c)).head?).bind fun s =>
      match (s.core c).newChild with
      | some child => clkChangeRate Q fuel k s child
      | none => some s) = some s') (hc : known c) (hinv : inv s.toClkTree) :
    inv s'.toClkTree ∧ ∀ d, waits s.toClkTree d → waits s'.toClkTree d := by
  obtain ⟨s₁, hs₁, hrest⟩ := Option.bind_eq_some_iff.mp h
  obtain ⟨hinv₁, hwaits₁⟩ := hw.each hf hs₁ hinv fun d hd => hw.children _ _ _ hinv hc (List.mem_of_head? hd)
  split at hrest
  · next child hchild =>
      obtain ⟨hinv₂, hwaits₂⟩ := hf hrest (hw.newChild _ _ _ hinv₁ hc hchild) hinv₁
      exact ⟨hinv₂, fun d hd => hwaits₂ d (hwaits₁ d hd)⟩
  · exact Option.some.inj hrest ▸ ⟨hinv₁, hwaits₁⟩

theorem run (hw : WalkInvariant Q fuel inv known waits) (h : clkChangeRate Q fuel k s c = some s')
    (hc : known c) (hinv : inv s.toClkTree) :
    inv s'.toClkTree ∧ ∀ d, waits s.toClkTree d → waits s'.toClkTree d := by
  induction k generalizing s s' c with
  | zero => cases h
  | succ k ih =>
    rw [clkChangeRate] at h
    dsimp only at h
    split at h
    · exact Option.some.inj h ▸ ⟨hw.tick _ hinv, hw.waitsTick _⟩
    · obtain ⟨t, ht, hrest⟩ := Option.bind_eq_some_iff.mp h
      obtain ⟨t', ht', hrest⟩ := Option.bind_eq_some_iff.mp hrest
      obtain ⟨hinv', hwaits⟩ := hw.change _ _ _ _ hc (hw.tick _ hinv) ht ht'
      obtain ⟨hinv₁, hwaits₁⟩ := hw.rest (fun hrun hd => ih hrun hd) hrest hc hinv'
      exact ⟨hinv₁, fun d hd => hwaits₁ d (hwaits d (hw.waitsTick _ _ hd))⟩

end WalkInvariant

/-- What each change of a clock keeps, the whole walk keeps. -/
theorem clkChangeRate_keeps (inv : ClkTree κ υ R → Prop) (htick : ∀ t, inv t → inv t.tick)
    (hchange : ∀ t t' c, inv t → changeClock Q fuel t c = some t' → inv t')
    (hplan : ∀ t t' c, inv t → changePlan Q fuel t c = some t' → inv t')
    (h : clkChangeRate Q fuel k s c = some s') (hinv : inv s.toClkTree) : inv s'.toClkTree := by
  have hw : WalkInvariant Q fuel inv (fun _ => True) (fun _ _ => True) :=
    { tick := htick
      waitsTick := fun _ _ _ => trivial
      change := fun t t₁ t' c _ ht hs hs' => ⟨hplan _ _ _ (hchange _ _ _ ht hs) hs', fun _ _ => trivial⟩
      children := fun _ _ _ _ _ _ => trivial
      next := fun _ _ _ _ _ _ => trivial
      known_of_waits := fun _ _ _ _ => trivial
      newChild := fun _ _ _ _ _ _ => trivial }
  exact (hw.run h trivial hinv).1

/-! ### Setting a rate -/

variable {t t' : ClkTree κ υ R} {rate : ℕ} {ret : ℤ}

theorem clkCoreReqRoundRateNolock_bare (h : clkCoreReqRoundRateNolock Q fuel t c rate = some (t', k)) :
    t'.bare = t.bare := by
  obtain ⟨⟨t₁, cnt⟩, ht₁, hrest⟩ := Option.bind_eq_some_iff.mp h
  obtain ⟨⟨req, ret⟩, -, hrest⟩ := Option.bind_eq_some_iff.mp hrest
  obtain ⟨t₂, ht₂, heq⟩ := Option.map_eq_some_iff.mp hrest
  obtain ⟨rfl, -⟩ := Prod.mk.inj heq
  have hnuke : t₁.bare = t.bare := by
    unfold clkCoreRateNukeProtect at ht₁
    dsimp only at ht₁
    split at ht₁
    · obtain ⟨rfl, -⟩ := Prod.mk.inj (Option.some.inj ht₁)
      rfl
    · obtain ⟨t₃, ht₃, heq⟩ := Option.map_eq_some_iff.mp ht₁
      obtain ⟨rfl, -⟩ := Prod.mk.inj heq
      rw [clkCoreRateUnprotect_bare ht₃, setCore_protectCount, bare_withProtects]
  rw [← hnuke]
  unfold clkCoreRateRestoreProtect at ht₂
  split at ht₂
  · rw [← Option.some.inj ht₂, bare_tick]
  · obtain ⟨t₃, ht₃, rfl⟩ := Option.map_eq_some_iff.mp ht₂
    rw [setCore_protectCount, bare_withProtects, clkCoreRateProtect_bare ht₃, bare_tick]

/-- What `clk_core_set_rate_nolock` does after the request was rounded: nothing,
or it plans and, unless it fails, carries out the plan. -/
theorem clkCoreSetRateNolock_cases (h : clkCoreSetRateNolock Q fuel s c rate = some (s', ret)) :
    ∃ t rounded, clkCoreReqRoundRateNolock Q fuel s.toClkTree c rate = some (t, rounded) ∧
      (s'.toClkTree = t ∨ (t.core c).protectCount = 0 ∧
        ∃ t₁ top, clkCalcNewRates Q fuel fuel t c rate = some (t₁, top) ∧
          ((∃ time, s'.toClkTree = { t₁ with time := time }) ∨
            ∃ d s₁ s₂ time, top = some d ∧ s₁.toClkTree = { t₁ with time := time } ∧
              clkChangeRate Q fuel fuel s₁ d = some s₂ ∧ s' = s₂.setCore c { s₂.core c with reqRate := rate })) := by
  obtain ⟨⟨t, rounded⟩, ht, hrest⟩ := Option.bind_eq_some_iff.mp h
  refine ⟨t, rounded, ht, ?_⟩
  dsimp only at hrest
  split at hrest
  · obtain ⟨rfl, -⟩ := Prod.mk.inj (Option.some.inj hrest)
    exact .inl rfl
  · split at hrest
    · obtain ⟨rfl, -⟩ := Prod.mk.inj (Option.some.inj hrest)
      exact .inl rfl
    · next hprot =>
        obtain ⟨⟨t₁, top⟩, ht₁, hrest⟩ := Option.bind_eq_some_iff.mp hrest
        refine .inr ⟨Nat.eq_zero_of_not_pos hprot, t₁, top, ht₁, ?_⟩
        cases top with
        | none =>
          obtain ⟨rfl, -⟩ := Prod.mk.inj (Option.some.inj hrest)
          exact .inl ⟨_, rfl⟩
        | some d =>
          dsimp only [clkCoreDoSetRate] at hrest
          split at hrest
          · obtain ⟨rfl, -⟩ := Prod.mk.inj (Option.some.inj hrest)
            exact .inl ⟨_, rfl⟩
          · obtain ⟨⟨pre, failed⟩, -, hrest⟩ := Option.bind_eq_some_iff.mp hrest
            dsimp only at hrest
            split at hrest
            · obtain ⟨⟨abort, failed'⟩, -, heq⟩ := Option.map_eq_some_iff.mp hrest
              obtain ⟨rfl, -⟩ := Prod.mk.inj heq
              exact .inl ⟨_, rfl⟩
            · obtain ⟨s₂, hs₂, heq⟩ := Option.map_eq_some_iff.mp hrest
              obtain ⟨rfl, -⟩ := Prod.mk.inj heq
              exact .inr ⟨d, _, s₂, _, rfl, rfl, hs₂, rfl⟩

theorem changed_user {reg : R} : (changed t c reg rate).user = t.user := by
  unfold changed moved
  split
  · exact reparent_user
  · rfl

theorem clkCoreSetRateNolock_user (h : clkCoreSetRateNolock Q fuel s c rate = some (s', ret)) :
    s'.user = s.user := by
  obtain ⟨t, rounded, ht, hcase⟩ := clkCoreSetRateNolock_cases h
  have hround : t.user = s.user := user_of_bare (clkCoreReqRoundRateNolock_bare ht)
  rw [← hround]
  rcases hcase with rfl | ⟨-, t₁, top, ht₁, hcase⟩
  · rfl
  · have hplan : t₁.user = t.user := user_of_unplanned (clkCalcNewRates_unplanned ht₁)
    rw [← hplan]
    rcases hcase with ⟨time, heq⟩ | ⟨d, s₁, s₂, time, -, hs₁, hrun, rfl⟩
    · rw [heq]
    · have huser : s₁.user = t₁.user := by rw [hs₁]
      rw [← huser]
      change s₂.user = s₁.user
      refine clkChangeRate_keeps (fun t => t.user = s₁.user) (fun _ ht => ht) ?_ ?_ hrun rfl
      · intro t t' c hu hc
        obtain ⟨_, _, reg, hbare, -⟩ := changeClock_bare hc
        rw [← hu, user_of_bare hbare, changed_user]
      · intro t t' c hu hc
        unfold changePlan at hc
        split at hc
        · obtain ⟨⟨t₂, top⟩, ht₂, rfl⟩ := Option.map_eq_some_iff.mp hc
          rw [← hu]
          exact user_of_unplanned (clkCalcNewRates_unplanned ht₂)
        · rw [← hu, Option.some.inj hc]

end GfpDrivers.Clk
