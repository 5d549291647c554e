import GfpDrivers.Clk.Walk

/-!
The rate ranges of the consumers of a clock (`clk_set_rate_range`). A new range
is checked against the range of the clock and against each consumer's range, one
by one. As ranges that meet pairwise have a common rate, this is enough for the
boundaries of the clock to be in order.

The range is written before it is checked. It is taken back when the rate cannot
be set, and not when the check fails.
-/

namespace GfpDrivers.Clk

open Function

variable {κ υ R : Type} [DecidableEq κ] [DecidableEq υ] {Q : RatePlatform κ υ R} {fuel : ℕ}
  {s s' : RateTree κ υ R} {c : κ} {u : υ} {minRate maxRate : ℕ} {ret : ℤ}

/-- `ULONG_MAX` -/
def ulongMax : ℕ := 2 ^ 64 - 1

/-- A call that changes the range of a consumer. -/
inductive RangeCall (υ : Type) where
  | range (u : υ) (minRate maxRate : ℕ)
  | min (u : υ) (rate : ℕ)
  | max (u : υ) (rate : ℕ)

namespace RangeCall

def user : RangeCall υ → υ
  | .range u _ _ => u
  | .min u _ => u
  | .max u _ => u

/-- The range that is asked for. -/
def bounds (s : RateTree κ υ R) : RangeCall υ → ℕ × ℕ
  | .range _ minRate maxRate => (minRate, maxRate)
  | .min u rate => (rate, (s.user u).maxRate)
  | .max u rate => ((s.user u).minRate, rate)

def run (Q : RatePlatform κ υ R) (fuel : ℕ) (s : RateTree κ υ R) : RangeCall υ → Option (RateTree κ υ R × ℤ)
  | .range u minRate maxRate => clkSetRateRange Q fuel s u minRate maxRate
  | .min u rate => clkSetMinRate Q fuel s u rate
  | .max u rate => clkSetMaxRate Q fuel s u rate

end RangeCall

theorem run_eq (call : RangeCall υ) :
    call.run Q fuel s = clkSetRateRange Q fuel s call.user (call.bounds s).1 (call.bounds s).2 := by
  cases call <;> rfl

/-! ### What is expected -/

/-- The consumers of the clock have no restrictions yet. -/
structure Unrestricted (Q : RatePlatform κ υ R) (s : RateTree κ υ R) (c : κ) : Prop where
  nonempty : Q.minRate c ≤ Q.maxRate c
  fits : Q.maxRate c ≤ ulongMax
  users : ∀ u ∈ Q.clks c, (s.user u).minRate = 0 ∧ (s.user u).maxRate = ulongMax

/-- The boundaries of the clock are in order. -/
def InOrder (Q : RatePlatform κ υ R) (s : RateTree κ υ R) (c : κ) : Prop :=
  (clkCoreGetBoundaries Q s.toClkTree c).1 ≤ (clkCoreGetBoundaries Q s.toClkTree c).2

/-- In each state of the run the boundaries are in order, and a call that returns
an error leaves the range of its consumer as it was. -/
def StaysSatisfiable (Q : RatePlatform κ υ R) (fuel : ℕ) (c : κ) : RateTree κ υ R → List (RangeCall υ) → Prop
  | s, [] => InOrder Q s c
  | s, call :: rest => InOrder Q s c ∧ ∀ s' ret, call.run Q fuel s = some (s', ret) →
      (ret ≠ 0 → (s'.user call.user).minRate = (s.user call.user).minRate ∧
        (s'.user call.user).maxRate = (s.user call.user).maxRate) ∧
      StaysSatisfiable Q fuel c s' rest

/-- The range meets the one of the clock and those of the other consumers. -/
def Meets (Q : RatePlatform κ υ R) (s : RateTree κ υ R) (c : κ) (u : υ) (minRate maxRate : ℕ) : Prop :=
  minRate ≤ Q.maxRate c ∧ Q.minRate c ≤ maxRate ∧
    ∀ v ∈ Q.clks c, v ≠ u → minRate ≤ (s.user v).maxRate ∧ (s.user v).minRate ≤ maxRate

/-- Each range that is asked for in the run is empty, or it meets the others. -/
def AsksForMeeting (Q : RatePlatform κ υ R) (fuel : ℕ) (c : κ) : RateTree κ υ R → List (RangeCall υ) → Prop
  | _, [] => True
  | s, call :: rest => ∀ s' ret, call.run Q fuel s = some (s', ret) →
      ((call.bounds s).1 ≤ (call.bounds s).2 →
        Meets Q s c call.user (call.bounds s).1 (call.bounds s).2) ∧
      AsksForMeeting Q fuel c s' rest

/-! ### Ranges that meet -/

/-- The ranges of the clock and its consumers meet pairwise. -/
structure RangesMeet (Q : RatePlatform κ υ R) (s : RateTree κ υ R) (c : κ) : Prop where
  clock : Q.minRate c ≤ Q.maxRate c
  users : ∀ u ∈ Q.clks c, (s.user u).minRate ≤ Q.maxRate c ∧ Q.minRate c ≤ (s.user u).maxRate
  pairs : ∀ u ∈ Q.clks c, ∀ v ∈ Q.clks c, (s.user u).minRate ≤ (s.user v).maxRate

omit [DecidableEq υ] in
theorem foldl_max_le_iff {f : υ → ℕ} {l : List υ} {a b : ℕ} :
    l.foldl (fun m u => max m (f u)) a ≤ b ↔ a ≤ b ∧ ∀ u ∈ l, f u ≤ b := by
  induction l generalizing a with
  | nil => simp
  | cons u l ih =>
    rw [List.foldl_cons, ih, max_le_iff, List.forall_mem_cons, and_assoc]

omit [DecidableEq υ] in
theorem le_foldl_min_iff {f : υ → ℕ} {l : List υ} {a b : ℕ} :
    b ≤ l.foldl (fun m u => min m (f u)) a ↔ b ≤ a ∧ ∀ u ∈ l, b ≤ f u := by
  induction l generalizing a with
  | nil => simp
  | cons u l ih =>
    rw [List.foldl_cons, ih, le_min_iff, List.forall_mem_cons, and_assoc]

omit [DecidableEq κ] [DecidableEq υ] in
theorem RangesMeet.inOrder (h : RangesMeet Q s c) : InOrder Q s c := by
  refine foldl_max_le_iff.mpr ⟨?_, fun u hu => ?_⟩
  · exact le_foldl_min_iff.mpr ⟨h.clock, fun v hv => (h.users v hv).2⟩
  · exact le_foldl_min_iff.mpr ⟨(h.users u hu).1, fun v hv => h.pairs u hu v hv⟩

omit [DecidableEq κ] [DecidableEq υ] in
theorem Unrestricted.rangesMeet (h : Unrestricted Q s c) : RangesMeet Q s c := by
  refine ⟨h.nonempty, fun u hu => ?_, fun u hu v hv => ?_⟩
  · rw [(h.users u hu).1, (h.users u hu).2]
    exact ⟨Nat.zero_le _, h.nonempty.trans h.fits⟩
  · rw [(h.users u hu).1]
    exact Nat.zero_le _

omit [DecidableEq κ] [DecidableEq υ] in
theorem RangesMeet.congr (h : RangesMeet Q s c) (hu : s'.user = s.user) : RangesMeet Q s' c := by
  refine ⟨h.clock, ?_, ?_⟩ <;> rw [hu]
  · exact h.users
  · exact h.pairs

/-! ### One call -/

/-- The consumers after the range of one of them was written. -/
def writeRange (users : υ → ClkUser) (u : υ) (minRate maxRate : ℕ) : υ → ClkUser :=
  Function.update users u { users u with minRate := minRate, maxRate := maxRate }

omit [DecidableEq κ] in
theorem checkBoundaries_iff (hle : minRate ≤ maxRate) :
    clkCoreCheckBoundaries Q (s.setUser u { s.user u with minRate := minRate, maxRate := maxRate }).toClkTree c
      minRate maxRate = true ↔ Meets Q s c u minRate maxRate := by
  unfold clkCoreCheckBoundaries Meets
  simp only [Bool.and_eq_true, Bool.not_eq_true', Bool.or_eq_false_iff, decide_eq_false_iff_not, not_lt,
    List.all_eq_true, and_assoc]
  refine and_congr_right fun _ => and_congr_right fun _ => forall₂_congr fun v _ => ?_
  by_cases hv : v = u
  · subst hv
    simp [RateTree.setUser, RateTree.setTree, ClkTree.setUser, hle]
  · simp [RateTree.setUser, RateTree.setTree, ClkTree.setUser, hv]

theorem clkTryRange_cases (h : clkTryRange Q fuel s u minRate maxRate = some (s', ret)) (hle : minRate ≤ maxRate) :
    (¬Meets Q s (Q.coreOf u) u minRate maxRate ∧ ret = -EINVAL ∧
        s'.user = writeRange s.user u minRate maxRate) ∨
      (Meets Q s (Q.coreOf u) u minRate maxRate ∧ (ret ≠ 0 ∧ s'.user = s.user ∨
        ret = 0 ∧ s'.user = writeRange s.user u minRate maxRate)) := by
  unfold clkTryRange at h
  dsimp only at h
  by_cases hcheck : clkCoreCheckBoundaries Q
      (s.setUser u { s.user u with minRate := minRate, maxRate := maxRate }).toClkTree (Q.coreOf u)
      minRate maxRate = true
  · rw [if_neg (by simpa using hcheck)] at h
    refine .inr ⟨(checkBoundaries_iff hle).mp hcheck, ?_⟩
    obtain ⟨⟨s₁, ret₁⟩, hs₁, hrest⟩ := Option.map_eq_some_iff.mp h
    have huser := clkCoreSetRateNolock_user hs₁
    dsimp only at hrest
    split at hrest
    · next hret =>
        obtain ⟨rfl, rfl⟩ := Prod.mk.inj hrest
        refine .inl ⟨hret, ?_⟩
        change update s₁.user u _ = s.user
        rw [huser]
        change update (update s.user u _) u _ = s.user
        rw [update_idem]
        simp [RateTree.setUser, RateTree.setTree, ClkTree.setUser]
    · next hret =>
        obtain ⟨rfl, rfl⟩ := Prod.mk.inj hrest
        exact .inr ⟨not_not.mp hret, huser⟩
  · rw [if_pos (by simpa using hcheck)] at h
    obtain ⟨rfl, rfl⟩ := Prod.mk.inj (Option.some.inj h)
    exact .inl ⟨(checkBoundaries_iff hle).not.mp hcheck, rfl, rfl⟩

omit [DecidableEq υ] in
theorem rateWithoutProtection_cases {f : RateTree κ υ R → Option (RateTree κ υ R × ℤ)}
    (h : rateWithoutProtection Q fuel s u f = some (s', ret)) :
    ∃ s₁ s₂, s₁.user = s.user ∧ f s₁ = some (s₂, ret) ∧ s'.user = s₂.user := by
  obtain ⟨t, ht, hrest⟩ := Option.bind_eq_some_iff.mp h
  obtain ⟨⟨s₂, ret₂⟩, hs₂, hrest⟩ := Option.bind_eq_some_iff.mp hrest
  obtain ⟨t', ht', heq⟩ := Option.map_eq_some_iff.mp hrest
  obtain ⟨rfl, rfl⟩ := Prod.mk.inj heq
  refine ⟨s.setTree t, s₂, ?_, hs₂, ?_⟩
  · split at ht
    · exact user_of_bare (clkCoreRateUnprotect_bare ht)
    · exact congrArg ClkTree.user (Option.some.inj ht).symm
  · split at ht'
    · exact user_of_bare (clkCoreRateProtect_bare ht')
    · exact congrArg ClkTree.user (Option.some.inj ht').symm

omit [DecidableEq κ] [DecidableEq υ] in
theorem Meets.congr (h : s'.user = s.user) :
    Meets Q s' c u minRate maxRate ↔ Meets Q s c u minRate maxRate := by
  unfold Meets
  rw [h]

theorem clkSetRateRange_cases (h : clkSetRateRange Q fuel s u minRate maxRate = some (s', ret)) :
    (maxRate < minRate ∧ s' = s) ∨
      (minRate ≤ maxRate ∧ ¬Meets Q s (Q.coreOf u) u minRate maxRate ∧ ret = -EINVAL ∧
        s'.user = writeRange s.user u minRate maxRate) ∨
      (minRate ≤ maxRate ∧ Meets Q s (Q.coreOf u) u minRate maxRate ∧ (ret ≠ 0 ∧ s'.user = s.user ∨
        ret = 0 ∧ s'.user = writeRange s.user u minRate maxRate)) := by
  unfold clkSetRateRange at h
  split at h
  · next hlt =>
      obtain ⟨rfl, -⟩ := Prod.mk.inj (Option.some.inj h)
      exact .inl ⟨hlt, rfl⟩
  · next hle =>
      replace hle := not_lt.mp hle
      obtain ⟨s₁, s₂, hs₁, hrun, hs'⟩ := rateWithoutProtection_cases h
      have hcases := clkTryRange_cases hrun hle
      rw [Meets.congr hs₁, hs₁, ← hs'] at hcases
      rcases hcases with ⟨hmeets, hrest⟩ | ⟨hmeets, hrest⟩
      · exact .inr (.inl ⟨hle, hmeets, hrest⟩)
      · exact .inr (.inr ⟨hle, hmeets, hrest⟩)

omit [DecidableEq κ] in
theorem RangesMeet.write (h : RangesMeet Q s c) (hle : minRate ≤ maxRate) (hmeets : Meets Q s c u minRate maxRate)
    (hs' : s'.user = writeRange s.user u minRate maxRate) : RangesMeet Q s' c := by
  have hself : s'.user u = { s.user u with minRate := minRate, maxRate := maxRate } := by
    rw [hs']
    exact update_self ..
  have hother : ∀ v, v ≠ u → s'.user v = s.user v := fun v hv => by
    rw [hs']
    exact update_of_ne hv ..
  obtain ⟨hmax, hmin, hothers⟩ := hmeets
  refine ⟨h.clock, fun v hv => ?_, fun v hv w hw => ?_⟩
  · by_cases hvu : v = u
    · rw [hvu, hself]
      exact ⟨hmax, hmin⟩
    · rw [hother v hvu]
      exact h.users v hv
  · by_cases hvu : v = u
    · by_cases hwu : w = u
      · rw [hvu, hwu, hself]
        exact hle
      · rw [hvu, hself, hother w hwu]
        exact (hothers w hw hwu).1
    · by_cases hwu : w = u
      · rw [hwu, hself, hother v hvu]
        exact (hothers v hv hvu).2
      · rw [hother v hvu, hother w hwu]
        exact h.pairs v hv w hw

omit [DecidableEq κ] [DecidableEq υ] in
theorem RangesMeet.meets (h : RangesMeet Q s c) (hu : u ∈ Q.clks c) :
    Meets Q s c u (s.user u).minRate (s.user u).maxRate :=
  ⟨(h.users u hu).1, (h.users u hu).2, fun v hv _ => ⟨h.pairs u hu v hv, h.pairs v hv u hu⟩⟩

/-! ### Runs -/

/-- In a run of calls by consumers of a clock, the ranges stay satisfiable and
failed calls leave them alone, exactly if no call asks for a range that is apart
from another one. -/
theorem staysSatisfiable_of_meets_iff (hs : RangesMeet Q s c) (calls : List (RangeCall υ))
    (hcalls : ∀ call ∈ calls, Q.coreOf call.user = c ∧ call.user ∈ Q.clks c) :
    StaysSatisfiable Q fuel c s calls ↔ AsksForMeeting Q fuel c s calls := by
  induction calls generalizing s with
  | nil => exact iff_of_true hs.inOrder trivial
  | cons call rest ih =>
    rw [List.forall_mem_cons] at hcalls
    obtain ⟨⟨hcore, hmem⟩, hrest⟩ := hcalls
    unfold StaysSatisfiable AsksForMeeting
    refine (and_iff_right hs.inOrder).trans (forall₃_congr fun s' ret hrun => ?_)
    have hcases := clkSetRateRange_cases ((run_eq call).symm.trans hrun)
    rw [hcore] at hcases
    rcases hcases with ⟨hlt, rfl⟩ | ⟨hle, hapart, rfl, hs'⟩ | ⟨hle, hmeets, hres⟩
    · rw [and_iff_right fun _ => ⟨rfl, rfl⟩, and_iff_right fun hle => absurd hlt (not_lt.mpr hle)]
      exact ih hs hrest
    · -- the range was written and stays
      refine iff_of_false (fun hkept => ?_) fun hasks => hapart (hasks.1 hle)
      obtain ⟨hmin, hmax⟩ := hkept.1 (by decide)
      rw [hs'] at hmin hmax
      simp only [writeRange, update_self] at hmin hmax
      rw [hmin, hmax] at hapart
      exact hapart (hs.meets hmem)
    · rcases hres with ⟨-, hs'⟩ | ⟨hret, hs'⟩
      · rw [and_iff_right fun _ => by rw [hs']; exact ⟨rfl, rfl⟩, and_iff_right fun _ => hmeets]
        exact ih (hs.congr hs') hrest
      · rw [and_iff_right fun hne => absurd hret hne, and_iff_right fun _ => hmeets]
        exact ih (hs.write hle hmeets hs') hrest

/-- The same, from consumers without restrictions on. -/
theorem staysSatisfiable_iff (hs : Unrestricted Q s c) (calls : List (RangeCall υ))
    (hcalls : ∀ call ∈ calls, Q.coreOf call.user = c ∧ call.user ∈ Q.clks c) :
    StaysSatisfiable Q fuel c s calls ↔ AsksForMeeting Q fuel c s calls :=
  staysSatisfiable_of_meets_iff hs.rangesMeet calls hcalls

/-- A fixed clock with rates from 1 to 100 and two consumers. -/
def busClock : RatePlatform Unit Bool Unit where
  name _ := "bus"
  flags _ := ⟨false, false, false, false, false, false⟩
  ops _ := ⟨true, false, false, false, false, false, false⟩
  parents _ := []
  recalcRate _ _ _ := 50
  coreOf _ := ()
  answers _ := ⟨fun _ => 0, fun _ => 0, fun _ => 0, fun _ _ r => (r, 0), fun _ => 0, fun _ => 0, fun _ => 0,
    fun _ => 0⟩
  minRate _ := 1
  maxRate _ := 100
  clks _ := [true, false]
  notifier _ := false
  recalcNewRates _ := false
  rateAnswers _ := ⟨fun _ req => (req, 0), fun _ rate parentRate => (rate, parentRate), fun _ _ _ r => r,
    fun _ _ _ _ r => r⟩

/-- The clock runs, and nobody has asked for anything. -/
def busAtStart : RateTree Unit Bool Unit where
  core _ := ⟨none, 50, 50, 50, none, 0, none, 0, 0, 0, ()⟩
  hwCore _ := true
  list h := if h = .roots then [()] else []
  user _ := ⟨0, ulongMax, 0⟩
  time := 0
  notices := []

theorem busAtStart_unrestricted : Unrestricted busClock busAtStart () :=
  ⟨by decide, by decide, fun _ _ => ⟨rfl, rfl⟩⟩

theorem busAtStart_staysSatisfiable :
    StaysSatisfiable busClock 1 () busAtStart [.range true 20 60] := by
  refine (staysSatisfiable_iff busAtStart_unrestricted _ (by decide)).mpr fun s' ret _ => ⟨fun _ => ?_, trivial⟩
  exact ⟨by decide, by decide, fun _ _ _ => ⟨show 20 ≤ ulongMax by decide, Nat.zero_le _⟩⟩

/-- The range from 200 to 300 is refused, and yet it is kept. -/
theorem refused_range_is_kept :
    Unrestricted busClock busAtStart () ∧
      ¬StaysSatisfiable busClock 1 () busAtStart [.range true 200 300] := by
  refine ⟨busAtStart_unrestricted, fun h => ?_⟩
  obtain ⟨s', hs', hmin⟩ : ∃ s', clkSetRateRange busClock 1 busAtStart true 200 300 = some (s', -EINVAL) ∧
      (s'.user true).minRate = 200 := ⟨_, rfl, rfl⟩
  have hkept := ((h.2 s' _ hs').1 (by decide)).1
  rw [show (s'.user (RangeCall.user (.range true 200 300))).minRate = 200 from hmin] at hkept
  exact absurd hkept (by decide)

end GfpDrivers.Clk
