import Mathlib.Tactic.FinCases
import GfpDrivers.Lib.Spread
import GfpDrivers.Regulator.Change

/-!
Balancing of coupled regulators. Each round of the loop moves one regulator
toward its target, as far as the others leave room. The voltages then stay
within the spread, the total distance to the targets falls, and the loop ends
when no regulator can move, that is, when all of them are at their targets.

One case is different. The loop takes a highest voltage of 0 among the others for
a sign that no other regulator is on, and so does not see those that are at 0.
-/

namespace GfpDrivers.Regulator

open Lib Function List

variable {ι υ : Type} {B : Board ι υ} {rdevs : List ι} {S : ℤ} {s s' : State ι υ} {r : ι}

/-! ### Demands and targets -/

/-- The voltages that are read with some selectors. -/
def volts (B : Board ι υ) (sel : ι → ℕ) (r : ι) : ℤ :=
  let ret := (B.desc r).voltages[sel r]?.getD (-EINVAL)
  if ret < 0 then ret else ret - (B.constraints r).uvOffset

/-- The range that the consumers and the constraints leave for a regulator. -/
def demand (B : Board ι υ) (s : State ι υ) (r : ι) : Except ℤ (ℤ × ℤ) := do
  let (lo, hi) ← regulatorCheckConsumers s.voltage (B.consumers r) 0 intMax
  regulatorCheckVoltage (B.constraints r) lo hi

def demandedMin (B : Board ι υ) (s : State ι υ) (r : ι) : ℤ :=
  match demand B s r with
  | .ok (lo, _) => lo
  | .error _ => 0

def highestMin (B : Board ι υ) (s : State ι υ) (rdevs : List ι) : ℤ :=
  (rdevs.map (demandedMin B s)).foldr max 0

def target (B : Board ι υ) (s : State ι υ) (rdevs : List ι) (S : ℤ) (r : ι) : ℤ :=
  max (demandedMin B s r) (highestMin B s rdevs - S)

/-- Regulators that are coupled with a common spread, and can put out every
voltage within their constraints. -/
structure Group (B : Board ι υ) (rdevs : List ι) (S : ℤ) : Prop where
  two : 2 ≤ rdevs.length
  nodup : rdevs.Nodup
  coupled : ∀ r ∈ rdevs, ∃ rest, B.coupled r = r :: rest ∧ (r :: rest).Perm rdevs
  spread : ∀ r ∈ rdevs, (B.constraints r).maxSpread = S
  pos : 0 < S
  step : ∀ r ∈ rdevs, 0 ≤ (B.constraints r).maxUvStep
  reads : ∀ r ∈ rdevs, (B.desc r).getVoltageSel = true
  able : ∀ r ∈ rdevs, ∀ v, (B.constraints r).minUv ≤ v → v ≤ (B.constraints r).maxUv →
    v + (B.constraints r).uvOffset ∈ (B.desc r).voltages ∧ 0 ≤ v + (B.constraints r).uvOffset ∧
      v + (B.constraints r).uvOffset < intMax

theorem regulatorGetVoltageRdev_eq (h : (B.desc r).getVoltageSel = true) :
    regulatorGetVoltageRdev B s r = volts B s.sel r := by
  simp only [regulatorGetVoltageRdev, h, if_true]
  rfl

/-- A demand is accepted with a minimum that is not negative and not below the
constraints. -/
theorem demand_ok {range : ℤ × ℤ} (h : demand B s r = .ok range) :
    0 ≤ demandedMin B s r ∧ (B.constraints r).minUv ≤ demandedMin B s r ∧
      range.1 = demandedMin B s r ∧ range.2 ≤ (B.constraints r).maxUv := by
  have hmin : demandedMin B s r = range.1 := by
    unfold demandedMin
    rw [h]
  rw [hmin]
  unfold demand at h
  cases hcheck : regulatorCheckConsumers s.voltage (B.consumers r) 0 intMax with
  | error err =>
    rw [hcheck] at h
    cases h
  | ok range' =>
    obtain ⟨lo, hi⟩ := range'
    obtain ⟨hle, hmem⟩ := regulatorCheckConsumers_ok hcheck
    have h0 := ((hmem lo).1 ⟨le_rfl, hle⟩).1.1
    rw [hcheck] at h
    obtain ⟨-, hlo, hhi, -⟩ := regulatorCheckVoltage_ok (h : regulatorCheckVoltage _ lo hi = _)
    refine ⟨?_, ?_, rfl, ?_⟩
    all_goals omega

theorem demandedMin_le_highestMin (h : r ∈ rdevs) : demandedMin B s r ≤ highestMin B s rdevs := by
  unfold highestMin
  induction rdevs with
  | nil => cases h
  | cons r' rest ih =>
    rw [map_cons, foldr_cons]
    rcases mem_cons.1 h with rfl | h
    · exact le_max_left _ _
    · exact le_trans (ih h) (le_max_right _ _)

theorem highestMin_perm {rdevs' : List ι} (h : rdevs.Perm rdevs') :
    highestMin B s rdevs = highestMin B s rdevs' := by
  have : LeftCommutative (max : ℤ → ℤ → ℤ) := max_left_commutative
  exact (h.map _).foldr_eq 0

theorem highestDemand_eq (rdevs : List ι) (haccepted : ∀ r ∈ rdevs, ∃ range, demand B s r = .ok range) :
    ∃ first, highestDemand B s rdevs = .ok (highestMin B s rdevs, first) ∧
      ∀ r ∈ rdevs.head?, ∃ range, first = some range ∧ demand B s r = .ok range := by
  induction rdevs with
  | nil => exact ⟨none, rfl, by simp⟩
  | cons r rest ih =>
    rw [forall_mem_cons] at haccepted
    obtain ⟨⟨range, hrange⟩, hrest⟩ := haccepted
    obtain ⟨first, hfirst, -⟩ := ih hrest
    have hlo := (demand_ok hrange).2.2.1
    refine ⟨some range, ?_, ?_⟩
    · unfold demand at hrange
      rw [highestDemand, hfirst]
      cases hcheck : regulatorCheckConsumers s.voltage (B.consumers r) 0 intMax with
      | error err =>
        rw [hcheck] at hrange
        cases hrange
      | ok range' =>
        rw [hcheck] at hrange
        have hrange : regulatorCheckVoltage (B.constraints r) range'.1 range'.2 = .ok range := hrange
        simp only [bind, Except.bind, hrange]
        rw [max_comm, hlo]
        obtain ⟨lo, hi⟩ := range
        subst hlo
        rfl
    · simp only [List.head?_cons, Option.mem_some_iff]
      rintro _ rfl
      exact ⟨range, rfl, hrange⟩

/-! ### The room that the others leave -/

/-- The lowest and the highest of some voltages, starting from `range`. -/
structure Bounds (f : ι → ℤ) (l : List ι) (range bounds : ℤ × ℤ) : Prop where
  min_le : bounds.1 ≤ range.1
  le_max : range.2 ≤ bounds.2
  mem : ∀ r ∈ l, bounds.1 ≤ f r ∧ f r ≤ bounds.2
  min_eq : bounds.1 = range.1 ∨ ∃ r ∈ l, f r = bounds.1
  max_eq : bounds.2 = range.2 ∨ ∃ r ∈ l, f r = bounds.2

theorem currentBounds_eq (l : List ι) (range : ℤ × ℤ) (hon : ∀ r ∈ l, s.enabled r = true)
    (hreads : ∀ r ∈ l, (B.desc r).getVoltageSel = true) (h0 : ∀ r ∈ l, 0 ≤ volts B s.sel r) :
    ∃ bounds, currentBounds B s l range = .ok bounds ∧ Bounds (volts B s.sel) l range bounds := by
  induction l generalizing range with
  | nil => exact ⟨range, rfl, le_rfl, le_rfl, by simp, .inl rfl, .inl rfl⟩
  | cons r rest ih =>
    rw [forall_mem_cons] at hon hreads h0
    obtain ⟨lo, hi⟩ := range
    obtain ⟨bounds, hbounds, hb⟩ := ih (min (volts B s.sel r) lo, max (volts B s.sel r) hi)
      hon.2 hreads.2 h0.2
    refine ⟨bounds, ?_, ?_⟩
    · simp only [currentBounds, hon.1, Bool.true_eq_false, if_false, regulatorGetVoltageRdev_eq hreads.1,
        not_lt.2 h0.1]
      exact hbounds
    · have h1 := hb.min_le
      have h2 := hb.le_max
      refine ⟨by omega, by omega, ?_, ?_, ?_⟩
      · rw [forall_mem_cons]
        exact ⟨⟨by omega, by omega⟩, hb.mem⟩
      · obtain heq | ⟨j, hj, hv⟩ := hb.min_eq
        · rcases min_choice (volts B s.sel r) lo with h | h
          · exact .inr ⟨r, mem_cons_self, by omega⟩
          · exact .inl (by omega)
        · exact .inr ⟨j, mem_cons_of_mem _ hj, hv⟩
      · obtain heq | ⟨j, hj, hv⟩ := hb.max_eq
        · rcases max_choice (volts B s.sel r) hi with h | h
          · exact .inr ⟨r, mem_cons_self, by omega⟩
          · exact .inl (by omega)
        · exact .inr ⟨j, mem_cons_of_mem _ hj, hv⟩

section Balance

variable [DecidableEq ι]

/-- The regulators are on, their demands are accepted, and the voltages are
within the spread. -/
structure Ready (B : Board ι υ) (rdevs : List ι) (S : ℤ) (s : State ι υ) : Prop where
  enabled : ∀ r ∈ rdevs, s.enabled r = true
  accepted : ∀ r ∈ rdevs, ∃ range, demand B s r = .ok range
  nonneg : ∀ r ∈ rdevs, 0 ≤ volts B s.sel r
  close : Close rdevs.toFinset S (volts B s.sel)

/-- When balancing works: the voltages start within the constraints, and adding
the spread to them does not overflow; selectors are set one by one only if
higher ones have higher voltages; and no regulator has a target above the spread
while all others are at 0. -/
structure Sighted (B : Board ι υ) (rdevs : List ι) (S : ℤ) (s : State ι υ) : Prop where
  within : ∀ r ∈ rdevs, (B.constraints r).minUv ≤ volts B s.sel r ∧
    volts B s.sel r ≤ (B.constraints r).maxUv
  fits : ∀ r ∈ rdevs, (B.constraints r).maxUv + S ≤ intMax
  ascending : ∀ r ∈ rdevs, (B.desc r).vselStep = 0 ∨ (B.desc r).voltages.Pairwise (· ≤ ·)
  sees : ∀ r ∈ rdevs, (∀ j ∈ rdevs, j ≠ r → volts B s.sel j = 0) → target B s rdevs S r ≤ S

theorem demandedMin_nonneg (hs : Ready B rdevs S s) (hr : r ∈ rdevs) : 0 ≤ demandedMin B s r := by
  obtain ⟨range, hrange⟩ := hs.accepted r hr
  exact (demand_ok hrange).1

theorem target_close (hG : Group B rdevs S) : Close rdevs.toFinset S (target B s rdevs S) := by
  intro i hi j _
  have h := demandedMin_le_highestMin (B := B) (s := s) (mem_toFinset.1 hi)
  have hpos := hG.pos
  unfold target
  omega

/-- The voltage that is possible now is on the way to the target, and leaves the
others within the spread. A regulator that stays where it is is blocked. -/
structure Possible (B : Board ι υ) (rdevs : List ι) (S : ℤ) (s : State ι υ) (r : ι) (p : ℤ) : Prop where
  toward : Toward (volts B s.sel r) (target B s rdevs S r) p
  room : ∀ j ∈ rdevs, j ≠ r → p ≤ volts B s.sel j + S ∧ volts B s.sel j ≤ p + S
  blocked : p = volts B s.sel r →
    Blocked rdevs.toFinset S (volts B s.sel) (target B s rdevs S) r

theorem possible_of_bounds (hs : Ready B rdevs S s) (hok : Sighted B rdevs S s) (hG : Group B rdevs S)
    (hr : r ∈ rdevs) {rest : List ι} (hrest : ∀ j, j ∈ rest ↔ j ∈ rdevs ∧ j ≠ r) (hne : rest ≠ [])
    {bounds : ℤ × ℤ} (hb : Bounds (volts B s.sel) rest (intMax, 0) bounds) :
    Possible B rdevs S s r
      (if bounds.2 = 0 then target B s rdevs S r
        else min (max (target B s rdevs S r) (bounds.2 - S)) ((bounds.1 + S).bmod (2 ^ 32))) := by
  have hpos := hG.pos
  have h0 : ∀ j ∈ rest, 0 ≤ volts B s.sel j := fun j hj => hs.nonneg j ((hrest j).1 hj).1
  have ht : 0 ≤ target B s rdevs S r := le_trans (demandedMin_nonneg hs hr) (le_max_left _ _)
  split
  · next hzero =>
      have hall : ∀ j ∈ rdevs, j ≠ r → volts B s.sel j = 0 := by
        intro j hj hjr
        have hj' := (hrest j).2 ⟨hj, hjr⟩
        have h1 := h0 j hj'
        have h2 := (hb.mem j hj').2
        omega
      have hle := hok.sees r hr hall
      refine ⟨?_, ?_, ?_⟩
      · unfold Toward
        omega
      · intro j hj hjr
        rw [hall j hj hjr]
        omega
      · intro heq
        exact ⟨fun h => by omega, fun h => by omega⟩
  · next hnonzero =>
      obtain ⟨j₀, hj₀⟩ := exists_mem_of_ne_nil rest hne
      have hmem : ∀ j ∈ rest, j ∈ rdevs := fun j hj => ((hrest j).1 hj).1
      have hclose : ∀ j ∈ rest, volts B s.sel r ≤ volts B s.sel j + S ∧
          volts B s.sel j ≤ volts B s.sel r + S := fun j hj =>
        ⟨hs.close r (mem_toFinset.2 hr) j (mem_toFinset.2 (hmem j hj)),
          hs.close j (mem_toFinset.2 (hmem j hj)) r (mem_toFinset.2 hr)⟩
      have hfit : ∀ j ∈ rest, volts B s.sel j + S ≤ intMax := fun j hj => by
        have h1 := (hok.within j (hmem j hj)).2
        have h2 := hok.fits j (hmem j hj)
        omega
      obtain ⟨jm, hjm, hm⟩ : ∃ j ∈ rest, volts B s.sel j = bounds.1 := by
        obtain heq | h := hb.min_eq
        · have h1 := (hb.mem j₀ hj₀).1
          have h2 := hfit j₀ hj₀
          simp only at heq
          omega
        · exact h
      obtain ⟨jM, hjM, hM⟩ : ∃ j ∈ rest, volts B s.sel j = bounds.2 := hb.max_eq.resolve_left hnonzero
      have hbmod : (bounds.1 + S).bmod (2 ^ 32) = bounds.1 + S := by
        have h1 := hfit jm hjm
        have h2 := h0 jm hjm
        unfold intMax at h1
        exact Int.bmod_eq_of_le (by omega) (by omega)
      rw [hbmod]
      have h1 := hclose jm hjm
      have h2 := hclose jM hjM
      refine ⟨?_, ?_, ?_⟩
      · unfold Toward
        omega
      · intro j hj hjr
        have h3 := hb.mem j ((hrest j).2 ⟨hj, hjr⟩)
        omega
      · intro heq
        exact ⟨fun h => ⟨jm, mem_toFinset.2 (hmem jm hjm), by omega⟩,
          fun h => ⟨jM, mem_toFinset.2 (hmem jM hjM), by omega⟩⟩

theorem possibleVoltage_spec (hG : Group B rdevs S) (hs : Ready B rdevs S s) (hok : Sighted B rdevs S s)
    (hr : r ∈ rdevs) :
    (∃ err < 0, possibleVoltage B s r rdevs.length = .error err) ∨
      ∃ p hi, possibleVoltage B s r rdevs.length = .ok (p, p = target B s rdevs S r, hi) ∧
        Possible B rdevs S s r p ∧ hi ≤ (B.constraints r).maxUv := by
  obtain ⟨rest, hcoupled, hperm⟩ := hG.coupled r hr
  have htwo := hG.two
  have hlen : rest.length + 1 = rdevs.length := hperm.length_eq
  have hnodup : (r :: rest).Nodup := hperm.nodup_iff.2 hG.nodup
  have hrest : ∀ j, j ∈ rest ↔ j ∈ rdevs ∧ j ≠ r := by
    intro j
    rw [← hperm.mem_iff, mem_cons]
    constructor
    · intro hj
      exact ⟨.inr hj, fun h => (nodup_cons.1 hnodup).1 (h ▸ hj)⟩
    · rintro ⟨rfl | hj, hne⟩
      · exact absurd rfl hne
      · exact hj
  have htake : (B.coupled r).take rdevs.length = r :: rest := by
    rw [hcoupled, take_of_length_le (le_of_eq hperm.length_eq)]
  obtain ⟨first, hhighest, hfirst⟩ := highestDemand_eq (B := B) (s := s) (r :: rest)
    fun j hj => hs.accepted j (hperm.mem_iff.1 hj)
  obtain ⟨range, rfl, hrange⟩ := hfirst r (by simp)
  obtain ⟨bounds, hbounds, hb⟩ := currentBounds_eq (B := B) (s := s) rest (intMax, 0)
    (fun j hj => hs.enabled j ((hrest j).1 hj).1) (fun j hj => hG.reads j ((hrest j).1 hj).1)
    (fun j hj => hs.nonneg j ((hrest j).1 hj).1)
  have hp := possible_of_bounds hs hok hG hr hrest (by
    intro h
    rw [h] at hlen
    simp only [length_nil] at hlen
    omega) hb
  have htarget : max range.1 (highestMin B s (r :: rest) - S) = target B s rdevs S r := by
    rw [(demand_ok hrange).2.2.1, highestMin_perm hperm]
    rfl
  unfold possibleVoltage
  simp only [htake, hhighest, bind, Except.bind, tail_cons, hbounds, Option.getD_some, htarget,
    hG.spread r hr, if_neg (show rdevs.length ≠ 1 by omega)]
  generalize (if bounds.2 = 0 then target B s rdevs S r
    else min (max (target B s rdevs S r) (bounds.2 - S)) ((bounds.1 + S).bmod (2 ^ 32))) = p at hp ⊢
  by_cases hhigh : range.2 < p
  · exact .inl ⟨-EINVAL, by decide, if_pos hhigh⟩
  · exact .inr ⟨p, range.2, if_neg hhigh, hp, (demand_ok hrange).2.2.2⟩

/-- The change that is offered for a regulator. -/
structure Offer (B : Board ι υ) (rdevs : List ι) (S : ℤ) (s : State ι υ) (r : ι) (o : Optimal) : Prop
    extends Possible B rdevs S s r o.minUv where
  current : o.currentUv = volts B s.sel r
  step : (B.constraints r).maxUvStep ≠ 0 →
    (o.minUv - volts B s.sel r).natAbs ≤ (B.constraints r).maxUvStep
  done : o.done = true → o.minUv = target B s rdevs S r
  max_le : o.maxUv ≤ (B.constraints r).maxUv

/-- A voltage on the way to one that leaves the others within the spread does so
as well. -/
theorem room_of_toward {p w : ℤ} (hs : Ready B rdevs S s) (hr : r ∈ rdevs)
    (h : ∀ j ∈ rdevs, j ≠ r → p ≤ volts B s.sel j + S ∧ volts B s.sel j ≤ p + S)
    (hw : Toward (volts B s.sel r) p w) :
    ∀ j ∈ rdevs, j ≠ r → w ≤ volts B s.sel j + S ∧ volts B s.sel j ≤ w + S := by
  intro j hj hjr
  have h1 := h j hj hjr
  have h2 := hs.close r (mem_toFinset.2 hr) j (mem_toFinset.2 hj)
  have h3 := hs.close j (mem_toFinset.2 hj) r (mem_toFinset.2 hr)
  unfold Toward at hw
  omega

/-- A target that is limited by the step is on the way to the one that is
possible. -/
theorem Possible.limit {p lim : ℤ} (h : Possible B rdevs S s r p) (hs : Ready B rdevs S s)
    (hr : r ∈ rdevs) (hlim : Toward (volts B s.sel r) p lim) (hstay : lim = volts B s.sel r → p = lim) :
    Possible B rdevs S s r lim :=
  ⟨h.toward.trans hlim, room_of_toward hs hr h.room hlim,
    fun heq => h.blocked ((hstay heq).trans heq)⟩

theorem regulatorLimitVoltageStep_spec (hG : Group B rdevs S) (hs : Ready B rdevs S s) (hr : r ∈ rdevs)
    (p : ℤ) :
    ∃ atOnce current lim, regulatorLimitVoltageStep B s r p = .ok (atOnce, current, lim) ∧
      (current = none ∨ current = some (volts B s.sel r)) ∧ Toward (volts B s.sel r) p lim ∧
      (lim = volts B s.sel r → p = lim) ∧
      ((B.constraints r).maxUvStep ≠ 0 →
        (lim - volts B s.sel r).natAbs ≤ (B.constraints r).maxUvStep) ∧
      (atOnce = true → lim = p) := by
  have hstep := hG.step r hr
  have h0 := hs.nonneg r hr
  unfold regulatorLimitVoltageStep Toward
  simp only [regulatorGetVoltageRdev_eq (s := s) (hG.reads r hr), hs.enabled r hr, Bool.true_eq_false,
    or_false, not_lt.2 h0, if_false]
  split_ifs with hzero hnear hbelow
  · exact ⟨_, _, _, rfl, .inl rfl, by omega, fun _ => rfl, fun h => absurd hzero h, fun _ => rfl⟩
  · exact ⟨_, _, _, rfl, .inr rfl, by omega, fun _ => rfl, fun _ => by omega, fun _ => rfl⟩
  · exact ⟨_, _, _, rfl, .inr rfl, by omega, by omega, fun _ => by omega, fun h => by cases h⟩
  · exact ⟨_, _, _, rfl, .inr rfl, by omega, by omega, fun _ => by omega, fun h => by cases h⟩

theorem regulatorGetOptimalVoltage_spec (hG : Group B rdevs S) (hs : Ready B rdevs S s)
    (hok : Sighted B rdevs S s) (hr : r ∈ rdevs) :
    (∃ err < 0, regulatorGetOptimalVoltage B s r rdevs.length = .error err) ∨
      ∃ o, regulatorGetOptimalVoltage B s r rdevs.length = .ok o ∧ Offer B rdevs S s r o := by
  have htwo := hG.two
  have h0 := hs.nonneg r hr
  unfold regulatorGetOptimalVoltage
  obtain ⟨err, hneg, herr⟩ | ⟨p, hi, hpv, hp, hhi⟩ := possibleVoltage_spec hG hs hok hr
  · exact .inl ⟨err, hneg, by rw [herr]; rfl⟩
  · obtain ⟨atOnce, current, lim, hlimit, hcurrent, hlim, hstay, hstep, hatOnce⟩ :=
      regulatorLimitVoltageStep_spec hG hs hr p
    have hoffer : Offer B rdevs S s r
        ⟨p = target B s rdevs S r && atOnce, volts B s.sel r, lim, hi⟩ := by
      refine ⟨hp.limit hs hr hlim hstay, rfl, hstep, fun hdone => ?_, hhi⟩
      simp only [Bool.and_eq_true, decide_eq_true_eq] at hdone
      exact (hatOnce hdone.2).trans hdone.1
    refine .inr ⟨_, ?_, hoffer⟩
    simp only [hpv, bind, Except.bind, hlimit]
    obtain rfl | rfl := hcurrent
    · simp only [if_pos (show 1 < rdevs.length by omega), hs.enabled r hr, if_true,
        regulatorGetVoltageRdev_eq (s := s) (hG.reads r hr), not_lt.2 h0, if_false]
    · rfl

/-! ### A round -/

/-- The best change of a round is one that is offered to a regulator that is not
done, and changes its voltage. -/
structure Chosen (B : Board ι υ) (rdevs : List ι) (S : ℤ) (s : State ι υ) (rdevDone : ι → Bool)
    (best : Best ι) (o : Optimal) : Prop extends Offer B rdevs S s best.rdev o where
  mem : best.rdev ∈ rdevs
  notDone : rdevDone best.rdev = false
  changes : o.minUv ≠ volts B s.sel best.rdev
  done_eq : best.done = o.done
  min_eq : best.minUv = o.minUv
  max_eq : best.maxUv = o.maxUv

theorem findBest_spec (hG : Group B rdevs S) (hs : Ready B rdevs S s) (hok : Sighted B rdevs S s)
    (rdevDone : ι → Bool) (l : List ι) (best : Option (Best ι)) (hl : ∀ r ∈ l, r ∈ rdevs)
    (hbest : ∀ b ∈ best, ∃ o, Chosen B rdevs S s rdevDone b o) :
    (∃ err < 0, findBest B s rdevs.length rdevDone l best = .error err) ∨
      ∃ best', findBest B s rdevs.length rdevDone l best = .ok best' ∧
        (∀ b ∈ best', ∃ o, Chosen B rdevs S s rdevDone b o) ∧
        (best' = none → best = none ∧ ∀ r ∈ l, rdevDone r = false →
          Blocked rdevs.toFinset S (volts B s.sel) (target B s rdevs S) r) := by
  induction l generalizing best with
  | nil => exact .inr ⟨best, rfl, hbest, fun h => ⟨h, by simp⟩⟩
  | cons r rest ih =>
    rw [forall_mem_cons] at hl
    rw [findBest]
    by_cases hdone : rdevDone r = true
    · rw [if_pos hdone]
      obtain herr | ⟨best', hfind, hall, hnone⟩ := ih best hl.2 hbest
      · exact .inl herr
      · refine .inr ⟨best', hfind, hall, fun h => ⟨(hnone h).1, ?_⟩⟩
        rw [forall_mem_cons]
        exact ⟨fun hf => by simp [hdone] at hf, (hnone h).2⟩
    · rw [if_neg hdone]
      obtain ⟨err, hneg, herr⟩ | ⟨o, ho, hoffer⟩ := regulatorGetOptimalVoltage_spec hG hs hok hl.1
      · exact .inl ⟨err, hneg, by rw [herr]; rfl⟩
      · simp only [ho, bind, Except.bind]
        by_cases hdelta : (o.minUv - o.currentUv).natAbs ≠ 0 ∧
            best.elim 0 Best.delta ≤ (o.minUv - o.currentUv).natAbs
        · rw [if_pos hdelta]
          have hcur := hoffer.current
          obtain herr | ⟨best', hfind, hall, hnone⟩ := ih
            (some ⟨r, o.done, (o.minUv - o.currentUv).natAbs, o.minUv, o.maxUv⟩) hl.2 (by
              simp only [Option.mem_some_iff]
              rintro _ rfl
              exact ⟨o, hoffer, hl.1, by simpa using hdone, by simp only; omega, rfl, rfl, rfl⟩)
          · exact .inl herr
          · exact .inr ⟨best', hfind, hall, fun h => absurd (hnone h).1 (by simp)⟩
        · rw [if_neg hdelta]
          obtain herr | ⟨best', hfind, hall, hnone⟩ := ih best hl.2 hbest
          · exact .inl herr
          · refine .inr ⟨best', hfind, hall, fun h => ⟨(hnone h).1, ?_⟩⟩
            rw [forall_mem_cons]
            refine ⟨fun _ => hoffer.blocked ?_, (hnone h).2⟩
            have hcur := hoffer.current
            rw [(hnone h).1] at hdelta
            simp only [Option.elim_none, Nat.zero_le, and_true, not_not] at hdelta
            omega

/-! ### The way of the hardware -/

/-- The voltage that is read with a selector. -/
def voltAt (B : Board ι υ) (r : ι) (k : ℕ) : ℤ := volts B (fun _ => k) r

theorem volts_update (sel : ι → ℕ) (r : ι) (k : ℕ) :
    volts B (update sel r k) = update (volts B sel) r (voltAt B r k) := by
  funext j
  by_cases hj : j = r
  · subst hj
    simp [volts, voltAt]
  · simp [volts, update_of_ne hj]

omit [DecidableEq ι] in
theorem voltAt_of_getElem {k : ℕ} {w : ℤ} (h : (B.desc r).voltages[k]? = some w) (h0 : 0 ≤ w) :
    voltAt B r k = w - (B.constraints r).uvOffset := by
  simp only [voltAt, volts, h, Option.getD_some, not_lt.2 h0, if_false]

omit [DecidableEq ι] in
theorem getElem_of_voltAt {k : ℕ} (h0 : 0 ≤ voltAt B r k) :
    ∃ w, (B.desc r).voltages[k]? = some w ∧ 0 ≤ w := by
  simp only [voltAt, volts] at h0
  cases hk : (B.desc r).voltages[k]? with
  | none =>
    simp [hk, EINVAL] at h0
  | some w =>
    refine ⟨w, rfl, ?_⟩
    rw [hk] at h0
    by_contra hneg
    rw [Option.getD_some, if_pos (not_le.1 hneg)] at h0
    exact hneg h0

omit [DecidableEq ι] in
theorem getElem_le {l : List ℤ} (h : l.Pairwise (· ≤ ·)) {i j : ℕ} {x y : ℤ} (hij : i ≤ j)
    (hx : l[i]? = some x) (hy : l[j]? = some y) : x ≤ y := by
  obtain ⟨hi, rfl⟩ := List.getElem?_eq_some_iff.1 hx
  obtain ⟨hj, rfl⟩ := List.getElem?_eq_some_iff.1 hy
  rcases Nat.lt_or_eq_of_le hij with hlt | rfl
  · exact pairwise_iff_getElem.1 h i j hi hj hlt
  · exact le_rfl

omit [DecidableEq ι] in
theorem toward_of_onWay {old new k : ℕ}
    (hasc : (B.desc r).vselStep = 0 ∨ (B.desc r).voltages.Pairwise (· ≤ ·))
    (hold : 0 ≤ voltAt B r old) {w : ℤ} (hnew : (B.desc r).voltages[new]? = some w) (h0 : 0 ≤ w)
    (h : OnWay (B.desc r).vselStep old new k) : Toward (voltAt B r old) (voltAt B r new) (voltAt B r k) := by
  obtain rfl | rfl | ⟨hstep, hmin, hmax⟩ := h
  · exact .refl _ _
  · unfold Toward
    omega
  · have hasc := hasc.resolve_left hstep
    obtain ⟨x, hx, hx0⟩ := getElem_of_voltAt hold
    have hlt : k < (B.desc r).voltages.length := by
      have h1 := (List.getElem?_eq_some_iff.1 hx).1
      have h2 := (List.getElem?_eq_some_iff.1 hnew).1
      omega
    have hy : (B.desc r).voltages[k]? = some (B.desc r).voltages[k] := List.getElem?_eq_getElem hlt
    generalize (B.desc r).voltages[k] = y at hy
    have hle : (x ≤ y ∧ y ≤ w) ∨ (w ≤ y ∧ y ≤ x) := by
      rcases Nat.le_total old new with hon | hno
      · exact .inl ⟨getElem_le hasc (by omega) hx hy, getElem_le hasc (by omega) hy hnew⟩
      · exact .inr ⟨getElem_le hasc (by omega) hnew hy, getElem_le hasc (by omega) hy hx⟩
    rw [voltAt_of_getElem hx hx0, voltAt_of_getElem hnew h0, voltAt_of_getElem hy (by omega)]
    unfold Toward
    omega

/-- One change of a voltage: the new voltages are within the spread, and no
regulator went further than its step. -/
def Careful (B : Board ι υ) (rdevs : List ι) (S : ℤ) (new old : ι → ℕ) : Prop :=
  Close rdevs.toFinset S (volts B new) ∧ ∀ r ∈ rdevs, (B.constraints r).maxUvStep ≠ 0 →
    (volts B new r - volts B old r).natAbs ≤ (B.constraints r).maxUvStep

/-- The hardware went from the voltages of `s` to those of `s'` in careful
changes. -/
structure Way (B : Board ι υ) (rdevs : List ι) (S : ℤ) (s s' : State ι υ) : Prop where
  voltage : s'.voltage = s.voltage
  enabled : s'.enabled = s.enabled
  changes : ∃ l, s'.history = l ++ s.history ∧ (l ++ [s.sel]).IsChain (Careful B rdevs S) ∧
    (l ++ [s.sel]).head? = some s'.sel

theorem Way.refl : Way B rdevs S s s := ⟨rfl, rfl, [], rfl, .singleton _, rfl⟩

theorem Way.trans {s'' : State ι υ} (h : Way B rdevs S s s') (h' : Way B rdevs S s' s'') :
    Way B rdevs S s s'' := by
  obtain ⟨l, hl, hchain, hhead⟩ := h.changes
  obtain ⟨l', hl', hchain', hhead'⟩ := h'.changes
  obtain ⟨tail, htail⟩ := List.head?_eq_some_iff.1 hhead
  refine ⟨h'.voltage.trans h.voltage, h'.enabled.trans h.enabled, l' ++ l, ?_, ?_, ?_⟩
  · rw [hl', hl, append_assoc]
  · rw [append_assoc, htail, isChain_split]
    exact ⟨hchain', htail ▸ hchain⟩
  · rw [append_assoc, htail]
    cases l' with
    | nil => exact hhead'
    | cons m rest => exact hhead'

theorem Moved.way {k : ℕ} {lim : ℤ} (hG : Group B rdevs S) (hs : Ready B rdevs S s)
    (hr : r ∈ rdevs) (hroom : ∀ j ∈ rdevs, j ≠ r → lim ≤ volts B s.sel j + S ∧ volts B s.sel j ≤ lim + S)
    (hstep : (B.constraints r).maxUvStep ≠ 0 →
      (lim - volts B s.sel r).natAbs ≤ (B.constraints r).maxUvStep)
    (hway : ∀ k', OnWay (B.desc r).vselStep (s.sel r) k k' →
      Toward (volts B s.sel r) lim (voltAt B r k'))
    (h : Moved (OnWay (B.desc r).vselStep (s.sel r) k) r s s') : Way B rdevs S s s' := by
  obtain ⟨l, hl, hmem, hhead⟩ := h.history
  have hall : ∀ m ∈ l ++ [s.sel], ∃ k', OnWay (B.desc r).vselStep (s.sel r) k k' ∧
      m = update s.sel r k' := by
    intro m hm
    rcases mem_append.1 hm with hm | hm
    · exact hmem m hm
    · rw [mem_singleton.1 hm]
      exact ⟨s.sel r, .inl rfl, (update_eq_self r s.sel).symm⟩
  refine ⟨h.voltage, h.enabled, l, hl, List.Pairwise.isChain ?_, hhead⟩
  refine pairwise_of_forall_mem_list fun m hm m' hm' => ?_
  obtain ⟨k₁, hk₁, rfl⟩ := hall m hm
  obtain ⟨k₂, hk₂, rfl⟩ := hall m' hm'
  have h1 := hway k₁ hk₁
  have h2 := hway k₂ hk₂
  refine ⟨?_, fun j hj hne => ?_⟩
  · rw [volts_update]
    refine hs.close.update (le_of_lt hG.pos) fun j hj hjr => ?_
    exact room_of_toward hs hr hroom h1 j (mem_toFinset.1 hj) hjr
  · rw [volts_update, volts_update]
    by_cases hjr : j = r
    · subst hjr
      rw [update_self, update_self]
      have h3 := hstep hne
      unfold Toward at h1 h2
      omega
    · rw [update_of_ne hjr, update_of_ne hjr]
      simpa using hG.step j hj

/-! ### The loop -/

omit [DecidableEq ι] in
theorem target_congr (h : s'.voltage = s.voltage) : target B s' rdevs S = target B s rdevs S := by
  have hdemand : demandedMin B s' = demandedMin B s := by
    funext j
    simp only [demandedMin, demand, h]
  funext j
  simp only [target, highestMin, hdemand]

/-- What is known between two rounds: the regulators that are done are at their
targets. -/
structure Between (B : Board ι υ) (rdevs : List ι) (S : ℤ) (s : State ι υ) (rdevDone : ι → Bool) : Prop
    extends Ready B rdevs S s, Sighted B rdevs S s where
  done : ∀ r ∈ rdevs, rdevDone r = true → volts B s.sel r = target B s rdevs S r

theorem Chosen.within {rdevDone : ι → Bool} {best : Best ι} {o : Optimal}
    (h : Chosen B rdevs S s rdevDone best o) (hs : Ready B rdevs S s) (hok : Sighted B rdevs S s)
    (hle : o.minUv ≤ o.maxUv) :
    (B.constraints best.rdev).minUv ≤ o.minUv ∧ o.minUv ≤ (B.constraints best.rdev).maxUv ∧
      0 ≤ o.minUv := by
  obtain ⟨range, hrange⟩ := hs.accepted best.rdev h.mem
  obtain ⟨hd0, hdmin, -, -⟩ := demand_ok hrange
  have hd : demandedMin B s best.rdev ≤ target B s rdevs S best.rdev := le_max_left _ _
  have h1 := hok.within best.rdev h.mem
  have h2 := hs.nonneg best.rdev h.mem
  have h3 := h.max_le
  have h4 := h.toward
  unfold Toward at h4
  omega

theorem between_of_change {rdevDone : ι → Bool} {best : Best ι} {o : Optimal} (hG : Group B rdevs S)
    (hs : Between B rdevs S s rdevDone) (h : Chosen B rdevs S s rdevDone best o)
    (hle : o.minUv ≤ o.maxUv) (hvoltage : s'.voltage = s.voltage) (henabled : s'.enabled = s.enabled)
    (hvolts : volts B s'.sel = update (volts B s.sel) best.rdev o.minUv) :
    Between B rdevs S s'
      (if best.done then update rdevDone best.rdev true else rdevDone) := by
  obtain ⟨hmin, hmax, h0⟩ := h.within hs.toReady hs.toSighted hle
  have htarget : target B s' rdevs S = target B s rdevs S := target_congr hvoltage
  have hdemand : ∀ j, demand B s' j = demand B s j := by
    intro j
    simp only [demand, hvoltage]
  have hcases : ∀ j, j = best.rdev ∧ volts B s'.sel j = o.minUv ∨
      j ≠ best.rdev ∧ volts B s'.sel j = volts B s.sel j := by
    intro j
    rw [hvolts]
    by_cases hj : j = best.rdev
    · exact .inl ⟨hj, by rw [hj, update_self]⟩
    · exact .inr ⟨hj, update_of_ne hj _ _⟩
  refine ⟨⟨?_, ?_, ?_, ?_⟩, ⟨?_, hs.fits, hs.ascending, ?_⟩, ?_⟩
  · rw [henabled]
    exact hs.enabled
  · intro j hj
    rw [hdemand]
    exact hs.accepted j hj
  · intro j hj
    rcases hcases j with ⟨rfl, hv⟩ | ⟨-, hv⟩ <;> rw [hv]
    · exact h0
    · exact hs.nonneg j hj
  · rw [hvolts]
    exact hs.close.update (le_of_lt hG.pos) fun j hj => h.room j (mem_toFinset.1 hj)
  · intro j hj
    rcases hcases j with ⟨rfl, hv⟩ | ⟨-, hv⟩ <;> rw [hv]
    · exact ⟨hmin, hmax⟩
    · exact hs.within j hj
  · -- a regulator only comes to 0 if its target is 0, and then no target is above the spread
    intro j hj hzero
    rw [htarget]
    by_cases hjr : j = best.rdev
    · refine hs.sees j hj fun i hi hij => ?_
      rcases hcases i with ⟨rfl, -⟩ | ⟨-, hv⟩
      · exact absurd hjr.symm hij
      · rw [← hv]
        exact hzero i hi hij
    · have hv : o.minUv = 0 := by
        have := hzero best.rdev h.mem (Ne.symm hjr)
        rwa [hvolts, update_self] at this
      have h1 := h.toward
      have h2 := h.changes
      have h3 := hs.nonneg best.rdev h.mem
      have h4 := demandedMin_nonneg hs.toReady h.mem
      have h5 := demandedMin_le_highestMin (B := B) (s := s) hj
      have h6 := hG.pos
      unfold Toward target at h1
      unfold target
      omega
  · intro j hj hdone
    rw [htarget]
    rcases hcases j with ⟨rfl, hv⟩ | ⟨hjr, hv⟩ <;> rw [hv]
    · split at hdone
      · next hbest => exact h.done (h.done_eq ▸ hbest)
      · rw [h.notDone] at hdone
        cases hdone
    · refine hs.done j hj ?_
      split at hdone
      · rwa [update_of_ne hjr] at hdone
      · exact hdone

/-- A round ends the loop, with all regulators at their targets if it returns 0,
or it brings one of them nearer to its target. -/
inductive RoundSpec (B : Board ι υ) (rdevs : List ι) (S : ℤ) (s : State ι υ) : Round ι υ → Prop
  | finished {s' : State ι υ} {ret : ℤ} (hway : Way B rdevs S s s')
      (hret : ret = 0 → ∀ r ∈ rdevs, volts B s'.sel r = target B s rdevs S r) :
      RoundSpec B rdevs S s (.finished s' ret)
  | changed {s' : State ι υ} {rdevDone : ι → Bool} (hway : Way B rdevs S s s')
      (hs' : Between B rdevs S s' rdevDone)
      (hlt : distance rdevs.toFinset (volts B s'.sel) (target B s rdevs S) <
        distance rdevs.toFinset (volts B s.sel) (target B s rdevs S)) :
      RoundSpec B rdevs S s (.changed s' rdevDone)

theorem balanceRound_spec {rdevDone : ι → Bool} (hG : Group B rdevs S)
    (hs : Between B rdevs S s rdevDone) : RoundSpec B rdevs S s (balanceRound B s rdevs rdevDone) := by
  unfold balanceRound
  obtain ⟨err, hneg, herr⟩ | ⟨best, hfind, hall, hnone⟩ :=
    findBest_spec hG hs.toReady hs.toSighted rdevDone rdevs none (fun _ h => h) (by simp)
  · rw [herr]
    exact .finished .refl fun h => absurd h (ne_of_lt hneg)
  · rw [hfind]
    cases best with
    | none =>
      refine .finished .refl fun _ r hr => ?_
      refine eq_of_blocked hG.pos hs.close (target_close hG) (fun j hj => ?_) r (mem_toFinset.2 hr)
      have hj := mem_toFinset.1 hj
      cases hdone : rdevDone j with
      | false => exact (hnone rfl).2 j hj hdone
      | true =>
        have heq := hs.done j hj hdone
        exact ⟨fun h => absurd heq (ne_of_lt h), fun h => absurd heq.symm (ne_of_lt h)⟩
    | some best =>
      obtain ⟨o, ho⟩ := hall best rfl
      have hspec := regulatorDoSetVoltage_spec (B := B) (s := s) (r := best.rdev) best.minUv best.maxUv
      rw [ho.min_eq, ho.max_eq] at hspec
      simp only [ho.min_eq, ho.max_eq]
      generalize regulatorDoSetVoltage B s best.rdev o.minUv o.maxUv = res at hspec
      cases hspec with
      | unlisted =>
        rw [if_pos (show -EINVAL < 0 by decide)]
        exact .finished .refl fun h => absurd h (show -EINVAL ≠ 0 by decide)
      | @moved s' ret k hmap hmoved hret_le hret =>
        obtain ⟨w, hw, hlow, hhigh, hmin⟩ := regulatorMapVoltage_ok hmap
        have hle : o.minUv ≤ o.maxUv := by omega
        obtain ⟨hcmin, hcmax, h0⟩ := ho.within hs.toReady hs.toSighted hle
        obtain ⟨hmem, hpos, -⟩ := hG.able best.rdev ho.mem o.minUv hcmin hcmax
        -- the lowest listed voltage of the range is the bottom of the range itself
        have hwlim : w = o.minUv + (B.constraints best.rdev).uvOffset :=
          le_antisymm (hmin _ hmem hpos le_rfl (by omega)) hlow
        have hvk : voltAt B best.rdev k = o.minUv := by
          rw [voltAt_of_getElem hw (hwlim ▸ hpos), hwlim]
          omega
        have hway : Way B rdevs S s s' := by
          refine hmoved.way hG hs.toReady ho.mem ho.room ho.step fun k' hk' => ?_
          have := toward_of_onWay (hs.ascending best.rdev ho.mem)
            (hs.nonneg best.rdev ho.mem) hw (hwlim ▸ hpos) hk'
          rwa [hvk] at this
        split
        · next hneg => exact .finished hway fun h => absurd h (ne_of_lt hneg)
        · next hge =>
            have hsel := hret (le_antisymm hret_le (not_lt.1 hge))
            have hvolts : volts B s'.sel = update (volts B s.sel) best.rdev o.minUv := by
              obtain ⟨k', -, hsel'⟩ := hmoved.sel
              rw [hsel', update_self] at hsel
              rw [hsel', volts_update, hsel, hvk]
            rw [if_pos (show 1 < rdevs.length from hG.two)]
            refine .changed hway (between_of_change hG hs ho hle hway.voltage hway.enabled hvolts) ?_
            rw [hvolts]
            exact distance_update_lt (mem_toFinset.2 ho.mem) ho.toward ho.changes

theorem balance_run {rdevDone : ι → Bool} (hG : Group B rdevs S) (hs : Between B rdevs S s rdevDone)
    (fuel : ℕ) (hfuel : distance rdevs.toFinset (volts B s.sel) (target B s rdevs S) < fuel) :
    ∃ s' ret, regulatorDoBalanceVoltage B fuel s rdevs rdevDone = some (s', ret) ∧
      Way B rdevs S s s' ∧
      (ret = 0 → ∀ r ∈ rdevs, volts B s'.sel r = target B s rdevs S r) := by
  induction fuel generalizing s rdevDone with
  | zero => omega
  | succ fuel ih =>
    have hround := balanceRound_spec hG hs
    rw [regulatorDoBalanceVoltage]
    generalize balanceRound B s rdevs rdevDone = round at hround
    cases hround with
    | @finished s' ret hway hret => exact ⟨s', ret, rfl, hway, hret⟩
    | @changed s' rdevDone' hway hs' hlt =>
      have htarget : target B s' rdevs S = target B s rdevs S := target_congr hway.voltage
      obtain ⟨s'', ret, hrun, hway', hret⟩ := ih hs' (by rw [htarget]; omega)
      refine ⟨s'', ret, hrun, hway.trans hway', ?_⟩
      rwa [htarget] at hret

end Balance

/-! ### Two regulators -/

/-- Two coupled regulators for 0 to 10 µV with a spread of 1 µV. -/
def pair : Board (Fin 2) (Fin 2) where
  constraints _ := ⟨0, 10, 0, 0, 1, true⟩
  desc _ := ⟨(List.range 11).map Int.ofNat, 0, true, false⟩
  consumers r := [r]
  coupled r := [r, r + 1]
  setVoltageSel _ _ := 0
  vetoes _ _ := false

/-- Both are on at the voltage `k`, and the first one is asked for 5 µV. -/
def pairAt (k : ℕ) : State (Fin 2) (Fin 2) :=
  ⟨fun _ => k, [], fun _ => true, fun u => if u = 0 then ⟨5, 10⟩ else ⟨0, 0⟩, 0⟩

theorem pair_group : Group pair [0, 1] 1 where
  two := le_rfl
  nodup := by decide
  coupled := by
    intro r _
    refine ⟨[r + 1], rfl, ?_⟩
    fin_cases r
    · exact .refl _
    · exact .swap _ _ _
  spread := fun _ _ => rfl
  pos := by decide
  step := fun _ _ => le_rfl
  reads := fun _ _ => rfl
  able := by
    intro r _ v hmin hmax
    have hmin : 0 ≤ v := hmin
    have hmax : v ≤ 10 := hmax
    simp only [pair, add_zero, mem_map, mem_range]
    refine ⟨⟨v.toNat, by omega, by simp [hmin]⟩, hmin, ?_⟩
    unfold intMax
    omega

theorem pairAt_ready (k : ℕ) (hk : k < 11) : Ready pair [0, 1] 1 (pairAt k) where
  enabled := fun _ _ => rfl
  accepted := by
    intro r _
    fin_cases r
    · exact ⟨(5, 10), rfl⟩
    · exact ⟨(0, 10), rfl⟩
  nonneg := by
    intro r _
    have hv : volts pair (pairAt k).sel r = k := by
      simp [volts, pair, pairAt, hk]
    omega
  close := by
    intro i _ j _
    have hv : ∀ r, volts pair (pairAt k).sel r = k := by
      intro r
      simp [volts, pair, pairAt, hk]
    rw [hv, hv]
    omega

end GfpDrivers.Regulator
