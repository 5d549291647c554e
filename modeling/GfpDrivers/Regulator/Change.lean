import Mathlib.Data.List.TakeWhile
import GfpDrivers.Regulator.Voltage

/-!
What one change of the voltage does: the range that the consumers leave, the
voltage that is looked up in the list, and the selectors that the hardware goes
through on the way to it.
-/

namespace GfpDrivers.Regulator

open Function

variable {ι υ : Type} [DecidableEq ι] {B : Board ι υ} {s s' s'' : State ι υ} {r : ι}

/-! ### Ranges -/

/-- A consumer that did not say anything permits every voltage. -/
def Permits (range : VoltageRange) (v : ℤ) : Prop :=
  range.minUv = 0 ∧ range.maxUv = 0 ∨ range.minUv ≤ v ∧ v ≤ range.maxUv

theorem mem_limitToConsumers (voltage : υ → VoltageRange) (us : List υ) (range : ℤ × ℤ) (v : ℤ) :
    ((limitToConsumers voltage us range).1 ≤ v ∧ v ≤ (limitToConsumers voltage us range).2) ↔
      (range.1 ≤ v ∧ v ≤ range.2) ∧ ∀ u ∈ us, Permits (voltage u) v := by
  induction us generalizing range with
  | nil => simp [limitToConsumers]
  | cons u rest ih =>
    obtain ⟨lo, hi⟩ := range
    rw [limitToConsumers, List.forall_mem_cons]
    by_cases h0 : (voltage u).minUv = 0 ∧ (voltage u).maxUv = 0
    · have hp : Permits (voltage u) v := .inl h0
      simp only [if_pos h0, ih, hp, true_and]
    · have hp : Permits (voltage u) v ↔ (voltage u).minUv ≤ v ∧ v ≤ (voltage u).maxUv := by
        simp only [Permits, h0, false_or]
      simp only [if_neg h0, ih, hp]
      constructor
      · rintro ⟨⟨h1, h2⟩, hrest⟩
        refine ⟨?_, ?_, hrest⟩
        all_goals split_ifs at h1 h2 <;> omega
      · rintro ⟨⟨h1, h2⟩, ⟨h3, h4⟩, hrest⟩
        refine ⟨⟨?_, ?_⟩, hrest⟩
        all_goals split_ifs <;> omega

theorem regulatorCheckConsumers_ok {voltage : υ → VoltageRange} {us : List υ} {lo hi lo' hi' : ℤ}
    (h : regulatorCheckConsumers voltage us lo hi = .ok (lo', hi')) :
    lo' ≤ hi' ∧ ∀ v, (lo' ≤ v ∧ v ≤ hi') ↔ (lo ≤ v ∧ v ≤ hi) ∧ ∀ u ∈ us, Permits (voltage u) v := by
  have hmem := mem_limitToConsumers voltage us (lo, hi)
  unfold regulatorCheckConsumers at h
  generalize limitToConsumers voltage us (lo, hi) = range at h hmem
  obtain ⟨lo₁, hi₁⟩ := range
  simp only at h
  split_ifs at h with hle
  cases h
  exact ⟨not_lt.1 hle, hmem⟩

theorem regulatorCheckVoltage_ok {c : Constraints} {lo hi lo' hi' : ℤ}
    (h : regulatorCheckVoltage c lo hi = .ok (lo', hi')) :
    c.changeVoltage = true ∧ lo' = max lo c.minUv ∧ hi' = min hi c.maxUv ∧ lo' ≤ hi' := by
  unfold regulatorCheckVoltage at h
  split at h
  · cases h
  · next hchange =>
      simp only at h
      split_ifs at h with h1 h2 h3 h3 h2 h3 h3 <;> cases h <;>
        exact ⟨by simpa using hchange, by omega, by omega, by omega⟩

/-! ### The list of voltages -/

/-- The best voltage so far, at its selector, is the lowest one of the range
that the loop has seen. -/
structure Lowest (voltages : List ℤ) (lo hi : ℤ) (seen : List ℤ) (best : ℤ) (k : ℕ) : Prop where
  found : best = intMax ∨ voltages[k]? = some best ∧ 0 ≤ best ∧ lo ≤ best ∧ best ≤ hi
  le : ∀ v ∈ seen, 0 ≤ v → lo ≤ v → v ≤ hi → best ≤ v

theorem lowest_mapVoltageLoop {voltages : List ℤ} {lo hi : ℤ} (seen rest : List ℤ) {best : ℤ} {k : ℕ}
    (hall : seen ++ rest = voltages) (h : Lowest voltages lo hi seen best k) :
    Lowest voltages lo hi voltages (mapVoltageLoop lo hi rest seen.length best k).1
      (mapVoltageLoop lo hi rest seen.length best k).2 := by
  induction rest generalizing seen best k with
  | nil =>
    rw [List.append_nil] at hall
    subst hall
    exact h
  | cons v rest ih =>
    have hall' : (seen ++ [v]) ++ rest = voltages := by simpa using hall
    have hlen : (seen ++ [v]).length = seen.length + 1 := by simp
    rw [mapVoltageLoop]
    split
    · next hneg =>
        have h' : Lowest voltages lo hi (seen ++ [v]) best k :=
          ⟨h.found, fun w hw h0 => by
            rcases List.mem_append.1 hw with hw | hw
            · exact h.le w hw h0
            · rw [List.mem_singleton.1 hw] at h0
              omega⟩
        simpa only [hlen] using ih _ hall' h'
    · next hpos =>
        split
        · next hin =>
            have hget : voltages[seen.length]? = some v := by
              rw [← hall]
              simp
            have h' : Lowest voltages lo hi (seen ++ [v]) v seen.length :=
              ⟨.inr ⟨hget, not_lt.1 hpos, hin.2⟩, fun w hw h0 h1 h2 => by
                rcases List.mem_append.1 hw with hw | hw
                · exact le_trans (le_of_lt hin.1) (h.le w hw h0 h1 h2)
                · rw [List.mem_singleton.1 hw]⟩
            simpa only [hlen] using ih _ hall' h'
        · next hout =>
            have h' : Lowest voltages lo hi (seen ++ [v]) best k :=
              ⟨h.found, fun w hw h0 h1 h2 => by
                rcases List.mem_append.1 hw with hw | hw
                · exact h.le w hw h0 h1 h2
                · rw [List.mem_singleton.1 hw] at h1 h2 ⊢
                  by_contra hlt
                  exact hout ⟨not_le.1 hlt, h1, h2⟩⟩
            simpa only [hlen] using ih _ hall' h'

theorem lowest_map (voltages : List ℤ) (lo hi : ℤ) :
    Lowest voltages lo hi voltages (mapVoltageLoop lo hi voltages 0 intMax 0).1
      (mapVoltageLoop lo hi voltages 0 intMax 0).2 :=
  lowest_mapVoltageLoop [] voltages rfl ⟨.inl rfl, by simp⟩

/-- The selector that is found has the lowest voltage of the range. -/
theorem regulatorMapVoltage_ok {voltages : List ℤ} {lo hi : ℤ} {k : ℕ}
    (h : regulatorMapVoltage voltages lo hi = .ok k) :
    ∃ v, voltages[k]? = some v ∧ lo ≤ v ∧ v ≤ hi ∧
      ∀ w ∈ voltages, 0 ≤ w → lo ≤ w → w ≤ hi → v ≤ w := by
  have hlow := lowest_map voltages lo hi
  unfold regulatorMapVoltage at h
  generalize mapVoltageLoop lo hi voltages 0 intMax 0 = result at h hlow
  obtain ⟨best, selector⟩ := result
  simp only at h
  split_ifs at h with hne
  cases h
  obtain hmax | ⟨hget, -, h1, h2⟩ := hlow.found
  · exact absurd hmax hne
  · exact ⟨_, hget, h1, h2, hlow.le⟩

/-! ### Ways of the hardware -/

/-- From `s` to `s'` only the selector of `r` changed, to one in `K`, and every
selector on the way is in `K`. The last selectors that were set are those in the
hardware. -/
structure Moved (K : ℕ → Prop) (r : ι) (s s' : State ι υ) : Prop where
  voltage : s'.voltage = s.voltage
  enabled : s'.enabled = s.enabled
  sel : ∃ k, K k ∧ s'.sel = Function.update s.sel r k
  history : ∃ l, s'.history = l ++ s.history ∧ (∀ m ∈ l, ∃ k, K k ∧ m = Function.update s.sel r k) ∧
    (l ++ [s.sel]).head? = some s'.sel

variable {K : ℕ → Prop}

theorem Moved.refl (h : K (s.sel r)) : Moved K r s s :=
  ⟨rfl, rfl, ⟨_, h, (update_eq_self r s.sel).symm⟩, [], rfl, by simp, rfl⟩

theorem Moved.tick (h : K (s.sel r)) (t : ℕ) : Moved K r s { s with time := t } :=
  ⟨rfl, rfl, ⟨_, h, (update_eq_self r s.sel).symm⟩, [], rfl, by simp, rfl⟩

theorem Moved.trans (h : Moved K r s s') (h' : Moved K r s' s'') : Moved K r s s'' := by
  obtain ⟨k, -, hsel⟩ := h.sel
  obtain ⟨l, hl, hmem, hhead⟩ := h.history
  obtain ⟨l', hl', hmem', hhead'⟩ := h'.history
  have hup : ∀ k', update s'.sel r k' = update s.sel r k' := by
    intro k'
    rw [hsel, update_idem]
  refine ⟨h'.voltage.trans h.voltage, h'.enabled.trans h.enabled, ?_, l' ++ l, ?_, ?_, ?_⟩
  · obtain ⟨k', hk', hsel'⟩ := h'.sel
    exact ⟨k', hk', hsel'.trans (hup k')⟩
  · rw [hl', hl, List.append_assoc]
  · intro m hm
    rcases List.mem_append.1 hm with hm | hm
    · obtain ⟨k', hk', rfl⟩ := hmem' m hm
      exact ⟨k', hk', hup k'⟩
    · exact hmem m hm
  · cases l' with
    | nil =>
      rw [List.nil_append, hhead]
      exact hhead'
    | cons m rest => exact hhead'

theorem Moved.mem (h : Moved K r s s') : K (s'.sel r) := by
  obtain ⟨k, hk, hsel⟩ := h.sel
  rw [hsel, update_self]
  exact hk

theorem setVoltageSel_moved {k : ℕ} (hs : K (s.sel r)) (hk : K k) :
    Moved K r s (setVoltageSel B s r k).1 := by
  unfold setVoltageSel
  split
  · exact ⟨rfl, rfl, ⟨k, hk, rfl⟩, [update s.sel r k], rfl,
      fun m hm => ⟨k, hk, List.mem_singleton.1 hm⟩, rfl⟩
  · exact .tick hs _

theorem setVoltageSel_ret_le {k : ℕ} : (setVoltageSel B s r k).2 ≤ 0 := by
  unfold setVoltageSel
  split
  · exact le_rfl
  · simp

theorem setVoltageSel_ret_eq {k : ℕ} (h : (setVoltageSel B s r k).2 = 0) :
    (setVoltageSel B s r k).1.sel r = k := by
  unfold setVoltageSel at h ⊢
  split at h
  · next h0 => simp [h0]
  · next h0 =>
      simp only [neg_eq_zero, Nat.cast_eq_zero] at h
      exact absurd h h0

theorem regulatorCallSetVoltageSel_moved {k : ℕ} (hs : K (s.sel r)) (hk : K k) :
    Moved K r s (regulatorCallSetVoltageSel B s r k).1 := by
  unfold regulatorCallSetVoltageSel
  split
  · exact .tick hs _
  · exact setVoltageSel_moved hs hk

theorem regulatorCallSetVoltageSel_ret_le {k : ℕ} : (regulatorCallSetVoltageSel B s r k).2 ≤ 0 := by
  unfold regulatorCallSetVoltageSel
  split
  · simp [EINVAL]
  · exact setVoltageSel_ret_le

theorem regulatorCallSetVoltageSel_ret_eq {k : ℕ} (h : (regulatorCallSetVoltageSel B s r k).2 = 0) :
    (regulatorCallSetVoltageSel B s r k).1.sel r = k := by
  unfold regulatorCallSetVoltageSel at h ⊢
  split at h
  · simp [EINVAL] at h
  · next hveto =>
      rw [if_neg hveto]
      exact setVoltageSel_ret_eq h

/-- The selectors that a change from `old` to `new` can go through. -/
def OnWay (step old new k : ℕ) : Prop :=
  k = old ∨ k = new ∨ step ≠ 0 ∧ min old new ≤ k ∧ k ≤ max old new

theorem onWay_of_mem {old new step k : ℕ} (hstep : step ≠ 0) (h : k ∈ selectorsBetween old new step) :
    OnWay step old new k := by
  refine .inr (.inr ⟨hstep, ?_⟩)
  unfold selectorsBetween at h
  split at h
  · next hlt =>
      have hnew : k < new := by simpa using List.mem_takeWhile_imp h
      obtain ⟨j, -, rfl⟩ := List.mem_map.1 ((List.takeWhile_sublist _).mem h)
      exact ⟨by omega, by omega⟩
  · next hle =>
      obtain ⟨z, hz, rfl⟩ := List.mem_map.1 h
      have hnew : (new : ℤ) < z := by simpa using List.mem_takeWhile_imp hz
      obtain ⟨j, -, rfl⟩ := List.mem_map.1 ((List.takeWhile_sublist _).mem hz)
      have hpos : 0 ≤ (step : ℤ) * (j + 1) := Int.natCast_nonneg (step * (j + 1))
      exact ⟨by omega, by omega⟩

theorem stepSelectors_moved (sels : List ℕ) (hs : K (s.sel r)) (hK : ∀ k ∈ sels, K k) :
    Moved K r s (stepSelectors B r sels s).1 := by
  induction sels generalizing s with
  | nil => exact .refl hs
  | cons k rest ih =>
    rw [List.forall_mem_cons] at hK
    have hmoved := setVoltageSel_moved (B := B) hs hK.1
    simp only [stepSelectors]
    split
    · exact hmoved
    · exact hmoved.trans (ih hmoved.mem hK.2)

theorem stepSelectors_ret_le (sels : List ℕ) : (stepSelectors B r sels s).2 ≤ 0 := by
  induction sels generalizing s with
  | nil => exact le_rfl
  | cons k rest ih =>
    simp only [stepSelectors]
    split
    · exact setVoltageSel_ret_le
    · exact ih

theorem regulatorSetVoltageSelStep_spec (hstep : (B.desc r).vselStep ≠ 0) (new : ℕ) :
    Moved (OnWay (B.desc r).vselStep (s.sel r) new) r s (regulatorSetVoltageSelStep B s r new).1 ∧
      (regulatorSetVoltageSelStep B s r new).2 ≤ 0 ∧
      ((regulatorSetVoltageSelStep B s r new).2 = 0 →
        (regulatorSetVoltageSelStep B s r new).1.sel r = new) := by
  have hold : OnWay (B.desc r).vselStep (s.sel r) new (s.sel r) := .inl rfl
  have hnew : OnWay (B.desc r).vselStep (s.sel r) new new := .inr (.inl rfl)
  unfold regulatorSetVoltageSelStep
  split
  · exact ⟨regulatorCallSetVoltageSel_moved hold hnew, regulatorCallSetVoltageSel_ret_le,
      regulatorCallSetVoltageSel_ret_eq⟩
  · split
    · exact ⟨.refl hold, by simp [EINVAL], by simp [EINVAL]⟩
    · simp only
      split
      · next heq => exact ⟨.refl hold, le_rfl, fun _ => heq.symm⟩
      · have hmoved := stepSelectors_moved (B := B) (s := s) (r := r) _ hold
          fun k hk => onWay_of_mem hstep hk
        split
        · next hret =>
            exact ⟨hmoved.trans (setVoltageSel_moved hmoved.mem hold), stepSelectors_ret_le _,
              fun h => absurd h hret⟩
        · exact ⟨hmoved.trans (regulatorCallSetVoltageSel_moved hmoved.mem hnew),
            regulatorCallSetVoltageSel_ret_le, regulatorCallSetVoltageSel_ret_eq⟩

/-- The outcomes of a change: no listed voltage is in the range, or the hardware
is on its way to the lowest one, and there if the change succeeded. -/
inductive Change (B : Board ι υ) (s : State ι υ) (r : ι) (lo hi : ℤ) : State ι υ × ℤ → Prop
  | unlisted : Change B s r lo hi (s, -EINVAL)
  | moved {s' : State ι υ} {ret : ℤ} (k : ℕ) (hmap : regulatorMapVoltage (B.desc r).voltages lo hi = .ok k)
      (hmoved : Moved (OnWay (B.desc r).vselStep (s.sel r) k) r s s') (hle : ret ≤ 0)
      (hret : ret = 0 → s'.sel r = k) : Change B s r lo hi (s', ret)

theorem Change.voltage {lo hi : ℤ} {res : State ι υ × ℤ} (h : Change B s r lo hi res) :
    res.1.voltage = s.voltage := by
  cases h with
  | unlisted => rfl
  | moved k hmap hmoved => exact hmoved.voltage

theorem Change.ret_le {lo hi : ℤ} {res : State ι υ × ℤ} (h : Change B s r lo hi res) : res.2 ≤ 0 := by
  cases h with
  | unlisted => simp [EINVAL]
  | moved k hmap hmoved hle => exact hle

theorem regulatorMapVoltage_error {voltages : List ℤ} {lo hi err : ℤ}
    (h : regulatorMapVoltage voltages lo hi = .error err) : err = -EINVAL := by
  unfold regulatorMapVoltage at h
  simp only at h
  split_ifs at h
  cases h
  rfl

theorem regulatorDoSetVoltage_spec (lo hi : ℤ) :
    Change B s r (lo + (B.constraints r).uvOffset) (hi + (B.constraints r).uvOffset)
      (regulatorDoSetVoltage B s r lo hi) := by
  unfold regulatorDoSetVoltage
  simp only
  split
  · next err hmap =>
      rw [regulatorMapVoltage_error hmap]
      exact .unlisted
  · next k hmap =>
      have hold : OnWay (B.desc r).vselStep (s.sel r) k (s.sel r) := .inl rfl
      have hnew : OnWay (B.desc r).vselStep (s.sel r) k k := .inr (.inl rfl)
      split
      · by_cases heq : (if s.enabled r ∧ (B.desc r).setVoltageTimeSel ∧ (B.desc r).getVoltageSel
            then some (s.sel r) else none) = some k
        · rw [if_pos heq]
          have hsel : s.sel r = k := by
            split at heq
            · exact Option.some.inj heq
            · cases heq
          exact .moved k hmap (.refl hold) le_rfl fun _ => hsel
        · rw [if_neg heq]
          split
          · next hstep =>
              obtain ⟨hmoved, hle, hret⟩ := regulatorSetVoltageSelStep_spec (s := s) hstep k
              exact .moved k hmap hmoved hle hret
          · exact .moved k hmap (regulatorCallSetVoltageSel_moved hold hnew)
              regulatorCallSetVoltageSel_ret_le regulatorCallSetVoltageSel_ret_eq
      · exact .unlisted

end GfpDrivers.Regulator
