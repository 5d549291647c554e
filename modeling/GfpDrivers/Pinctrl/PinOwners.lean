import Mathlib.Data.List.Nodup
import Mathlib.Data.List.Count
import GfpDrivers.Lib.Runs
import GfpDrivers.Pinctrl.Pinmux

/-!
The accounts of the pins over whole runs. A pin counts the enabled settings that it
is part of, as long as a setting is disabled only while it is the one recorded on all
of its pins; where settings overlap this is not so, and a pin keeps a user that is
gone. A setting that cannot be selected clears what other settings recorded.
-/

namespace GfpDrivers.Pinctrl

open Lib Function

variable {ς : Type} {c : PinctrlDev ς} {env : Env} {pins pins' : Pins ς} {pin : ℕ} {owner : String}

/-! ### One pin -/

/-- The pin with one more user. -/
def PinDesc.take (owner : String) (d : PinDesc ς) : PinDesc ς :=
  { d with muxUsecount := d.muxUsecount + 1, muxOwner := some owner }

/-- The pin with one user less. -/
def PinDesc.drop (d : PinDesc ς) : PinDesc ς :=
  if d.muxUsecount = 0 then d
  else if d.muxUsecount = 1 then { d with muxUsecount := 0, muxOwner := none, muxSetting := none }
  else { d with muxUsecount := d.muxUsecount - 1 }

/-- A pin without users is free. -/
def PinDesc.Clear (d : PinDesc ς) : Prop := d.muxUsecount = 0 → d.muxOwner = none ∧ d.muxSetting = none

/-- The device can be the owner of the pin, if it has users. -/
def PinDesc.OwnedBy (d : PinDesc ς) (owner : String) : Prop := d.muxUsecount ≠ 0 → d.muxOwner = some owner

theorem PinDesc.drop_take {d : PinDesc ς} (hclear : d.Clear) (howned : d.OwnedBy owner) : (d.take owner).drop = d := by
  obtain ⟨count, muxOwner, setting, gpio⟩ := d
  cases count with
  | zero =>
    obtain ⟨rfl, rfl⟩ := hclear rfl
    rfl
  | succ count =>
    have hsome : muxOwner = some owner := howned (Nat.succ_ne_zero count)
    simp [take, drop, hsome]

theorem pinFree_mux (hregistered : c.registered pin = true) :
    pinFree c false pins pin = update pins pin (pins pin).drop := by
  unfold pinFree PinDesc.drop
  dsimp only
  rw [if_neg (by simp [hregistered]), if_neg (by simp)]
  by_cases hzero : (pins pin).muxUsecount = 0
  · rw [if_pos hzero, if_pos hzero, update_eq_self]
  · rw [if_neg hzero, if_neg hzero]
    by_cases hone : (pins pin).muxUsecount = 1
    · rw [if_neg (by omega), if_pos hone, hone]
    · rw [if_pos (by omega), if_neg hone]

/-- A pin is refused and stays as it is, or gets one more user. -/
theorem pinRequest_mux (c : PinctrlDev ς) (env : Env) (owner : String) (hclear : (pins pin).Clear) :
    ((pinRequest c env owner false pins pin).2 ≠ 0 ∧ (pinRequest c env owner false pins pin).1 = pins) ∨
      (c.registered pin = true ∧ (pins pin).OwnedBy owner ∧ (c.strict = true → (pins pin).gpioOwner = none) ∧
        pinRequest c env owner false pins pin = (update pins pin ((pins pin).take owner), 0)) := by
  unfold pinRequest
  dsimp only
  by_cases hregistered : c.registered pin = false
  · rw [if_pos hregistered]
    exact .inl ⟨show -EINVAL ≠ 0 by decide, rfl⟩
  rw [if_neg hregistered]
  by_cases howner : (false = false ∨ c.strict = true) ∧ (pins pin).muxUsecount ≠ 0 ∧ (pins pin).muxOwner ≠ some owner
  · rw [if_pos howner]
    exact .inl ⟨show -EINVAL ≠ 0 by decide, rfl⟩
  rw [if_neg howner]
  by_cases hgpio : (false = true ∨ c.strict = true) ∧ (pins pin).gpioOwner ≠ none
  · rw [if_pos hgpio]
    exact .inl ⟨show -EINVAL ≠ 0 by decide, rfl⟩
  rw [if_neg hgpio]
  have howned : (pins pin).OwnedBy owner := by
    intro hne
    by_contra hother
    exact howner ⟨.inl rfl, hne, hother⟩
  have hstrict : c.strict = true → (pins pin).gpioOwner = none := by
    intro hstrict
    by_contra hother
    exact hgpio ⟨.inr hstrict, hother⟩
  have hregistered : c.registered pin = true := by simpa using hregistered
  simp only [Bool.false_eq_true, if_false, true_and, false_and]
  by_cases hmore : 1 < (pins pin).muxUsecount + 1
  · rw [if_pos hmore]
    refine .inr ⟨hregistered, howned, hstrict, ?_⟩
    rw [PinDesc.take, ← howned (by omega)]
  · rw [if_neg hmore]
    have hzero : (pins pin).muxUsecount = 0 := by omega
    obtain ⟨hnone, -⟩ := hclear hzero
    by_cases hstatus : (if c.hasRequest = true then env.request pin else 0) ≠ 0
    · rw [if_pos hstatus]
      refine .inl ⟨hstatus, ?_⟩
      have hsame : (⟨(pins pin).muxUsecount + 1 - 1, if (pins pin).muxUsecount + 1 - 1 = 0 then none else some owner,
          (pins pin).muxSetting, (pins pin).gpioOwner⟩ : PinDesc ς) = pins pin := by
        ext1 <;> simp [hzero, hnone]
      exact (congrArg (update pins pin) hsame).trans (update_eq_self ..)
    · rw [if_neg hstatus]
      exact .inr ⟨hregistered, howned, hstrict, rfl⟩

/-! ### The pins of a group -/

theorem foldl_update {l : List ℕ} (hl : l.Nodup) (f : PinDesc ς → PinDesc ς) {op : Pins ς → ℕ → Pins ς}
    (hop : ∀ pins, ∀ pin ∈ l, op pins pin = update pins pin (f (pins pin))) (pins : Pins ς) :
    l.foldl op pins = fun q => if q ∈ l then f (pins q) else pins q := by
  induction l generalizing pins with
  | nil => simp
  | cons r l ih =>
    rw [List.nodup_cons] at hl
    rw [List.foldl_cons, hop pins r (by simp), ih hl.2 fun pins pin hpin => hop pins pin (by simp [hpin])]
    funext q
    by_cases hq : q = r
    · subst hq
      simp [hl.1]
    · simp [hq]

theorem steps_request {l : List ℕ} (hl : l.Nodup) (hclear : ∀ q, (pins q).Clear)
    (hsteps : Steps (pinRequest c env owner false) l pins pins') :
    (pins' = fun q => if q ∈ l then (pins q).take owner else pins q) ∧
      ∀ q ∈ l, c.registered q = true ∧ (pins q).OwnedBy owner ∧ (c.strict = true → (pins q).gpioOwner = none) := by
  induction l generalizing pins with
  | nil => exact ⟨by simp [← show pins = pins' from hsteps], by simp⟩
  | cons r l ih =>
    rw [List.nodup_cons] at hl
    obtain ⟨hok, hsteps⟩ := hsteps
    obtain ⟨hfail, -⟩ | ⟨hregistered, howned, hstrict, heq⟩ := pinRequest_mux c env owner (hclear r)
    · exact absurd hok hfail
    · rw [heq] at hsteps
      have hclear' : ∀ q, (update pins r ((pins r).take owner) q).Clear := by
        intro q
        by_cases hq : q = r
        · subst hq
          rw [update_self]
          exact fun h0 => absurd h0 (Nat.succ_ne_zero _)
        · rw [update_of_ne hq]
          exact hclear q
      obtain ⟨hpins, hall⟩ := ih hl.2 hclear' hsteps
      constructor
      · rw [hpins]
        funext q
        by_cases hq : q = r
        · subst hq
          simp [hl.1]
        · simp [hq]
      · intro q hq
        cases List.mem_cons.mp hq with
        | inl heq => exact heq ▸ ⟨hregistered, howned, hstrict⟩
        | inr hmem =>
          have hne : q ≠ r := fun h => hl.1 (h ▸ hmem)
          have hq := hall q hmem
          rwa [update_of_ne hne] at hq

/-- Going back over pins that were taken leaves them as they were. -/
theorem unwind_take {l : List ℕ} (hl : l.Nodup) (hclear : ∀ q, (pins q).Clear)
    (hall : ∀ q ∈ l, c.registered q = true ∧ (pins q).OwnedBy owner) {taken : Pins ς}
    (htaken : ∀ q, taken q = if q ∈ l then (pins q).take owner else pins q) :
    unwind (fun pins pin => (pinFree c false pins pin, (0 : ℤ))) l taken = pins := by
  refine (foldl_update hl PinDesc.drop (fun pins q hq => pinFree_mux (hall q hq).1) taken).trans ?_
  funext q
  by_cases hq : q ∈ l
  · rw [if_pos hq, htaken, if_pos hq, PinDesc.drop_take (hclear q) (hall q hq).2]
  · rw [if_neg hq, htaken, if_neg hq]

theorem recordSetting_eq {l : List ℕ} (hl : l.Nodup) (hregistered : ∀ q ∈ l, c.registered q = true)
    (setting : Option ς) (pins : Pins ς) : recordSetting c setting l pins =
      fun q => if q ∈ l then { pins q with muxSetting := setting } else pins q := by
  refine foldl_update hl (fun d => { d with muxSetting := setting }) (fun pins q hq => ?_) pins
  dsimp only
  rw [if_neg (by simp [hregistered q hq])]

/-- Enabling a setting fails and changes nothing, or takes all pins and records the
setting on them. -/
theorem pinmuxEnableSetting_cases (setting : ς) (hclear : ∀ q, (pins q).Clear)
    (hmux : env.setMux = 0 ∨ ∀ q ∈ c.group setting, (pins q).muxSetting = none) :
    ((pinmuxEnableSetting c env setting pins).2 ≠ 0 ∧ (pinmuxEnableSetting c env setting pins).1 = pins) ∨
      (∀ q ∈ c.group setting, c.registered q = true ∧ (pins q).OwnedBy (c.devName setting) ∧
          (c.strict = true → (pins q).gpioOwner = none)) ∧
        pinmuxEnableSetting c env setting pins = (fun q => if q ∈ c.group setting then
          { (pins q).take (c.devName setting) with muxSetting := some setting } else pins q, 0) := by
  have hnodup := c.group_nodup setting
  unfold pinmuxEnableSetting
  obtain ⟨t, hsteps, heq⟩ | ⟨front, r, rest, t, hgroup, hsteps, hfail, heq⟩ :=
    tryAll_cases (pinRequest c env (c.devName setting) false) (c.group setting) [] pins
  · obtain ⟨htaken, hall⟩ := steps_request hnodup hclear hsteps
    have hregistered : ∀ q ∈ c.group setting, c.registered q = true := fun q hq => (hall q hq).1
    rw [heq]
    dsimp only
    rw [if_neg (by simp), recordSetting_eq hnodup hregistered (some setting), List.append_nil]
    by_cases hset : env.setMux ≠ 0
    · rw [if_pos hset, recordSetting_eq hnodup hregistered]
      refine .inl ⟨hset, ?_⟩
      have hnone := hmux.resolve_left hset
      refine unwind_take (List.nodup_reverse.mpr hnodup) hclear
        (fun q hq => ⟨hregistered q (List.mem_reverse.mp hq), (hall q (List.mem_reverse.mp hq)).2.1⟩) fun q => ?_
      simp only [List.mem_reverse, htaken]
      by_cases hq : q ∈ c.group setting
      · simp only [if_pos hq]
        rw [PinDesc.take, ← hnone q hq]
      · simp only [if_neg hq]
    · rw [if_neg hset]
      refine .inr ⟨hall, Prod.ext (funext fun q => ?_) rfl⟩
      dsimp only
      rw [htaken]
      by_cases hq : q ∈ c.group setting
      · simp only [if_pos hq]
      · simp only [if_neg hq]
  · have hfront : front.Nodup := by
      rw [hgroup] at hnodup
      exact (List.nodup_append.mp hnodup).1
    obtain ⟨htaken, hall⟩ := steps_request hfront hclear hsteps
    have hclear' : ∀ q, (t q).Clear := by
      intro q
      rw [htaken]
      dsimp only
      split
      · exact fun h0 => absurd h0 (Nat.succ_ne_zero _)
      · exact hclear q
    rw [heq]
    dsimp only
    rw [if_pos hfail, List.tail_cons, List.append_nil]
    refine .inl ⟨hfail, ?_⟩
    obtain ⟨-, hsame⟩ | ⟨-, -, -, hok⟩ := pinRequest_mux c env (c.devName setting) (hclear' r)
    · rw [hsame]
      refine unwind_take (List.nodup_reverse.mpr hfront) hclear
        (fun q hq => ⟨(hall q (List.mem_reverse.mp hq)).1, (hall q (List.mem_reverse.mp hq)).2.1⟩) fun q => ?_
      rw [htaken]
      simp only [List.mem_reverse]
    · rw [hok] at hfail
      exact absurd rfl hfail

variable [DecidableEq ς]

/-- Disabling a setting that is recorded on all of its pins takes one user of each. -/
theorem pinmuxDisableSetting_eq {setting : ς}
    (hall : ∀ q ∈ c.group setting, c.registered q = true ∧ (pins q).muxSetting = some setting) :
    pinmuxDisableSetting c setting pins = fun q => if q ∈ c.group setting then (pins q).drop else pins q := by
  have hdrop : ∀ q ∈ c.group setting, (pins q).drop =
      if (pins q).muxSetting = some setting then (pins q).drop else pins q :=
    fun q hq => (if_pos (hall q hq).2).symm
  refine (foldl_update (c.group_nodup setting)
    (fun d => if d.muxSetting = some setting then d.drop else d) (fun pins q hq => ?_) pins).trans ?_
  · rw [if_neg (by simp [(hall q hq).1])]
    by_cases hset : (pins q).muxSetting = some setting
    · simp only [if_pos hset]
      exact pinFree_mux (hall q hq).1
    · simp only [if_neg hset, update_eq_self]
  · funext q
    by_cases hq : q ∈ c.group setting
    · rw [if_pos hq, if_pos hq, ← hdrop q hq]
    · rw [if_neg hq, if_neg hq]

omit [DecidableEq ς] in
/-- A GPIO request is refused and changes nothing, or makes the line the GPIO owner of
the pin. -/
theorem pinRequest_gpio (c : PinctrlDev ς) (env : Env) (owner : String) (pins : Pins ς) (pin : ℕ) :
    ((pinRequest c env owner true pins pin).2 ≠ 0 ∧ (pinRequest c env owner true pins pin).1 = pins) ∨
      ((c.strict = true → (pins pin).OwnedBy owner) ∧
        pinRequest c env owner true pins pin =
          (update pins pin { pins pin with gpioOwner := some owner }, 0)) := by
  unfold pinRequest
  dsimp only
  by_cases hregistered : c.registered pin = false
  · rw [if_pos hregistered]
    exact .inl ⟨show -EINVAL ≠ 0 by decide, rfl⟩
  rw [if_neg hregistered]
  by_cases howner : (true = false ∨ c.strict = true) ∧ (pins pin).muxUsecount ≠ 0 ∧ (pins pin).muxOwner ≠ some owner
  · rw [if_pos howner]
    exact .inl ⟨show -EINVAL ≠ 0 by decide, rfl⟩
  rw [if_neg howner]
  by_cases hgpio : (true = true ∨ c.strict = true) ∧ (pins pin).gpioOwner ≠ none
  · rw [if_pos hgpio]
    exact .inl ⟨show -EINVAL ≠ 0 by decide, rfl⟩
  rw [if_neg hgpio, if_neg (by simp)]
  have hnone : (pins pin).gpioOwner = none := by
    by_contra hother
    exact hgpio ⟨.inl rfl, hother⟩
  simp only [if_true, true_and]
  generalize (if c.hasGpioRequestEnable = true then env.gpioRequestEnable
    else if c.hasRequest = true then env.request pin else 0) = status
  by_cases hstatus : status ≠ 0
  · rw [if_pos hstatus]
    refine .inl ⟨hstatus, ?_⟩
    dsimp only
    rw [← hnone]
    exact update_eq_self ..
  · rw [if_neg hstatus]
    refine .inr ⟨fun hstrict hne => ?_, rfl⟩
    by_contra hother
    exact howner ⟨.inr hstrict, hne, hother⟩

/-! ### Calls -/

/-- The number of enabled settings whose group has a pin. -/
def users (c : PinctrlDev ς) (enabled : List ς) (pin : ℕ) : ℕ := enabled.countP fun setting => pin ∈ c.group setting

/-- The accounts of the pins are right. -/
structure Accounted (c : PinctrlDev ς) (x : State ς) : Prop where
  usecount : ∀ q, (x.pins q).muxUsecount = users c x.enabled q
  owner : ∀ setting ∈ x.enabled, ∀ q ∈ c.group setting, (x.pins q).muxOwner = some (c.devName setting)
  free : ∀ q, (x.pins q).muxUsecount = 0 → (x.pins q).muxOwner = none
  strict : c.strict = true → ∀ q, (x.pins q).muxUsecount ≠ 0 → (x.pins q).gpioOwner = none

/-- What else holds between the calls. -/
structure Sound (c : PinctrlDev ς) (x : State ς) : Prop extends Accounted c x where
  clear : ∀ q, (x.pins q).Clear
  registered : ∀ setting ∈ x.enabled, ∀ q ∈ c.group setting, c.registered q = true

/-- A setting is disabled if it is enabled and the one recorded on all of its pins; it
fails to be selected only if nothing is recorded on them. On a strict controller, the
name of a GPIO line is not that of the device that uses the pin. -/
def Allowed (c : PinctrlDev ς) (x : State ς) (a : Call ς × Env) : Prop :=
  match a.1 with
  | .enable setting => a.2.setMux = 0 ∨ ∀ q ∈ c.group setting, (x.pins q).muxSetting = none
  | .disable setting =>
      setting ∈ x.enabled ∧ ∀ q ∈ c.group setting, (x.pins q).muxSetting = some setting
  | .requestGpio rangeName pin gpio =>
      c.strict = true → (x.pins pin).muxUsecount ≠ 0 → (x.pins pin).muxOwner ≠ some (rangeName ++ ":" ++ toString gpio)
  | .freeGpio _ => True

omit [DecidableEq ς] in
theorem users_cons (c : PinctrlDev ς) (setting : ς) (enabled : List ς) (q : ℕ) :
    users c (setting :: enabled) q = users c enabled q + if q ∈ c.group setting then 1 else 0 := by
  simp [users, List.countP_cons]

omit [DecidableEq ς] in
theorem users_pos {enabled : List ς} {setting : ς} {q : ℕ} (hmem : setting ∈ enabled) (hq : q ∈ c.group setting) :
    0 < users c enabled q :=
  List.countP_pos_iff.mpr ⟨setting, hmem, by simpa using hq⟩

theorem users_erase {enabled : List ς} {setting : ς} (hmem : setting ∈ enabled) (q : ℕ) :
    users c (enabled.erase setting) q + (if q ∈ c.group setting then 1 else 0) = users c enabled q := by
  rw [← users_cons]
  exact (List.perm_cons_erase hmem).symm.countP_eq _

variable {x : State ς}

omit [DecidableEq ς] in
theorem Sound.enable (h : Sound c x) {setting : ς}
    (hall : ∀ q ∈ c.group setting, c.registered q = true ∧ (x.pins q).OwnedBy (c.devName setting) ∧
      (c.strict = true → (x.pins q).gpioOwner = none)) :
    Sound c ⟨fun q => if q ∈ c.group setting then
      { (x.pins q).take (c.devName setting) with muxSetting := some setting } else x.pins q,
      setting :: x.enabled⟩ := by
  refine ⟨⟨fun q => ?_, fun other hother q hq => ?_, fun q h0 => ?_, fun hstrict q hne => ?_⟩, fun q => ?_,
    fun other hother q hq => ?_⟩
  · rw [users_cons, ← h.usecount q]
    dsimp only
    split <;> rfl
  · dsimp only
    by_cases hmem : q ∈ c.group setting
    · rw [if_pos hmem]
      cases List.mem_cons.mp hother with
      | inl heq => exact congrArg (fun s => some (c.devName s)) heq.symm
      | inr hother =>
        -- both settings are of the owner of the pin
        have hne : (x.pins q).muxUsecount ≠ 0 := by
          rw [h.usecount q]
          exact Nat.ne_of_gt (users_pos hother hq)
        exact ((hall q hmem).2.1 hne).symm.trans (h.owner other hother q hq)
    · rw [if_neg hmem]
      cases List.mem_cons.mp hother with
      | inl heq => exact absurd (heq ▸ hq) hmem
      | inr hother => exact h.owner other hother q hq
  · dsimp only at h0 ⊢
    split at h0
    · exact absurd h0 (Nat.succ_ne_zero _)
    · rw [if_neg ‹_›]
      exact h.free q h0
  · dsimp only at hne ⊢
    split
    · exact (hall q ‹_›).2.2 hstrict
    · rw [if_neg ‹_›] at hne
      exact h.strict hstrict q hne
  · dsimp only
    split
    · exact fun h0 => absurd h0 (Nat.succ_ne_zero _)
    · exact h.clear q
  · cases List.mem_cons.mp hother with
    | inl heq => exact (hall q (heq ▸ hq)).1
    | inr hother => exact h.registered other hother q hq

omit [DecidableEq ς] in
theorem PinDesc.drop_count (d : PinDesc ς) : d.drop.muxUsecount = d.muxUsecount - 1 := by
  unfold PinDesc.drop
  split
  · omega
  · split
    · simp_all
    · rfl

omit [DecidableEq ς] in
theorem PinDesc.drop_clear {d : PinDesc ς} (h : d.Clear) : d.drop.Clear := by
  unfold PinDesc.drop
  split
  · exact h
  · split
    · exact fun _ => ⟨rfl, rfl⟩
    · exact fun h0 => absurd (show d.muxUsecount - 1 = 0 from h0) (by omega)

omit [DecidableEq ς] in
theorem PinDesc.drop_owner {d : PinDesc ς} (h : d.drop.muxUsecount ≠ 0) : d.drop.muxOwner = d.muxOwner := by
  have hcount := d.drop_count
  unfold PinDesc.drop
  rw [if_neg (by omega), if_neg (by omega)]

omit [DecidableEq ς] in
theorem PinDesc.drop_gpioOwner (d : PinDesc ς) : d.drop.gpioOwner = d.gpioOwner := by
  unfold PinDesc.drop
  split
  · rfl
  · split <;> rfl

theorem Sound.disable (h : Sound c x) {setting : ς} (hmem : setting ∈ x.enabled) :
    Sound c ⟨fun q => if q ∈ c.group setting then (x.pins q).drop else x.pins q, x.enabled.erase setting⟩ := by
  have hcount : ∀ q, (if q ∈ c.group setting then (x.pins q).drop else x.pins q).muxUsecount =
      users c (x.enabled.erase setting) q := by
    intro q
    have herase := users_erase hmem q (c := c)
    have husecount := h.usecount q
    by_cases hq : q ∈ c.group setting
    · rw [if_pos hq] at herase ⊢
      rw [PinDesc.drop_count]
      omega
    · rw [if_neg hq] at herase ⊢
      omega
  have hclear : ∀ q, (if q ∈ c.group setting then (x.pins q).drop else x.pins q).Clear := by
    intro q
    split
    · exact PinDesc.drop_clear (h.clear q)
    · exact h.clear q
  refine ⟨⟨hcount, fun other hother q hq => ?_, fun q h0 => (hclear q h0).1, fun hstrict q hne => ?_⟩, hclear,
    fun other hother q hq => h.registered other (List.mem_of_mem_erase hother) q hq⟩
  · have howner := h.owner other (List.mem_of_mem_erase hother) q hq
    have hpos := users_pos hother hq
    rw [← hcount q] at hpos
    dsimp only
    split
    · rw [if_pos ‹_›] at hpos
      rw [PinDesc.drop_owner (Nat.ne_of_gt hpos), howner]
    · exact howner
  · dsimp only at hne ⊢
    split
    · rw [if_pos ‹_›, PinDesc.drop_count] at hne
      rw [PinDesc.drop_gpioOwner]
      exact h.strict hstrict q (by omega)
    · rw [if_neg ‹_›] at hne
      exact h.strict hstrict q hne

omit [DecidableEq ς] in
theorem Sound.setGpio (h : Sound c x) (pin : ℕ) (gpioOwner : Option String)
    (hstrict : c.strict = true → (x.pins pin).muxUsecount ≠ 0 → gpioOwner = none) :
    Sound c { x with pins := update x.pins pin { x.pins pin with gpioOwner := gpioOwner } } := by
  have hsame : ∀ q, ∃ g, update x.pins pin { x.pins pin with gpioOwner := gpioOwner } q =
      { x.pins q with gpioOwner := g } ∧
      (c.strict = true → (x.pins q).muxUsecount ≠ 0 → g = none) := by
    intro q
    by_cases hq : q = pin
    · subst hq
      exact ⟨gpioOwner, update_self .., hstrict⟩
    · exact ⟨(x.pins q).gpioOwner, update_of_ne hq .., fun hs hne => h.strict hs q hne⟩
  refine ⟨⟨fun q => ?_, fun other hother q hq => ?_, fun q h0 => ?_, fun hs q hne => ?_⟩, fun q h0 => ?_, h.registered⟩
  · obtain ⟨g, hg, -⟩ := hsame q
    exact (congrArg PinDesc.muxUsecount hg).trans (h.usecount q)
  · obtain ⟨g, hg, -⟩ := hsame q
    exact (congrArg PinDesc.muxOwner hg).trans (h.owner other hother q hq)
  · obtain ⟨g, hg, -⟩ := hsame q
    exact (congrArg PinDesc.muxOwner hg).trans (h.free q ((congrArg PinDesc.muxUsecount hg).symm.trans h0))
  · obtain ⟨g, hg, hgs⟩ := hsame q
    exact (congrArg PinDesc.gpioOwner hg).trans (hgs hs fun h0 => hne ((congrArg PinDesc.muxUsecount hg).trans h0))
  · obtain ⟨g, hg, -⟩ := hsame q
    obtain ⟨howner, hsetting⟩ := h.clear q ((congrArg PinDesc.muxUsecount hg).symm.trans h0)
    exact ⟨(congrArg PinDesc.muxOwner hg).trans howner, (congrArg PinDesc.muxSetting hg).trans hsetting⟩

theorem call_sound (h : Sound c x) {a : Call ς × Env} (ha : Allowed c x a) :
    Sound c (call c a.2 x a.1).1 ∧ ((call c a.2 x a.1).2 ≠ 0 → (call c a.2 x a.1).1 = x) := by
  obtain ⟨a, env⟩ := a
  cases a with
  | enable setting =>
    obtain ⟨hfail, hsame⟩ | ⟨hall, heq⟩ := pinmuxEnableSetting_cases setting h.clear ha
    · have hx : (call c env x (.enable setting)).1 = x := by
        simp only [call, if_pos hfail, hsame]
      exact ⟨(congrArg (Sound c) hx).mpr h, fun _ => hx⟩
    · have hret : (call c env x (.enable setting)).2 = 0 := by
        simp only [call, heq]
      have hx : (call c env x (.enable setting)).1 = ⟨fun q => if q ∈ c.group setting then
          { (x.pins q).take (c.devName setting) with muxSetting := some setting } else x.pins q,
          setting :: x.enabled⟩ := by
        simp only [call, heq, ne_eq, not_true_eq_false, if_false]
      exact ⟨(congrArg (Sound c) hx).mpr (h.enable hall), fun hne => absurd hret hne⟩
  | disable setting =>
    obtain ⟨hmem, hall⟩ := ha
    have heq := pinmuxDisableSetting_eq
      (fun q hq => ⟨h.registered setting hmem q hq, hall q hq⟩)
    refine ⟨?_, fun hne => absurd rfl hne⟩
    simp only [call, heq]
    exact h.disable hmem
  | requestGpio rangeName pin gpio =>
    by_cases halloc : env.allocOwner = false
    · have hx : (call c env x (.requestGpio rangeName pin gpio)).1 = x := by
        simp only [call, pinmuxRequestGpio, if_pos halloc]
      exact ⟨(congrArg (Sound c) hx).mpr h, fun _ => hx⟩
    · obtain ⟨-, hsame⟩ | ⟨howned, heq⟩ :=
        pinRequest_gpio c env (rangeName ++ ":" ++ toString gpio) x.pins pin
      · have hx : (call c env x (.requestGpio rangeName pin gpio)).1 = x := by
          simp only [call, pinmuxRequestGpio, if_neg halloc, hsame]
        exact ⟨(congrArg (Sound c) hx).mpr h, fun _ => hx⟩
      · have hret : (call c env x (.requestGpio rangeName pin gpio)).2 = 0 := by
          simp only [call, pinmuxRequestGpio, if_neg halloc, heq]
        refine ⟨?_, fun hne => absurd hret hne⟩
        simp only [call, pinmuxRequestGpio, if_neg halloc, heq]
        exact h.setGpio pin _ fun hs hne => absurd (howned hs hne) (ha hs hne)
  | freeGpio pin =>
    refine ⟨?_, fun hne => absurd rfl hne⟩
    by_cases hregistered : c.registered pin = false
    · simp only [call, pinmuxFreeGpio, pinFree, if_pos hregistered]
      exact h
    · simp only [call, pinmuxFreeGpio, pinFree, if_neg hregistered, if_true]
      exact h.setGpio pin none fun _ _ => rfl

/-- In every state of a run whose calls meet the condition, the accounts of all pins are
right and a call that fails changes nothing. -/
theorem pins_accounted {as : List (Call ς × Env)} (hallowed : Along (step c) (Allowed c) State.initial as)
    (hrun : exec (step c) State.initial as = some x) :
    Accounted c x ∧ ∀ a, Allowed c x a → (call c a.2 x a.1).2 ≠ 0 → (call c a.2 x a.1).1 = x := by
  have hinitial : Sound c State.initial :=
    ⟨⟨fun _ => rfl, fun _ hmem => absurd hmem List.not_mem_nil, fun _ _ => rfl, fun _ _ _ => rfl⟩,
      fun _ _ => ⟨rfl, rfl⟩, fun _ hmem => absurd hmem List.not_mem_nil⟩
  have hsound : Sound c x := by
    refine exec_invariant_along (fun x a y hx ha hy => ?_) hinitial hallowed hrun
    cases hy
    exact (call_sound hx ha).1
  exact ⟨hsound.toAccounted, fun a ha => (call_sound hsound ha).2⟩

/-- Two settings of one device that share the pin 1. -/
def overlapping : PinctrlDev Bool where
  registered := fun pin => pin < 8
  strict := true
  hasRequest := true
  hasGpioRequestEnable := false
  group := fun setting => if setting then [1, 2] else [0, 1]
  group_nodup := by decide
  devName := fun _ => "uart"

def succeeding : Env := ⟨fun _ => 0, 0, 0, true⟩

def failing : Env := ⟨fun pin => if pin = 2 then - EIO else 0, 0, 0, true⟩

theorem overlapping_accounted :
    let as : List (Call Bool × Env) := [(.enable false, succeeding), (.requestGpio "gpio" 5 5, succeeding),
      (.enable true, failing), (.disable false, succeeding)]
    ∃ x, exec (step overlapping) State.initial as = some x ∧ Accounted overlapping x ∧
      (x.pins 1).muxUsecount = 0 ∧ (x.pins 5).gpioOwner = some "gpio:5" := by
  intro as
  have hallowed : Along (step overlapping) (Allowed overlapping) State.initial as := by
    refine .cons (.inl rfl) rfl (.cons (fun _ hne => absurd rfl hne) rfl (.cons (.inl rfl) rfl
      (.cons ⟨by decide, by decide⟩ rfl trivial)))
  exact ⟨_, rfl, (pins_accounted hallowed rfl).1, by decide, by decide⟩

/-- Both settings are enabled and disabled again; the pin that they share keeps a user. -/
theorem shared_pin_keeps_user :
    let as : List (Call Bool × Env) := [(.enable false, succeeding), (.enable true, succeeding),
      (.disable true, succeeding), (.disable false, succeeding)]
    ∃ x, exec (step overlapping) State.initial as = some x ∧ x.enabled = [] ∧ (x.pins 1).muxUsecount = 1 ∧
      (x.pins 1).muxOwner = some "uart" ∧ ¬Accounted overlapping x := by
  refine ⟨_, rfl, by decide, by decide, by decide, fun h => ?_⟩
  have hcount := h.usecount 1
  revert hcount
  decide

end GfpDrivers.Pinctrl
