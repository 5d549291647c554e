import Mathlib.Algebra.Order.Floor.Div
import Mathlib.Data.Nat.ModEq
import GfpDrivers.Basic
import GfpDrivers.Lib.Traced

/-!
Switching a regulator on and waiting for it. `_regulator_do_enable` sleeps for the poll time, asks
whether the regulator is up, and takes the poll time off the time that remains; at 0 it gives up.

The time that remains is an `unsigned int`. A delay that is no multiple of the poll time passes 0
without hitting it, and the loop goes on with a remainder near 2 ^ 32.
-/

namespace GfpDrivers.Regulator

open Lib Traced

/-! ### The device -/

/-- What an enable does to the world: the three ways to sleep, the pin, and the callbacks. -/
inductive EnableEvent where
  | msleep (ms : ℕ)
  | usleepRange (min max : ℕ)
  | udelay (us : ℕ)
  | setGpio (value : ℕ)
  | enable
  | getStatus
  | isEnabled
  deriving DecidableEq

def REGULATOR_STATUS_OFF : ℤ := 0
def REGULATOR_STATUS_ERROR : ℤ := 2
def REGULATOR_STATUS_UNDEFINED : ℤ := 8

/-- The answers of the callbacks; an optional one need not be there. The polls are counted from 0. -/
structure EnableOps where
  enableTime : Option (BitVec 32)
  enable : Option ℤ
  getStatus : Option (ℕ → ℤ)
  isEnabled : ℕ → ℤ

/-- The fields that an enable reads. `constraintsTime` is 0 also where there are no constraints,
`lastOff` is in nanoseconds, and `enaPin` is the enable count of the pin. -/
structure EnableDev where
  ops : EnableOps
  constraintsTime : BitVec 32
  enableTime : BitVec 32
  offOnDelay : BitVec 32
  pollEnabledTime : BitVec 32
  lastOff : ℤ
  enaPin : Option ℕ
  enaGpioState : Bool

/-! ### The code -/

/-- `_regulator_get_enable_time` -/
def regulatorGetEnableTime (rdev : EnableDev) : ℤ :=
  if rdev.constraintsTime ≠ 0 then rdev.constraintsTime.toInt
  else
    match rdev.ops.enableTime with
    | some time => time.toInt
    | none => rdev.enableTime.toInt

/-- `_regulator_enable_delay` -/
def regulatorEnableDelay (delay : ℕ) : Traced EnableEvent Unit :=
  let ms := delay / 1000
  let us := delay % 1000
  let sleepUs (us : ℕ) : Traced EnableEvent Unit :=
    if us ≥ 10 then emit (.usleepRange us (us + 100)) else emit (.udelay us)
  if ms > 0 then
    if ms < 20 then sleepUs (us + ms * 1000)
    else do
      emit (.msleep ms)
      sleepUs us
  else sleepUs us

/-- `_regulator_check_status_enabled` for a status that was read. -/
def regulatorCheckStatusEnabled (ret : ℤ) : ℤ :=
  if ret < 0 then ret
  else if ret = REGULATOR_STATUS_OFF ∨ ret = REGULATOR_STATUS_ERROR ∨ ret = REGULATOR_STATUS_UNDEFINED then 0
  else 1

/-- `regulator_ena_gpio_ctrl` -/
def regulatorEnaGpioCtrl (rdev : EnableDev) (enable : Bool) : Traced EnableEvent (EnableDev × ℤ) :=
  match rdev.enaPin with
  | none => pure (rdev, -EINVAL)
  | some count =>
      if enable then do
        if count = 0 then emit (.setGpio 1)
        pure ({ rdev with enaPin := some (count + 1) }, 0)
      else if count > 1 then pure ({ rdev with enaPin := some (count - 1) }, 0)
      else do
        emit (.setGpio 0)
        pure ({ rdev with enaPin := some 0 }, 0)

/-- One look at the regulator: positive if it is up, negative if the look failed. -/
def lookEnabled (ops : EnableOps) (poll : ℕ) : Traced EnableEvent ℤ :=
  match ops.getStatus with
  | some status => do
      emit .getStatus
      pure (regulatorCheckStatusEnabled (status poll))
  | none => do
      emit .isEnabled
      pure (if ops.isEnabled poll = 0 then 0 else 1)

/-- The loop of `_regulator_do_enable`: the time that remains when it is left, or the error that it
returns. -/
def pollLoop (ops : EnableOps) (pollEnabledTime : BitVec 32) :
    ℕ → ℕ → BitVec 32 → Traced EnableEvent (Except ℤ (BitVec 32))
  | 0, _, _ => unfinished
  | rounds + 1, poll, timeRemaining =>
      if timeRemaining > 0 then do
        regulatorEnableDelay pollEnabledTime.toNat
        let ret ← lookEnabled ops poll
        if ret < 0 then pure (.error ret)
        else if ret ≠ 0 then pure (.ok timeRemaining)
        else pollLoop ops pollEnabledTime rounds (poll + 1) (timeRemaining - pollEnabledTime)
      else pure (.ok timeRemaining)

/-- The part of `_regulator_do_enable` that switches the regulator on. -/
def turnOn (rdev : EnableDev) : Traced EnableEvent (EnableDev × ℤ) :=
  if rdev.enaPin.isSome then
    if rdev.enaGpioState then pure (rdev, 0)
    else do
      let (rdev, ret) ← regulatorEnaGpioCtrl rdev true
      if ret < 0 then pure (rdev, ret) else pure ({ rdev with enaGpioState := true }, ret)
  else
    match rdev.ops.enable with
    | some ret => do
        emit .enable
        pure (rdev, ret)
    | none => pure (rdev, -EINVAL)

/-- The part of `_regulator_do_enable` that keeps the distance from the last time that the regulator
was switched off, at the time `now`. -/
def keepOffOnDelay (rdev : EnableDev) (now : ℤ) : Traced EnableEvent Unit :=
  if rdev.offOnDelay ≠ 0 ∧ rdev.lastOff ≠ 0 then
    let remaining := (rdev.lastOff + rdev.offOnDelay.toNat * 1000 - now).tdiv 1000
    if remaining > 0 then regulatorEnableDelay (remaining.toNat % 2 ^ 32) else pure ()
  else pure ()

/-- The delay that `_regulator_do_enable` works with. -/
def enableDelay (rdev : EnableDev) : ℕ := (regulatorGetEnableTime rdev).toNat

/-- `_regulator_do_enable` -/
def regulatorDoEnable (rounds : ℕ) (rdev : EnableDev) (now : ℤ) : Traced EnableEvent (EnableDev × ℤ) := do
  let delay := enableDelay rdev
  keepOffOnDelay rdev now
  let (rdev, ret) ← turnOn rdev
  if ret < 0 then pure (rdev, ret)
  else if rdev.pollEnabledTime ≠ 0 then do
    match ← pollLoop rdev.ops rdev.pollEnabledTime rounds 0 (BitVec.ofNat 32 delay) with
    | .error ret => pure (rdev, ret)
    | .ok timeRemaining => if timeRemaining ≤ 0 then pure (rdev, -ETIMEDOUT) else pure (rdev, 0)
  else do
    regulatorEnableDelay delay
    pure (rdev, 0)

/-! ### A regulator that does not come up -/

variable {rdev : EnableDev} {ops : EnableOps} {p t : BitVec 32} {rounds i n : ℕ} {now : ℤ}

/-- Each answer says that the regulator is off. -/
def EnableOps.NeverEnabled (ops : EnableOps) : Prop :=
  match ops.getStatus with
  | some status =>
      ∀ poll, status poll = REGULATOR_STATUS_OFF ∨ status poll = REGULATOR_STATUS_ERROR ∨
        status poll = REGULATOR_STATUS_UNDEFINED
  | none => ∀ poll, ops.isEnabled poll = 0

/-- Switching on does not fail. -/
def EnableDev.TurnsOn (rdev : EnableDev) : Prop := rdev.enaPin.isSome ∨ ∃ ret ∈ rdev.ops.enable, 0 ≤ ret

def EnableEvent.isPoll : EnableEvent → Bool
  | .getStatus | .isEnabled => true
  | _ => false

/-- How often the regulator is looked at. -/
def polls (es : List EnableEvent) : ℕ := es.countP EnableEvent.isPoll

@[simp] theorem polls_append (es es' : List EnableEvent) : polls (es ++ es') = polls es + polls es' :=
  List.countP_append

/-- A program that ends with `a` and does not look at the regulator. -/
def Quiet {α : Type} (x : Traced EnableEvent α) (a : α) : Prop := x.result = some a ∧ polls x.trace = 0

theorem Quiet.emit {e : EnableEvent} (h : e.isPoll = false) : Quiet (Traced.emit e) () :=
  ⟨rfl, List.countP_eq_zero.mpr fun e' he => by
    rw [List.mem_singleton.mp he, h]
    decide⟩

theorem Quiet.pure {α : Type} (a : α) : Quiet (Pure.pure a) a := ⟨rfl, rfl⟩

theorem Quiet.bind {α β : Type} {x : Traced EnableEvent α} {f : α → Traced EnableEvent β} {a : α} {b : β}
    (hx : Quiet x a) (hf : Quiet (f a) b) : Quiet (x >>= f) b := by
  rw [bind_of_result hx.1]
  exact ⟨hf.1, by rw [polls_append, hx.2, hf.2]⟩

theorem regulatorEnableDelay_quiet (delay : ℕ) : Quiet (regulatorEnableDelay delay) () := by
  have hsleep : ∀ us : ℕ, Quiet (if us ≥ 10 then emit (.usleepRange us (us + 100)) else emit (.udelay us)) () :=
    fun us => by split <;> exact .emit rfl
  rw [regulatorEnableDelay]
  split
  · split
    · exact hsleep _
    · exact (Quiet.emit rfl).bind (hsleep _)
  · exact hsleep _

theorem keepOffOnDelay_quiet (rdev : EnableDev) (now : ℤ) : Quiet (keepOffOnDelay rdev now) () := by
  rw [keepOffOnDelay]
  split
  · dsimp only
    split
    · exact regulatorEnableDelay_quiet _
    · exact .pure ()
  · exact .pure ()

theorem turnOn_quiet (h : rdev.TurnsOn) :
    ∃ rdev' ret, Quiet (turnOn rdev) (rdev', ret) ∧ 0 ≤ ret ∧ rdev'.ops = rdev.ops ∧
      rdev'.pollEnabledTime = rdev.pollEnabledTime := by
  rw [turnOn]
  cases hpin : rdev.enaPin with
  | some count =>
    rw [if_pos Option.isSome_some]
    cases rdev.enaGpioState with
    | true => exact ⟨rdev, 0, .pure _, le_rfl, rfl, rfl⟩
    | false =>
      refine ⟨{ rdev with enaPin := some (count + 1), enaGpioState := true }, 0, ?_, le_rfl, rfl, rfl⟩
      have hctrl : Quiet (regulatorEnaGpioCtrl rdev true) ({ rdev with enaPin := some (count + 1) }, 0) := by
        simp only [regulatorEnaGpioCtrl, hpin, if_true]
        split
        · exact (Quiet.emit rfl).bind (.pure _)
        · exact .pure _
      exact hctrl.bind (.pure _)
  | none =>
    rcases h with hsome | ⟨ret, hret, hle⟩
    · rw [hpin] at hsome
      cases hsome
    · rw [if_neg (by decide), Option.mem_def.mp hret]
      exact ⟨rdev, ret, (Quiet.emit rfl).bind (.pure _), hle, rfl, rfl⟩

/-! ### The loop -/

theorem lookEnabled_never (h : ops.NeverEnabled) :
    (lookEnabled ops i).result = some 0 ∧ polls (lookEnabled ops i).trace = 1 := by
  rw [EnableOps.NeverEnabled] at h
  rw [lookEnabled]
  cases hstatus : ops.getStatus with
  | some status =>
    rw [hstatus] at h
    have hoff : regulatorCheckStatusEnabled (status i) = 0 := by
      rw [regulatorCheckStatusEnabled, if_neg, if_pos (h i)]
      rcases h i with hi | hi | hi <;> rw [hi] <;> decide
    refine ⟨?_, rfl⟩
    rw [← hoff]
    rfl
  | none =>
    rw [hstatus] at h
    refine ⟨?_, rfl⟩
    simp only [result_bind, result_emit, Option.bind_some, result_pure, h i, if_true]

/-- A round that finds the regulator off looks at it once. -/
theorem pollLoop_round (p : BitVec 32) (rounds i : ℕ) (h : ops.NeverEnabled) (ht : t ≠ 0) :
    ∃ es, polls es = 1 ∧ pollLoop ops p (rounds + 1) i t =
      ⟨es ++ (pollLoop ops p rounds (i + 1) (t - p)).trace, (pollLoop ops p rounds (i + 1) (t - p)).result⟩ := by
  obtain ⟨hdelay, hquiet⟩ := regulatorEnableDelay_quiet p.toNat
  obtain ⟨hlook, hone⟩ := lookEnabled_never (i := i) h
  have hpos : t > 0 := (BitVec.pos_iff_ne_zero t).mpr ht
  refine ⟨(regulatorEnableDelay p.toNat).trace ++ (lookEnabled ops i).trace, by rw [polls_append, hquiet, hone], ?_⟩
  rw [pollLoop, if_pos hpos, bind_of_result hdelay, bind_of_result hlook, List.append_assoc]
  rfl

theorem pollLoop_zero : pollLoop ops p (rounds + 1) i 0 = pure (.ok 0) := rfl

theorem pollLoop_multiple (h : ops.NeverEnabled) (ht : t.toNat = n * p.toNat) (hp : p ≠ 0) (hn : n < rounds) :
    (pollLoop ops p rounds i t).result = some (.ok 0) ∧ polls (pollLoop ops p rounds i t).trace = n := by
  induction n generalizing rounds i t with
  | zero =>
    obtain ⟨rounds, rfl⟩ := Nat.exists_eq_add_of_lt hn
    obtain rfl : t = 0 := BitVec.eq_of_toNat_eq (by simpa using ht)
    exact ⟨rfl, rfl⟩
  | succ n ih =>
    obtain ⟨rounds, rfl⟩ := Nat.exists_eq_add_of_lt hn
    have hpos : 0 < p.toNat := BitVec.toNat_pos_of_ne_zero hp
    have hle : p.toNat ≤ t.toNat := ht ▸ Nat.le_mul_of_pos_left _ n.succ_pos
    have hne : t ≠ 0 := fun h0 => by
      rw [h0] at hle
      exact absurd hle (Nat.not_le.mpr hpos)
    have hrest : (t - p).toNat = n * p.toNat := by
      rw [BitVec.toNat_sub_of_le (BitVec.le_def.mpr hle), ht, Nat.succ_mul, Nat.add_sub_cancel]
    obtain ⟨es, hone, heq⟩ := pollLoop_round p (n + 1 + rounds) i h hne
    have hn' : n < n + 1 + rounds := by omega
    obtain ⟨hresult, hpolls⟩ := ih (i := i + 1) hrest hn'
    rw [heq]
    exact ⟨hresult, by rw [polls_append, hone, hpolls, Nat.add_comm]⟩

/-- A loop that is left has polled the delay away, up to multiples of 2 ^ 32. -/
theorem pollLoop_result (h : ops.NeverEnabled) {res : Except ℤ (BitVec 32)}
    (hrun : (pollLoop ops p rounds i t).result = some res) :
    res = .ok 0 ∧ polls (pollLoop ops p rounds i t).trace * p.toNat ≡ t.toNat [MOD 2 ^ 32] := by
  induction rounds generalizing i t with
  | zero => cases hrun
  | succ rounds ih =>
    by_cases ht : t = 0
    · subst ht
      obtain rfl := Option.some.inj hrun
      exact ⟨rfl, congrArg (· % 2 ^ 32) (Nat.zero_mul _)⟩
    · obtain ⟨es, hone, heq⟩ := pollLoop_round p rounds i h ht
      rw [heq] at hrun ⊢
      obtain ⟨hres, hmod⟩ := ih hrun
      refine ⟨hres, ?_⟩
      rw [polls_append, hone, Nat.add_mul, Nat.one_mul]
      refine (hmod.add_left p.toNat).trans ?_
      rw [BitVec.toNat_sub, Nat.ModEq, Nat.add_mod_mod]
      have hp := p.isLt
      rw [show p.toNat + (2 ^ 32 - p.toNat + t.toNat) = t.toNat + 2 ^ 32 by omega, Nat.add_mod_right]

/-- The loop is left only if some number of polls takes as long as the delay, up to multiples of 2 ^ 32. -/
theorem pollLoop_ends_iff (h : ops.NeverEnabled) :
    (∃ rounds, (pollLoop ops p rounds i t).result ≠ none) ↔ ∃ n, n * p.toNat ≡ t.toNat [MOD 2 ^ 32] := by
  constructor
  · rintro ⟨rounds, hrun⟩
    obtain ⟨res, hres⟩ := Option.ne_none_iff_exists'.mp hrun
    exact ⟨_, (pollLoop_result h hres).2⟩
  · rintro ⟨n, hn⟩
    induction n generalizing i t with
    | zero =>
      obtain rfl : t = 0 := BitVec.eq_of_toNat_eq (by simpa [Nat.ModEq, Nat.mod_eq_of_lt t.isLt] using hn.symm)
      exact ⟨1, nofun⟩
    | succ n ih =>
      by_cases ht : t = 0
      · exact ⟨1, by rw [ht, pollLoop_zero]; nofun⟩
      · have hrest : n * p.toNat ≡ (t - p).toNat [MOD 2 ^ 32] := by
          refine Nat.ModEq.add_right_cancel' p.toNat ?_
          rw [← Nat.succ_mul]
          refine hn.trans ?_
          rw [BitVec.toNat_sub, Nat.ModEq, Nat.mod_add_mod]
          have hp := p.isLt
          rw [show 2 ^ 32 - p.toNat + t.toNat + p.toNat = t.toNat + 2 ^ 32 by omega, Nat.add_mod_right]
        obtain ⟨rounds, hrun⟩ := ih (i := i + 1) hrest
        obtain ⟨es, -, heq⟩ := pollLoop_round p rounds i h ht
        exact ⟨rounds + 1, by rw [heq]; exact hrun⟩

/-! ### The enable -/

theorem regulatorDoEnable_loop (now : ℤ) (hpoll : rdev.pollEnabledTime ≠ 0) (hon : rdev.TurnsOn) (hoff : rdev.ops.NeverEnabled) :
    ∃ rdev', ∀ rounds,
      polls (regulatorDoEnable rounds rdev now).trace =
        polls (pollLoop rdev.ops rdev.pollEnabledTime rounds 0 (BitVec.ofNat 32 (enableDelay rdev))).trace ∧
      (regulatorDoEnable rounds rdev now).result =
        (pollLoop rdev.ops rdev.pollEnabledTime rounds 0 (BitVec.ofNat 32 (enableDelay rdev))).result.map
          fun _ => (rdev', -ETIMEDOUT) := by
  obtain ⟨hkeep, hkeepQuiet⟩ := keepOffOnDelay_quiet rdev now
  obtain ⟨rdev', ret, ⟨hturn, hturnQuiet⟩, hret, hops, htime⟩ := turnOn_quiet hon
  refine ⟨rdev', fun rounds => ?_⟩
  have hrun : ∀ res, (pollLoop rdev.ops rdev.pollEnabledTime rounds 0 (BitVec.ofNat 32 (enableDelay rdev))).result = some res →
      res = .ok 0 := fun _ hres => (pollLoop_result hoff hres).1
  simp only [regulatorDoEnable, bind_of_result hkeep, bind_of_result hturn, if_neg (not_lt.mpr hret), hops, htime,
    if_pos hpoll, polls_append, hkeepQuiet, hturnQuiet, Nat.zero_add]
  cases hloop : (pollLoop rdev.ops rdev.pollEnabledTime rounds 0 (BitVec.ofNat 32 (enableDelay rdev))).result with
  | none =>
    rw [bind_of_unfinished hloop]
    exact ⟨rfl, rfl⟩
  | some res =>
    obtain rfl := hrun res hloop
    rw [bind_of_result hloop]
    exact ⟨by rw [polls_append]; rfl, rfl⟩

/-- After as many polls as fit into the delay, rounded up, the enable gives up. -/
def TimesOut (rdev : EnableDev) (now : ℤ) : Prop :=
  ∃ enough, ∀ rounds ≥ enough,
    (∃ rdev', (regulatorDoEnable rounds rdev now).result = some (rdev', -ETIMEDOUT)) ∧
      polls (regulatorDoEnable rounds rdev now).trace ≤ enableDelay rdev ⌈/⌉ rdev.pollEnabledTime.toNat

theorem enableDelay_lt (rdev : EnableDev) : enableDelay rdev < 2 ^ 31 := by
  have hlt : ∀ b : BitVec 32, b.toInt.toNat < 2 ^ 31 := fun b => by
    have := BitVec.toInt_lt (x := b)
    omega
  rw [enableDelay, regulatorGetEnableTime]
  split
  · exact hlt _
  · cases rdev.ops.enableTime with
    | some time => exact hlt time
    | none => exact hlt _

theorem enableDelay_toNat : (BitVec.ofNat 32 (enableDelay rdev)).toNat = enableDelay rdev :=
  Nat.mod_eq_of_lt ((enableDelay_lt _).trans (by decide))

/-- So few polls do not take the counter below 0 and back. -/
theorem dvd_of_timesOut (hpoll : rdev.pollEnabledTime ≠ 0) (hon : rdev.TurnsOn) (hoff : rdev.ops.NeverEnabled)
    (h : TimesOut rdev now) : rdev.pollEnabledTime.toNat ∣ enableDelay rdev := by
  obtain ⟨rdev', hloop⟩ := regulatorDoEnable_loop now hpoll hon hoff
  obtain ⟨enough, h⟩ := h
  obtain ⟨⟨_, hresult⟩, hle⟩ := h enough le_rfl
  rw [(hloop enough).2, Option.map_eq_some_iff] at hresult
  obtain ⟨res, hres, -⟩ := hresult
  have hmod := (pollLoop_result hoff hres).2
  rw [← (hloop enough).1, enableDelay_toNat, Nat.ModEq] at hmod
  have hlt := Nat.mul_le_of_le_div _ _ _ (Nat.ceilDiv_eq_add_pred_div _ _ ▸ hle)
  have hp := rdev.pollEnabledTime.isLt
  have hd := enableDelay_lt rdev
  exact ⟨polls (regulatorDoEnable enough rdev now).trace, by rw [Nat.mul_comm]; omega⟩

/-- The wait for a regulator that does not come up ends in time for the delays that are multiples of the
poll time, and for no others. -/
theorem timesOut_iff (hpoll : rdev.pollEnabledTime ≠ 0) (hon : rdev.TurnsOn) (hoff : rdev.ops.NeverEnabled) :
    TimesOut rdev now ↔ rdev.pollEnabledTime.toNat ∣ enableDelay rdev := by
  refine ⟨dvd_of_timesOut hpoll hon hoff, ?_⟩
  rintro ⟨n, hn⟩
  obtain ⟨rdev', hloop⟩ := regulatorDoEnable_loop now hpoll hon hoff
  refine ⟨n + 1, fun rounds hrounds => ?_⟩
  obtain ⟨hresult, hpolls⟩ := pollLoop_multiple (p := rdev.pollEnabledTime) (i := 0) hoff
    (enableDelay_toNat.trans (hn.trans (Nat.mul_comm _ _))) hpoll (Nat.lt_of_succ_le hrounds)
  refine ⟨⟨rdev', by rw [(hloop rounds).2, hresult]; rfl⟩, ?_⟩
  have hpos := BitVec.toNat_pos_of_ne_zero hpoll
  rw [(hloop rounds).1, hpolls, hn, Nat.ceilDiv_eq_add_pred_div, Nat.le_div_iff_mul_le hpos, Nat.mul_comm]
  omega

/-- A regulator that is switched on by its `enable`, and is never seen to be up. -/
def deadRegulator (enableTime pollEnabledTime : BitVec 32) : EnableDev :=
  ⟨⟨none, some 0, none, fun _ => 0⟩, 0, enableTime, 0, pollEnabledTime, 0, none, false⟩

theorem deadRegulator_neverEnabled (enableTime pollEnabledTime : BitVec 32) :
    (deadRegulator enableTime pollEnabledTime).ops.NeverEnabled := fun _ => rfl

theorem deadRegulator_timesOut : TimesOut (deadRegulator 4 2) 0 :=
  (timesOut_iff (by decide) (.inr ⟨0, rfl, le_rfl⟩) (deadRegulator_neverEnabled 4 2)).mpr (by decide)

/-- With a delay of 3 and a poll time of 2 the counter goes from 1 to 2 ^ 32 - 1. -/
theorem deadRegulator_not_timesOut :
    (deadRegulator 3 2).TurnsOn ∧ (deadRegulator 3 2).ops.NeverEnabled ∧ ¬ TimesOut (deadRegulator 3 2) 0 := by
  have hon : (deadRegulator 3 2).TurnsOn := .inr ⟨0, rfl, le_rfl⟩
  have hoff := deadRegulator_neverEnabled 3 2
  exact ⟨hon, hoff, fun h => absurd (dvd_of_timesOut (by decide) hon hoff h) (by decide)⟩

end GfpDrivers.Regulator
