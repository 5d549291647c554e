import GfpDrivers.Lib.Runs
import GfpDrivers.Virtio.SplitSpec

/-!
Notifications on a split virtqueue with event indexes. The driver adds
buffers and asks `virtqueue_kick_prepare_split` whether the device has to be
told; the device consumes buffers, publishes in `avail_event` how far it has
come, and goes to sleep when it has seen everything. Both sides compare
16-bit counters that wrap.

The two parties are put together in one system whose steps are atomic. The
numbers of buffers added and consumed are kept as unbounded counters beside
the 16-bit ones; the device decides by the 16-bit ones only.
-/

namespace GfpDrivers.Virtio

open Lib

/-- A driver and a device on one split queue. -/
structure KickSys where
  vq : SplitVq
  /-- Buffers added by the driver so far. -/
  added : ℕ
  /-- Whether the driver has executed `kick_prepare` after its last add. -/
  kicked : Bool
  /-- Buffers consumed by the device so far. -/
  consumed : ℕ
  /-- What the device published last. -/
  published : Option ℕ
  asleep : Bool
  /-- Notifications issued before the device went to sleep. -/
  notifiesAtSleep : ℕ

inductive KickAct where
  | add (a : AddArgs)
  | kickPrepare
  | getBuf
  | consume
  | publish
  | complete (flags idx : ℕ) (ring : ℕ → VringUsedElem)
  | sleep
  | wake

/-- What the device reads in `avail->idx` is not what it has consumed. -/
def KickSys.moreAvail (s : KickSys) : Prop := s.vq.avail.idx ≠ s.consumed % 2 ^ 16

instance KickSys.decidableMoreAvail (s : KickSys) : Decidable s.moreAvail := inferInstanceAs (Decidable (_ ≠ _))

/-- A step of the driver (`add`, `kickPrepare`, `getBuf`) or of the device. The
device sleeps only if it published after it consumed last and finds nothing
new in the avail ring. -/
def kickStep (s : KickSys) : KickAct → Option KickSys
  | .add a => (virtqueueAddSplit s.vq a).map fun r =>
      if r.2 = 0 then { s with vq := r.1, added := s.added + 1, kicked := false }
      else { s with vq := r.1 }
  | .kickPrepare =>
      let r := virtqueueKickPrepareSplit s.vq
      some { s with vq := if r.2 then r.1.notify else r.1, kicked := true }
  | .getBuf => (virtqueueGetBufCtxSplit s.vq).map fun r => { s with vq := r.vq }
  | .consume =>
      if s.asleep ∨ ¬ s.moreAvail then none else some { s with consumed := s.consumed + 1 }
  | .publish =>
      if s.asleep then none
      else some { s with
        vq := { s.vq with used := { s.vq.used with availEvent := s.consumed % 2 ^ 16 } }
        published := some s.consumed }
  | .complete flags idx ring =>
      some { s with vq := { s.vq with used := { s.vq.used with
        flags := flags, idx := idx, ring := ring } } }
  | .sleep =>
      if s.asleep ∨ s.published ≠ some s.consumed ∨ s.moreAvail then none
      else some { s with asleep := true, notifiesAtSleep := s.vq.notifies }
  | .wake => some { s with asleep := false }

/-- A new queue, with the device awake. -/
def KickSys.init (vq : SplitVq) : KickSys where
  vq := vq
  added := 0
  kicked := false
  consumed := 0
  published := none
  asleep := false
  notifiesAtSleep := 0

/-- Adds are counted, and no more than `num` buffers are outstanding. -/
def KickSys.Allows (s : KickSys) : KickAct → Prop
  | .add a => a.Counted ∧ s.added < s.consumed + s.vq.num
  | _ => True

instance KickSys.decidableAllows (s : KickSys) : ∀ act, Decidable (s.Allows act)
  | .add _ => inferInstanceAs (Decidable (_ ∧ _))
  | .kickPrepare | .getBuf | .consume | .publish | .complete .. | .sleep | .wake => isTrue trivial

/-! ### The window test -/

/-- If the device stopped at `c`, the driver had told it of the buffers before
`k ≤ c`, and there is one after `c`, then `vring_need_event` says so. -/
theorem vringNeedEvent_of_le {k c added : ℕ} (hk : k ≤ c) (hc : c < added)
    (hlt : added - k < 2 ^ 16) :
    vringNeedEvent (c % 2 ^ 16) (added % 2 ^ 16) (sub16 (added % 2 ^ 16) (added - k)) = true := by
  have hnew : sub16 (added % 2 ^ 16) (added - k) = k % 2 ^ 16 := by
    rw [sub16_mod_left (Nat.sub_le added k)]
    congr 1
    omega
  rw [vringNeedEvent, decide_eq_true_eq, hnew, sub16_mod_right, sub16_mod_right, sub16_mod_left (Nat.le_of_lt hc),
    sub16_mod_left (Nat.le_trans hk (Nat.le_of_lt hc)), Nat.mod_eq_of_lt (by omega), Nat.mod_eq_of_lt hlt, sub16_of_le (by omega) (by omega)]
  omega

/-- The same, as `virtqueue_kick_prepare_split` asks. -/
theorem kickPrepare_of_le {vq : SplitVq} {c added : ℕ} (hevent : vq.event = true)
    (hshadow : vq.availIdxShadow = added % 2 ^ 16) (hlt : vq.numAdded < 2 ^ 16)
    (hle : vq.numAdded ≤ added) (havail : vq.used.availEvent = c % 2 ^ 16)
    (hk : added - vq.numAdded ≤ c) (hc : c < added) :
    (virtqueueKickPrepareSplit vq).2 = true := by
  have hneed := vringNeedEvent_of_le hk hc (by omega)
  rw [Nat.sub_sub_self hle] at hneed
  simp only [virtqueueKickPrepareSplit, hevent, if_true, havail, hshadow, virtio16ToCpu,
    Nat.mod_mod]
  exact hneed

/-! ### The invariant -/

/-- The 16-bit counters of the driver are its unbounded ones, and a sleeping
device has been notified of all buffers before `added - num_added`. -/
structure KickPre (s : KickSys) : Prop where
  event : s.vq.event = true
  num_le : s.vq.num ≤ 32768
  shadow : s.vq.availIdxShadow = s.added % 2 ^ 16
  idx : s.vq.avail.idx = s.added % 2 ^ 16
  numAdded_lt : s.vq.numAdded < 2 ^ 16
  numAdded_le : s.vq.numAdded ≤ s.added
  consumed_le : s.consumed ≤ s.added
  outstanding : s.added ≤ s.consumed + s.vq.num
  published : ∀ c, s.published = some c → s.vq.used.availEvent = c % 2 ^ 16
  kicked : s.kicked = true → s.vq.numAdded = 0
  atSleep : s.notifiesAtSleep ≤ s.vq.notifies
  asleep : s.asleep = true → s.published = some s.consumed ∧
    (s.notifiesAtSleep < s.vq.notifies ∨ s.added - s.vq.numAdded ≤ s.consumed)

/-- Between two steps of the driver `num_added` leaves room for one more. -/
structure KickInv (s : KickSys) : Prop extends KickPre s where
  numAdded_ne : s.vq.numAdded ≠ 2 ^ 16 - 1

/-- The state of the queue after a call of `kick_prepare` and the
notification it asks for. -/
def SplitVq.kicked (vq : SplitVq) : SplitVq :=
  if (virtqueueKickPrepareSplit vq).2 then (virtqueueKickPrepareSplit vq).1.notify
  else (virtqueueKickPrepareSplit vq).1

/-- `virtqueue_kick` on a queue that is not broken. -/
theorem virtqueueKickSplit_of_not_broken {vq : SplitVq} (hb : vq.broken = false) (ok : Bool) :
    ∃ b, (virtqueueKickSplit vq ok).1 = { vq.kicked with broken := b } := by
  have hb' : (virtqueueKickPrepareSplit vq).1.broken = false := hb
  unfold virtqueueKickSplit SplitVq.kicked
  generalize virtqueueKickPrepareSplit vq = r at hb' ⊢
  obtain ⟨w, need⟩ := r
  have hw : w.broken = false := hb'
  cases need with
  | false => exact ⟨w.broken, rfl⟩
  | true =>
    cases ok with
    | false => exact ⟨true, by simp [virtqueueNotifySplit, hw]⟩
    | true =>
      refine ⟨w.broken, ?_⟩
      change (virtqueueNotifySplit w true).1 = { w.notify with broken := w.broken }
      unfold virtqueueNotifySplit
      rw [if_neg (by rw [hw]; decide)]
      rfl

namespace KickPre

variable {s : KickSys}

/-- A kick restores the invariant: if a sleeping device has not seen the last
buffer, it is notified now. -/
theorem kick (hp : KickPre s) (b k : Bool) :
    KickInv { s with vq := { s.vq.kicked with broken := b }, kicked := k } := by
  have hwake : s.asleep = true → s.notifiesAtSleep < s.vq.kicked.notifies ∨
      s.added ≤ s.consumed := by
    intro hs
    obtain ⟨hpub, hor⟩ := hp.asleep hs
    unfold SplitVq.kicked
    by_cases hc : s.consumed < s.added
    · left
      rcases hor with hlt | hle
      · split
        · exact Nat.lt_succ_of_lt hlt
        · exact hlt
      · rw [if_pos (kickPrepare_of_le hp.event hp.shadow hp.numAdded_lt hp.numAdded_le
          (hp.published _ hpub) hle hc)]
        exact Nat.lt_succ_of_le hp.atSleep
    · right
      omega
  have hmono : s.vq.notifies ≤ s.vq.kicked.notifies := by
    unfold SplitVq.kicked
    split
    · exact Nat.le_succ _
    · exact le_rfl
  have heq : s.vq.kicked = { s.vq with numAdded := 0, notifies := s.vq.kicked.notifies } := by
    unfold SplitVq.kicked
    split <;> rfl
  rw [heq]
  exact {
    event := hp.event
    num_le := hp.num_le
    shadow := hp.shadow
    idx := hp.idx
    numAdded_lt := by change 0 < 2 ^ 16; omega
    numAdded_le := Nat.zero_le _
    consumed_le := hp.consumed_le
    outstanding := hp.outstanding
    published := hp.published
    kicked := fun _ => rfl
    atSleep := hp.atSleep.trans hmono
    asleep := fun hs => ⟨(hp.asleep hs).1, hwake hs⟩
    numAdded_ne := by change 0 ≠ 2 ^ 16 - 1; omega }

end KickPre

namespace KickInv

variable {s t : KickSys}

theorem congr (hi : KickInv s) {vq : SplitVq} (hevent : vq.event = s.vq.event)
    (hnum : vq.num = s.vq.num) (hshadow : vq.availIdxShadow = s.vq.availIdxShadow)
    (hidx : vq.avail.idx = s.vq.avail.idx) (hadded : vq.numAdded = s.vq.numAdded)
    (havail : vq.used.availEvent = s.vq.used.availEvent)
    (hnotifies : s.vq.notifies ≤ vq.notifies) : KickInv { s with vq := vq } where
  event := hevent.trans hi.event
  num_le := by rw [hnum]; exact hi.num_le
  shadow := hshadow.trans hi.shadow
  idx := hidx.trans hi.idx
  numAdded_lt := by rw [hadded]; exact hi.numAdded_lt
  numAdded_le := by rw [hadded]; exact hi.numAdded_le
  consumed_le := hi.consumed_le
  outstanding := by rw [hnum]; exact hi.outstanding
  published := by rw [havail]; exact hi.published
  kicked := by rw [hadded]; exact hi.kicked
  atSleep := hi.atSleep.trans hnotifies
  asleep := by
    intro hs
    obtain ⟨hpub, hor⟩ := hi.asleep hs
    refine ⟨hpub, ?_⟩
    rw [hadded]
    exact hor.imp_left fun h => h.trans_le hnotifies
  numAdded_ne := by rw [hadded]; exact hi.numAdded_ne

/-- A published buffer is one more that the device has not been told of. -/
theorem publish (hi : KickInv s) {w : SplitVq} {n : ℕ} (fh : ℕ) (data p : Ptr)
    (hroom : s.added < s.consumed + s.vq.num) (hf : Filled s.vq w n) :
    KickPre { s with vq := w.publish n fh data p, added := s.added + 1, kicked := false } := by
  have hnum : (w.publish n fh data p).num = s.vq.num := by rw [hf.eq]; rfl
  have hshadow : (w.publish n fh data p).availIdxShadow = (s.vq.availIdxShadow + 1) % 2 ^ 16 := by
    rw [hf.eq]; rfl
  have hadded : (w.publish n fh data p).numAdded = s.vq.numAdded + 1 := by
    have hlt := hi.numAdded_lt
    rw [hf.eq]
    exact Nat.mod_eq_of_lt (show s.vq.numAdded + 1 < 2 ^ 32 by omega)
  have hshadow' : (w.publish n fh data p).availIdxShadow = (s.added + 1) % 2 ^ 16 := by
    rw [hshadow, hi.shadow]
    omega
  have hne := hi.numAdded_ne
  have hlt := hi.numAdded_lt
  have hle := hi.numAdded_le
  exact {
    event := by rw [hf.eq]; exact hi.event
    num_le := by rw [hnum]; exact hi.num_le
    shadow := hshadow'
    idx := hshadow'
    numAdded_lt := by rw [hadded]; omega
    numAdded_le := by rw [hadded]; exact Nat.succ_le_succ hle
    consumed_le := hi.consumed_le.trans (Nat.le_succ _)
    outstanding := by rw [hnum]; exact hroom
    published := by rw [hf.eq]; exact hi.published
    kicked := by intro h; cases h
    atSleep := by rw [hf.eq]; exact hi.atSleep
    asleep := by
      intro hs
      obtain ⟨hpub, hor⟩ := hi.asleep hs
      refine ⟨hpub, ?_⟩
      rw [hadded, Nat.add_sub_add_right, hf.eq]
      exact hor }

/-- An add keeps the invariant; it kicks by itself before `num_added`
runs full. -/
theorem add (hi : KickInv s) {a : AddArgs} (hallow : s.Allows (.add a))
    (h : kickStep s (.add a) = some t) : KickInv t := by
  obtain ⟨ha, hroom⟩ := hallow
  simp only [kickStep, Option.map_eq_some_iff] at h
  obtain ⟨⟨vq', err⟩, hadd, rfl⟩ := h
  cases addOutcome hadd ha with
  | broken => exact hi.congr rfl rfl rfl rfl rfl rfl le_rfl
  | full => exact hi.congr rfl rfl rfl rfl rfl rfl le_rfl
  | fullNotify => exact hi.congr rfl rfl rfl rfl rfl rfl (Nat.le_succ _)
  | unmapped _ hfill =>
    change KickInv { s with vq := vq' }
    apply hi.congr <;> rw [hfill.eq]
  | @added w n p hbroken hn hle hfill hdelim =>
    have hpre := hi.publish (s.vq.next^[n] s.vq.freeHead) a.data p hroom hfill
    have hb : (w.publish n (s.vq.next^[n] s.vq.freeHead) a.data p).broken = false := by
      rw [hfill.eq]; exact hbroken
    change KickInv { s with vq := SplitVq.kickIfFull _ _, added := s.added + 1, kicked := false }
    unfold SplitVq.kickIfFull
    split
    · obtain ⟨b, hk⟩ := virtqueueKickSplit_of_not_broken hb a.notifyOk
      rw [hk]
      exact hpre.kick b false
    · next hne => exact ⟨hpre, hne⟩

theorem getBuf (hi : KickInv s) (h : kickStep s .getBuf = some t) : KickInv t := by
  simp only [kickStep, Option.map_eq_some_iff] at h
  obtain ⟨r, hget, rfl⟩ := h
  have hout := getBufOutcome hget
  generalize r.vq = w, r.ret = ret at hout ⊢
  cases hout with
  | idle => exact hi
  | bad => exact hi.congr rfl rfl rfl rfl rfl rfl le_rfl
  | got i avail _ _ _ hdetach hidx =>
    obtain ⟨last, numFree, p, -, rfl⟩ := detachBufSplit_eq hdetach
    exact hi.congr rfl rfl rfl hidx rfl rfl le_rfl

theorem step (hi : KickInv s) {act : KickAct} (hallow : s.Allows act)
    (h : kickStep s act = some t) : KickInv t := by
  cases act with
  | add a => exact hi.add hallow h
  | kickPrepare =>
    cases h
    exact hi.toKickPre.kick _ true
  | getBuf => exact hi.getBuf h
  | consume =>
    simp only [kickStep] at h
    split at h
    · cases h
    · next hno =>
        cases h
        simp only [not_or, Bool.not_eq_true, not_not] at hno
        have hmore : s.consumed < s.added := by
          have hle := hi.consumed_le
          have hne := hno.2
          unfold KickSys.moreAvail at hne
          rw [hi.idx] at hne
          by_contra hnot
          have : s.consumed = s.added := by omega
          exact hne (by rw [this])
        exact { hi with
          consumed_le := hmore
          outstanding := hi.outstanding.trans (by change s.consumed + s.vq.num ≤ s.consumed + 1 + s.vq.num; omega)
          asleep := fun hs => by
            rw [hno.1] at hs
            cases hs }
  | publish =>
    simp only [kickStep] at h
    split at h
    · cases h
    · next hno =>
        cases h
        exact { hi with
          published := fun c hc => by cases hc; rfl
          asleep := fun hs => absurd hs hno }
  | complete flags idx ring =>
    cases h
    exact hi.congr rfl rfl rfl rfl rfl rfl le_rfl
  | sleep =>
    simp only [kickStep] at h
    split at h
    · cases h
    · next hno =>
        cases h
        simp only [not_or, not_not] at hno
        obtain ⟨-, hpub, hnone⟩ := hno
        -- fewer than 2 ^ 16 buffers are outstanding, so nothing new is nothing at all
        have hall : s.added = s.consumed := by
          unfold KickSys.moreAvail at hnone
          rw [not_not, hi.idx] at hnone
          have h₁ := hi.consumed_le
          have h₂ := hi.outstanding
          have h₃ := hi.num_le
          omega
        exact { hi with
          atSleep := le_rfl
          asleep := fun _ => ⟨hpub, .inr (by change s.added - s.vq.numAdded ≤ s.consumed; omega)⟩ }
  | wake =>
    cases h
    exact { hi with asleep := fun hs => by cases hs }

end KickInv

theorem kickInv_init {num : ℕ} (hnum : num ≤ 32768) (indirect useDmaApi callback : Bool)
    (desc : ℕ → VringDesc) (flags : ℕ) (ring : ℕ → ℕ) (used : VringUsed)
    (tables : Ptr → ℕ → VringDesc) :
    KickInv (KickSys.init
      (vringNewVirtqueue num indirect true useDmaApi callback desc ⟨flags, 0, ring⟩ used tables)) where
  event := rfl
  num_le := hnum
  shadow := rfl
  idx := by
    cases callback <;> rfl
  numAdded_lt := by change 0 < 2 ^ 16; omega
  numAdded_le := le_rfl
  consumed_le := le_rfl
  outstanding := Nat.zero_le _
  published := by intro c hc; cases hc
  kicked := by intro h; cases h
  atSleep := le_rfl
  asleep := by intro h; cases h
  numAdded_ne := by change 0 ≠ 2 ^ 16 - 1; omega

/-- **No lost kick.** On a split queue with event indexes, in every state of
every run: if the device sleeps, the driver has asked for a kick after its
last add and a buffer is not consumed, then a notification has been issued
since the device went to sleep. -/
theorem no_lost_kick {num : ℕ} (hnum : num ≤ 32768) (indirect useDmaApi callback : Bool)
    (desc : ℕ → VringDesc) (flags : ℕ) (ring : ℕ → ℕ) (used : VringUsed)
    (tables : Ptr → ℕ → VringDesc) (acts : List KickAct) {s : KickSys}
    (hacts : Along kickStep KickSys.Allows (KickSys.init
      (vringNewVirtqueue num indirect true useDmaApi callback desc ⟨flags, 0, ring⟩ used tables))
      acts)
    (hrun : exec kickStep (KickSys.init
      (vringNewVirtqueue num indirect true useDmaApi callback desc ⟨flags, 0, ring⟩ used tables))
      acts = some s)
    (hasleep : s.asleep = true) (hkicked : s.kicked = true) (hmore : s.consumed < s.added) :
    s.notifiesAtSleep < s.vq.notifies := by
  have hi : KickInv s := exec_invariant_along (fun _ _ _ hi hallow h => hi.step hallow h)
    (kickInv_init hnum indirect useDmaApi callback desc flags ring used tables) hacts hrun
  obtain ⟨-, hlt | hle⟩ := hi.asleep hasleep
  · exact hlt
  · rw [hi.kicked hkicked] at hle
    omega

def sleepRun : List KickAct :=
  [.add (outElements 1 7), .kickPrepare, .consume, .publish, .sleep, .add (outElements 1 8),
    .kickPrepare]

/-- The device sleeps after one buffer and is notified of the second. -/
theorem no_lost_kick_second_buffer :
    ∃ s, exec kickStep (KickSys.init (freshQueue 4)) sleepRun = some s ∧
      s.notifiesAtSleep < s.vq.notifies := by
  have hrun : (exec kickStep (KickSys.init (freshQueue 4)) sleepRun).isSome := by decide
  obtain ⟨s, hs⟩ := Option.isSome_iff_exists.mp hrun
  have hstate : (exec kickStep (KickSys.init (freshQueue 4)) sleepRun).map
      (fun s => (s.asleep, s.kicked, s.consumed, s.added)) = some (true, true, 1, 2) := by decide
  rw [hs] at hstate
  simp only [Option.map_some, Option.some.injEq, Prod.mk.injEq] at hstate
  obtain ⟨hasleep, hkicked, hconsumed, hadded⟩ := hstate
  exact ⟨s, hs, no_lost_kick (by decide) _ _ _ _ _ _ _ _ sleepRun (by decide) hs hasleep hkicked
    (by omega)⟩

end GfpDrivers.Virtio
