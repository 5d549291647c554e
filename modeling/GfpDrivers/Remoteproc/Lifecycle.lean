import GfpDrivers.Remoteproc.Boot

/-!
The users of a remote processor and its state. `rproc_boot` and `rproc_shutdown`
count the users in `power`; crashes are handled without it.

Recovery first stops the processor and then starts it again. If the second half
fails, the processor is off while its users are still counted, and further calls
of `rproc_boot` succeed without doing anything. Also, a crash that is reported while
the processor is detached makes it a crashed processor that nobody uses. In all
other runs, a processor with users is up.
-/

namespace GfpDrivers.Remoteproc

open GfpDrivers.Lib

variable {s t : RprocHandle} {env : Outcomes} {ret : ℤ}

/-! ### What does not change the state -/

def RprocHandle.control (s : RprocHandle) : RprocState × ℤ := (s.state, s.power)

theorem control_of_core (h : t.core = s.core) : t.control = s.control := of_core _ (fun _ => rfl) h

theorem control_of_frame (h : t.frame = s.frame) : t.control = s.control := by
  simp only [RprocHandle.frame, Prod.mk.injEq] at h
  exact Prod.ext h.1 h.2.1

/-! ### What does -/

/-- The call brings the processor into the state `up`, or fails and leaves it where
it was. -/
def Leads (up : RprocState) (s : RprocHandle) (q : RprocHandle × ℤ) : Prop :=
  q.1.power = s.power ∧ ((q.2 = 0 ∧ q.1.state = up) ∨ (q.2 ≠ 0 ∧ q.1.state = s.state))

variable {up : RprocState}

theorem Leads.failed (hret : ret ≠ 0) (h : t.control = s.control) : Leads up s (t, ret) :=
  ⟨congrArg Prod.snd h, .inr ⟨hret, congrArg Prod.fst h⟩⟩

theorem Leads.done (h : t.control = (up, s.power)) : Leads up s (t, 0) :=
  ⟨congrArg Prod.snd h, .inl ⟨rfl, congrArg Prod.fst h⟩⟩

theorem Leads.of_control {q : RprocHandle × ℤ} (h : Leads up t q) (heq : t.control = s.control) : Leads up s q := by
  have hstate : t.state = s.state := congrArg Prod.fst heq
  have hpower : t.power = s.power := congrArg Prod.snd heq
  unfold Leads at h ⊢
  rwa [hstate, hpower] at h

theorem leads_rprocStart (h : rprocStart env s = some (t, ret)) : Leads .running s (t, ret) := by
  unfold rprocStart at h
  split at h
  case isTrue hload =>
    cases h
    exact Leads.failed hload rfl
  case isFalse =>
    dsimp only at h
    generalize hs : (if env.findLoadedTable then s.setTable true else s) = s₁ at h
    have hs₁ : s₁.control = s.control := by
      rw [← hs]
      split <;> rfl
    have hprep := control_of_core (core_rprocPrepareSubdevices env s₁)
    generalize rprocPrepareSubdevices env s₁ = q at h hprep
    obtain ⟨s₂, ret₂⟩ := q
    dsimp only at h hprep
    split at h
    case isTrue hret =>
      cases h
      exact Leads.failed hret (hprep.trans hs₁)
    case isFalse =>
      split at h
      case isTrue hstart =>
        cases h
        exact Leads.failed hstart ((control_of_core (core_rprocUnprepareSubdevices s₂)).trans (hprep.trans hs₁))
      case isFalse =>
        have hsub := control_of_core (core_rprocStartSubdevices env s₂)
        generalize rprocStartSubdevices env s₂ = q at h hsub
        obtain ⟨s₃, ret₃⟩ := q
        dsimp only at h hsub
        have hs₃ : s₃.control = s.control := hsub.trans (hprep.trans hs₁)
        split at h
        case isTrue hret =>
          split at h
          · exact absurd h (by simp)
          · cases h
            exact Leads.failed hret ((control_of_core (core_rprocUnprepareSubdevices s₃)).trans hs₃)
        case isFalse =>
          cases h
          exact Leads.done (congrArg (Prod.mk _) (congrArg Prod.snd hs₃))

theorem leads_rprocAttachInner (h : rprocAttachInner env s = some (t, ret)) : Leads .attached s (t, ret) := by
  unfold rprocAttachInner at h
  have hprep := control_of_core (core_rprocPrepareSubdevices env s)
  generalize rprocPrepareSubdevices env s = q at h hprep
  obtain ⟨s₂, ret₂⟩ := q
  dsimp only at h hprep
  split at h
  case isTrue hret =>
    cases h
    exact Leads.failed hret hprep
  case isFalse =>
    split at h
    case isTrue hattach =>
      cases h
      exact Leads.failed hattach ((control_of_core (core_rprocUnprepareSubdevices s₂)).trans hprep)
    case isFalse =>
      have hsub := control_of_core (core_rprocStartSubdevices env s₂)
      generalize rprocStartSubdevices env s₂ = q at h hsub
      obtain ⟨s₃, ret₃⟩ := q
      dsimp only at h hsub
      have hs₃ : s₃.control = s.control := hsub.trans hprep
      split at h
      case isTrue hret =>
        split at h
        · exact absurd h (by simp)
        · cases h
          exact Leads.failed hret ((control_of_core (core_rprocUnprepareSubdevices s₃)).trans hs₃)
      case isFalse =>
        cases h
        exact Leads.done (congrArg (Prod.mk _) (congrArg Prod.snd hs₃))

theorem control_rprocEnableIommu (env : Outcomes) (s : RprocHandle) : (rprocEnableIommu env s).1.control = s.control := by
  unfold rprocEnableIommu
  split <;> rfl

theorem control_rprocPrepareDevice (env : Outcomes) (s : RprocHandle) :
    (rprocPrepareDevice env s).1.control = s.control := by
  unfold rprocPrepareDevice
  dsimp only
  split <;> rfl

theorem control_rprocSetRscTable (env : Outcomes) (s : RprocHandle) : (rprocSetRscTable env s).1.control = s.control := by
  unfold rprocSetRscTable
  split
  · rfl
  · rfl
  · split
    · split <;> rfl
    · rfl

theorem leads_bootResources (h : bootResources env s = some (t, ret)) : Leads .running s (t, ret) := by
  unfold bootResources at h
  cases hrsc : rprocHandleResources env s with
  | none =>
    rw [hrsc] at h
    exact absurd h (by simp)
  | some q =>
    obtain ⟨s₁, ret₁⟩ := q
    have hs₁ := control_of_frame (frame_rprocHandleResources hrsc)
    rw [hrsc] at h
    dsimp only [rprocAllocRegisteredCarveouts] at h
    split at h
    case isTrue hret =>
      cases h
      exact Leads.failed hret hs₁
    case isFalse =>
      split at h
      case isTrue =>
        cases h
        exact Leads.failed (by decide) hs₁
      case isFalse => exact (leads_rprocStart h).of_control hs₁

theorem leads_attachResources (h : attachResources env s = some (t, ret)) : Leads .attached s (t, ret) := by
  rw [attachResources_eq] at h
  split at h
  case isTrue =>
    cases h
    exact Leads.failed (by decide) rfl
  case isFalse => exact (leads_rprocAttachInner h).of_control rfl

theorem Leads.cleanUpResources {part : Option (RprocHandle × ℤ)} {after : RprocHandle → RprocHandle}
    (h : cleanUpResources after part = some (t, ret)) (hafter : ∀ s, (after s).control = s.control)
    (hpart : ∀ u r, part = some (u, r) → Leads up s (u, r)) : Leads up s (t, ret) := by
  cases hp : part with
  | none =>
    rw [hp] at h
    exact absurd h (by simp [Remoteproc.cleanUpResources])
  | some q =>
    obtain ⟨u, r⟩ := q
    have hu := hpart u r hp
    rw [hp, Remoteproc.cleanUpResources] at h
    split at h
    case isTrue hr =>
      rw [Option.map_eq_some_iff] at h
      obtain ⟨v, hv, heq⟩ := h
      cases heq
      refine Leads.failed hr ((hafter v).trans ((control_of_frame (frame_rprocResourceCleanup hv)).trans ?_))
      exact Prod.ext (hu.2.resolve_left fun h0 => hr h0.1).2 hu.1
    case isFalse hr =>
      cases h
      rwa [not_not.mp hr] at hu

theorem leads_rprocFwBoot (h : rprocFwBoot env s = some (t, ret)) : Leads .running s (t, ret) := by
  unfold rprocFwBoot at h
  split at h
  case isTrue hcheck =>
    cases h
    exact Leads.failed hcheck rfl
  case isFalse =>
    have hiommu := control_rprocEnableIommu env s
    generalize rprocEnableIommu env s = q at h hiommu
    obtain ⟨s₁, ret₁⟩ := q
    dsimp only at h hiommu
    split at h
    case isTrue hret =>
      cases h
      exact Leads.failed hret hiommu
    case isFalse =>
      have hprep := control_rprocPrepareDevice env s₁
      generalize rprocPrepareDevice env s₁ = q at h hprep
      obtain ⟨s₂, ret₂⟩ := q
      dsimp only at h hprep
      split at h
      case isTrue hret =>
        cases h
        exact Leads.failed hret (hprep.trans hiommu)
      case isFalse =>
        have hparse : (rprocParseFw env s₂).1.control = s₂.control := rfl
        generalize rprocParseFw env s₂ = q at h hparse
        obtain ⟨s₃, ret₃⟩ := q
        dsimp only at h hparse
        have hs₃ : s₃.control = s.control := hparse.trans (hprep.trans hiommu)
        split at h
        case isTrue hret =>
          cases h
          exact Leads.failed hret hs₃
        case isFalse =>
          have hlead := Leads.cleanUpResources h (fun _ => rfl) fun u r => leads_bootResources
          exact hlead.of_control hs₃

theorem leads_attachTable (h : attachTable env s = some (t, ret)) : Leads .attached s (t, ret) := by
  unfold attachTable at h
  cases hrsc : rprocHandleResources env s with
  | none =>
    rw [hrsc] at h
    exact absurd h (by simp)
  | some q =>
    obtain ⟨s₁, ret₁⟩ := q
    have hs₁ := control_of_frame (frame_rprocHandleResources hrsc)
    rw [hrsc] at h
    dsimp only at h
    split at h
    case isTrue hret =>
      cases h
      exact Leads.failed hret hs₁
    case isFalse =>
      have hlead := Leads.cleanUpResources h (fun _ => rfl) fun u r => leads_attachResources
      exact hlead.of_control hs₁

theorem leads_rprocAttach (h : rprocAttach env s = some (t, ret)) : Leads .attached s (t, ret) := by
  unfold rprocAttach at h
  have hiommu := control_rprocEnableIommu env s
  generalize rprocEnableIommu env s = q at h hiommu
  obtain ⟨s₁, ret₁⟩ := q
  dsimp only at h hiommu
  split at h
  case isTrue hret =>
    cases h
    exact Leads.failed hret hiommu
  case isFalse =>
    have hprep := control_rprocPrepareDevice env s₁
    generalize rprocPrepareDevice env s₁ = q at h hprep
    obtain ⟨s₂, ret₂⟩ := q
    dsimp only at h hprep
    split at h
    case isTrue hret =>
      cases h
      exact Leads.failed hret (hprep.trans hiommu)
    case isFalse =>
      have htable := control_rprocSetRscTable env s₂
      generalize rprocSetRscTable env s₂ = q at h htable
      obtain ⟨s₃, ret₃⟩ := q
      dsimp only at h htable
      have hs₃ : s₃.control = s.control := htable.trans (hprep.trans hiommu)
      split at h
      case isTrue hret =>
        cases h
        exact Leads.failed hret hs₃
      case isFalse => exact (leads_attachTable h).of_control hs₃

theorem control_rprocResetRscTableOnStop (env : Outcomes) (s : RprocHandle) :
    (rprocResetRscTableOnStop env s).1.control = s.control := by
  unfold rprocResetRscTableOnStop
  split
  · rfl
  · split
    · rfl
    · split <;> rfl

theorem control_rprocResetRscTableOnDetach (env : Outcomes) (s : RprocHandle) :
    (rprocResetRscTableOnDetach env s).1.control = s.control := by
  unfold rprocResetRscTableOnDetach
  split
  · rfl
  · split
    · rfl
    · split <;> rfl

theorem leads_rprocStop (env : Outcomes) (s : RprocHandle) : Leads .offline s (rprocStop env s) := by
  unfold rprocStop
  split
  · exact Leads.failed (by decide) rfl
  · have htable := control_rprocResetRscTableOnStop env (rprocStopSubdevices s)
    rw [control_of_core (core_rprocStopSubdevices s)] at htable
    generalize rprocResetRscTableOnStop env (rprocStopSubdevices s) = q at htable ⊢
    obtain ⟨s₁, ret₁⟩ := q
    dsimp only at htable ⊢
    split
    case isTrue hret => exact Leads.failed hret htable
    case isFalse =>
      split
      case isTrue hret => exact Leads.failed hret htable
      case isFalse =>
        have hun := (control_of_core (core_rprocUnprepareSubdevices s₁)).trans htable
        exact Leads.done (congrArg (Prod.mk _) (congrArg Prod.snd hun))

theorem leads_rprocDetachInner (env : Outcomes) (s : RprocHandle) : Leads .detached s (rprocDetachInner env s) := by
  unfold rprocDetachInner
  split
  · exact Leads.failed (by decide) rfl
  · have htable := control_rprocResetRscTableOnDetach env (rprocStopSubdevices s)
    rw [control_of_core (core_rprocStopSubdevices s)] at htable
    generalize rprocResetRscTableOnDetach env (rprocStopSubdevices s) = q at htable ⊢
    obtain ⟨s₁, ret₁⟩ := q
    dsimp only at htable ⊢
    split
    case isTrue hret => exact Leads.failed hret htable
    case isFalse =>
      split
      case isTrue hret => exact Leads.failed hret htable
      case isFalse =>
        have hun := (control_of_core (core_rprocUnprepareSubdevices s₁)).trans htable
        exact Leads.done (congrArg (Prod.mk _) (congrArg Prod.snd hun))

/-- The processor can be stopped. -/
structure StopSucceeds (env : Outcomes) (s : RprocHandle) : Prop where
  hasStop : s.hasStop = true
  table : s.tablePtr = true → s.cachedTable = true ∨ env.copyTable = true
  stop : env.stop = 0

/-- The processor and its subdevices can be started. -/
structure StartSucceeds (env : Outcomes) (s : RprocHandle) : Prop where
  loadSegments : env.loadSegments = 0
  prepareSubdev (subdev : Subdev) : subdev ∈ s.subdevs → subdev.ops.prepare = true → env.prepareSubdev subdev = 0
  start : env.start = 0
  startSubdev (subdev : Subdev) : subdev ∈ s.subdevs → subdev.ops.start = true → env.startSubdev subdev = 0

theorem stopSucceeds_of_ret (h : (rprocStop env s).2 = 0) : StopSucceeds env s := by
  unfold rprocStop at h
  split at h
  case isTrue => exact absurd h (by decide : -EINVAL ≠ 0)
  case isFalse hstop =>
    have htable : (rprocResetRscTableOnStop env (rprocStopSubdevices s)).2 = 0 →
        s.tablePtr = true → s.cachedTable = true ∨ env.copyTable = true := by
      have hptr := of_core (fun s => s.tablePtr) (fun _ => rfl) (core_rprocStopSubdevices s)
      have hcached := of_core RprocHandle.cachedTable (fun _ => rfl) (core_rprocStopSubdevices s)
      intro hret htable
      unfold rprocResetRscTableOnStop at hret
      rw [hptr, hcached, htable, if_neg (by decide)] at hret
      split at hret
      case isTrue hc => exact .inl hc
      case isFalse =>
        split at hret
        case isTrue => exact absurd hret (by decide : -ENOMEM ≠ 0)
        case isFalse hcopy => exact .inr (by simpa using hcopy)
    generalize rprocResetRscTableOnStop env (rprocStopSubdevices s) = q at h htable
    obtain ⟨s₁, ret₁⟩ := q
    dsimp only at h htable
    split at h
    case isTrue hret => exact absurd h hret
    case isFalse hret =>
      split at h
      case isTrue hret => exact absurd h hret
      case isFalse hret' => exact ⟨by simpa using hstop, htable (not_not.mp hret), not_not.mp hret'⟩

theorem subdevs_rprocStop (env : Outcomes) (s : RprocHandle) : (rprocStop env s).1.subdevs = s.subdevs := by
  have hstop := of_core RprocHandle.subdevs (fun _ => rfl) (core_rprocStopSubdevices s)
  unfold rprocStop
  split
  · rfl
  · have htable : (rprocResetRscTableOnStop env (rprocStopSubdevices s)).1.subdevs = s.subdevs := by
      unfold rprocResetRscTableOnStop
      split
      · exact hstop
      · split
        · exact hstop
        · split <;> exact hstop
    generalize rprocResetRscTableOnStop env (rprocStopSubdevices s) = q at htable ⊢
    obtain ⟨s₁, ret₁⟩ := q
    dsimp only at htable ⊢
    split
    · exact htable
    · split
      · exact htable
      · exact (of_core RprocHandle.subdevs (fun _ => rfl) (core_rprocUnprepareSubdevices s₁)).trans htable

theorem rprocStart_of_succeeds (h : StartSucceeds env s) : ∃ t, rprocStart env s = some (t, 0) := by
  unfold rprocStart
  rw [if_neg (not_not_intro h.loadSegments)]
  dsimp only
  generalize hs : (if env.findLoadedTable then s.setTable true else s) = s₁
  have hs₁ : s₁.subdevs = s.subdevs := by
    rw [← hs]
    split <;> rfl
  have hret₂ := rprocPrepareSubdevices_ret env s₁ fun subdev hmem => h.prepareSubdev subdev (hs₁ ▸ hmem)
  have hs₂ := of_core RprocHandle.subdevs (fun _ => rfl) (core_rprocPrepareSubdevices env s₁)
  generalize rprocPrepareSubdevices env s₁ = q at hret₂ hs₂ ⊢
  obtain ⟨s₂, ret₂⟩ := q
  dsimp only at hret₂ hs₂ ⊢
  rw [if_neg (not_not_intro hret₂), if_neg (not_not_intro h.start)]
  have hret₃ := rprocStartSubdevices_ret env s₂ fun subdev hmem =>
    h.startSubdev subdev ((hs₂.trans hs₁) ▸ hmem)
  generalize rprocStartSubdevices env s₂ = q at hret₃ ⊢
  obtain ⟨s₃, ret₃⟩ := q
  dsimp only at hret₃ ⊢
  rw [if_neg (not_not_intro hret₃)]
  exact ⟨_, rfl⟩

/-! ### Runs -/

/-- A remote processor, and how many calls of `rproc_boot` succeeded that were not
yet taken back. -/
structure Used where
  handle : RprocHandle
  users : ℕ

/-- The calls of the users, and the two parts of the handling of a crash. -/
inductive RprocCall where
  | boot (env : Outcomes)
  | shutdown (env : Outcomes)
  | detach (env : Outcomes)
  | crash
  | recover (env : Outcomes)

def rprocStep (u : Used) : RprocCall → Option Used
  | .boot env => (rprocBoot env u.handle).map fun q => ⟨q.1, if q.2 = 0 then u.users + 1 else u.users⟩
  | .shutdown env => (rprocShutdown env u.handle).map fun q => ⟨q.1, if q.2 = 0 then u.users - 1 else u.users⟩
  | .detach env => (rprocDetach env u.handle).map fun q => ⟨q.1, if q.2 = 0 then u.users - 1 else u.users⟩
  | .crash => some ⟨(rprocCrashHandlerWork u.handle).1, u.users⟩
  | .recover env => (rprocTriggerRecovery env u.handle).map fun q => ⟨q.1, u.users⟩

/-- Every user is counted, and the processor is up if there are any. -/
structure Lives (u : Used) : Prop where
  power : u.handle.power = u.users
  up : 0 < u.handle.power → u.handle.state.Up
  down : u.handle.power = 0 → u.handle.state.Down

variable {u w : Used}

theorem leads_powerUp (h : powerUp env s = some (t, ret)) : ∃ up : RprocState, up.Up ∧ Leads up s (t, ret) := by
  unfold powerUp at h
  split at h
  case isTrue => exact ⟨.attached, .inr (.inl rfl), leads_rprocAttach h⟩
  case isFalse =>
    refine ⟨.running, .inl rfl, ?_⟩
    split at h
    case isTrue hfw =>
      cases h
      exact Leads.failed (by omega) rfl
    case isFalse => exact leads_rprocFwBoot h

theorem Lives.boot (h : Lives u) (hboot : rprocBoot env u.handle = some (t, ret)) :
    Lives ⟨t, if ret = 0 then u.users + 1 else u.users⟩ := by
  have hfail : ∀ ret : ℤ, ret ≠ 0 → Lives ⟨u.handle, if ret = 0 then u.users + 1 else u.users⟩ := by
    intro ret hret
    rw [if_neg hret]
    exact h
  have hpower := h.power
  unfold rprocBoot at hboot
  split at hboot
  case isTrue hlock =>
    cases hboot
    exact hfail _ hlock
  case isFalse =>
    split at hboot
    case isTrue =>
      cases hboot
      exact hfail _ (by decide)
    case isFalse =>
      dsimp only at hboot
      split at hboot
      case isTrue hused =>
        cases hboot
        refine ⟨?_, fun _ => h.up (by omega), fun hzero => absurd hzero ?_⟩
        · dsimp only
          rw [hpower, if_pos rfl, Nat.cast_succ]
        · dsimp only
          omega
      case isFalse hunused =>
        have hzero : u.handle.power = 0 := by omega
        cases hup : powerUp env { u.handle with power := u.handle.power + 1 } with
        | none =>
          rw [hup] at hboot
          exact absurd hboot (by simp)
        | some q =>
          obtain ⟨t₁, ret₁⟩ := q
          obtain ⟨up, hstate, hpow, hlead⟩ := leads_powerUp hup
          rw [hup] at hboot
          dsimp only at hboot hpow hlead
          cases hboot
          rcases hlead with ⟨hret, hst⟩ | ⟨hret, hst⟩
          · rw [if_neg (not_not_intro hret), if_pos hret]
            refine ⟨?_, fun _ => hst ▸ hstate, fun hz => absurd hz ?_⟩
            · dsimp only
              rw [hpow, hpower, Nat.cast_succ]
            · dsimp only
              omega
          · rw [if_pos hret, if_neg hret]
            refine ⟨?_, fun hpos => absurd hpos ?_, fun _ => ?_⟩
            · dsimp only
              omega
            · dsimp only
              omega
            · dsimp only
              rw [hst]
              exact h.down hzero

theorem Lives.powerDown {leave : RprocHandle → RprocHandle × ℤ} {down : RprocState} (h : Lives u) (husers : 0 < u.users)
    (hdown : down.Down) (hleave : ∀ s, Leads down s (leave s)) (hcall : powerDown leave env u.handle = some (t, ret)) :
    Lives ⟨t, if ret = 0 then u.users - 1 else u.users⟩ := by
  have hpower := h.power
  have hpos : 0 < u.handle.power := by omega
  unfold Remoteproc.powerDown at hcall
  split at hcall
  case isTrue hlock =>
    cases hcall
    rw [if_neg hlock]
    exact h
  case isFalse =>
    dsimp only at hcall
    split at hcall
    case isTrue hmore =>
      cases hcall
      rw [if_pos rfl]
      refine ⟨?_, fun _ => h.up hpos, fun hz => absurd hz hmore⟩
      dsimp only
      omega
    case isFalse hlast =>
      have hlead := hleave { u.handle with power := u.handle.power - 1 }
      generalize leave { u.handle with power := u.handle.power - 1 } = q at hcall hlead
      obtain ⟨s₁, ret₁⟩ := q
      obtain ⟨hpow, hlead⟩ := hlead
      dsimp only at hcall hpow hlead
      split at hcall
      case isTrue hret =>
        cases hcall
        rw [if_neg hret]
        have hst := (hlead.resolve_left fun hok => hret hok.1).2
        refine ⟨?_, fun _ => hst ▸ h.up hpos, fun hz => absurd hz ?_⟩
        · dsimp only
          omega
        · dsimp only
          omega
      case isFalse hret =>
        rw [Option.map_eq_some_iff] at hcall
        obtain ⟨s₂, hclean, heq⟩ := hcall
        cases heq
        have hcontrol := control_of_frame (frame_rprocResourceCleanup hclean)
        have hst : s₂.state = down :=
          (congrArg Prod.fst hcontrol).trans (hlead.resolve_right fun hok => hret hok.1).2
        have hpow₂ : s₂.power = s₁.power := congrArg Prod.snd hcontrol
        rw [if_pos rfl]
        have hend : (rprocDisableIommu (rprocUnprepareDevice s₂)).freeTable.control = s₂.control := rfl
        generalize (rprocDisableIommu (rprocUnprepareDevice s₂)).freeTable = s₃ at hend ⊢
        have hst₃ : s₃.state = s₂.state := congrArg Prod.fst hend
        have hpow₃ : s₃.power = s₂.power := congrArg Prod.snd hend
        refine ⟨?_, fun hpos => absurd hpos ?_, fun _ => ?_⟩
        · dsimp only
          omega
        · dsimp only
          omega
        · dsimp only
          rw [hst₃, hst]
          exact hdown

/-- A crash is not handled while the processor is detached, and a recovery that stops
the processor starts it again. Users that leave have come before. -/
def StaysUp (u : Used) : RprocCall → Prop
  | .boot _ => True
  | .shutdown _ => 0 < u.users
  | .detach _ => 0 < u.users
  | .crash => u.handle.state ≠ .detached
  | .recover env =>
      env.lock = 0 → u.handle.state = .crashed → StopSucceeds env u.handle →
        0 ≤ env.requestFirmware ∧ StartSucceeds env u.handle

theorem Lives.crash (h : Lives u) (hstate : u.handle.state ≠ .detached) :
    Lives ⟨(rprocCrashHandlerWork u.handle).1, u.users⟩ := by
  unfold rprocCrashHandlerWork
  split
  case isTrue => exact h
  case isFalse hup =>
    rw [not_or] at hup
    refine ⟨h.power, fun _ => .inr (.inr rfl), fun hzero => ?_⟩
    rcases h.down hzero with hoff | hdet
    · exact absurd hoff hup.2
    · exact absurd hdet hstate

theorem Lives.recover (h : Lives u) (hG : StaysUp u (.recover env))
    (hcall : rprocTriggerRecovery env u.handle = some (t, ret)) : Lives ⟨t, u.users⟩ := by
  unfold rprocTriggerRecovery at hcall
  split at hcall
  case isTrue =>
    cases hcall
    exact h
  case isFalse hlock =>
    split at hcall
    case isTrue =>
      cases hcall
      exact h
    case isFalse hcrash =>
      have hstate := not_not.mp hcrash
      have hpos : u.handle.power ≠ 0 := by
        intro hzero
        have hdown := h.down hzero
        rw [hstate] at hdown
        rcases hdown with hdown | hdown <;> exact absurd hdown (by decide)
      have hlead := leads_rprocStop env u.handle
      have hstop : (rprocStop env u.handle).2 = 0 → StopSucceeds env u.handle := stopSucceeds_of_ret
      have hsubdevs := subdevs_rprocStop env u.handle
      generalize rprocStop env u.handle = q at hcall hlead hstop hsubdevs
      obtain ⟨s₁, ret₁⟩ := q
      obtain ⟨hpow, hlead⟩ := hlead
      dsimp only at hcall hpow hlead hstop hsubdevs
      split at hcall
      case isTrue hret =>
        cases hcall
        have hst := (hlead.resolve_left fun hok => hret hok.1).2
        refine ⟨hpow.trans h.power, fun _ => ?_, fun hz => absurd (hpow.symm.trans hz) hpos⟩
        dsimp only
        rw [hst, hstate]
        exact .inr (.inr rfl)
      case isFalse hret =>
        -- the processor is stopped, and has to come up again
        obtain ⟨hfw, hload, hprep, hstart, hsub⟩ := hG (not_not.mp hlock) hstate (hstop (not_not.mp hret))
        rw [if_neg (by omega)] at hcall
        rw [← hsubdevs] at hprep hsub
        obtain ⟨v, hv⟩ := rprocStart_of_succeeds ⟨hload, hprep, hstart, hsub⟩
        have hrun := leads_rprocStart hv
        rw [hcall, Option.some.injEq] at hv
        cases hv
        have hst := (hrun.2.resolve_right fun hbad => hbad.1 rfl).2
        have hpow₂ : t.power = u.handle.power := hrun.1.trans hpow
        exact ⟨hpow₂.trans h.power, fun _ => .inl hst, fun hz => absurd (hpow₂.symm.trans hz) hpos⟩

theorem Lives.rprocStep {call : RprocCall} (h : Lives u) (hG : StaysUp u call) (hstep : rprocStep u call = some w) :
    Lives w := by
  cases call with
  | boot env =>
    obtain ⟨q, hq, rfl⟩ := Option.map_eq_some_iff.mp hstep
    exact h.boot hq
  | shutdown env =>
    obtain ⟨q, hq, rfl⟩ := Option.map_eq_some_iff.mp hstep
    exact h.powerDown hG (.inl rfl) (leads_rprocStop env) hq
  | detach env =>
    obtain ⟨q, hq, rfl⟩ := Option.map_eq_some_iff.mp hstep
    exact h.powerDown hG (.inr rfl) (leads_rprocDetachInner env) hq
  | crash =>
    cases hstep
    exact h.crash hG
  | recover env =>
    obtain ⟨q, hq, rfl⟩ := Option.map_eq_some_iff.mp hstep
    exact h.recover hG hq

/-- Nobody uses the processor, which is not up. -/
structure Unused (u : Used) : Prop where
  users : u.users = 0
  power : u.handle.power = 0
  down : u.handle.state.Down

/-- **A processor with users is up.** In every run where recoveries that stop the
processor start it again and no crash is handled while it is detached, `power` is the
number of users, the processor is up if there are users and down if there are none,
and so it is up when `rproc_boot` succeeds. -/
theorem used_processor_up (hu : Unused u) {calls : List RprocCall} (hG : Along rprocStep StaysUp u calls)
    (hrun : exec rprocStep u calls = some w) :
    w.handle.power = w.users ∧ (0 < w.handle.power → w.handle.state.Up) ∧
      (w.handle.power = 0 → w.handle.state.Down) ∧ ∀ env t, rprocBoot env w.handle = some (t, 0) → t.state.Up := by
  have hinit : Lives u := by
    refine ⟨by rw [hu.power, hu.users]; rfl, fun hpos => ?_, fun _ => hu.down⟩
    rw [hu.power] at hpos
    exact absurd hpos (Int.lt_irrefl 0)
  have h : Lives w := exec_invariant_along (fun _ _ _ h hG hstep => h.rprocStep hG hstep) hinit hG hrun
  refine ⟨h.power, h.up, h.down, fun env t hboot => ?_⟩
  have ht := h.boot hboot
  refine ht.up ?_
  rw [ht.power, if_pos rfl]
  exact Int.natCast_pos.mpr (Nat.succ_pos _)

/-- Two users come, the processor crashes and recovers, and one of them leaves. -/
def recoveringRun : List RprocCall :=
  [.boot (bootSucceeds [vdevResource 2]), .boot (bootSucceeds []), .crash, .recover (bootSucceeds []),
    .shutdown (bootSucceeds [])]

theorem recovered_processor_up :
    ∃ w, exec rprocStep ⟨unusedProcessor .offline, 0⟩ recoveringRun = some w ∧
      w.handle.power = w.users ∧ (0 < w.handle.power → w.handle.state.Up) ∧
      (w.handle.power = 0 → w.handle.state.Down) ∧ ∀ env t, rprocBoot env w.handle = some (t, 0) → t.state.Up := by
  have hreach : (exec rprocStep ⟨unusedProcessor .offline, 0⟩ recoveringRun).isSome = true := rfl
  obtain ⟨w, hw⟩ := Option.isSome_iff_exists.mp hreach
  refine ⟨w, hw, used_processor_up ⟨rfl, rfl, .inl rfl⟩ ?_ hw⟩
  refine Along.cons trivial rfl (Along.cons trivial rfl (Along.cons ?_ rfl (Along.cons ?_ rfl (Along.cons ?_ rfl trivial))))
  · exact (by decide : RprocState.running ≠ .detached)
  · exact fun _ _ _ => ⟨by decide, rfl, fun _ _ _ => rfl, rfl, fun _ _ _ => rfl⟩
  · exact (by decide : 0 < 2)

/-- The firmware is not found when the processor recovers: it is off, and a boot
succeeds. A crash of a detached processor leaves it crashed, without users. -/
theorem boot_succeeds_while_offline :
    (∃ w, exec rprocStep ⟨unusedProcessor .offline, 0⟩ [.boot (bootSucceeds []), .crash,
        .recover { bootSucceeds [] with requestFirmware := -ENOENT }] = some w ∧
      w.users = 1 ∧ w.handle.power = 1 ∧ ¬ w.handle.state.Up ∧
      ∃ t, rprocBoot (bootSucceeds []) w.handle = some (t, 0) ∧ t.state = .offline) ∧
    ∃ w, exec rprocStep ⟨unusedProcessor .detached, 0⟩ [.crash] = some w ∧ w.handle.power = 0 ∧ ¬ w.handle.state.Down := by
  refine ⟨⟨_, rfl, rfl, rfl, ?_, _, rfl, rfl⟩, _, rfl, rfl, ?_⟩
  · rintro (h | h | h) <;> exact absurd h (by decide)
  · rintro (h | h) <;> exact absurd h (by decide)

end GfpDrivers.Remoteproc
