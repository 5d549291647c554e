import GfpDrivers.Lib.TryAll
import GfpDrivers.Remoteproc.Vring

/-!
Booting and stopping a remote processor (`remoteproc_core.c`). `rproc_boot` loads a
firmware or attaches to a processor that already runs; on the way it turns on the
IOMMU, prepares the device, handles the entries of the resource table and starts
the subdevices, and goes back along these steps if one of them fails.

What the platform, the firmware and the allocator answer is part of the call. The
tables are here only as far as they exist; of the carveouts, mappings and traces
the numbers are enough. A call that follows a `NULL` pointer has no result.
-/

namespace GfpDrivers.Remoteproc

open GfpDrivers.Lib

/-- `enum rproc_state` -/
inductive RprocState where
  | offline | suspended | running | crashed | deleted | attached | detached
  deriving DecidableEq

def RprocState.Up (state : RprocState) : Prop := state = .running ∨ state = .attached ∨ state = .crashed

def RprocState.Down (state : RprocState) : Prop := state = .offline ∨ state = .detached

/-- Which of its operations a `struct rproc_subdev` has. -/
structure SubdevOps where
  prepare : Bool
  unprepare : Bool
  start : Bool
  stop : Bool
  deriving DecidableEq

/-- A subdevice belongs to a vdev, or was added by a driver. -/
inductive Subdev where
  | vdev (a : ℕ)
  | driver (k : ℕ) (ops : SubdevOps)
  deriving DecidableEq

def Subdev.ops : Subdev → SubdevOps
  | .vdev _ => ⟨false, false, true, true⟩
  | .driver _ ops => ops

/-- What has to be given back. -/
inductive Acquired where
  | iommu
  | device
  | prepared (subdev : Subdev)
  | started (subdev : Subdev)
  deriving DecidableEq

/-- `struct rproc`. A vdev has one reference of its own, and one for each virtio
device that was registered for it. `held` counts for everything that is acquired how
often this was done, less how often it was undone. -/
structure RprocHandle extends Rproc where
  state : RprocState
  power : ℤ
  recoveryDisabled : Bool
  carveouts : ℕ
  mappings : ℕ
  traces : ℕ
  subdevs : List Subdev
  virtioDevs : ℕ → ℕ
  cachedTable : Bool
  cleanTable : Bool
  hasStop : Bool
  hasDetach : Bool
  held : Acquired → ℤ

/-- An entry of the resource table that a handler takes, with what comes of it. For
a carveout this is whether it is a new one, and for a vdev how many carveouts are
registered for its vrings. -/
inductive Resource where
  | carveout (new : Bool) (ret : ℤ)
  | devmem (ret : ℤ)
  | trace (ret : ℤ)
  | vdev (env : VdevOutcomes) (rsc : FwRscVdev) (offset : ℕ) (avail : ℤ) (carveouts : ℕ)

/-- An entry of the resource table. -/
inductive RscEntry where
  | truncated
  | vendor (ret : ℤ)
  | unsupported
  | resource (rsc : Resource)

/-- What the calls on the way answer. -/
structure Outcomes where
  lock : ℤ
  requestFirmware : ℤ
  sanityCheck : ℤ
  enableIommu : ℤ
  prepare : ℤ
  prepareCarveouts : ℕ
  parseFw : ℤ
  parseCarveouts : ℕ
  parseTable : Bool
  loadedTable : Except ℤ Bool
  copyTable : Bool
  entries : List RscEntry
  allocCarveouts : ℤ
  allocMappings : ℕ
  loadSegments : ℤ
  findLoadedTable : Bool
  prepareSubdev : Subdev → ℤ
  startSubdev : Subdev → ℤ
  start : ℤ
  attach : ℤ
  stop : ℤ
  detach : ℤ

def RprocHandle.acquire (s : RprocHandle) (x : Acquired) : RprocHandle :=
  { s with held := Function.update s.held x (s.held x + 1) }

def RprocHandle.undo (s : RprocHandle) (x : Acquired) : RprocHandle :=
  { s with held := Function.update s.held x (s.held x - 1) }

/-- `rproc_enable_iommu` -/
def rprocEnableIommu (env : Outcomes) (s : RprocHandle) : RprocHandle × ℤ :=
  if env.enableIommu ≠ 0 then (s, env.enableIommu) else (s.acquire .iommu, 0)

/-- `rproc_disable_iommu` -/
def rprocDisableIommu (s : RprocHandle) : RprocHandle := s.undo .iommu

def RprocHandle.addCarveouts (s : RprocHandle) (n : ℕ) : RprocHandle := { s with carveouts := s.carveouts + n }

/-- `rproc_prepare_device`. It may add carveouts, also if it fails. -/
def rprocPrepareDevice (env : Outcomes) (s : RprocHandle) : RprocHandle × ℤ :=
  let s := s.addCarveouts env.prepareCarveouts
  if env.prepare ≠ 0 then (s, env.prepare) else (s.acquire .device, 0)

/-- `rproc_unprepare_device` -/
def rprocUnprepareDevice (s : RprocHandle) : RprocHandle := s.undo .device

/-- `rproc_parse_fw`. It may add carveouts and set the table, also if it fails. -/
def rprocParseFw (env : Outcomes) (s : RprocHandle) : RprocHandle × ℤ :=
  ({ s.addCarveouts env.parseCarveouts with
      tablePtr := s.tablePtr || env.parseTable
      cachedTable := s.cachedTable || env.parseTable }, env.parseFw)

/-- The handlers of `rproc_loading_handlers`. -/
def rprocHandleResource (s : RprocHandle) : Resource → Option (RprocHandle × ℤ)
  | .carveout new ret =>
      some (if ret ≠ 0 then (s, ret) else ({ s with carveouts := s.carveouts + new.toNat }, 0))
  | .devmem ret => some (if ret ≠ 0 then (s, ret) else ({ s with mappings := s.mappings + 1 }, 0))
  | .trace ret => some (if ret ≠ 0 then (s, ret) else ({ s with traces := s.traces + 1 }, 0))
  | .vdev env rsc offset avail carveouts =>
      match rprocHandleVdev env s.toRproc rsc offset avail with
      | none => none
      | some (r, ret) =>
          let a := s.next
          let s := { s with toRproc := r, carveouts := s.carveouts + carveouts }
          some (if ret ≠ 0 then (s, ret)
            else ({ s with subdevs := s.subdevs ++ [.vdev a], virtioDevs := Function.update s.virtioDevs a 0 }, 0))

/-- The loop of `rproc_handle_resources`. An entry that is ignored leaves its result
or that of the entry before. -/
def handleEntries : List RscEntry → ℤ → RprocHandle → Option (RprocHandle × ℤ)
  | [], ret, s => some (s, ret)
  | .truncated :: _, _, s => some (s, -EINVAL)
  | .vendor ret :: es, _, s => if ret < 0 then some (s, ret) else handleEntries es ret s
  | .unsupported :: es, ret, s => handleEntries es ret s
  | .resource rsc :: es, _, s =>
      match rprocHandleResource s rsc with
      | none => none
      | some (s, ret) => if ret ≠ 0 then some (s, ret) else handleEntries es 0 s

/-- `rproc_handle_resources` -/
def rprocHandleResources (env : Outcomes) (s : RprocHandle) : Option (RprocHandle × ℤ) :=
  if s.tablePtr = false then some (s, 0) else handleEntries env.entries 0 s

def RprocHandle.addMappings (s : RprocHandle) (n : ℕ) : RprocHandle := { s with mappings := s.mappings + n }

/-- `rproc_alloc_registered_carveouts` -/
def rprocAllocRegisteredCarveouts (env : Outcomes) (s : RprocHandle) : RprocHandle × ℤ :=
  (s.addMappings env.allocMappings, if env.allocCarveouts ≠ 0 then -ENOMEM else 0)

/-! ### Subdevices -/

def prepareSubdev (env : Outcomes) (s : RprocHandle) (subdev : Subdev) : RprocHandle × ℤ :=
  if subdev.ops.prepare = false then (s, 0)
  else if env.prepareSubdev subdev ≠ 0 then (s, env.prepareSubdev subdev)
  else (s.acquire (.prepared subdev), 0)

def unprepareSubdev (s : RprocHandle) (subdev : Subdev) : RprocHandle :=
  if subdev.ops.unprepare = false then s else s.undo (.prepared subdev)

/-- For a vdev this is `rproc_vdev_do_start`. -/
def startSubdev (env : Outcomes) (s : RprocHandle) (subdev : Subdev) : RprocHandle × ℤ :=
  if subdev.ops.start = false then (s, 0)
  else if env.startSubdev subdev ≠ 0 then (s, env.startSubdev subdev)
  else
    let s := s.acquire (.started subdev)
    match subdev with
    | .vdev a => ({ s with virtioDevs := Function.update s.virtioDevs a (s.virtioDevs a + 1) }, 0)
    | .driver _ _ => (s, 0)

/-- For a vdev this is `rproc_vdev_do_stop`, which removes all its virtio devices. -/
def stopSubdev (s : RprocHandle) (subdev : Subdev) : RprocHandle :=
  if subdev.ops.stop = false then s
  else
    let s := s.undo (.started subdev)
    match subdev with
    | .vdev a => { s with virtioDevs := Function.update s.virtioDevs a 0 }
    | .driver _ _ => s

/-- `rproc_prepare_subdevices` -/
def rprocPrepareSubdevices (env : Outcomes) (s : RprocHandle) : RprocHandle × ℤ :=
  match tryAll (prepareSubdev env) s.subdevs [] s with
  | (s, ret, visited) => if ret ≠ 0 then (visited.tail.foldl unprepareSubdev s, ret) else (s, 0)

/-- `rproc_start_subdevices` -/
def rprocStartSubdevices (env : Outcomes) (s : RprocHandle) : RprocHandle × ℤ :=
  match tryAll (startSubdev env) s.subdevs [] s with
  | (s, ret, visited) => if ret ≠ 0 then (visited.tail.foldl stopSubdev s, ret) else (s, 0)

/-- `rproc_stop_subdevices` -/
def rprocStopSubdevices (s : RprocHandle) : RprocHandle := s.subdevs.reverse.foldl stopSubdev s

/-- `rproc_unprepare_subdevices` -/
def rprocUnprepareSubdevices (s : RprocHandle) : RprocHandle := s.subdevs.reverse.foldl unprepareSubdev s

/-! ### Giving back -/

/-- `kref_put(&rvdev->refcount, rproc_vdev_release)` -/
def putVdev (s : RprocHandle) (a : ℕ) : Option RprocHandle :=
  if s.virtioDevs a ≠ 0 then some s
  else (rprocVdevRelease s.toRproc a).map fun r => { s with toRproc := r, subdevs := s.subdevs.erase (.vdev a) }

/-- The traces, mappings and carveouts are freed. -/
def RprocHandle.freeLists (s : RprocHandle) : RprocHandle := { s with traces := 0, mappings := 0, carveouts := 0 }

/-- `rproc_resource_cleanup` -/
def rprocResourceCleanup (s : RprocHandle) : Option RprocHandle := s.rvdevs.foldlM putVdev s.freeLists

def RprocHandle.setTable (s : RprocHandle) (table : Bool) : RprocHandle := { s with tablePtr := table }

/-- The copy of the resource table is freed. -/
def RprocHandle.freeTable (s : RprocHandle) : RprocHandle := { s with cachedTable := false, tablePtr := false }

/-- The label `clean_up_resources`, to which a part of a call goes if it fails. -/
def cleanUpResources (after : RprocHandle → RprocHandle) : Option (RprocHandle × ℤ) → Option (RprocHandle × ℤ)
  | none => none
  | some (s, ret) => if ret ≠ 0 then (rprocResourceCleanup s).map fun s => (after s, ret) else some (s, 0)

/-! ### Starting -/

/-- `rproc_start` -/
def rprocStart (env : Outcomes) (s : RprocHandle) : Option (RprocHandle × ℤ) :=
  if env.loadSegments ≠ 0 then some (s, env.loadSegments)
  else
    let s := if env.findLoadedTable then s.setTable true else s
    match rprocPrepareSubdevices env s with
    | (s, ret) =>
        if ret ≠ 0 then some (s.setTable s.cachedTable, ret)
        else if env.start ≠ 0 then
          let s := rprocUnprepareSubdevices s
          some (s.setTable s.cachedTable, env.start)
        else
          match rprocStartSubdevices env s with
          | (s, ret) =>
              if ret ≠ 0 then
                if s.hasStop = false then none
                else
                  let s := rprocUnprepareSubdevices s
                  some (s.setTable s.cachedTable, ret)
              else some ({ s with state := .running }, 0)

/-- `__rproc_attach` -/
def rprocAttachInner (env : Outcomes) (s : RprocHandle) : Option (RprocHandle × ℤ) :=
  match rprocPrepareSubdevices env s with
  | (s, ret) =>
      if ret ≠ 0 then some (s, ret)
      else if env.attach ≠ 0 then some (rprocUnprepareSubdevices s, env.attach)
      else
        match rprocStartSubdevices env s with
        | (s, ret) =>
            if ret ≠ 0 then
              if s.hasStop = false then none else some (rprocUnprepareSubdevices s, ret)
            else some ({ s with state := .attached }, 0)

/-- What `rproc_fw_boot` does between parsing the firmware and its label
`clean_up_resources`. -/
def bootResources (env : Outcomes) (s : RprocHandle) : Option (RprocHandle × ℤ) :=
  match rprocHandleResources env s with
  | none => none
  | some (s, ret) =>
      if ret ≠ 0 then some (s, ret)
      else
        match rprocAllocRegisteredCarveouts env s with
        | (s, ret) => if ret ≠ 0 then some (s, ret) else rprocStart env s

/-- The ids and the vdevs are counted anew. (The source resets `max_notifyid` to -1.) -/
def RprocHandle.resetVdevs (s : RprocHandle) : RprocHandle := { s with maxNotifyid := 0, nbVdev := 0 }

/-- `rproc_fw_boot` -/
def rprocFwBoot (env : Outcomes) (s : RprocHandle) : Option (RprocHandle × ℤ) :=
  if env.sanityCheck ≠ 0 then some (s, env.sanityCheck)
  else
    match rprocEnableIommu env s with
    | (s, ret) =>
        if ret ≠ 0 then some (s, ret)
        else
          match rprocPrepareDevice env s with
          | (s, ret) =>
              if ret ≠ 0 then some (rprocDisableIommu s, ret)
              else
                match rprocParseFw env s with
                | (s, ret) =>
                    if ret ≠ 0 then some (rprocDisableIommu (rprocUnprepareDevice s), ret)
                    else
                      cleanUpResources (fun s => rprocDisableIommu (rprocUnprepareDevice s.freeTable))
                        (bootResources env s.resetVdevs)

def RprocHandle.setClean (s : RprocHandle) (clean : Bool) : RprocHandle := { s with cleanTable := clean }

/-- `rproc_set_rsc_table` -/
def rprocSetRscTable (env : Outcomes) (s : RprocHandle) : RprocHandle × ℤ :=
  match env.loadedTable with
  | .ok false => (s, 0)
  | .error ret => (s, ret)
  | .ok true =>
      if s.hasDetach then
        if env.copyTable = false then (s.setClean false, -ENOMEM)
        else ({ s with cleanTable := true, cachedTable := false, tablePtr := true }, 0)
      else ({ s with cleanTable := false, cachedTable := false, tablePtr := true }, 0)

/-- What `rproc_attach` does between handling the resource table and its label
`clean_up_resources`. -/
def attachResources (env : Outcomes) (s : RprocHandle) : Option (RprocHandle × ℤ) :=
  match rprocAllocRegisteredCarveouts env s with
  | (s, ret) => if ret ≠ 0 then some (s, ret) else rprocAttachInner env s

/-- What `rproc_attach` does after `rproc_set_rsc_table`. If the table cannot be
handled, it goes to the label `unprepare_device`. -/
def attachTable (env : Outcomes) (s : RprocHandle) : Option (RprocHandle × ℤ) :=
  match rprocHandleResources env s with
  | none => none
  | some (s, ret) =>
      if ret ≠ 0 then some (rprocDisableIommu (rprocUnprepareDevice s), ret)
      else cleanUpResources (fun s => rprocDisableIommu (rprocUnprepareDevice s)) (attachResources env s)

/-- `rproc_attach` -/
def rprocAttach (env : Outcomes) (s : RprocHandle) : Option (RprocHandle × ℤ) :=
  match rprocEnableIommu env s with
  | (s, ret) =>
      if ret ≠ 0 then some (s, ret)
      else
        match rprocPrepareDevice env s with
        | (s, ret) =>
            if ret ≠ 0 then some (rprocDisableIommu s, ret)
            else
              match rprocSetRscTable env s with
              | (s, ret) =>
                  if ret ≠ 0 then some (rprocDisableIommu (rprocUnprepareDevice s), ret)
                  else attachTable env s.resetVdevs

/-- In `rproc_boot`, the processor is attached to, or the firmware is loaded. -/
def powerUp (env : Outcomes) (s : RprocHandle) : Option (RprocHandle × ℤ) :=
  if s.state = .detached then rprocAttach env s
  else if env.requestFirmware < 0 then some (s, env.requestFirmware)
  else rprocFwBoot env s

/-- `rproc_boot` -/
def rprocBoot (env : Outcomes) (s : RprocHandle) : Option (RprocHandle × ℤ) :=
  if env.lock ≠ 0 then some (s, env.lock)
  else if s.state = .deleted then some (s, -ENODEV)
  else
    let s := { s with power := s.power + 1 }
    if 1 < s.power then some (s, 0)
    else
      match powerUp env s with
      | none => none
      | some (s, ret) => some (if ret ≠ 0 then { s with power := s.power - 1 } else s, ret)

/-! ### Stopping -/

/-- `rproc_reset_rsc_table_on_stop` -/
def rprocResetRscTableOnStop (env : Outcomes) (s : RprocHandle) : RprocHandle × ℤ :=
  if s.tablePtr = false then (s, 0)
  else if s.cachedTable then (s, 0)
  else if env.copyTable = false then (s, -ENOMEM)
  else ({ s with cachedTable := true }, 0)

/-- `rproc_reset_rsc_table_on_detach` -/
def rprocResetRscTableOnDetach (env : Outcomes) (s : RprocHandle) : RprocHandle × ℤ :=
  if s.tablePtr = false then (s, 0)
  else if s.cleanTable = false then (s, -EINVAL)
  else if env.copyTable = false then ({ s with cachedTable := false }, -ENOMEM)
  else ({ s with cachedTable := true }, 0)

/-- `rproc_stop` -/
def rprocStop (env : Outcomes) (s : RprocHandle) : RprocHandle × ℤ :=
  if s.hasStop = false then (s, -EINVAL)
  else
    match rprocResetRscTableOnStop env (rprocStopSubdevices s) with
    | (s, ret) =>
        if ret ≠ 0 then (s, ret)
        else if env.stop ≠ 0 then (s, env.stop)
        else ({ rprocUnprepareSubdevices s with state := .offline }, 0)

/-- `__rproc_detach` -/
def rprocDetachInner (env : Outcomes) (s : RprocHandle) : RprocHandle × ℤ :=
  if s.hasDetach = false then (s, -EINVAL)
  else
    match rprocResetRscTableOnDetach env (rprocStopSubdevices s) with
    | (s, ret) =>
        if ret ≠ 0 then (s, ret)
        else if env.detach ≠ 0 then (s, env.detach)
        else ({ rprocUnprepareSubdevices s with state := .detached }, 0)

/-- `rproc_shutdown` and `rproc_detach`, which differ in how the processor is left. -/
def powerDown (leave : RprocHandle → RprocHandle × ℤ) (env : Outcomes) (s : RprocHandle) : Option (RprocHandle × ℤ) :=
  if env.lock ≠ 0 then some (s, env.lock)
  else
    let s := { s with power := s.power - 1 }
    if s.power ≠ 0 then some (s, 0)
    else
      match leave s with
      | (s, ret) =>
          if ret ≠ 0 then some ({ s with power := s.power + 1 }, ret)
          else (rprocResourceCleanup s).map fun s => ((rprocDisableIommu (rprocUnprepareDevice s)).freeTable, 0)

/-- `rproc_shutdown` -/
def rprocShutdown (env : Outcomes) : RprocHandle → Option (RprocHandle × ℤ) := powerDown (rprocStop env) env

/-- `rproc_detach` -/
def rprocDetach (env : Outcomes) : RprocHandle → Option (RprocHandle × ℤ) := powerDown (rprocDetachInner env) env

/-- `rproc_trigger_recovery` -/
def rprocTriggerRecovery (env : Outcomes) (s : RprocHandle) : Option (RprocHandle × ℤ) :=
  if env.lock ≠ 0 then some (s, env.lock)
  else if s.state ≠ .crashed then some (s, 0)
  else
    match rprocStop env s with
    | (s, ret) =>
        if ret ≠ 0 then some (s, ret)
        else if env.requestFirmware < 0 then some (s, env.requestFirmware)
        else rprocStart env s

/-- `rproc_crash_handler_work`. The lock is free between the two parts of it. This is
the first part, and says whether there is to be a second, `rproc_trigger_recovery`. -/
def rprocCrashHandlerWork (s : RprocHandle) : RprocHandle × Bool :=
  if s.state = .crashed ∨ s.state = .offline then (s, false)
  else ({ s with state := .crashed }, !s.recoveryDisabled)

/-- A processor without users, with all operations. -/
def unusedProcessor (state : RprocState) : RprocHandle :=
  ⟨{ noVdevs with tablePtr := false }, state, 0, false, 0, 0, 0, [], fun _ => 0, false, false, true, true, fun _ => 0⟩

/-- Everything succeeds, with the given resource table. -/
def bootSucceeds (entries : List RscEntry) : Outcomes :=
  ⟨0, 0, 0, 0, 0, 0, 0, 0, true, .ok true, true, entries, 0, 0, 0, true, fun _ => 0, fun _ => 0, 0, 0, 0, 0⟩

/-- An entry for a device with `n` vrings. -/
def vdevResource (n : ℕ) : RscEntry := .resource (.vdev vdevSucceeds (vdevEntry n) 16 1000 n)

theorem attachResources_eq (env : Outcomes) (s : RprocHandle) :
    attachResources env s = if env.allocCarveouts ≠ 0 then some (s.addMappings env.allocMappings, -ENOMEM)
      else rprocAttachInner env (s.addMappings env.allocMappings) := by
  unfold attachResources rprocAllocRegisteredCarveouts
  by_cases hc : env.allocCarveouts = 0
  · rw [if_neg (not_not_intro hc), if_neg (not_not_intro hc)]
    rfl
  · rw [if_pos hc, if_pos hc]
    rfl

/-! ### What the subdevices leave alone -/

/-- All but what the subdevices hold. -/
def RprocHandle.core (s : RprocHandle) : RprocHandle := { s with held := fun _ => 0, virtioDevs := fun _ => 0 }

theorem of_core {β : Type*} {s t : RprocHandle} (f : RprocHandle → β) (hf : ∀ s, f s.core = f s)
    (h : t.core = s.core) : f t = f s := by
  rw [← hf t, h, hf s]

theorem core_prepareSubdev (env : Outcomes) (s : RprocHandle) (subdev : Subdev) :
    (prepareSubdev env s subdev).1.core = s.core := by
  unfold prepareSubdev
  split
  · rfl
  · split <;> rfl

theorem core_unprepareSubdev (s : RprocHandle) (subdev : Subdev) : (unprepareSubdev s subdev).core = s.core := by
  unfold unprepareSubdev
  split <;> rfl

theorem core_startSubdev (env : Outcomes) (s : RprocHandle) (subdev : Subdev) :
    (startSubdev env s subdev).1.core = s.core := by
  unfold startSubdev
  split
  · rfl
  · split
    · rfl
    · cases subdev <;> rfl

theorem core_stopSubdev (s : RprocHandle) (subdev : Subdev) : (stopSubdev s subdev).core = s.core := by
  unfold stopSubdev
  split
  · rfl
  · cases subdev <;> rfl

theorem foldl_core {op : RprocHandle → Subdev → RprocHandle} (hop : ∀ s subdev, (op s subdev).core = s.core)
    (subdevs : List Subdev) (s : RprocHandle) : (subdevs.foldl op s).core = s.core := by
  induction subdevs generalizing s with
  | nil => rfl
  | cons subdev subdevs ih => exact (ih _).trans (hop s subdev)

theorem core_rprocStopSubdevices (s : RprocHandle) : (rprocStopSubdevices s).core = s.core :=
  foldl_core core_stopSubdev _ _

theorem core_rprocUnprepareSubdevices (s : RprocHandle) : (rprocUnprepareSubdevices s).core = s.core :=
  foldl_core core_unprepareSubdev _ _

theorem core_rprocPrepareSubdevices (env : Outcomes) (s : RprocHandle) :
    (rprocPrepareSubdevices env s).1.core = s.core := by
  have hloop := tryAll_keeps RprocHandle.core (core_prepareSubdev env) s.subdevs [] s
  unfold rprocPrepareSubdevices
  generalize tryAll (prepareSubdev env) s.subdevs [] s = q at hloop ⊢
  obtain ⟨t, ret, visited⟩ := q
  dsimp only at hloop ⊢
  split
  · exact (foldl_core core_unprepareSubdev _ _).trans hloop
  · exact hloop

theorem core_rprocStartSubdevices (env : Outcomes) (s : RprocHandle) : (rprocStartSubdevices env s).1.core = s.core := by
  have hloop := tryAll_keeps RprocHandle.core (core_startSubdev env) s.subdevs [] s
  unfold rprocStartSubdevices
  generalize tryAll (startSubdev env) s.subdevs [] s = q at hloop ⊢
  obtain ⟨t, ret, visited⟩ := q
  dsimp only at hloop ⊢
  split
  · exact (foldl_core core_stopSubdev _ _).trans hloop
  · exact hloop

/-! ### What the resource table leaves alone -/

section Table

variable {r t : Rproc} {a i : ℕ}

theorem tablePtr_rprocFreeVring (h : rprocFreeVring a r i = some t) : t.tablePtr = r.tablePtr := by
  unfold rprocFreeVring at h
  dsimp only at h
  split at h
  · exact absurd h (by simp)
  · cases h
    split <;> rfl

theorem tablePtr_freeVrings {is : List ℕ} (h : freeVrings a is r = some t) : t.tablePtr = r.tablePtr := by
  induction is generalizing r with
  | nil =>
    cases h
    rfl
  | cons i is ih =>
    obtain ⟨u, hu, h⟩ := Option.bind_eq_some_iff.mp h
    exact (ih h).trans (tablePtr_rprocFreeVring hu)

theorem tablePtr_allocVrings {venv : VdevOutcomes} {is done : List ℕ} {ret : ℤ}
    (h : allocVrings venv a is done r = some (t, ret)) : t.tablePtr = r.tablePtr := by
  induction is generalizing r done with
  | nil =>
    cases h
    rfl
  | cons i is ih =>
    unfold allocVrings at h
    rcases rprocAllocVring_cases venv a r i with ⟨ret', hret', heq⟩ | heq
    · rw [heq] at h
      dsimp only at h
      rw [if_pos hret', Option.map_eq_some_iff] at h
      obtain ⟨u, hu, heq⟩ := h
      cases heq
      exact tablePtr_freeVrings hu
    · rw [heq] at h
      dsimp only at h
      rw [if_neg (by decide : ¬ (0 : ℤ) ≠ 0)] at h
      have hrest := ih h
      exact hrest

theorem tablePtr_rprocHandleVdev {venv : VdevOutcomes} {rsc : FwRscVdev} {offset : ℕ} {avail ret : ℤ}
    (h : rprocHandleVdev venv r rsc offset avail = some (t, ret)) : t.tablePtr = r.tablePtr := by
  unfold rprocHandleVdev at h
  split at h
  · cases h
    rfl
  split at h
  · cases h
    rfl
  split at h
  · cases h
    rfl
  split at h
  · cases h
    rfl
  dsimp only at h
  split at h
  · cases h
    rfl
  split at h
  · cases h
    rfl
  split at h
  · cases h
    rfl
  · split at h
    case h_1 => exact absurd h (by simp)
    case h_2 u ret' halloc =>
      have hu := tablePtr_allocVrings halloc
      rw [Option.some.injEq] at h
      split at h <;> cases h <;> exact hu

theorem tablePtr_rprocVdevRelease (h : rprocVdevRelease r a = some t) : t.tablePtr = r.tablePtr := by
  obtain ⟨u, hu, rfl⟩ := Option.map_eq_some_iff.mp h
  have htable := tablePtr_freeVrings hu
  exact htable

end Table

/-- All that handling the resource table and the cleanup after it leave alone. -/
def RprocHandle.frame (s : RprocHandle) : RprocState × ℤ × Bool × Bool × Bool × (Acquired → ℤ) :=
  (s.state, s.power, s.tablePtr, s.cachedTable, s.hasStop, s.held)

section Frame

variable {s t : RprocHandle} {env : Outcomes} {ret : ℤ}

theorem frame_rprocHandleResource {rsc : Resource} (h : rprocHandleResource s rsc = some (t, ret)) :
    t.frame = s.frame := by
  cases rsc with
  | carveout new ret' =>
    rw [rprocHandleResource, Option.some.injEq] at h
    split at h <;> cases h <;> rfl
  | devmem ret' =>
    rw [rprocHandleResource, Option.some.injEq] at h
    split at h <;> cases h <;> rfl
  | trace ret' =>
    rw [rprocHandleResource, Option.some.injEq] at h
    split at h <;> cases h <;> rfl
  | vdev venv rsc offset avail carveouts =>
    rw [rprocHandleResource] at h
    cases hv : rprocHandleVdev venv s.toRproc rsc offset avail with
    | none =>
      rw [hv] at h
      exact absurd h (by simp)
    | some q =>
      obtain ⟨r, ret'⟩ := q
      have htable := tablePtr_rprocHandleVdev hv
      rw [hv] at h
      dsimp only at h
      rw [Option.some.injEq] at h
      unfold RprocHandle.frame
      rw [← htable]
      split at h <;> cases h <;> rfl

theorem frame_handleEntries {es : List RscEntry} {ret₀ : ℤ} (h : handleEntries es ret₀ s = some (t, ret)) :
    t.frame = s.frame := by
  induction es generalizing s ret₀ with
  | nil =>
    cases h
    rfl
  | cons e es ih =>
    cases e with
    | truncated =>
      cases h
      rfl
    | vendor r =>
      rw [handleEntries] at h
      split at h
      · cases h
        rfl
      · exact ih h
    | unsupported => exact ih h
    | resource rsc =>
      rw [handleEntries] at h
      cases hrsc : rprocHandleResource s rsc with
      | none =>
        rw [hrsc] at h
        exact absurd h (by simp)
      | some q =>
        obtain ⟨u, r⟩ := q
        rw [hrsc] at h
        dsimp only at h
        have hu := frame_rprocHandleResource hrsc
        split at h
        · cases h
          exact hu
        · exact (ih h).trans hu

theorem frame_rprocHandleResources (h : rprocHandleResources env s = some (t, ret)) : t.frame = s.frame := by
  unfold rprocHandleResources at h
  split at h
  · cases h
    rfl
  · exact frame_handleEntries h

theorem frame_putVdev {a : ℕ} (h : putVdev s a = some t) : t.frame = s.frame := by
  unfold putVdev at h
  split at h
  · cases h
    rfl
  · obtain ⟨r, hr, rfl⟩ := Option.map_eq_some_iff.mp h
    unfold RprocHandle.frame
    rw [← tablePtr_rprocVdevRelease hr]

theorem frame_foldlM_putVdev {as : List ℕ} (h : as.foldlM putVdev s = some t) : t.frame = s.frame := by
  induction as generalizing s with
  | nil =>
    cases h
    rfl
  | cons a as ih =>
    rw [List.foldlM_cons, Option.bind_eq_bind, Option.bind_eq_some_iff] at h
    obtain ⟨u, hu, h⟩ := h
    exact (ih h).trans (frame_putVdev hu)

theorem frame_rprocResourceCleanup (h : rprocResourceCleanup s = some t) : t.frame = s.frame := by
  unfold rprocResourceCleanup at h
  rw [frame_foldlM_putVdev h]
  rfl

end Frame

/-! ### Subdevices without errors -/

theorem rprocPrepareSubdevices_ret (env : Outcomes) (s : RprocHandle)
    (h : ∀ subdev ∈ s.subdevs, subdev.ops.prepare = true → env.prepareSubdev subdev = 0) :
    (rprocPrepareSubdevices env s).2 = 0 := by
  have hop : ∀ s' subdev, subdev ∈ s.subdevs → (prepareSubdev env s' subdev).2 = 0 := by
    intro s' subdev hmem
    unfold prepareSubdev
    split
    case isTrue => rfl
    case isFalse hops => rw [if_neg (not_not_intro (h subdev hmem (eq_true_of_ne_false hops)))]
  have hloop := tryAll_ret hop [] (s := s)
  unfold rprocPrepareSubdevices
  generalize tryAll (prepareSubdev env) s.subdevs [] s = q at hloop ⊢
  obtain ⟨t, ret, visited⟩ := q
  dsimp only at hloop ⊢
  rw [if_neg (not_not_intro hloop)]

theorem rprocStartSubdevices_ret (env : Outcomes) (s : RprocHandle)
    (h : ∀ subdev ∈ s.subdevs, subdev.ops.start = true → env.startSubdev subdev = 0) :
    (rprocStartSubdevices env s).2 = 0 := by
  have hop : ∀ s' subdev, subdev ∈ s.subdevs → (startSubdev env s' subdev).2 = 0 := by
    intro s' subdev hmem
    unfold startSubdev
    split
    case isTrue => rfl
    case isFalse hops =>
      rw [if_neg (not_not_intro (h subdev hmem (eq_true_of_ne_false hops)))]
      cases subdev <;> rfl
  have hloop := tryAll_ret hop [] (s := s)
  unfold rprocStartSubdevices
  generalize tryAll (startSubdev env) s.subdevs [] s = q at hloop ⊢
  obtain ⟨t, ret, visited⟩ := q
  dsimp only at hloop ⊢
  rw [if_neg (not_not_intro hloop)]

end GfpDrivers.Remoteproc
