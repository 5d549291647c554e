import GfpDrivers.Virtio.Ring

/-!
The split virtqueue of `virtio_ring.c`. A buffer occupies a chain of
descriptors linked through `desc_extra[].next`; the free descriptors are
linked through the same array, from `free_head` on. The driver publishes the
head of a chain in the avail ring, the device returns it in the used ring.

Arrays are functions of the index. `none` stands for a `BUG_ON`, or for a
walk over a chain that does not end. Unmapping a buffer changes nothing of
the queue and is left out, as are the barriers.
-/

namespace GfpDrivers.Virtio

/-- `struct vring_desc` -/
structure VringDesc where
  addr : ℕ
  len : ℕ
  flags : BitVec 16
  next : ℕ

/-- `struct vring_avail`, written by the driver. The entry after the ring
is `used_event`. -/
structure VringAvail where
  flags : ℕ
  idx : ℕ
  ring : ℕ → ℕ

/-- An entry of the used ring. -/
structure VringUsedElem where
  id : ℕ
  len : ℕ

/-- `struct vring_used`, written by the device. `availEvent` is the word
after the ring. -/
structure VringUsed where
  flags : ℕ
  idx : ℕ
  ring : ℕ → VringUsedElem
  availEvent : ℕ

/-- `struct vring_desc_state_split` -/
structure VringDescStateSplit where
  data : Ptr
  indirDesc : Ptr

/-- The split part of `struct vring_virtqueue`. The indirect tables are the
memory their pointers lead to, and `notifies` counts the calls of
`vq->notify`. -/
structure SplitVq where
  num : ℕ
  numFree : ℕ
  freeHead : ℕ
  numAdded : ℕ
  lastUsedIdx : ℕ
  broken : Bool
  indirect : Bool
  event : Bool
  useDmaApi : Bool
  desc : ℕ → VringDesc
  avail : VringAvail
  used : VringUsed
  availFlagsShadow : ℕ
  availIdxShadow : ℕ
  descState : ℕ → VringDescStateSplit
  descExtra : ℕ → VringDescExtra
  tables : Ptr → ℕ → VringDesc
  notifies : ℕ

/-- `VRING_AVAIL_F_NO_INTERRUPT` and `VRING_USED_F_NO_NOTIFY` -/
def vringAvailFNoInterrupt : ℕ := 1
def vringUsedFNoNotify : ℕ := 1

/-- `__vring_new_virtqueue` on a ring of `num` entries whose memory holds
`desc`, `avail` and `used`. -/
def vringNewVirtqueue (num : ℕ) (indirect event useDmaApi callback : Bool)
    (desc : ℕ → VringDesc) (avail : VringAvail) (used : VringUsed)
    (tables : Ptr → ℕ → VringDesc) : SplitVq where
  num := num
  numFree := num
  freeHead := 0
  numAdded := 0
  lastUsedIdx := 0
  broken := false
  indirect := indirect
  event := event
  useDmaApi := useDmaApi
  desc := desc
  avail :=
    if !callback && !event then { avail with flags := vringAvailFNoInterrupt } else avail
  used := used
  availFlagsShadow := if callback then 0 else vringAvailFNoInterrupt
  availIdxShadow := 0
  descState := fun _ => ⟨0, 0⟩
  descExtra := vringAllocDescExtra num
  tables := tables
  notifies := 0

/-- A queue with every feature, in memory that holds zeroes. -/
def freshQueue (num : ℕ) : SplitVq :=
  vringNewVirtqueue num true true true true (fun _ => ⟨0, 0, 0, 0⟩) ⟨0, 0, fun _ => 0⟩
    ⟨0, 0, fun _ => ⟨0, 0⟩, 0⟩ fun _ _ => ⟨0, 0, 0, 0⟩

/-! ### Notifying the device -/

/-- `virtqueue_kick_prepare_split` -/
def virtqueueKickPrepareSplit (vq : SplitVq) : SplitVq × Bool :=
  let old := sub16 vq.availIdxShadow vq.numAdded
  let new := vq.availIdxShadow
  let needsKick :=
    if vq.event then vringNeedEvent (virtio16ToCpu vq.used.availEvent) new old
    else virtio16ToCpu vq.used.flags &&& vringUsedFNoNotify = 0
  ({ vq with numAdded := 0 }, needsKick)

/-- A call of `vq->notify`. -/
def SplitVq.notify (vq : SplitVq) : SplitVq := { vq with notifies := vq.notifies + 1 }

/-- `virtqueue_notify`, where `ok` is what `vq->notify` returns. -/
def virtqueueNotifySplit (vq : SplitVq) (ok : Bool) : SplitVq × Bool :=
  if vq.broken then (vq, false)
  else if ok then (vq.notify, true)
  else ({ vq.notify with broken := true }, false)

/-- `virtqueue_kick` -/
def virtqueueKickSplit (vq : SplitVq) (ok : Bool) : SplitVq × Bool :=
  match virtqueueKickPrepareSplit vq with
  | (vq, true) => virtqueueNotifySplit vq ok
  | (vq, false) => (vq, true)

/-! ### Adding a buffer -/

/-- `virtqueue_use_indirect` -/
def SplitVq.useIndirect (vq : SplitVq) (totalSg : ℕ) : Bool :=
  vq.indirect && 1 < totalSg && vq.numFree ≠ 0

/-- `alloc_indirect_split`, given the contents of the fresh memory. -/
def allocIndirectSplit (mem : ℕ → VringDesc) (totalSg : ℕ) : ℕ → VringDesc := fun i =>
  if i < totalSg then { mem i with next := (i + 1) % 2 ^ 16 } else mem i

/-- The descriptors an add fills in: those of the ring together with their
shadows, or those of an indirect table. -/
structure Fill where
  desc : ℕ → VringDesc
  extra : ℕ → VringDescExtra

/-- `virtqueue_add_desc_split`: the filled descriptor and the index of the
next one. -/
def virtqueueAddDescSplit (f : Fill) (i addr len : ℕ) (flags : BitVec 16) (indirect : Bool) :
    Fill × ℕ :=
  if indirect then
    let next := (f.desc i).next
    ({ f with desc := Function.update f.desc i ⟨addr, len % 2 ^ 32, flags, next⟩ }, next)
  else
    let next := (f.extra i).next
    ({ desc := Function.update f.desc i ⟨addr, len % 2 ^ 32, flags, next⟩
       extra := Function.update f.extra i ⟨addr, len % 2 ^ 32, flags, next⟩ }, next)

/-- How far the two loops over the scatterlists have come. `prev` is the
descriptor filled last. -/
structure FillLoop where
  fill : Fill
  i : ℕ
  prev : ℕ
  failed : Bool

/-- The flags an element's descriptor gets in the loop over its part of `sgs[]`. -/
def sgFlagsSplit (write : Bool) : BitVec 16 :=
  if write then vringDescFNext ||| vringDescFWrite else vringDescFNext

/-- The two loops over the scatterlists, from the `k`-th mapping on. They stop
at the first element that cannot be mapped. -/
def addSgsSplit (mapError : ℕ → Bool) (indirect : Bool) :
    List (ℕ × Bool) → ℕ → FillLoop → FillLoop
  | [], _, l => l
  | (len, write) :: es, k, l =>
      if mapError k then { l with failed := true }
      else
        let r := virtqueueAddDescSplit l.fill l.i vringMapOneSg len (sgFlagsSplit write) indirect
        addSgsSplit mapError indirect es (k + 1)
          { l with fill := r.1, i := r.2, prev := l.i }

theorem addSgsSplit_cons (mapError : ℕ → Bool) (indirect : Bool) (e : ℕ × Bool) (es : List (ℕ × Bool)) (k : ℕ)
    (l : FillLoop) : addSgsSplit mapError indirect (e :: es) k l =
      if mapError k then { l with failed := true }
      else
        let r := virtqueueAddDescSplit l.fill l.i vringMapOneSg e.1 (sgFlagsSplit e.2) indirect
        addSgsSplit mapError indirect es (k + 1) { l with fill := r.1, i := r.2, prev := l.i } := rfl

/-- The flag `VRING_DESC_F_NEXT` of the last descriptor is cleared. -/
def VringDesc.clearNext (d : VringDesc) : VringDesc :=
  { d with flags := d.flags &&& ~~~vringDescFNext }

def VringDescExtra.clearNext (e : VringDescExtra) : VringDescExtra :=
  { e with flags := e.flags &&& ~~~vringDescFNext }

/-- `vring_mapping_error`: only the DMA API can fail. -/
def SplitVq.mapError (vq : SplitVq) (a : AddArgs) (k : ℕ) : Bool :=
  vq.useDmaApi && a.mapError k

/-- What an add does once its descriptors are filled in: they leave the free
list, the token is stored and the head is put in the avail ring. -/
def SplitVq.publish (vq : SplitVq) (descsUsed freeHead : ℕ) (data indirDesc : Ptr) : SplitVq :=
  let head := vq.freeHead
  let slot := vq.availIdxShadow &&& (vq.num - 1)
  let shadow := (vq.availIdxShadow + 1) % 2 ^ 16
  { vq with
      numFree := vq.numFree - descsUsed
      freeHead := freeHead
      descState := Function.update vq.descState head ⟨data, indirDesc⟩
      avail :=
        { vq.avail with
          ring := Function.update vq.avail.ring slot (head % 2 ^ 16)
          idx := shadow }
      availIdxShadow := shadow
      numAdded := (vq.numAdded + 1) % 2 ^ 32 }

/-- A kick just in case, at the end of an add. -/
def SplitVq.kickIfFull (vq : SplitVq) (ok : Bool) : SplitVq :=
  if vq.numAdded = 2 ^ 16 - 1 then (virtqueueKickSplit vq ok).1 else vq

/-- The part of `virtqueue_add_split` that uses an indirect table at `table`. -/
def virtqueueAddSplitIndirect (vq : SplitVq) (a : AddArgs) : SplitVq × ℤ :=
  let head := vq.freeHead
  let l := addSgsSplit (vq.mapError a) true a.elems 0
    { fill := ⟨allocIndirectSplit (vq.tables a.table) a.totalSg, vq.descExtra⟩
      i := 0, prev := 0, failed := false }
  let addr := if vq.useDmaApi then a.tableAddr else 0
  if l.failed then ({ vq with tables := Function.update vq.tables a.table l.fill.desc }, -ENOMEM)
  else
    let table := Function.update l.fill.desc l.prev (l.fill.desc l.prev).clearNext
    let vq := { vq with tables := Function.update vq.tables a.table table }
    if vq.mapError a a.elems.length then (vq, -ENOMEM)
    else
      let r := virtqueueAddDescSplit ⟨vq.desc, vq.descExtra⟩ head addr
        (a.totalSg * 16) vringDescFIndirect false
      let vq := { vq with desc := r.1.desc, descExtra := r.1.extra }
      ((vq.publish 1 (vq.descExtra head).next a.data a.table).kickIfFull a.notifyOk, 0)

/-- The part of `virtqueue_add_split` that links the elements in the ring
itself. -/
def virtqueueAddSplitDirect (vq : SplitVq) (a : AddArgs) : SplitVq × ℤ :=
  let l := addSgsSplit (vq.mapError a) false a.elems 0
    { fill := ⟨vq.desc, vq.descExtra⟩, i := vq.freeHead, prev := 0, failed := false }
  -- descriptors filled before the failing element keep what was written
  if l.failed then ({ vq with desc := l.fill.desc, descExtra := l.fill.extra }, -ENOMEM)
  else
    let shadow := l.prev &&& (vq.num - 1)
    let vq := { vq with
      desc := Function.update l.fill.desc l.prev (l.fill.desc l.prev).clearNext
      descExtra :=
        if vq.useDmaApi then Function.update l.fill.extra shadow (l.fill.extra shadow).clearNext
        else l.fill.extra }
    ((vq.publish a.totalSg l.i a.data a.ctx).kickIfFull a.notifyOk, 0)

/-- `virtqueue_add_split` -/
def virtqueueAddSplit (vq : SplitVq) (a : AddArgs) : Option (SplitVq × ℤ) :=
  if a.data = 0 ∨ (a.ctx ≠ 0 ∧ vq.indirect) then none
  else if vq.broken then some (vq, - EIO)
  else if a.totalSg = 0 then none
  else
    let indirect := vq.useIndirect a.totalSg && a.table ≠ 0
    let descsUsed := if indirect then 1 else a.totalSg
    if vq.numFree < descsUsed then
      some (if a.outSgs ≠ [] then vq.notify else vq, -ENOSPC)
    else if indirect then some (virtqueueAddSplitIndirect vq a)
    else some (virtqueueAddSplitDirect vq a)

/-! ### Taking buffers back -/

/-- The walk of `detach_buf_split` to the end of the chain at `i`, counting
the descriptors it leaves behind. -/
def chainEndSplit (vq : SplitVq) : ℕ → ℕ → ℕ → Option (ℕ × ℕ)
  | 0, _, _ => none
  | fuel + 1, i, numFree =>
      if hasFlag (vq.desc i).flags vringDescFNext then
        chainEndSplit vq fuel (vq.descExtra i).next (numFree + 1)
      else some (i, numFree)

/-- `detach_buf_split`, with what it stores in `*ctx`. -/
def detachBufSplit (vq : SplitVq) (head : ℕ) : Option (SplitVq × Option Ptr) :=
  let state := vq.descState head
  (chainEndSplit vq vq.num head vq.numFree).bind fun (last, numFree) =>
    let vq := { vq with
      descState := Function.update vq.descState head { state with data := 0 }
      descExtra := Function.update vq.descExtra last
        { vq.descExtra last with next := vq.freeHead % 2 ^ 16 }
      freeHead := head
      numFree := numFree + 1 }
    if vq.indirect then
      if state.indirDesc = 0 then some (vq, none)
      else
        let extra := vq.descExtra head
        if ¬ hasFlag extra.flags vringDescFIndirect ∨ extra.len = 0 ∨ extra.len % 16 ≠ 0 then none
        else some ({ vq with
          descState := Function.update vq.descState head ⟨0, 0⟩ }, none)
    else some (vq, some state.indirDesc)

/-- `more_used_split` -/
def moreUsedSplit (vq : SplitVq) : Bool := vq.lastUsedIdx ≠ virtio16ToCpu vq.used.idx

/-- `virtqueue_get_buf_ctx_split` -/
def virtqueueGetBufCtxSplit (vq : SplitVq) : Option (GetBuf SplitVq) :=
  if vq.broken then some ⟨vq, 0, none, none⟩
  else if !moreUsedSplit vq then some ⟨vq, 0, none, none⟩
  else
    let lastUsed := vq.lastUsedIdx &&& (vq.num - 1)
    let i := virtio32ToCpu (vq.used.ring lastUsed).id
    let len := virtio32ToCpu (vq.used.ring lastUsed).len
    if vq.num ≤ i then some ⟨{ vq with broken := true }, 0, some len, none⟩
    else if (vq.descState i).data = 0 then some ⟨{ vq with broken := true }, 0, some len, none⟩
    else
      let ret := (vq.descState i).data
      (detachBufSplit vq i).map fun (vq, ctx) =>
        let lastUsedIdx := (vq.lastUsedIdx + 1) % 2 ^ 16
        let vq := { vq with lastUsedIdx := lastUsedIdx }
        if vq.availFlagsShadow &&& vringAvailFNoInterrupt = 0 then
          ⟨{ vq with avail :=
              { vq.avail with ring := Function.update vq.avail.ring vq.num lastUsedIdx } },
            ret, some len, ctx⟩
        else ⟨vq, ret, some len, ctx⟩

/-- `virtqueue_detach_unused_buf_split`. The loop stops at the first index
below `num` that holds a token. -/
def virtqueueDetachUnusedBufSplit (vq : SplitVq) : Option (SplitVq × Ptr) :=
  match (List.range vq.num).find? (fun i => (vq.descState i).data ≠ 0) with
  | some i =>
      let buf := (vq.descState i).data
      (detachBufSplit vq i).map fun (vq, _) =>
        let shadow := sub16 vq.availIdxShadow 1
        ({ vq with availIdxShadow := shadow, avail := { vq.avail with idx := shadow } }, buf)
  | none => if vq.numFree ≠ vq.num then none else some (vq, 0)

/-! ### Runs -/

/-- What happens to a queue: the calls of the driver, and the device writing
anything it likes into the used ring. -/
inductive SplitAct where
  | add (a : AddArgs)
  | getBuf
  | detachUnused
  | kick (notifyOk : Bool)
  | device (used : VringUsed)

def splitStep (vq : SplitVq) : SplitAct → Option SplitVq
  | .add a => (virtqueueAddSplit vq a).map (·.1)
  | .getBuf => (virtqueueGetBufCtxSplit vq).map (·.vq)
  | .detachUnused => (virtqueueDetachUnusedBufSplit vq).map (·.1)
  | .kick ok => some (virtqueueKickSplit vq ok).1
  | .device used => some { vq with used := used }

end GfpDrivers.Virtio
