import GfpDrivers.Virtio.Ring

/-!
The packed virtqueue of `virtio_ring.c`. There is one ring of descriptors:
the driver makes a buffer available by writing its descriptors at
`next_avail_idx`, the device completes it by writing one used descriptor at
its own position. A descriptor belongs to a lap of the ring by two bits of
its flags. Buffers are named by ids, and the free ids are linked through
`desc_extra[].next`.

Arrays are functions of the index. `none` stands for a `BUG_ON`. Unmapping a
buffer changes nothing of the queue and is left out, as are the barriers.
-/

namespace GfpDrivers.Virtio

/-- `VRING_PACKED_DESC_F_AVAIL` and `VRING_PACKED_DESC_F_USED` as masks -/
def packedFAvail : BitVec 16 := 1 <<< 7
def packedFUsed : BitVec 16 := 1 <<< 15

/-- `VRING_PACKED_EVENT_FLAG_DISABLE` and `VRING_PACKED_EVENT_FLAG_DESC` -/
def packedEventFlagDisable : ℕ := 1
def packedEventFlagDesc : ℕ := 2

/-- `struct vring_packed_desc` -/
structure VringPackedDesc where
  addr : ℕ
  len : ℕ
  id : ℕ
  flags : BitVec 16

/-- `struct vring_packed_desc_event` -/
structure VringPackedDescEvent where
  offWrap : ℕ
  flags : ℕ

/-- `struct vring_desc_state_packed` -/
structure VringDescStatePacked where
  data : Ptr
  indirDesc : Ptr
  num : ℕ
  last : ℕ

/-- The packed part of `struct vring_virtqueue`. The indirect tables are the
memory their pointers lead to. -/
structure PackedVq where
  num : ℕ
  numFree : ℕ
  freeHead : ℕ
  numAdded : ℕ
  lastUsedIdx : ℕ
  broken : Bool
  indirect : Bool
  useDmaApi : Bool
  desc : ℕ → VringPackedDesc
  driver : VringPackedDescEvent
  device : VringPackedDescEvent
  availWrapCounter : Bool
  usedWrapCounter : Bool
  availUsedFlags : BitVec 16
  nextAvailIdx : ℕ
  eventFlagsShadow : ℕ
  descState : ℕ → VringDescStatePacked
  descExtra : ℕ → VringDescExtra
  tables : Ptr → ℕ → VringPackedDesc

/-- `vring_create_virtqueue_packed` in memory that holds `desc`, `driver` and
`device`. -/
def vringCreateVirtqueuePacked (num : ℕ) (indirect useDmaApi callback : Bool)
    (desc : ℕ → VringPackedDesc) (driver device : VringPackedDescEvent)
    (tables : Ptr → ℕ → VringPackedDesc) : PackedVq where
  num := num
  numFree := num
  freeHead := 0
  numAdded := 0
  lastUsedIdx := 0
  broken := false
  indirect := indirect
  useDmaApi := useDmaApi
  desc := desc
  driver := if callback then driver else { driver with flags := packedEventFlagDisable }
  device := device
  availWrapCounter := true
  usedWrapCounter := true
  availUsedFlags := packedFAvail
  nextAvailIdx := 0
  eventFlagsShadow := if callback then 0 else packedEventFlagDisable
  descState := fun _ => ⟨0, 0, 0, 0⟩
  descExtra := vringAllocDescExtra num
  tables := tables

/-- A packed queue without indirect tables, in memory that holds zeroes. -/
def freshPacked (num : ℕ) : PackedVq :=
  vringCreateVirtqueuePacked num false true true (fun _ => ⟨0, 0, 0, 0⟩) ⟨0, 0⟩ ⟨0, 0⟩
    fun _ _ => ⟨0, 0, 0, 0⟩

/-! ### Adding a buffer -/

/-- `virtqueue_use_indirect` -/
def PackedVq.useIndirect (vq : PackedVq) (totalSg : ℕ) : Bool :=
  vq.indirect && 1 < totalSg && vq.numFree ≠ 0

/-- The flip of both bits at the end of the ring. -/
def flipLap (flags : BitVec 16) : BitVec 16 := flags ^^^ (packedFAvail ||| packedFUsed)

/-- The loop of `virtqueue_add_indirect_packed` over the scatterlists, from the
`k`-th mapping on; `none` if a mapping fails. -/
def fillTablePacked (mapError : ℕ → Bool) :
    List (ℕ × Bool) → ℕ → (ℕ → VringPackedDesc) → Option (ℕ → VringPackedDesc)
  | [], _, table => some table
  | (len, write) :: es, k, table =>
      if mapError k then none
      else fillTablePacked mapError es (k + 1) (Function.update table k
        { table k with
          flags := if write then vringDescFWrite else 0
          addr := vringMapOneSg
          len := len % 2 ^ 32 })

/-- `virtqueue_add_indirect_packed` -/
def virtqueueAddIndirectPacked (vq : PackedVq) (a : AddArgs) : Option (PackedVq × ℤ) :=
  let head := vq.nextAvailIdx
  let id := vq.freeHead % 2 ^ 16
  let mapError k := vq.useDmaApi && a.mapError k
  let addr := if vq.useDmaApi then a.tableAddr else 0
  if a.table = 0 then some (vq, -ENOMEM)
  else if vq.numFree < 1 then some (vq, -ENOSPC)
  else if id = vq.num then none
  else
    match fillTablePacked mapError a.elems 0 (vq.tables a.table) with
    | none => some (vq, -ENOMEM)
    | some table =>
        if mapError a.elems.length then some (vq, -ENOMEM)
        else
          let flags := vringDescFIndirect ||| vq.availUsedFlags
          let len := a.totalSg * 16 % 2 ^ 32
          let wraps : Bool := vq.num ≤ head + 1
          some ({ vq with
            tables := Function.update vq.tables a.table table
            desc := Function.update vq.desc head ⟨addr, len, id, flags⟩
            descExtra :=
              if vq.useDmaApi then
                Function.update vq.descExtra id ⟨addr, len, flags, (vq.descExtra id).next⟩
              else vq.descExtra
            numFree := vq.numFree - 1
            availWrapCounter := if wraps then !vq.availWrapCounter else vq.availWrapCounter
            availUsedFlags := if wraps then flipLap vq.availUsedFlags else vq.availUsedFlags
            nextAvailIdx := (if wraps then 0 else head + 1) % 2 ^ 16
            freeHead := (vq.descExtra id).next
            descState := Function.update vq.descState id ⟨a.data, a.table, 1, id⟩
            numAdded := (vq.numAdded + 1) % 2 ^ 32 }, 0)

/-- How far the loop of a direct add has come: the descriptors and their
shadows, the slot `i`, the number `c` of elements done, the ids `curr` and
`prev`, the lap's bits and the flags kept back for the head. -/
structure PackedLoop where
  desc : ℕ → VringPackedDesc
  extra : ℕ → VringDescExtra
  i : ℕ
  c : ℕ
  curr : ℕ
  prev : ℕ
  availUsedFlags : BitVec 16
  headFlags : BitVec 16
  failed : Bool

/-- The loop starts at the head slot with the first free id. -/
def PackedVq.loopStart (vq : PackedVq) : PackedLoop where
  desc := vq.desc
  extra := vq.descExtra
  i := vq.nextAvailIdx
  c := 0
  curr := vq.freeHead % 2 ^ 16
  prev := 0
  availUsedFlags := vq.availUsedFlags
  headFlags := 0
  failed := false

/-- One round of the loop of a direct add: the element is mapped, and its
descriptor is written. The flags of the head slot are kept back. -/
def addSgPacked (vq : PackedVq) (totalSg : ℕ) (len : ℕ) (write : Bool) (l : PackedLoop) :
    PackedLoop :=
  let head := vq.nextAvailIdx
  let id := vq.freeHead % 2 ^ 16
  let flags := l.availUsedFlags ||| (if l.c + 1 = totalSg then 0 else vringDescFNext) |||
    (if write then vringDescFWrite else 0)
  let next := (l.extra l.curr).next
  let wraps : Bool := vq.num ≤ l.i + 1
  { l with
    desc := Function.update l.desc l.i
      ⟨vringMapOneSg, len % 2 ^ 32, id, if l.i = head then (l.desc l.i).flags else flags⟩
    headFlags := if l.i = head then flags else l.headFlags
    extra :=
      if vq.useDmaApi then
        Function.update l.extra l.curr ⟨vringMapOneSg, len % 2 ^ 32, flags, next⟩
      else l.extra
    c := l.c + 1
    prev := l.curr
    curr := next
    i := if wraps then 0 else l.i + 1
    availUsedFlags := if wraps then flipLap l.availUsedFlags else l.availUsedFlags }

/-- The loop of a direct add. It stops at the first element that cannot be
mapped. -/
def addSgsPacked (vq : PackedVq) (a : AddArgs) : List (ℕ × Bool) → PackedLoop → PackedLoop
  | [], l => l
  | (len, write) :: es, l =>
      if vq.useDmaApi && a.retryError l.c then { l with failed := true }
      else addSgsPacked vq a es (addSgPacked vq a.totalSg len write l)

theorem addSgsPacked_cons (vq : PackedVq) (a : AddArgs) (e : ℕ × Bool) (es : List (ℕ × Bool)) (l : PackedLoop) :
    addSgsPacked vq a (e :: es) l =
      if vq.useDmaApi && a.retryError l.c then { l with failed := true }
      else addSgsPacked vq a es (addSgPacked vq a.totalSg e.1 e.2 l) := rfl

/-- The part of `virtqueue_add_packed` after the indirect attempt. -/
def virtqueueAddDirectPacked (vq : PackedVq) (a : AddArgs) : Option (PackedVq × ℤ) :=
  let head := vq.nextAvailIdx
  let id := vq.freeHead % 2 ^ 16
  if vq.numFree < a.totalSg then some (vq, -ENOSPC)
  else if id = vq.num then none
  else
    let l := addSgsPacked vq a a.elems vq.loopStart
    -- descriptors written before the failing element keep what was written
    if l.failed then some ({ vq with desc := l.desc, descExtra := l.extra }, - EIO)
    else
      some ({ vq with
        desc := Function.update l.desc head { l.desc head with flags := l.headFlags }
        descExtra := l.extra
        availUsedFlags := l.availUsedFlags
        availWrapCounter := if l.i < head then !vq.availWrapCounter else vq.availWrapCounter
        numFree := vq.numFree - a.totalSg
        nextAvailIdx := l.i % 2 ^ 16
        freeHead := l.curr
        descState := Function.update vq.descState id
          ⟨a.data, a.ctx, a.totalSg % 2 ^ 16, l.prev % 2 ^ 16⟩
        numAdded := (vq.numAdded + a.totalSg) % 2 ^ 32 }, 0)

/-- `virtqueue_add_packed` -/
def virtqueueAddPacked (vq : PackedVq) (a : AddArgs) : Option (PackedVq × ℤ) :=
  if a.data = 0 ∨ (a.ctx ≠ 0 ∧ vq.indirect) then none
  else if vq.broken then some (vq, - EIO)
  else if a.totalSg = 0 then none
  else if vq.useIndirect a.totalSg then
    (virtqueueAddIndirectPacked vq a).bind fun (vq, err) =>
      if err ≠ -ENOMEM then some (vq, err) else virtqueueAddDirectPacked vq a
  else virtqueueAddDirectPacked vq a

/-! ### Taking buffers back -/

/-- `detach_buf_packed`, with what it stores in `*ctx`. -/
def detachBufPacked (vq : PackedVq) (id : ℕ) : PackedVq × Option Ptr :=
  let state := vq.descState id
  let vq := { vq with
    descState := Function.update vq.descState id
      { state with data := 0, indirDesc := if vq.indirect then 0 else state.indirDesc }
    descExtra := Function.update vq.descExtra state.last
      { vq.descExtra state.last with next := vq.freeHead % 2 ^ 16 }
    freeHead := id
    numFree := vq.numFree + state.num }
  (vq, if vq.indirect then none else some state.indirDesc)

/-- `is_used_desc_packed` -/
def isUsedDescPacked (vq : PackedVq) (idx : ℕ) (usedWrapCounter : Bool) : Bool :=
  let flags := (vq.desc idx).flags
  let avail := decide (hasFlag flags packedFAvail)
  let used := decide (hasFlag flags packedFUsed)
  avail == used && used == usedWrapCounter

/-- `more_used_packed` -/
def moreUsedPacked (vq : PackedVq) : Bool := isUsedDescPacked vq vq.lastUsedIdx vq.usedWrapCounter

/-- The position after `n` more used slots. -/
def PackedVq.advanceUsed (vq : PackedVq) (n : ℕ) : PackedVq :=
  let idx := (vq.lastUsedIdx + n) % 2 ^ 16
  if vq.num ≤ idx then
    { vq with lastUsedIdx := idx - vq.num, usedWrapCounter := !vq.usedWrapCounter }
  else { vq with lastUsedIdx := idx }

/-- `virtqueue_get_buf_ctx_packed` -/
def virtqueueGetBufCtxPacked (vq : PackedVq) : GetBuf PackedVq :=
  if vq.broken then ⟨vq, 0, none, none⟩
  else if !moreUsedPacked vq then ⟨vq, 0, none, none⟩
  else
    let id := virtio16ToCpu (vq.desc vq.lastUsedIdx).id
    let len := virtio32ToCpu (vq.desc vq.lastUsedIdx).len
    if vq.num ≤ id then ⟨{ vq with broken := true }, 0, some len, none⟩
    else if (vq.descState id).data = 0 then ⟨{ vq with broken := true }, 0, some len, none⟩
    else
      let ret := (vq.descState id).data
      let r := detachBufPacked vq id
      let vq := r.1.advanceUsed (vq.descState id).num
      if vq.eventFlagsShadow = packedEventFlagDesc then
        ⟨{ vq with driver := { vq.driver with
            offWrap := vq.lastUsedIdx ||| (if vq.usedWrapCounter then 2 ^ 15 else 0) } },
          ret, some len, r.2⟩
      else ⟨vq, ret, some len, r.2⟩

/-- `virtqueue_detach_unused_buf_packed`. The loop stops at the first index
below `num` that holds a token. -/
def virtqueueDetachUnusedBufPacked (vq : PackedVq) : Option (PackedVq × Ptr) :=
  match (List.range vq.num).find? (fun i => (vq.descState i).data ≠ 0) with
  | some i => some ((detachBufPacked vq i).1, (vq.descState i).data)
  | none => if vq.numFree ≠ vq.num then none else some (vq, 0)

/-! ### Runs -/

/-- What happens to a queue: the calls of the driver, and the device writing
anything it likes into the ring and its event structure. -/
inductive PackedAct where
  | add (a : AddArgs)
  | getBuf
  | detachUnused
  | device (desc : ℕ → VringPackedDesc) (event : VringPackedDescEvent)

def packedStep (vq : PackedVq) : PackedAct → Option PackedVq
  | .add a => (virtqueueAddPacked vq a).map (·.1)
  | .getBuf => some (virtqueueGetBufCtxPacked vq).vq
  | .detachUnused => (virtqueueDetachUnusedBufPacked vq).map (·.1)
  | .device desc event => some { vq with desc := desc, device := event }

end GfpDrivers.Virtio
