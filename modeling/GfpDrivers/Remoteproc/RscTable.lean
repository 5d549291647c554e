import GfpDrivers.Lib.Window
import GfpDrivers.Remoteproc.Vring

/-!
The bytes of the resource table (`remoteproc_core.c`, `remoteproc_virtio.c`). The
firmware supplies the table, and everything in it is as the firmware wants it: the
number of entries, their offsets, and what they say of themselves. An offset is an
unsigned number of 32 bits that is stored in an `int`; handlers check how much of
the table is left behind the header of an entry, and later calls come back to the entry
by an offset that was stored.

All that is recorded here are the accesses to the table. What the calls on the way
answer is part of each call.
-/

namespace GfpDrivers.Remoteproc.Table

open GfpDrivers.Lib

/-- The value that a number has as an `int`. -/
def toInt (x : ℤ) : ℤ := x.bmod (2 ^ 32)

/-- `FW_RSC_ADDR_ANY`, as a `u32`. -/
def FW_RSC_ADDR_ANY : ℕ := 2 ^ 32 - 1

def RSC_CARVEOUT : ℕ := 0
def RSC_DEVMEM : ℕ := 1
def RSC_TRACE : ℕ := 2
def RSC_VDEV : ℕ := 3
def RSC_LAST : ℕ := 4
def RSC_VENDOR_START : ℕ := 128
def RSC_VENDOR_END : ℕ := 512

/-- A vdev. The back pointers of its first `vrings` vrings are set. -/
structure TableVdev where
  rscOffset : ℕ
  vrings : ℕ

/-- `struct rproc`, as far as the resource table is concerned. Of a carveout only the
offset of its entry is needed. While the loop of `rproc_handle_resources` runs, `pass` is
its index, and `ret` is the result. -/
structure TableHandle where
  table : Window
  domain : Bool
  carveouts : List ℕ
  rvdevs : List TableVdev
  pass : Option ℕ
  ret : ℤ

/-- What the calls answer while an entry is handled. `found` is the carveout that has
the name of the entry. -/
structure EntryOutcomes where
  vendor : ℤ
  found : Option ℕ
  checkCarveoutDa : Bool
  alloc : Bool
  iommuMap : ℤ
  createTraceFile : Bool
  deviceRegister : ℤ
  copyDmaRangeMap : ℤ
  newCarveout : ℕ → Bool
  allocVring : ℕ → ℤ
  notifyid : ℕ → ℕ

namespace TableHandle

variable (s : TableHandle)

def access (a : ℤ) (n : ℕ) : TableHandle := { s with table := s.table.access a n }

def accessString (a : ℤ) : TableHandle := { s with table := s.table.accessString a }

def write (a : ℤ) (n : ℕ) (buf : ℕ → Fin 256) : TableHandle := { s with table := s.table.write a n buf }

def write32 (a : ℤ) (v : ℕ) : TableHandle := s.write a 4 (Window.digits v)

/-- `table_ptr->num` -/
def num : ℕ := s.table.u32 4

/-- `table_ptr->offset[i]` -/
def offset (i : ℕ) : ℕ := s.table.u32 (16 + 4 * i)

/-- How much of the table is left behind the header of an entry. (The source computes this
with 64 bits, and makes it an `int` afterwards.) -/
def avail (i : ℕ) : ℤ := toInt (s.table.size - toInt (s.offset i) - 4)

/-- The entry of a vdev. -/
def vdevAt (p : ℤ) : FwRscVdev where
  configLen := s.table.u32 (p + 16)
  numOfVrings := (s.table.byte (p + 21)).val
  reserved := ((s.table.byte (p + 22)).val, (s.table.byte (p + 23)).val)
  vring i := ⟨s.table.u32 (p + 24 + 20 * i + 8), s.table.u32 (p + 24 + 20 * i + 4)⟩

/-- The loop ends with a result. -/
def ends (ret : ℤ) : TableHandle := { s with pass := none, ret := ret }

/-- The loop goes on. -/
def goesOn (i : ℕ) (ret : ℤ) : TableHandle := { s with pass := some (i + 1), ret := ret }

end TableHandle

/-- `sizeof(*rsc) > avail`, with `avail` as a `size_t`. -/
def Truncated (size : ℕ) (avail : ℤ) : Prop := avail % 2 ^ 64 < size

instance (size : ℕ) (avail : ℤ) : Decidable (Truncated size avail) := inferInstanceAs (Decidable (_ < _))

/-- The offset of an entry at `p`, as it is stored. -/
def storedOffset (p : ℤ) : ℕ := (p % 2 ^ 32).toNat

/-- `rproc_handle_carveout`. The name of the entry is used as a format, to look for a
carveout and to register a new one. -/
def rprocHandleCarveout (env : EntryOutcomes) (s : TableHandle) (p avail : ℤ) : TableHandle × ℤ :=
  if Truncated 52 avail then (s, -EINVAL)
  else
    let s := s.access (p + 16) 4
    if s.table.u32 (p + 16) ≠ 0 then (s, -EINVAL)
    else
      let s := s.accessString (p + 20)
      match env.found with
      | some k =>
          if s.carveouts.getD k FW_RSC_ADDR_ANY ≠ FW_RSC_ADDR_ANY then (s, -ENOMEM)
          else
            let s := (s.access p 4).access (p + 8) 4
            if env.checkCarveoutDa = false then (s, -ENOMEM)
            else
              let s := s.access (p + 12) 4
              ({ s with carveouts := s.carveouts.set k (storedOffset p) }, 0)
      | none =>
          let s := ((s.access (p + 8) 4).access p 4).accessString (p + 20)
          if env.alloc = false then (s, -ENOMEM)
          else
            let s := s.access (p + 12) 4
            ({ s with carveouts := s.carveouts ++ [storedOffset p] }, 0)

/-- `rproc_handle_devmem` -/
def rprocHandleDevmem (env : EntryOutcomes) (s : TableHandle) (p avail : ℤ) : TableHandle × ℤ :=
  if s.domain = false then (s, -EINVAL)
  else if Truncated 52 avail then (s, -EINVAL)
  else
    let s := s.access (p + 16) 4
    if s.table.u32 (p + 16) ≠ 0 then (s, -EINVAL)
    else if env.alloc = false then (s, -ENOMEM)
    else (s.access p 16, env.iommuMap)

/-- `rproc_handle_trace` -/
def rprocHandleTrace (env : EntryOutcomes) (s : TableHandle) (p avail : ℤ) : TableHandle × ℤ :=
  if Truncated 44 avail then (s, -EINVAL)
  else
    let s := s.access (p + 8) 4
    if s.table.u32 (p + 8) ≠ 0 then (s, -EINVAL)
    else if env.alloc = false then (s, -ENOMEM)
    else
      let s := (s.access (p + 4) 4).access p 4
      (s, if env.createTraceFile = false then -EINVAL else 0)

/-- The address of a vring in the table. -/
def vringAt (rscOffset i : ℕ) : ℤ := rscOffset + 24 + 20 * i

/-- What `rproc_free_vring` writes. -/
def freeVring (rscOffset : ℕ) (s : TableHandle) (i : ℕ) : TableHandle :=
  (s.write32 (vringAt rscOffset i) 0).write32 (vringAt rscOffset i + 12) (2 ^ 32 - 1)

/-- The loop of `rproc_handle_vdev` that parses the vrings. -/
def parseVrings (p : ℤ) : List ℕ → TableHandle → TableHandle × ℤ
  | [], s => (s, 0)
  | i :: is, s =>
      let s := (s.access (p + 24 + 20 * i + 8) 4).access (p + 24 + 20 * i + 4) 4
      if ((s.vdevAt p).vring i).num = 0 ∨ ((s.vdevAt p).vring i).align = 0 then (s, -EINVAL) else parseVrings p is s

/-- The loop of `rproc_handle_vdev` that allocates the vrings, with `rproc_alloc_vring`. -/
def allocVrings (env : EntryOutcomes) (rscOffset : ℕ) : List ℕ → List ℕ → TableHandle → TableHandle × ℤ
  | [], _, s => (s, 0)
  | i :: is, done, s =>
      let s := s.access (vringAt rscOffset i) 4
      let s := if env.newCarveout i then { s with carveouts := s.carveouts ++ [FW_RSC_ADDR_ANY] } else s
      if env.allocVring i ≠ 0 then (done.foldl (freeVring rscOffset) s, env.allocVring i)
      else allocVrings env rscOffset is (i :: done) (s.write32 (vringAt rscOffset i + 12) (env.notifyid i))

/-- `rproc_handle_vdev` -/
def rprocHandleVdev (env : EntryOutcomes) (s : TableHandle) (p avail : ℤ) : TableHandle × ℤ :=
  let s := (s.access (p + 21) 1).access (p + 16) 4
  let rsc := s.vdevAt p
  if vdevTruncated rsc avail then (s, -EINVAL)
  else
    let s := s.access (p + 22) 2
    if rsc.reserved.1 ≠ 0 ∨ rsc.reserved.2 ≠ 0 then (s, -EINVAL)
    else if RVDEV_NUM_VRINGS < rsc.numOfVrings then (s, -EINVAL)
    else if env.alloc = false then (s, -ENOMEM)
    else
      let s := s.access p 4
      if env.deviceRegister ≠ 0 then (s, env.deviceRegister)
      else if env.copyDmaRangeMap ≠ 0 then (s, env.copyDmaRangeMap)
      else
        match parseVrings p (List.range rsc.numOfVrings) s with
        | (s, ret) =>
            if ret ≠ 0 then (s, ret)
            else
              match allocVrings env (storedOffset p) (List.range rsc.numOfVrings) [] s with
              | (s, ret) =>
                  if ret ≠ 0 then (s, ret)
                  else ({ s with rvdevs := s.rvdevs ++ [⟨storedOffset p, rsc.numOfVrings⟩] }, 0)

/-- `rproc_loading_handlers` -/
def rprocLoadingHandlers (type : ℕ) : EntryOutcomes → TableHandle → ℤ → ℤ → TableHandle × ℤ :=
  if type = RSC_CARVEOUT then rprocHandleCarveout
  else if type = RSC_DEVMEM then rprocHandleDevmem
  else if type = RSC_TRACE then rprocHandleTrace
  else rprocHandleVdev

/-- One pass of the loop of `rproc_handle_resources`. -/
def handleEntry (env : EntryOutcomes) (i : ℕ) (s : TableHandle) : TableHandle :=
  let s := s.access 4 4
  if s.num ≤ i then s.ends s.ret
  else
    let s := s.access (16 + 4 * i) 4
    let offset := toInt (s.offset i)
    let avail := s.avail i
    if avail < 0 then s.ends (-EINVAL)
    else
      let s := s.access offset 4
      let type := s.table.u32 offset
      if RSC_VENDOR_START ≤ type ∧ type ≤ RSC_VENDOR_END then
        if env.vendor < 0 then s.ends env.vendor else s.goesOn i env.vendor
      else if RSC_LAST ≤ type then s.goesOn i s.ret
      else
        match rprocLoadingHandlers type env s (offset + 4) avail with
        | (s, ret) => if ret ≠ 0 then s.ends ret else s.goesOn i 0

/-- The loop of `rproc_alloc_registered_carveouts`. A carveout gets its physical and its
device address and its length, or cannot be allocated. -/
def allocCarveouts (env : ℕ → Option (ℕ × ℕ × ℕ)) : List ℕ → ℕ → TableHandle → TableHandle
  | [], _, s => s
  | rscOffset :: rest, k, s =>
      match env k with
      | none => s
      | some (pa, da, len) =>
          allocCarveouts env rest (k + 1)
            (if rscOffset = FW_RSC_ADDR_ANY then s
              else ((s.write32 (rscOffset + 4) pa).write32 rscOffset da).write32 (rscOffset + 8) len)

/-- `rproc_free_vring`. There is no result if the back pointer of the vring is `NULL`. -/
def rprocFreeVring (a i : ℕ) (s : TableHandle) : Option TableHandle :=
  match s.rvdevs[a]? with
  | none => none
  | some rvdev => if rvdev.vrings ≤ i then none else some (freeVring rvdev.rscOffset s i)

/-- `rp_find_vq`. There may be a carveout for the vring, with a device address. -/
def rpFindVq (a id : ℕ) (mem : Option ℕ) (newVirtqueue : Bool) (s : TableHandle) : Option TableHandle :=
  match s.rvdevs[a]? with
  | none => none
  | some rvdev =>
      if RVDEV_NUM_VRINGS ≤ id then some s
      else
        match mem with
        | none => some s
        | some da =>
            if newVirtqueue = false then rprocFreeVring a id s
            else some (s.write32 (vringAt rvdev.rscOffset id) da)

/-- The access to the configuration is out of its bounds. -/
def OutOfBounds (rsc : FwRscVdev) (offset len : BitVec 32) : Prop :=
  rsc.configLen < (offset + len).toNat ∨ (offset + len).toNat < len.toNat

instance (rsc : FwRscVdev) (offset len : BitVec 32) : Decidable (OutOfBounds rsc offset len) :=
  inferInstanceAs (Decidable (_ ∨ _))

/-- `rproc_virtio_get` and `rproc_virtio_set`, which differ in what they do with the
configuration. -/
def rprocVirtioConfig (copy : TableHandle → ℤ → ℕ → TableHandle) (a : ℕ) (offset len : BitVec 32) (s : TableHandle) :
    Option TableHandle :=
  match s.rvdevs[a]? with
  | none => none
  | some rvdev =>
      let rsc := s.vdevAt rvdev.rscOffset
      let s := (s.access (rvdev.rscOffset + 21) 1).access (rvdev.rscOffset + 16) 4
      if OutOfBounds rsc offset len then some s
      else some (copy s (vringAt rvdev.rscOffset rsc.numOfVrings + offset.toNat) len.toNat)

/-- `rproc_virtio_get` -/
def rprocVirtioGet : ℕ → BitVec 32 → BitVec 32 → TableHandle → Option TableHandle :=
  rprocVirtioConfig TableHandle.access

/-- `rproc_virtio_set` -/
def rprocVirtioSet (buf : ℕ → Fin 256) : ℕ → BitVec 32 → BitVec 32 → TableHandle → Option TableHandle :=
  rprocVirtioConfig fun s a n => s.write a n buf

/-! ### Runs -/

/-- `rproc_handle_resources` is called, does a pass of its loop, or one of the other
functions is called; or the remote processor changes a byte of the table. -/
inductive TableCall where
  | handleResources
  | entry (env : EntryOutcomes)
  | allocRegisteredCarveouts (env : ℕ → Option (ℕ × ℕ × ℕ))
  | freeVring (a i : ℕ)
  | findVq (a id : ℕ) (mem : Option ℕ) (newVirtqueue : Bool)
  | virtioGet (a : ℕ) (offset len : BitVec 32)
  | virtioSet (a : ℕ) (offset len : BitVec 32) (buf : ℕ → Fin 256)
  | remote (k : ℕ) (v : Fin 256)

/-- The remote processor changes a byte. -/
def remoteWrite (k : ℕ) (v : Fin 256) (s : TableHandle) : TableHandle :=
  { s with table := { s.table with byte := Function.update s.table.byte k v } }

/-- The functions that are not called while the table is handled. -/
def tableCall (s : TableHandle) : TableCall → Option TableHandle
  | .handleResources => some { s with pass := some 0, ret := 0 }
  | .entry _ => none
  | .allocRegisteredCarveouts env => some (allocCarveouts env s.carveouts 0 s)
  | .freeVring a i => rprocFreeVring a i s
  | .findVq a id mem newVirtqueue => rpFindVq a id mem newVirtqueue s
  | .virtioGet a offset len => rprocVirtioGet a offset len s
  | .virtioSet a offset len buf => rprocVirtioSet buf a offset len s
  | .remote k v => some (remoteWrite k v s)

def tableStep (s : TableHandle) (call : TableCall) : Option TableHandle :=
  match s.pass, call with
  | some i, .entry env => some (handleEntry env i s)
  | some _, _ => none
  | none, call => tableCall s call

end GfpDrivers.Remoteproc.Table
