import GfpDrivers.Basic

/-!
What the split and the packed virtqueue (`virtio_ring.c`) share: the flags
and the driver's shadow of a descriptor, the arguments of an add, the 16-bit
index arithmetic and the test for an event index.
-/

namespace GfpDrivers.Virtio

/-- The bits of a descriptor's `flags` (`virtio_ring.h`). -/
def vringDescFNext : BitVec 16 := 1
def vringDescFWrite : BitVec 16 := 2
def vringDescFIndirect : BitVec 16 := 4

/-- `flags & bit` as a condition. -/
def hasFlag (flags bit : BitVec 16) : Prop := flags &&& bit ≠ 0

instance (flags bit : BitVec 16) : Decidable (hasFlag flags bit) :=
  inferInstanceAs (Decidable (_ ≠ _))

/-- What is read from a 16-bit or 32-bit field that the device may write. -/
def virtio16ToCpu (v : ℕ) : ℕ := v % 2 ^ 16
def virtio32ToCpu (v : ℕ) : ℕ := v % 2 ^ 32

/-- The difference of two `u16` values. -/
def sub16 (a b : ℕ) : ℕ := (a + (2 ^ 16 - b % 2 ^ 16)) % 2 ^ 16

theorem sub16_of_le {a b : ℕ} (ha : a < 2 ^ 16) (h : b ≤ a) : sub16 a b = a - b := by
  rw [sub16, Nat.mod_eq_of_lt (Nat.lt_of_le_of_lt h ha)]
  omega

theorem sub16_of_lt {a b : ℕ} (hb : b < 2 ^ 16) (h : a < b) : sub16 a b = a + 2 ^ 16 - b := by
  rw [sub16, Nat.mod_eq_of_lt hb, Nat.mod_eq_of_lt (by omega)]
  omega

theorem sub16_mod_right (a b : ℕ) : sub16 a (b % 2 ^ 16) = sub16 a b := by
  rw [sub16, sub16, Nat.mod_mod]

theorem sub16_mod_left {a b : ℕ} (h : b ≤ a) : sub16 (a % 2 ^ 16) b = (a - b) % 2 ^ 16 := by
  have hle : b % 2 ^ 16 ≤ 2 ^ 16 := Nat.le_of_lt (Nat.mod_lt b (Nat.two_pow_pos 16))
  rw [sub16, Nat.mod_add_mod, ← Nat.add_sub_assoc hle]
  omega

theorem sub16_sub16 {a b : ℕ} (ha : a < 2 ^ 16) (hb : b < 2 ^ 16) : sub16 a (sub16 a b) = b := by
  rcases Nat.lt_or_ge a b with h | h
  · rw [sub16_of_lt hb h, sub16_of_lt (by omega) (by omega)]
    omega
  · rw [sub16_of_le ha h, sub16_of_le ha (Nat.sub_le a b)]
    omega

/-- `vring_need_event` -/
def vringNeedEvent (eventIdx newIdx old : ℕ) : Bool :=
  sub16 (sub16 newIdx eventIdx) 1 < sub16 newIdx old

/-- `struct vring_desc_extra` -/
structure VringDescExtra where
  addr : ℕ
  len : ℕ
  flags : BitVec 16
  next : ℕ

/-- `vring_alloc_desc_extra`. The links are `u16`. -/
def vringAllocDescExtra (num : ℕ) : ℕ → VringDescExtra := fun i =>
  { addr := 0, len := 0, flags := 0, next := if i < num - 1 then (i + 1) % 2 ^ 16 else 0 }

/-- The arguments of an add, together with what the code around the queue
answers while it runs. A scatterlist is the list of the lengths of its
elements; `outSgs` and `inSgs` are the two parts of `sgs[]`. -/
structure AddArgs where
  outSgs : List (List ℕ)
  inSgs : List (List ℕ)
  totalSg : ℕ
  data : Ptr
  ctx : Ptr
  /-- What `kmalloc_array` returns for an indirect table. -/
  table : Ptr
  /-- What `dma_map_single` returns for it. -/
  tableAddr : ℕ
  /-- What `dma_mapping_error` says of the mappings, in the order they are made. -/
  mapError : ℕ → Bool
  /-- The same for the direct attempt of a packed add, which may follow a failed
  indirect one. -/
  retryError : ℕ → Bool
  /-- What `vq->notify` returns. -/
  notifyOk : Bool

/-- The elements in the order the loops of an add visit them: the length, and
whether the device writes to the element. -/
def AddArgs.elems (a : AddArgs) : List (ℕ × Bool) :=
  a.outSgs.flatten.map (·, false) ++ a.inSgs.flatten.map (·, true)

/-- `total_sg` is the number of elements, as `virtqueue_add_sgs` counts them
and the callers of the other entry points promise. -/
def AddArgs.Counted (a : AddArgs) : Prop := a.elems.length = a.totalSg

instance (a : AddArgs) : Decidable a.Counted := inferInstanceAs (Decidable (_ = _))

/-- An outgoing buffer of `n` elements, without an indirect table. -/
def outElements (n : ℕ) (data : Ptr) : AddArgs where
  outSgs := [List.replicate n 8]
  inSgs := []
  totalSg := n
  data := data
  ctx := 0
  table := 0
  tableAddr := 0
  mapError _ := false
  retryError _ := false
  notifyOk := true

/-- `vring_map_one_sg`. The mapping itself is compiled out. -/
def vringMapOneSg : ℕ := 0

/-- What `virtqueue_get_buf_ctx` returns: the token, and what it stores through
its two pointer arguments. -/
structure GetBuf (σ : Type) where
  vq : σ
  ret : Ptr
  len : Option ℕ
  ctx : Option Ptr

theorem not_hasFlag_and_not (flags bit : BitVec 16) : ¬ hasFlag (flags &&& ~~~bit) bit := by
  simp [hasFlag, BitVec.and_assoc]

end GfpDrivers.Virtio
