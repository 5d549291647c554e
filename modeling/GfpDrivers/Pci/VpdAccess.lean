import GfpDrivers.Lib.Faulty
import GfpDrivers.Pci.VpdSearch

/-!
Access to the vital product data of a device (`vpd.c`). A byte is read by writing the address of its dword to a word of
16 bits, of which the upper one tells the device to write instead of to read. How many bytes there are follows from
the items in the data themselves.

An access may fail. The events are the address words that are written.
-/

namespace GfpDrivers.Pci.Vpd

open Lib

def EINTR : ℤ := 4

def PCI_VPD_MAX_SIZE : ℕ := 32768
def PCI_VPD_SZ_INVALID : ℕ := 2 ^ 32 - 1

/-- What the data register holds after an address word. Below `2^15` that is a dword of the data. -/
abbrev VpdDevice := ℕ → BitVec 32

/-- `struct pci_vpd` -/
structure PciVpd where
  len : ℕ
  cap : ℕ

/-- A value that is put into an `loff_t` or an `ssize_t`. -/
def toS64 (z : ℤ) : ℤ := z.bmod (2 ^ 64)

/-- `pos & ~3`, in 16 bits -/
def addrWord (pos : ℕ) : ℕ := (pos - pos % 4) % 2 ^ 16

/-- The loop of `pci_vpd_read` over the bytes of a dword, of which `n` are left. -/
def storeLoop (skip : ℕ) (stop : ℤ) : ℕ → ℕ → BitVec 32 → ℕ → List (BitVec 8) → ℕ × List (BitVec 8)
  | 0, _, _, pos, buf => (pos, buf)
  | n + 1, i, val, pos, buf =>
      if i < skip then storeLoop skip stop n (i + 1) (val >>> 8) pos buf
      else if ((pos + 1 : ℕ) : ℤ) = stop then (pos + 1, buf ++ [val.setWidth 8])
      else storeLoop skip stop n (i + 1) (val >>> 8) (pos + 1) (buf ++ [val.setWidth 8])

variable (dev : VpdDevice) (rounds : ℕ)

/-- The loop of `pci_vpd_read` over the dwords. What the accesses return is not positive. -/
def readLoop (stop : ℤ) : ℕ → ℕ → List (BitVec 8) → Faulty ℕ (ℤ × List (BitVec 8))
  | 0, _, _ => Faulty.unfinished
  | fuel + 1, pos, buf =>
      if (pos : ℤ) < stop then do
        let ret ← Faulty.step (addrWord pos)
        if ret < 0 then pure (ret, buf)
        else do
          -- `pci_vpd_wait`
          let ret ← Faulty.silent
          if ret < 0 then pure (ret, buf)
          else do
            let ret ← Faulty.silent
            if ret < 0 then pure (ret, buf)
            else
              let next := storeLoop (pos % 4) stop 4 0 (dev (addrWord pos)) pos buf
              readLoop stop fuel next.1 next.2
      else pure (0, buf)

/-- The locked part of `pci_vpd_read`, for `count` bytes up to `stop`. -/
def readUpTo (stop : ℤ) (pos : ℕ) (count : ℤ) : Faulty ℕ (ℤ × List (BitVec 8)) := do
  let r ← readLoop dev stop rounds pos []
  pure (if r.1 ≠ 0 then r.1 else toS64 count, r.2)

/-- `pci_vpd_read` after the size is known -/
def pciVpdReadWithin (maxLen : ℕ) (pos : ℤ) (count : ℕ) : Faulty ℕ (ℤ × List (BitVec 8)) :=
  if pos < 0 then pure (-EINVAL, [])
  else if maxLen ≤ pos then pure (0, [])
  else do
    -- `mutex_lock_killable`
    let ret ← Faulty.silent
    if ret < 0 then pure (-EINTR, [])
    else if maxLen < toS64 (pos + count) then readUpTo dev rounds maxLen pos.toNat (maxLen - pos)
    else readUpTo dev rounds (toS64 (pos + count)) pos.toNat count

variable (vpd : PciVpd)

/-- `pci_read_vpd_any` -/
def pciReadVpdAny (pos count : ℕ) : Faulty ℕ (ℤ × List (BitVec 8)) :=
  if vpd.cap = 0 then pure (-ENODEV, []) else pciVpdReadWithin dev rounds PCI_VPD_MAX_SIZE pos count

/-- `off ?: PCI_VPD_SZ_INVALID` -/
def orInvalid (off : ℕ) : ℕ := if off = 0 then PCI_VPD_SZ_INVALID else off

/-- `pci_vpd_lrdt_size`, of the bytes behind the tag -/
def lrdtSizeOf (bytes : List (BitVec 8)) : ℕ := (bytes.getD 0 0).toNat + 2 ^ 8 * (bytes.getD 1 0).toNat

/-- `pci_vpd_srdt_size` -/
def pciVpdSrdtSize (tag : BitVec 8) : ℕ := (tag &&& 0x07).toNat

/-- `pci_vpd_srdt_tag` -/
def pciVpdSrdtTag (tag : BitVec 8) : BitVec 8 := tag >>> 3

/-- The loop of `pci_vpd_size`. -/
def sizeLoop : ℕ → ℕ → Faulty ℕ ℕ
  | 0, _ => Faulty.unfinished
  | fuel + 1, off => do
      let r ← pciReadVpdAny dev rounds vpd off 1
      if r.1 ≠ 1 then pure off
      else if off = 0 ∧ (r.2.getD 0 0 = 0x00 ∨ r.2.getD 0 0 = 0xff) then pure (orInvalid off)
      else if r.2.getD 0 0 &&& PCI_VPD_LRDT ≠ 0 then do
        let r ← pciReadVpdAny dev rounds vpd (off + 1) 2
        if r.1 ≠ 2 then pure (orInvalid off)
        else if PCI_VPD_MAX_SIZE < off + lrdtSizeOf r.2 then pure (orInvalid off)
        else sizeLoop fuel (off + 3 + lrdtSizeOf r.2)
      else if PCI_VPD_MAX_SIZE < off + pciVpdSrdtSize (r.2.getD 0 0) then pure (orInvalid off)
      else if pciVpdSrdtTag (r.2.getD 0 0) = PCI_VPD_STIN_END then pure (off + 1 + pciVpdSrdtSize (r.2.getD 0 0))
      else sizeLoop fuel (off + 1 + pciVpdSrdtSize (r.2.getD 0 0))

/-- `pci_vpd_size` -/
def pciVpdSize : Faulty ℕ ℕ := sizeLoop dev rounds vpd rounds 0

/-- `pci_vpd_available` -/
def pciVpdAvailable (checkSize : Bool) : Faulty ℕ (Bool × PciVpd) :=
  if vpd.cap = 0 then pure (false, vpd)
  else if vpd.len = 0 ∧ checkSize then do
    let size ← pciVpdSize dev rounds vpd
    if size % 2 ^ 32 = PCI_VPD_SZ_INVALID then pure (false, ⟨size % 2 ^ 32, 0⟩)
    else pure (true, ⟨size % 2 ^ 32, vpd.cap⟩)
  else pure (true, vpd)

/-- `pci_vpd_read`: what it returns and stores, and the size that is kept. -/
def pciVpdRead (pos : ℤ) (count : ℕ) (checkSize : Bool) : Faulty ℕ ((ℤ × List (BitVec 8)) × PciVpd) := do
  let avail ← pciVpdAvailable dev rounds vpd checkSize
  if avail.1 = false then pure ((-ENODEV, []), avail.2)
  else do
    let r ← pciVpdReadWithin dev rounds (if checkSize then avail.2.len else PCI_VPD_MAX_SIZE) pos count
    pure (r, avail.2)

/-! ### The bytes of the device -/

/-- The byte of the data at `p`. -/
def byteAt (p : ℕ) : BitVec 8 := (dev (p - p % 4) >>> (8 * (p % 4))).setWidth 8

/-- `n` bytes of the data, from `p` on. -/
def span (p n : ℕ) : List (BitVec 8) := (List.range' p n).map (byteAt dev)

section

variable {dev : VpdDevice} {rounds : ℕ} {vpd : PciVpd} {pos stop n m i fuel maxLen count off hdr size base skip : ℕ}
  {buf : List (BitVec 8)} {P : ℕ → Prop}

@[simp] theorem length_span : (span dev pos n).length = n := by
  rw [span, List.length_map, List.length_range']

theorem span_zero : span dev pos 0 = [] := rfl

theorem span_succ : span dev pos (n + 1) = byteAt dev pos :: span dev (pos + 1) n := rfl

theorem span_append : span dev pos n ++ span dev (pos + n) m = span dev pos (n + m) := by
  rw [span, span, ← List.map_append, List.range'_append_1, span]

theorem storeLoop_skip (hi : i ≤ skip) (hskip : skip ≤ 3) {z : ℤ} {v : BitVec 32} :
    storeLoop skip z (4 - i) i (v >>> (8 * i)) pos buf = storeLoop skip z (4 - skip) skip (v >>> (8 * skip)) pos buf := by
  induction hi using Nat.decreasingInduction with
  | self => rfl
  | of_succ k hk ih =>
    obtain ⟨n, hn⟩ : ∃ n, 4 - k = n + 1 := ⟨3 - k, by omega⟩
    rw [← ih, hn, storeLoop, if_pos hk, ← BitVec.shiftRight_add, show n = 4 - (k + 1) by omega,
      show 8 * k + 8 = 8 * (k + 1) by omega]

/-- The bytes of a dword from the `i`-th on are stored, up to `stop`. -/
theorem storeLoop_store (hi : skip ≤ i) (hn : n + i = 4) (hbase : base % 4 = 0) (hstop : base + i < stop) :
    storeLoop skip stop n i (dev base >>> (8 * i)) (base + i) buf =
      (min stop (base + 4), buf ++ span dev (base + i) (min stop (base + 4) - (base + i))) := by
  induction n generalizing i buf with
  | zero =>
    obtain rfl : i = 4 := by omega
    rw [storeLoop, Nat.min_eq_right (by omega), Nat.sub_self, span_zero, List.append_nil]
  | succ n ih =>
    have hbyte : (dev base >>> (8 * i)).setWidth 8 = byteAt dev (base + i) := by
      rw [byteAt, show (base + i) % 4 = i by omega, Nat.add_sub_cancel]
    rw [storeLoop, if_neg (by omega), hbyte]
    split
    next hlast =>
      rw [show min stop (base + 4) = base + i + 1 by omega, Nat.add_sub_cancel_left, span_succ, span_zero]
    next hmore =>
      rw [← BitVec.shiftRight_add, show 8 * i + 8 = 8 * (i + 1) by omega, Nat.add_assoc, ih (by omega) (by omega) (by omega),
        show min stop (base + 4) - (base + i) = min stop (base + 4) - (base + (i + 1)) + 1 by omega, span_succ,
        List.append_assoc, List.singleton_append, Nat.add_assoc]

theorem addrWord_eq (h : pos < 2 ^ 16) : addrWord pos = pos - pos % 4 :=
  Nat.mod_eq_of_lt (Nat.lt_of_le_of_lt (Nat.sub_le _ _) h)

theorem storeLoop_eq (hlt : pos < stop) (hpos : pos < 2 ^ 16) :
    storeLoop (pos % 4) stop 4 0 (dev (addrWord pos)) pos buf =
      (min stop (pos - pos % 4 + 4), buf ++ span dev pos (min stop (pos - pos % 4 + 4) - pos)) := by
  have hbase : pos - pos % 4 + pos % 4 = pos := by omega
  have hskip : storeLoop (pos % 4) stop (4 - 0) 0 (dev (addrWord pos) >>> (8 * 0)) pos buf = _ :=
    storeLoop_skip (by omega) (by omega)
  have hstore : storeLoop (pos % 4) stop (4 - pos % 4) (pos % 4) (dev (pos - pos % 4) >>> (8 * (pos % 4)))
      (pos - pos % 4 + pos % 4) buf = _ := storeLoop_store (Nat.le_refl (pos % 4)) (by omega) (by omega) (by omega)
  rw [hbase] at hstore
  rw [Nat.mul_zero, BitVec.ushiftRight_zero] at hskip
  rw [hskip, addrWord_eq hpos]
  exact hstore

/-! ### What an access reads -/

/-- The bytes up to `stop` are stored, unless an access fails. -/
theorem readLoop_holds (hstop : stop ≤ 2 ^ 16) (hP : ∀ p < stop, P (p - p % 4)) (hle : pos ≤ stop) (hfuel : stop ≤ pos + fuel) :
    (readLoop dev stop (fuel + 1) pos buf).Holds P (fun r => r.1 < 0 ∨ r = (0, buf ++ span dev pos (stop - pos)))
      (fun r => 0 ≤ r.1) := by
  induction fuel generalizing pos buf with
  | zero =>
    obtain rfl : pos = stop := by omega
    rw [readLoop, if_neg (by omega), Nat.sub_self, span_zero, List.append_nil]
    exact .pure (.inr rfl) (Int.le_refl 0)
  | succ fuel ih =>
    rw [readLoop]
    split
    next hlt =>
      have hword : addrWord pos = _ := addrWord_eq (by omega)
      refine .bind (.step (hword ▸ hP pos (by omega))) fun ret _ => ?_
      split
      next hneg => exact .pure (.inl hneg) fun h => h ▸ Int.le_refl 0
      refine .bind .silent fun ret' _ => ?_
      split
      next hneg => exact .pure (.inl hneg) fun h _ => h ▸ Int.le_refl 0
      refine .bind .silent fun ret'' _ => ?_
      split
      next hneg => exact .pure (.inl hneg) fun h _ _ => h ▸ Int.le_refl 0
      rw [storeLoop_eq (by omega) (by omega)]
      have hnext : min stop (pos - pos % 4 + 4) ≤ stop := Nat.min_le_left ..
      refine (ih hnext (by omega)).mono ?_ fun _ _ h _ _ _ => h
      rintro r (hneg | rfl)
      · exact .inl hneg
      · refine .inr (congrArg _ ?_)
        generalize hnext : min stop (pos - pos % 4 + 4) = next
        rw [List.append_assoc, show span dev next (stop - next) = span dev (pos + (next - pos)) (stop - next) by
          rw [show pos + (next - pos) = next by omega], span_append, show next - pos + (stop - next) = stop - pos by omega]
    next hge =>
      obtain rfl : pos = stop := by omega
      rw [Nat.sub_self, span_zero, List.append_nil]
      exact .pure (.inr rfl) (Int.le_refl 0)

theorem toS64_of_lt {z : ℤ} (h0 : 0 ≤ z) (h : z < 2 ^ 63) : toS64 z = z := by
  rw [toS64, Int.bmod_eq_of_le (by omega) (by omega)]

theorem toS64_of_ge {z : ℤ} (h0 : 2 ^ 63 ≤ z) (h : z < 2 ^ 64 + 2 ^ 63) : toS64 z = z - 2 ^ 64 := by
  rw [toS64, Int.bmod_def]
  split <;> omega

/-- What is returned and stored for the bytes up to `stop`. -/
def Stored (dev : VpdDevice) (pos stop : ℕ) (r : ℤ × List (BitVec 8)) : Prop :=
  r = (((stop - pos : ℕ) : ℤ), span dev pos (stop - pos))

theorem readUpTo_holds (hstop : stop ≤ 2 ^ 16) (hle : pos ≤ stop) (hrounds : stop < rounds) {z : ℤ}
    (hz : z = (stop - pos : ℕ)) :
    (readUpTo dev rounds stop pos z).Holds (· < stop) (fun r => r.1 < 0 ∨ Stored dev pos stop r) (fun r => 0 ≤ r.1) := by
  obtain ⟨fuel, rfl⟩ : ∃ fuel, rounds = fuel + 1 := ⟨rounds - 1, by omega⟩
  have hs64 : toS64 z = z := toS64_of_lt (by omega) (by omega)
  refine .bind (readLoop_holds hstop (fun p hp => by omega) hle (by omega)) fun r hr => .pure ?_ fun h => ?_
  · obtain hneg | rfl := hr
    · exact .inl (by dsimp only; rwa [if_pos (by omega)])
    · refine .inr ?_
      rw [Stored, if_neg (by simp), hs64, hz, List.nil_append]
  · dsimp only
    split
    · exact h
    · omega

/-- The bytes from `pos` up to `pos + count` or the size, unless an access fails. -/
theorem pciVpdReadWithin_holds (hmax : maxLen ≤ PCI_VPD_MAX_SIZE) (hrounds : PCI_VPD_MAX_SIZE < rounds) (hpos : pos < maxLen)
    (hcount : pos + count < 2 ^ 63) :
    (pciVpdReadWithin dev rounds maxLen pos count).Holds (· < maxLen)
      (fun r => r.1 < 0 ∨ Stored dev pos (min (pos + count) maxLen) r) (fun r => 0 ≤ r.1) := by
  unfold PCI_VPD_MAX_SIZE at hmax hrounds
  rw [pciVpdReadWithin, if_neg (by omega), if_neg (by omega), ← Int.natCast_add, toS64_of_lt (by omega) (by omega),
    Int.toNat_natCast]
  refine .bind .silent fun ret _ => ?_
  split
  next hneg => exact .pure (.inl (by decide)) fun h => by omega
  split
  next hgt =>
    rw [Nat.min_eq_right (by omega)]
    exact (readUpTo_holds (by omega) (by omega) (by omega) (by omega)).mono (fun _ h => h) fun _ _ h _ => h
  next hle =>
    rw [Nat.min_eq_left (by omega)]
    exact ((readUpTo_holds (by omega) (by omega) (by omega) (by omega)).events fun w hw => by omega).mono
      (fun _ h => h) fun _ _ h _ => h

theorem readUpTo_of_le {z w : ℤ} (hle : z ≤ pos) (hrounds : 0 < rounds) : readUpTo dev rounds z pos w = pure (toS64 w, []) := by
  obtain ⟨fuel, rfl⟩ : ∃ fuel, rounds = fuel + 1 := ⟨rounds - 1, by omega⟩
  rw [readUpTo, readLoop, if_neg (by omega)]
  rfl

/-- Where the end is not above the position, no byte is read. -/
theorem pciVpdReadWithin_wrapped (hpos : pos < maxLen) (hmax : maxLen ≤ PCI_VPD_MAX_SIZE) (hrounds : 0 < rounds)
    (hcount : 2 ^ 63 ≤ pos + count) (hlt : count < 2 ^ 64) :
    (pciVpdReadWithin dev rounds maxLen pos count).Holds (· < maxLen) (fun r => r.1 < 0 ∨ r = (toS64 count, []))
      (fun r => r = (toS64 count, [])) := by
  unfold PCI_VPD_MAX_SIZE at hmax
  have hend : toS64 ((pos : ℤ) + count) = pos + count - 2 ^ 64 := toS64_of_ge (by omega) (by omega)
  rw [pciVpdReadWithin, if_neg (by omega), if_neg (by omega), hend, Int.toNat_natCast]
  refine .bind .silent fun ret _ => ?_
  split
  next hneg => exact .pure (.inl (by decide)) fun h => by omega
  rw [if_neg (by omega), readUpTo_of_le (by omega) hrounds]
  exact .pure (.inr rfl) fun _ => rfl

/-! ### The walk over the items -/

/-- Where the first byte says that there are no data. -/
def Blank (dev : VpdDevice) (off : ℕ) : Prop := off = 0 ∧ (byteAt dev off = 0x00 ∨ byteAt dev off = 0xff)

instance (off : ℕ) : Decidable (Blank dev off) := inferInstanceAs (Decidable (_ ∧ _))

/-- The size of the data of a large item. -/
def largeSize (dev : VpdDevice) (off : ℕ) : ℕ := (byteAt dev (off + 1)).toNat + 2 ^ 8 * (byteAt dev (off + 2)).toNat

/-- The item at `off` is accepted, with `hdr` bytes of header and `size` bytes of data. Only the data are compared with
the end of the address space. -/
inductive TagItem (dev : VpdDevice) (off : ℕ) : ℕ → ℕ → Prop
  | large (hblank : ¬Blank dev off) (hlarge : byteAt dev off &&& PCI_VPD_LRDT ≠ 0) (hhdr : off + 3 ≤ PCI_VPD_MAX_SIZE)
      (hsize : off + largeSize dev off ≤ PCI_VPD_MAX_SIZE) : TagItem dev off 3 (largeSize dev off)
  | small (hblank : ¬Blank dev off) (hsmall : byteAt dev off &&& PCI_VPD_LRDT = 0) (hhdr : off < PCI_VPD_MAX_SIZE)
      (hsize : off + pciVpdSrdtSize (byteAt dev off) ≤ PCI_VPD_MAX_SIZE) :
      TagItem dev off 1 (pciVpdSrdtSize (byteAt dev off))

/-- The end tag is a small item. -/
def EndTag (dev : VpdDevice) (off : ℕ) : Prop := pciVpdSrdtTag (byteAt dev off) = PCI_VPD_STIN_END

/-- An item that is reached from `off` ends at `stop`. Nothing is reached behind the end tag. -/
inductive ItemEnd (dev : VpdDevice) : ℕ → ℕ → Prop
  | item {off hdr size : ℕ} (h : TagItem dev off hdr size) : ItemEnd dev off (off + hdr + size)
  | next {off hdr size stop : ℕ} (h : TagItem dev off hdr size) (hend : ¬EndTag dev off)
      (hrest : ItemEnd dev (off + hdr + size) stop) : ItemEnd dev off stop

theorem TagItem.bounds (h : TagItem dev off hdr size) :
    off < PCI_VPD_MAX_SIZE ∧ 0 < hdr ∧ hdr ≤ 3 ∧ off + size ≤ PCI_VPD_MAX_SIZE := by
  cases h with
  | large hblank hlarge hhdr hsize => exact ⟨Nat.lt_of_lt_of_le (by omega) hhdr, by omega, by omega, hsize⟩
  | small hblank hsmall hhdr hsize => exact ⟨hhdr, by omega, by omega, hsize⟩

theorem ItemEnd.bounds (h : ItemEnd dev off stop) : 0 < stop ∧ stop ≤ PCI_VPD_MAX_SIZE + 3 := by
  induction h with
  | item h =>
    have := h.bounds
    omega
  | next h hend hrest ih => exact ih

theorem TagItem.unique {hdr' size' : ℕ} (h : TagItem dev off hdr size) (h' : TagItem dev off hdr' size') :
    hdr = hdr' ∧ size = size' := by
  cases h with
  | large hblank hlarge hhdr hsize =>
    cases h' with
    | large => exact ⟨rfl, rfl⟩
    | small _ hsmall => exact absurd hsmall hlarge
  | small hblank hsmall hhdr hsize =>
    cases h' with
    | large _ hlarge => exact absurd hsmall hlarge
    | small => exact ⟨rfl, rfl⟩

/-- Without an item at an offset nothing is reached from there. -/
theorem not_itemEnd (h : ∀ hdr size, ¬TagItem dev off hdr size) : ¬ItemEnd dev off stop := by
  rintro (hitem | ⟨hitem, -, -⟩)
  · exact h _ _ hitem
  · exact h _ _ hitem

/-- A size that the walk may give from `off` on. -/
def SizeFrom (dev : VpdDevice) (off r : ℕ) : Prop := r = PCI_VPD_SZ_INVALID ∨ r = off ∨ ItemEnd dev off r

/-- The size that the walk gives if no access fails. -/
def LastSize (dev : VpdDevice) (off r : ℕ) : Prop :=
  off ≤ r ∧ (0 < off → r ≠ PCI_VPD_SZ_INVALID) ∧ ∀ stop, ItemEnd dev off stop → stop ≤ r ∧ r ≠ PCI_VPD_SZ_INVALID

theorem sizeFrom_orInvalid : SizeFrom dev off (orInvalid off) := by
  unfold orInvalid
  split
  · exact .inl rfl
  · exact .inr (.inl rfl)

theorem lastSize_self (hoff : off ≤ 2 ^ 16) (h : ∀ hdr size, ¬TagItem dev off hdr size) : LastSize dev off off := by
  refine ⟨Nat.le_refl _, fun _ => ?_, fun stop hstop => absurd hstop (not_itemEnd h)⟩
  unfold PCI_VPD_SZ_INVALID
  omega

theorem lastSize_orInvalid (hoff : off ≤ 2 ^ 16) (h : ∀ hdr size, ¬TagItem dev off hdr size) :
    LastSize dev off (orInvalid off) := by
  unfold orInvalid
  split
  next hzero => exact ⟨by omega, fun hpos => by omega, fun stop hstop => absurd hstop (not_itemEnd h)⟩
  · exact lastSize_self hoff h

theorem SizeFrom.next {r : ℕ} (h : TagItem dev off hdr size) (hend : ¬EndTag dev off)
    (hr : SizeFrom dev (off + hdr + size) r) : SizeFrom dev off r := by
  obtain rfl | rfl | hr := hr
  · exact .inl rfl
  · exact .inr (.inr (.item h))
  · exact .inr (.inr (.next h hend hr))

theorem LastSize.next {r : ℕ} (h : TagItem dev off hdr size) (hr : LastSize dev (off + hdr + size) r) :
    LastSize dev off r := by
  obtain ⟨hle, hvalid, hreach⟩ := hr
  have hpos := h.bounds.2.1
  refine ⟨by omega, fun _ => hvalid (by omega), ?_⟩
  rintro stop (hitem | ⟨hitem, -, hrest⟩)
  · obtain ⟨rfl, rfl⟩ := h.unique hitem
    exact ⟨hle, hvalid (by omega)⟩
  · obtain ⟨rfl, rfl⟩ := h.unique hitem
    exact hreach stop hrest

theorem lastSize_end (h : TagItem dev off hdr size) (hend : EndTag dev off) : LastSize dev off (off + hdr + size) := by
  have hstop := (ItemEnd.item h).bounds
  have hvalid : off + hdr + size ≠ PCI_VPD_SZ_INVALID := by
    unfold PCI_VPD_SZ_INVALID
    unfold PCI_VPD_MAX_SIZE at hstop
    omega
  refine ⟨by omega, fun _ => hvalid, ?_⟩
  rintro stop (hitem | ⟨-, hnot, -⟩)
  · obtain ⟨rfl, rfl⟩ := h.unique hitem
    exact ⟨Nat.le_refl _, hvalid⟩
  · exact absurd hend hnot

/-- A read that is complete gives the bytes, and it is complete if no access fails. -/
theorem pciReadVpdAny_holds (hcap : vpd.cap ≠ 0) (hrounds : PCI_VPD_MAX_SIZE < rounds) (hn : 0 < n)
    (hlt : off + n < 2 ^ 63) :
    (pciReadVpdAny dev rounds vpd off n).Holds (· < PCI_VPD_MAX_SIZE)
      (fun r => r.1 = (n : ℤ) → off + n ≤ PCI_VPD_MAX_SIZE ∧ r.2 = span dev off n)
      (fun r => off + n ≤ PCI_VPD_MAX_SIZE → r.1 = (n : ℤ)) := by
  rw [pciReadVpdAny, if_neg hcap]
  obtain hoff | hoff := Nat.lt_or_ge off PCI_VPD_MAX_SIZE
  · refine (pciVpdReadWithin_holds (Nat.le_refl _) hrounds hoff hlt).mono ?_ ?_
    · rintro r (hneg | rfl) hr
      · omega
      · dsimp only at hr ⊢
        obtain hmin : min (off + n) PCI_VPD_MAX_SIZE - off = n := by omega
        exact ⟨by omega, by rw [hmin]⟩
    · rintro r (hneg | rfl) hr hle
      · omega
      · dsimp only
        omega
  · rw [pciVpdReadWithin, if_neg (by omega), if_pos (by omega)]
    exact .pure (fun h => by dsimp only at h; omega) fun h => by omega

/-- One round of the walk, if the rest of it is right. -/
theorem sizeLoop_step (hcap : vpd.cap ≠ 0) (hrounds : PCI_VPD_MAX_SIZE < rounds) (hoff : off ≤ 2 ^ 16)
    (hrest : ∀ hdr size, TagItem dev off hdr size → ¬EndTag dev off →
      (sizeLoop dev rounds vpd fuel (off + hdr + size)).Holds (· < PCI_VPD_MAX_SIZE) (SizeFrom dev (off + hdr + size))
        (LastSize dev (off + hdr + size))) :
    (sizeLoop dev rounds vpd (fuel + 1) off).Holds (· < PCI_VPD_MAX_SIZE) (SizeFrom dev off) (LastSize dev off) := by
  rw [sizeLoop]
  have hread : (pciReadVpdAny dev rounds vpd off 1).Holds _ _ _ := pciReadVpdAny_holds hcap hrounds Nat.one_pos (by omega)
  refine .bind hread fun r hr => ?_
  split
  next hshort =>
    refine .pure (.inr (.inl rfl)) fun hquiet => lastSize_self hoff fun hdr size h => hshort (hquiet h.bounds.1)
  next hone =>
  obtain ⟨hlt, hbytes⟩ := hr (not_not.mp hone)
  rw [hbytes, show (span dev off 1).getD 0 0 = byteAt dev off from rfl]
  split
  next hblank =>
    refine .pure sizeFrom_orInvalid fun _ => lastSize_orInvalid hoff fun hdr size h => ?_
    cases h with
    | large hnot => exact hnot hblank
    | small hnot => exact hnot hblank
  next hblank =>
  split
  next hlarge =>
    have hread' : (pciReadVpdAny dev rounds vpd (off + 1) 2).Holds _ _ _ :=
      pciReadVpdAny_holds hcap hrounds Nat.two_pos (by omega)
    refine .bind hread' fun r' hr' => ?_
    split
    next hshort =>
      refine .pure sizeFrom_orInvalid fun hquiet _ => lastSize_orInvalid hoff fun hdr size h => ?_
      cases h with
      | large _ _ hhdr => exact hshort (hquiet hhdr)
      | small _ hsmall => exact hlarge hsmall
    next htwo =>
    obtain ⟨hhdr, hbytes'⟩ := hr' (not_not.mp htwo)
    rw [hbytes', show lrdtSizeOf (span dev (off + 1) 2) = largeSize dev off from rfl]
    split
    next hgt =>
      refine .pure sizeFrom_orInvalid fun _ _ => lastSize_orInvalid hoff fun hdr size h => ?_
      cases h with
      | large _ _ _ hsize => omega
      | small _ hsmall => exact hlarge hsmall
    next hle =>
    have hitem : TagItem dev off 3 (largeSize dev off) := .large hblank hlarge hhdr (by omega)
    have hend : ¬EndTag dev off := fun hend => hlarge (not_large_of_isEnd hend)
    exact (hrest 3 _ hitem hend).mono (fun _ => SizeFrom.next hitem hend) fun _ _ hlast _ _ => hlast.next hitem
  next hsmall =>
  replace hsmall := not_not.mp hsmall
  split
  next hgt =>
    refine .pure sizeFrom_orInvalid fun _ => lastSize_orInvalid hoff fun hdr size h => ?_
    cases h with
    | large _ hlarge => exact hlarge hsmall
    | small _ _ _ hsize => omega
  next hle =>
  have hitem : TagItem dev off 1 (pciVpdSrdtSize (byteAt dev off)) := .small hblank hsmall (by omega) (by omega)
  split
  next hend => exact .pure (.inr (.inr (.item hitem))) fun _ => lastSize_end hitem hend
  next hend => exact (hrest 1 _ hitem hend).mono (fun _ => SizeFrom.next hitem hend) fun _ _ hlast _ => hlast.next hitem

theorem sizeLoop_holds (hcap : vpd.cap ≠ 0) (hrounds : PCI_VPD_MAX_SIZE < rounds) (hoff : off ≤ PCI_VPD_MAX_SIZE + 3)
    (hfuel : PCI_VPD_MAX_SIZE ≤ off + fuel) :
    (sizeLoop dev rounds vpd (fuel + 1) off).Holds (· < PCI_VPD_MAX_SIZE) (SizeFrom dev off) (LastSize dev off) := by
  have hmax : PCI_VPD_MAX_SIZE = 2 ^ 15 := rfl
  induction fuel generalizing off with
  | zero => exact sizeLoop_step hcap hrounds (by omega) fun hdr size h => absurd h.bounds.1 (by omega)
  | succ fuel ih =>
    refine sizeLoop_step hcap hrounds (by omega) fun hdr size h _ => ?_
    have := h.bounds
    exact ih (by omega) (by omega)

theorem pciVpdSize_holds (hcap : vpd.cap ≠ 0) (hrounds : PCI_VPD_MAX_SIZE < rounds) :
    (pciVpdSize dev rounds vpd).Holds (· < PCI_VPD_MAX_SIZE) (SizeFrom dev 0) (LastSize dev 0) := by
  obtain ⟨fuel, hfuel⟩ : ∃ fuel, rounds = fuel + 1 := ⟨rounds - 1, by omega⟩
  have h : (sizeLoop dev rounds vpd (fuel + 1) 0).Holds _ _ _ := sizeLoop_holds hcap hrounds (Nat.zero_le _) (by omega)
  rwa [← hfuel] at h

/-! ### Runs -/

/-- What is known of the size: nothing yet, or it is one that the walk may give. -/
def Sized (dev : VpdDevice) (vpd : PciVpd) : Prop := vpd.cap = 0 ∨ vpd.len = 0 ∨ ItemEnd dev 0 vpd.len

/-- The states that reads lead to, of a device that was found at `cap`. -/
inductive Known (dev : VpdDevice) (rounds : ℕ) : PciVpd → Prop
  | init (cap : ℕ) : Known dev rounds ⟨0, cap⟩
  | read {vpd : PciVpd} {pos : ℤ} {count : ℕ} {checkSize : Bool} {errs : Errs} {r : ((ℤ × List (BitVec 8)) × PciVpd) × Errs}
      (h : Known dev rounds vpd) (hr : r ∈ (pciVpdRead dev rounds vpd pos count checkSize errs).result) :
      Known dev rounds r.1.2

/-- `pci_vpd_size` ends, and what it returns is in the address space. -/
def SizeRight (dev : VpdDevice) : Prop :=
  ∀ (rounds : ℕ) (vpd : PciVpd) (errs : Errs), PCI_VPD_MAX_SIZE < rounds → vpd.cap ≠ 0 →
    (pciVpdSize dev rounds vpd errs).Total (fun _ => True) fun r => r.1 = PCI_VPD_SZ_INVALID ∨ r.1 ≤ PCI_VPD_MAX_SIZE

/-- `pci_vpd_read` never writes an address word with `PCI_VPD_ADDR_F`, which is bit 15. After the size is determined, it
only reads below the size, and if it succeeds then it gives the bytes from `pos` up to `pos + count` or the size. -/
def ReadRight (dev : VpdDevice) (pos : ℤ) (count : ℕ) : Prop :=
  ∀ (rounds : ℕ) (vpd : PciVpd) (errs : Errs), PCI_VPD_MAX_SIZE < rounds → Known dev rounds vpd →
    (pciVpdRead dev rounds vpd pos count true errs).Total (fun w => w.testBit 15 = false) (fun _ => True) ∧
    ∀ avail ∈ (pciVpdAvailable dev rounds vpd true errs).result, avail.1.1 = true →
      (pciVpdReadWithin dev rounds avail.1.2.len pos count avail.2).Total (· < avail.1.2.len) fun r =>
        0 ≤ r.1.1 → Stored dev pos.toNat (min (pos.toNat + count) avail.1.2.len) r.1

/-- Every item that is reached ends in the address space. -/
def Within (dev : VpdDevice) : Prop := ∀ stop, ItemEnd dev 0 stop → stop ≤ PCI_VPD_MAX_SIZE

/-- The end of the bytes is a position in a file, or nothing is read or reported to be read. -/
def Addressable (dev : VpdDevice) (pos : ℤ) (count : ℕ) : Prop :=
  pos < 0 ∨ pos + count < 2 ^ 63 ∨ 2 ^ 63 ≤ count ∨ ∀ stop, ItemEnd dev 0 stop → (stop : ℤ) ≤ pos

theorem pciVpdAvailable_holds (hrounds : PCI_VPD_MAX_SIZE < rounds) (hvpd : Sized dev vpd) (checkSize : Bool) :
    (pciVpdAvailable dev rounds vpd checkSize).Holds (· < PCI_VPD_MAX_SIZE)
      (fun r => Sized dev r.2 ∧ (r.1 = true → r.2.cap ≠ 0))
      (fun r => vpd.cap ≠ 0 → vpd.len = 0 → checkSize = true → ∀ stop, ItemEnd dev 0 stop → r.1 = true ∧ stop ≤ r.2.len) := by
  rw [pciVpdAvailable]
  split
  next hcap => exact .pure ⟨hvpd, fun h => nomatch h⟩ fun h => absurd hcap h
  next hcap =>
  split
  next hlen =>
    refine .bind (pciVpdSize_holds hcap hrounds) fun size hsize => ?_
    have hmod : size % 2 ^ 32 = size := by
      refine Nat.mod_eq_of_lt ?_
      obtain rfl | rfl | hstop := hsize
      · decide
      · decide
      · have := hstop.bounds
        unfold PCI_VPD_MAX_SIZE at this
        omega
    rw [hmod]
    split
    next hinvalid =>
      exact .pure ⟨.inl rfl, fun h => nomatch h⟩ fun hlast _ _ _ stop hstop => absurd hinvalid (hlast.2.2 stop hstop).2
    next hvalid =>
      refine .pure ⟨.inr ?_, fun _ => hcap⟩ fun hlast _ _ _ stop hstop => ⟨rfl, (hlast.2.2 stop hstop).1⟩
      obtain hinvalid | hzero | hstop := hsize
      · exact absurd hinvalid hvalid
      · exact .inl hzero
      · exact .inr hstop
  next hlen => exact .pure ⟨hvpd, fun _ => hcap⟩ fun _ h0 hcheck => absurd ⟨h0, hcheck⟩ hlen

theorem Known.sized (h : Known dev rounds vpd) (hrounds : PCI_VPD_MAX_SIZE < rounds) : Sized dev vpd := by
  induction h with
  | init cap => exact .inr (.inl rfl)
  | read h hr ih =>
    rw [pciVpdRead, Faulty.bind_apply, Option.mem_def, Traced.result_bind, Option.bind_eq_some_iff] at hr
    obtain ⟨avail, havail, hr⟩ := hr
    have hsized := ((pciVpdAvailable_holds hrounds ih _).of_result havail).1.1
    split at hr
    · obtain rfl := Option.some.inj hr
      exact hsized
    · rw [Faulty.bind_apply, Traced.result_bind, Option.bind_eq_some_iff] at hr
      obtain ⟨r', -, hr⟩ := hr
      obtain rfl := Option.some.inj hr
      exact hsized

/-- The part of the read behind the check of the size. -/
theorem pciVpdReadWithin_right {pos : ℤ} (hmax : maxLen ≤ PCI_VPD_MAX_SIZE) (hrounds : PCI_VPD_MAX_SIZE < rounds)
    (hcount : count < 2 ^ 64) (h : pos < 0 ∨ pos + count < 2 ^ 63 ∨ 2 ^ 63 ≤ count ∨ maxLen ≤ pos) :
    (pciVpdReadWithin dev rounds maxLen pos count).Holds (· < maxLen)
      (fun r => 0 ≤ r.1 → Stored dev pos.toNat (min (pos.toNat + count) maxLen) r) (fun _ => True) := by
  obtain hneg | hnonneg := lt_or_ge pos 0
  · rw [pciVpdReadWithin, if_pos hneg]
    exact .pure (fun h => absurd h (by decide)) trivial
  obtain ⟨p, rfl⟩ := Int.eq_ofNat_of_zero_le hnonneg
  rw [Int.toNat_natCast]
  obtain hge | hlt := Nat.lt_or_ge p maxLen |>.symm
  · rw [pciVpdReadWithin, if_neg (by omega), if_pos (by omega)]
    refine .pure (fun _ => ?_) trivial
    rw [Stored, show min (p + count) maxLen - p = 0 by omega]
    rfl
  obtain hfits | hwraps := Nat.lt_or_ge (p + count) (2 ^ 63)
  · refine (pciVpdReadWithin_holds hmax hrounds hlt hfits).mono ?_ fun _ _ _ => trivial
    rintro r (hneg | hstored) hr
    · omega
    · exact hstored
  · refine (pciVpdReadWithin_wrapped hlt hmax (by omega) hwraps hcount).mono ?_ fun _ _ _ => trivial
    have hneg : toS64 count < 0 := by
      rw [toS64_of_ge (by omega) (by omega)]
      omega
    rintro r (hneg | rfl) hr
    · omega
    · exact absurd hr (by dsimp only; omega)

theorem sizeRight_of_within (h : Within dev) : SizeRight dev := by
  intro rounds vpd errs hrounds hcap
  refine ⟨fun _ _ => trivial, ?_⟩
  have hholds : (pciVpdSize dev rounds vpd).Holds _ _ _ := pciVpdSize_holds hcap hrounds
  obtain ⟨-, r, hr, hsize, -⟩ := hholds errs
  refine ⟨r, hr, ?_⟩
  obtain hinvalid | hzero | hstop := hsize
  · exact .inl hinvalid
  · exact .inr (hzero ▸ Nat.zero_le _)
  · exact .inr (h _ hstop)

theorem readRight_of_within {pos : ℤ} (hcount : count < 2 ^ 64) (h : Within dev) (haddr : Addressable dev pos count) :
    ReadRight dev pos count := by
  intro rounds vpd errs hrounds hvpd
  have hmax : PCI_VPD_MAX_SIZE = 2 ^ 15 := rfl
  have hword : ∀ w, w < PCI_VPD_MAX_SIZE → w.testBit 15 = false := fun w hw => Nat.testBit_lt_two_pow (hmax ▸ hw)
  have havail : (pciVpdAvailable dev rounds vpd true).Holds _ _ _ := pciVpdAvailable_holds hrounds (hvpd.sized hrounds) true
  have hread : ∀ vpd' : PciVpd, Sized dev vpd' → vpd'.cap ≠ 0 →
      (pciVpdReadWithin dev rounds vpd'.len pos count).Holds (fun w => w < vpd'.len ∧ w.testBit 15 = false)
        (fun r => 0 ≤ r.1 → Stored dev pos.toNat (min (pos.toNat + count) vpd'.len) r) (fun _ => True) := by
    intro vpd' hsized hcap
    have hlen : vpd'.len = 0 ∨ ItemEnd dev 0 vpd'.len := hsized.resolve_left hcap
    have hle : vpd'.len ≤ PCI_VPD_MAX_SIZE := hlen.elim (fun h0 => by omega) (h _)
    refine (pciVpdReadWithin_right hle hrounds hcount ?_).events fun w hw => ⟨hw, hword w (by omega)⟩
    obtain hneg | hfits | hlarge | hstops := haddr
    · exact .inl hneg
    · exact .inr (.inl hfits)
    · exact .inr (.inr (.inl hlarge))
    · obtain h0 | hstop := hlen
      · omega
      · exact .inr (.inr (.inr (hstops _ hstop)))
  have hall : (pciVpdRead dev rounds vpd pos count true).Holds (fun w => w.testBit 15 = false) (fun _ => True)
      (fun _ => True) := by
    refine .bind (havail.events hword) fun avail hsized => ?_
    split
    · exact .pure trivial fun _ => trivial
    next htrue =>
      have hcap := hsized.2 (by simpa using htrue)
      exact .bind ((hread avail.2 hsized.1 hcap).events fun w hw => hw.2) fun _ _ => .pure trivial fun _ _ => trivial
  constructor
  · exact hall.total errs
  · intro avail hresult htrue
    obtain ⟨⟨hsized, hcap⟩, -⟩ := havail.of_result hresult
    have htotal := (hread avail.1.2 hsized (hcap htrue) avail.2)
    exact ⟨fun w hw => (htotal.1 w hw).1, htotal.2.imp fun r hr => ⟨hr.1, hr.2.1⟩⟩

/-- Nothing fails. -/
def noErrs : Errs := fun _ => 0

theorem within_of_sizeRight (h : SizeRight dev) : Within dev := by
  intro stop hstop
  have hholds : (pciVpdSize dev (PCI_VPD_MAX_SIZE + 1) ⟨0, 1⟩).Holds _ _ _ :=
    pciVpdSize_holds Nat.one_ne_zero (Nat.lt_succ_self _)
  obtain ⟨-, r, hr, hright⟩ := h (PCI_VPD_MAX_SIZE + 1) ⟨0, 1⟩ noErrs (Nat.lt_succ_self _) Nat.one_ne_zero
  obtain ⟨hle, hvalid⟩ := ((hholds.of_result hr).2 fun _ => rfl).1.2.2 stop hstop
  exact hle.trans (hright.resolve_left hvalid)

/-- Where the end is not a position in a file, the read succeeds without bytes. -/
theorem addressable_of_readRight {pos : ℤ} (hcount : count < 2 ^ 64) (hwithin : Within dev) (h : ReadRight dev pos count) :
    Addressable dev pos count := by
  by_contra hnot
  simp only [Addressable, not_or, not_forall, not_lt, not_le] at hnot
  obtain ⟨hpos, hwraps, hsmall, stop, hstop, hlt⟩ := hnot
  obtain ⟨p, rfl⟩ := Int.eq_ofNat_of_zero_le hpos
  have hrounds : PCI_VPD_MAX_SIZE < PCI_VPD_MAX_SIZE + 1 := Nat.lt_succ_self _
  have hholds : (pciVpdAvailable dev (PCI_VPD_MAX_SIZE + 1) ⟨0, 1⟩ true).Holds _ _ _ :=
    pciVpdAvailable_holds hrounds (.inr (.inl rfl)) true
  obtain ⟨-, avail, havail, ⟨hsized, hcap⟩, hquiet⟩ := hholds noErrs
  obtain ⟨hlast, hquiet⟩ := hquiet fun _ => rfl
  obtain ⟨htrue, hlen⟩ := hlast Nat.one_ne_zero rfl rfl stop hstop
  have hle : avail.1.2.len ≤ PCI_VPD_MAX_SIZE := by
    obtain hzero | hzero | hend := hsized
    · exact absurd hzero (hcap htrue)
    · omega
    · exact hwithin _ hend
  obtain ⟨-, r, hr, hright⟩ := (h _ _ noErrs hrounds (.init 1)).2 avail havail htrue
  have hwrapped : (pciVpdReadWithin dev (PCI_VPD_MAX_SIZE + 1) avail.1.2.len p count).Holds _ _ _ :=
    pciVpdReadWithin_wrapped (by omega) hle (by omega) (by omega) hcount
  have hnone := ((hwrapped.of_result hr).2 hquiet).1
  have hs64 : toS64 count = count := toS64_of_lt (by omega) (by omega)
  rw [hnone, hs64] at hright
  have hbytes := congrArg (fun r => r.2.length) (hright (Int.natCast_nonneg count))
  simp only [List.length_nil, length_span, Int.toNat_natCast] at hbytes
  have hmax : PCI_VPD_MAX_SIZE = 2 ^ 15 := rfl
  rw [Nat.min_eq_right (by omega)] at hbytes
  omega

/-- The size is in the address space if every item is, and then the reads are right at the positions in a file. -/
theorem vpdRight_iff (dev : VpdDevice) (pos : ℤ) (count : ℕ) (hcount : count < 2 ^ 64) :
    SizeRight dev ∧ ReadRight dev pos count ↔ Within dev ∧ Addressable dev pos count := by
  constructor
  · rintro ⟨hsize, hread⟩
    have hwithin := within_of_sizeRight hsize
    exact ⟨hwithin, addressable_of_readRight hcount hwithin hread⟩
  · rintro ⟨hwithin, haddr⟩
    exact ⟨sizeRight_of_within hwithin, readRight_of_within hcount hwithin haddr⟩

/-- A device with nothing but an end tag. -/
def endOnly : VpdDevice := fun _ => 0x78

theorem endOnly_itemEnd (h : ItemEnd endOnly 0 stop) : stop = 1 := by
  have hitem : TagItem endOnly 0 1 0 := .small (by decide) (by decide) (by decide) (by decide)
  obtain hitem' | ⟨-, hnot, -⟩ := h
  · obtain ⟨rfl, rfl⟩ := hitem.unique hitem'
    rfl
  · exact absurd rfl hnot

theorem endOnly_vpdRight : SizeRight endOnly ∧ ReadRight endOnly 0 4 :=
  (vpdRight_iff endOnly 0 4 (by decide)).mpr
    ⟨fun _ hstop => endOnly_itemEnd hstop ▸ by decide, .inr (.inl (by decide))⟩

/-- A device with a large item of `0x8000` bytes, whose header is not counted. -/
def fullItem : VpdDevice := fun w => if w = 0 then 0x00800082 else 0

/-- The size is `0x8003`. -/
theorem fullItem_not_sizeRight : ¬SizeRight fullItem := by
  intro h
  have hitem : TagItem fullItem 0 3 (largeSize fullItem 0) := .large (by decide) (by decide) (by decide) (by decide)
  exact absurd (within_of_sizeRight h _ (.item hitem)) (by decide)

end

end GfpDrivers.Pci.Vpd
