import GfpDrivers.Lib.Runs
import GfpDrivers.Virtio.PackedIds

/-!
The slots of a packed virtqueue against a device that follows the protocol:
it completes buffers in any order, each by one used descriptor at its next
position, and skips as many slots as the buffer has descriptors.

The driver, the device and the ring are put together in one system. The
positions of both sides are kept as unbounded counters, and the buffers as
two lists: those the device has not completed, and those it has completed
and the driver has not taken back yet.
-/

namespace GfpDrivers.Virtio

open Lib Function

/-- A driver and a device on one packed queue. A buffer is its id and the
number of its descriptors. -/
structure SlotSys where
  vq : PackedVq
  /-- The position up to which slots have been made available. -/
  avail : ℕ
  /-- The next used position of the device. -/
  devPos : ℕ
  /-- The position after all completions that the driver has taken. -/
  used : ℕ
  outstanding : List (ℕ × ℕ)
  completed : List (ℕ × ℕ)

inductive SlotAct where
  | add (a : AddArgs)
  | getBuf
  /-- The device completes the `i`-th outstanding buffer. -/
  | complete (i len : ℕ) (flags : BitVec 16)

/-- `is_used_desc_packed`, of the flags alone. -/
def usedFlags (flags : BitVec 16) (lap : Bool) : Bool :=
  decide (hasFlag flags packedFAvail) == decide (hasFlag flags packedFUsed) &&
    decide (hasFlag flags packedFUsed) == lap

/-- A step of the driver or of the device. The flags of a used descriptor
have both bits of the lap of its position. -/
def slotStep (s : SlotSys) : SlotAct → Option SlotSys
  | .add a => (virtqueueAddPacked s.vq a).map fun r =>
      let n := s.vq.numFree - r.1.numFree
      if r.2 = 0 then
        { s with
          vq := r.1
          avail := s.avail + n
          outstanding := s.outstanding ++ [(s.vq.freeHead, n)] }
      else { s with vq := r.1 }
  | .getBuf =>
      let r := virtqueueGetBufCtxPacked s.vq
      match s.completed with
      | (_, n) :: completed =>
          if r.ret ≠ 0 then
            some { s with vq := r.vq, used := s.used + n, completed := completed }
          else some { s with vq := r.vq }
      | [] => some { s with vq := r.vq }
  | .complete i len flags =>
      match s.outstanding[i]? with
      | none => none
      | some (id, n) =>
          if usedFlags flags (lap s.vq.num s.devPos) then
            let x := slot s.vq.num s.devPos
            some { s with
              vq := { s.vq with
                desc := Function.update s.vq.desc x ⟨(s.vq.desc x).addr, len, id, flags⟩ }
              devPos := s.devPos + n
              outstanding := s.outstanding.eraseIdx i
              completed := s.completed ++ [(id, n)] }
          else none

def SlotSys.init (vq : PackedVq) : SlotSys where
  vq := vq
  avail := 0
  devPos := 0
  used := 0
  outstanding := []
  completed := []

def SlotSys.Allows (_ : SlotSys) : SlotAct → Prop
  | .add a => a.Counted
  | _ => True

instance SlotSys.decidableAllows (s : SlotSys) : ∀ act, Decidable (s.Allows act)
  | .add a => inferInstanceAs (Decidable a.Counted)
  | .getBuf | .complete .. => isTrue trivial

/-- The slots between `last_used_idx` and `next_avail_idx`: as many as are not
free, from `last_used_idx` on. -/
def PackedVq.window (vq : PackedVq) : List ℕ :=
  (List.range (vq.num - vq.numFree)).map fun k => slot vq.num (vq.lastUsedIdx + k)

/-- The number of descriptors of a list of buffers. -/
def descCount (bufs : List (ℕ × ℕ)) : ℕ := (bufs.map (·.2)).sum

@[simp] theorem descCount_nil : descCount [] = 0 := rfl

@[simp] theorem descCount_cons (b : ℕ × ℕ) (bufs : List (ℕ × ℕ)) :
    descCount (b :: bufs) = b.2 + descCount bufs := by
  simp [descCount]

@[simp] theorem descCount_append (bufs bufs' : List (ℕ × ℕ)) :
    descCount (bufs ++ bufs') = descCount bufs + descCount bufs' := by
  simp [descCount]

/-! ### The invariant -/

/-- Positions: where both sides stand. -/
structure PosInv (s : SlotSys) : Prop where
  num_pos : 0 < s.vq.num
  nextAvailIdx : s.vq.nextAvailIdx = slot s.vq.num s.avail
  availUsedFlags : s.vq.availUsedFlags = lapFlags (lap s.vq.num s.avail)
  lastUsedIdx : s.vq.lastUsedIdx = slot s.vq.num s.used
  usedWrapCounter : s.vq.usedWrapCounter = lap s.vq.num s.used
  devPos : s.devPos = s.used + descCount s.completed
  avail : s.avail = s.devPos + descCount s.outstanding
  room : s.avail + s.vq.numFree = s.used + s.vq.num

/-- Buffers: those in flight are the ones `desc_state` knows. -/
structure BufInv (s : SlotSys) : Prop where
  mem : ∀ b ∈ s.completed ++ s.outstanding,
    (s.vq.descState b.1).data ≠ 0 ∧ s.vq.held b.1 = b.2
  nodup : ((s.completed ++ s.outstanding).map (·.1)).Nodup

/-- The used descriptors of `bufs` stand in the ring from position `q` on. -/
def Records (num : ℕ) (desc : ℕ → VringPackedDesc) : ℕ → List (ℕ × ℕ) → Prop
  | _, [] => True
  | q, b :: bufs =>
      ((desc (slot num q)).id = b.1 ∧ usedFlags (desc (slot num q)).flags (lap num q) = true) ∧
        Records num desc (q + b.2) bufs

/-- The ring: used descriptors up to the position of the device, then
descriptors of the driver, then old ones that do not look used. -/
structure RingInv (s : SlotSys) : Prop where
  records : Records s.vq.num s.vq.desc s.used s.completed
  driver : ∀ q, s.devPos ≤ q → q < s.avail → DriverWritten (s.vq.desc (slot s.vq.num q)).flags
  old : ∀ q, s.avail ≤ q → q < s.devPos + s.vq.num →
    usedFlags (s.vq.desc (slot s.vq.num q)).flags (lap s.vq.num q) = false

structure SlotInv (s : SlotSys) : Prop where
  broken : s.vq.broken = false
  ids : IdInv s.vq
  pos : PosInv s
  bufs : BufInv s
  ring : RingInv s

/-! ### Reading the ring -/

theorem usedFlags_of_driverWritten {flags : BitVec 16} (h : DriverWritten flags) (b : Bool) :
    usedFlags flags b = false := by
  unfold usedFlags
  unfold DriverWritten at h
  by_cases hu : hasFlag flags packedFUsed
  · have ha : ¬ hasFlag flags packedFAvail := fun ha => h.mp ha hu
    simp [hu, ha]
  · have ha : hasFlag flags packedFAvail := h.mpr hu
    simp [hu, ha]

theorem usedFlags_not {flags : BitVec 16} {b : Bool} (h : usedFlags flags b = true) :
    usedFlags flags (!b) = false := by
  simp only [usedFlags, Bool.and_eq_true, beq_iff_eq] at h
  rw [usedFlags, h.2]
  cases b <;> simp

theorem Records.congr {num q : ℕ} {desc desc' : ℕ → VringPackedDesc} {bufs : List (ℕ × ℕ)}
    (hpos : ∀ b ∈ bufs, b.2 ≠ 0)
    (h : ∀ r, q ≤ r → r < q + descCount bufs → desc' (slot num r) = desc (slot num r))
    (hrec : Records num desc q bufs) : Records num desc' q bufs := by
  induction bufs generalizing q with
  | nil => trivial
  | cons b bufs ih =>
    have hb := hpos b (by simp)
    simp only [descCount_cons] at h
    refine ⟨?_, ih (fun b' hb' => hpos b' (by simp [hb'])) (fun r hr hlt => ?_) hrec.2⟩
    · rw [h q le_rfl (by omega)]
      exact hrec.1
    · exact h r (by omega) (by omega)

theorem Records.concat {num q : ℕ} {desc : ℕ → VringPackedDesc} {bufs : List (ℕ × ℕ)}
    {b : ℕ × ℕ} (hrec : Records num desc q bufs)
    (hid : (desc (slot num (q + descCount bufs))).id = b.1)
    (hflags : usedFlags (desc (slot num (q + descCount bufs))).flags
      (lap num (q + descCount bufs)) = true) : Records num desc q (bufs ++ [b]) := by
  induction bufs generalizing q with
  | nil => exact ⟨⟨hid, hflags⟩, trivial⟩
  | cons c bufs ih =>
    simp only [descCount_cons, ← Nat.add_assoc] at hid hflags
    exact ⟨hrec.1, ih hrec.2 hid hflags⟩

/-! ### Steps of the driver -/

section Steps

variable {s t : SlotSys}

theorem SlotInv.count_ne_zero (hi : SlotInv s) {b : ℕ × ℕ}
    (hb : b ∈ s.completed ++ s.outstanding) : b.2 ≠ 0 := by
  obtain ⟨hdata, hheld⟩ := hi.bufs.mem b hb
  rw [← hheld]
  exact hi.ids.held b.1 hdata

theorem PosInv.desc_eq (hp : PosInv s) {w : PackedVq} {n r : ℕ} (hw : Wrote s.vq w s.avail n)
    (hn : n ≤ s.vq.numFree) (hr : s.used ≤ r) (hlt : r < s.avail) :
    w.desc (slot s.vq.num r) = s.vq.desc (slot s.vq.num r) := by
  apply hw.desc
  intro k hk
  have hroom := hp.room
  exact slot_ne (by omega) (by omega)

theorem RingInv.wrote (hr : RingInv s) (hp : PosInv s) (hpos : ∀ b ∈ s.completed, b.2 ≠ 0)
    {w : PackedVq} {n : ℕ} (hw : Wrote s.vq w s.avail n) (hn : n ≤ s.vq.numFree) :
    RingInv { s with vq := w } := by
  have hnum : w.num = s.vq.num := by rw [hw.eq]
  have hdev := hp.devPos
  have havail := hp.avail
  constructor
  · change Records w.num w.desc s.used s.completed
    rw [hnum]
    exact hr.records.congr hpos fun r hr hlt => hp.desc_eq hw hn hr (by omega)
  · intro q hq hlt
    change DriverWritten (w.desc (slot w.num q)).flags
    rw [hnum, hp.desc_eq hw hn (by change s.devPos ≤ q at hq; omega) hlt]
    exact hr.driver q hq hlt
  · intro q hq hlt
    change usedFlags (w.desc (slot w.num q)).flags (lap w.num q) = false
    change q < s.devPos + w.num at hlt
    rw [hnum] at hlt ⊢
    obtain heq | hdriver := hw.flags (slot s.vq.num q)
    · rw [heq]
      exact hr.old q hq hlt
    · exact usedFlags_of_driverWritten hdriver _

/-- Descriptors written behind the avail position change nothing in flight. -/
theorem SlotInv.wrote (hi : SlotInv s) {w : PackedVq} {n : ℕ} (hw : Wrote s.vq w s.avail n)
    (hn : n ≤ s.vq.numFree) : SlotInv { s with vq := w } := by
  have hpos : ∀ b ∈ s.completed, b.2 ≠ 0 :=
    fun b hb => hi.count_ne_zero (List.mem_append_left _ hb)
  have hring := hi.ring.wrote hi.pos hpos hw hn
  refine ⟨?_, hi.ids.wrote hw, ?_, ?_, hring⟩
  · change w.broken = false
    rw [hw.eq]; exact hi.broken
  · rw [hw.eq]
    exact ⟨hi.pos.num_pos, hi.pos.nextAvailIdx, hi.pos.availUsedFlags, hi.pos.lastUsedIdx,
      hi.pos.usedWrapCounter, hi.pos.devPos, hi.pos.avail, hi.pos.room⟩
  · rw [hw.eq]
    exact ⟨hi.bufs.mem, hi.bufs.nodup⟩

/-- Making `n` slots available whose descriptors have been written. -/
theorem SlotInv.makeAvail (hi : SlotInv s) {n : ℕ} {data : Ptr} (p : Ptr) (wrap : Bool)
    (hn : n ≠ 0) (hle : n ≤ s.vq.numFree) (hdata : data ≠ 0)
    (hdriver : ∀ k < n, DriverWritten (s.vq.desc (slot s.vq.num (s.avail + k))).flags) :
    SlotInv { s with
      vq := s.vq.makeAvail s.avail n data p wrap
      avail := s.avail + n
      outstanding := s.outstanding ++ [(s.vq.freeHead, n)] } := by
  have hheld := hi.ids.makeAvail_held s.avail p wrap hn hle hdata
  have hstate := hi.ids.makeAvail_descState s.avail data p wrap hn hle
  -- the first free id names no buffer in flight
  have hfresh : ∀ b ∈ s.completed ++ s.outstanding, b.1 ≠ s.vq.freeHead := by
    intro b hb heq
    have hzero := hi.ids.pool.len_freeHead (by omega)
    rw [← heq, (hi.bufs.mem b hb).2] at hzero
    exact hi.count_ne_zero hb hzero
  have hroom := hi.pos.room
  refine ⟨hi.broken, hi.ids.makeAvail hn hle hdata, ?_, ?_, ?_⟩
  · have hslot := slot_lt (q := s.avail + n) hi.pos.num_pos
    have hnum := hi.ids.num_le
    have havail := hi.pos.avail
    exact {
      num_pos := hi.pos.num_pos
      nextAvailIdx := Nat.mod_eq_of_lt (by omega)
      availUsedFlags := rfl
      lastUsedIdx := hi.pos.lastUsedIdx
      usedWrapCounter := hi.pos.usedWrapCounter
      devPos := hi.pos.devPos
      avail := by
        change s.avail + n = s.devPos + descCount (s.outstanding ++ [(s.vq.freeHead, n)])
        simp only [descCount_append, descCount_cons, descCount_nil]
        omega
      room := by
        change s.avail + n + (s.vq.numFree - n) = s.used + s.vq.num
        omega }
  · constructor
    · intro b hb
      change b ∈ s.completed ++ (s.outstanding ++ [(s.vq.freeHead, n)]) at hb
      change ((s.vq.makeAvail s.avail n data p wrap).descState b.1).data ≠ 0 ∧
        (s.vq.makeAvail s.avail n data p wrap).held b.1 = b.2
      rw [hheld, hstate]
      rw [← List.append_assoc, List.mem_append, List.mem_singleton] at hb
      obtain hb | rfl := hb
      · rw [update_of_ne (hfresh b hb), update_of_ne (hfresh b hb)]
        exact hi.bufs.mem b hb
      · simp [hdata]
    · change ((s.completed ++ (s.outstanding ++ [(s.vq.freeHead, n)])).map (·.1)).Nodup
      rw [← List.append_assoc, List.map_append, List.nodup_append]
      refine ⟨hi.bufs.nodup, by simp, ?_⟩
      intro x hx y hy
      obtain ⟨b, hb, rfl⟩ := List.mem_map.mp hx
      rw [List.map_singleton, List.mem_singleton] at hy
      rw [hy]
      exact hfresh b hb
  · constructor
    · exact hi.ring.records
    · intro q hq hlt
      by_cases hold : q < s.avail
      · exact hi.ring.driver q hq hold
      · have hk := hdriver (q - s.avail) (by change q < s.avail + n at hlt; omega)
        rwa [Nat.add_sub_cancel' (by omega)] at hk
    · intro q hq hlt
      exact hi.ring.old q (by change s.avail + n ≤ q at hq; omega) hlt

theorem SlotInv.add (hi : SlotInv s) {a : AddArgs} (ha : a.Counted)
    (h : slotStep s (.add a) = some t) : SlotInv t := by
  simp only [slotStep, Option.map_eq_some_iff] at h
  obtain ⟨⟨vq', err⟩, hadd, rfl⟩ := h
  have hdata : a.data ≠ 0 := by
    intro h0
    simp [virtqueueAddPacked, h0] at hadd
  cases addPackedOutcome hi.pos.num_pos hi.pos.nextAvailIdx hi.pos.availUsedFlags ha hadd with
  | broken => exact hi
  | full => exact hi
  | unmapped _ hle hwrote => exact hi.wrote hwrote hle
  | @added w n p wrap _ hn hle hwrote hdriver _ =>
    have hw := hi.wrote hwrote hle
    have hfree : w.numFree = s.vq.numFree := by rw [hwrote.eq]
    have hhead : w.freeHead = s.vq.freeHead := by rw [hwrote.eq]
    have hnum : w.num = s.vq.num := by rw [hwrote.eq]
    have hcount : s.vq.numFree - (w.makeAvail s.avail n a.data p wrap).numFree = n := by
      change s.vq.numFree - (w.numFree - n) = n
      omega
    have hnew := hw.makeAvail p wrap hn (by change n ≤ w.numFree; omega) hdata
      (by rw [← hnum] at hdriver; exact hdriver)
    simp only [if_true, hcount, ← hhead]
    exact hnew

/-- The driver sees a used descriptor exactly if a completion is waiting. -/
theorem SlotInv.moreUsedPacked_eq (hi : SlotInv s) :
    moreUsedPacked s.vq = !s.completed.isEmpty := by
  have hmore : moreUsedPacked s.vq =
      usedFlags (s.vq.desc (slot s.vq.num s.used)).flags (lap s.vq.num s.used) := by
    rw [← hi.pos.lastUsedIdx, ← hi.pos.usedWrapCounter]
    rfl
  rw [hmore]
  cases hc : s.completed with
  | nil =>
    have hdev := hi.pos.devPos
    have havail := hi.pos.avail
    have hnum := hi.pos.num_pos
    rw [hc, descCount_nil] at hdev
    by_cases hlt : s.used < s.avail
    · exact usedFlags_of_driverWritten (hi.ring.driver s.used (by omega) hlt) _
    · exact hi.ring.old s.used (by omega) (by omega)
  | cons b completed =>
    have hrec := hi.ring.records
    rw [hc] at hrec
    exact hrec.1.2

/-- Where the driver moves its used position by at most one lap. -/
theorem advanceUsed_pos (vq : PackedVq) {q n : ℕ} (hnum : 0 < vq.num) (hle : vq.num ≤ 2 ^ 15)
    (hn : n ≤ vq.num) (hidx : vq.lastUsedIdx = slot vq.num q)
    (hwrap : vq.usedWrapCounter = lap vq.num q) :
    (vq.advanceUsed n).lastUsedIdx = slot vq.num (q + n) ∧
      (vq.advanceUsed n).usedWrapCounter = lap vq.num (q + n) := by
  have hlt := slot_lt (q := q) hnum
  have hmod : (vq.lastUsedIdx + n) % 2 ^ 16 = slot vq.num q + n := by
    rw [hidx, Nat.mod_eq_of_lt (by omega)]
  rw [slot_add hnum hn, lap_add hnum hn]
  simp only [PackedVq.advanceUsed, hmod]
  split
  · exact ⟨rfl, by rw [hwrap]⟩
  · exact ⟨rfl, hwrap⟩

theorem SlotInv.take (hi : SlotInv s) {b : ℕ × ℕ} {completed : List (ℕ × ℕ)}
    (hc : s.completed = b :: completed) (driver : VringPackedDescEvent) :
    SlotInv { s with
      vq := { (detachBufPacked s.vq b.1).1.advanceUsed (s.vq.descState b.1).num with
        driver := driver }
      used := s.used + b.2
      completed := completed } := by
  have hb : b ∈ s.completed ++ s.outstanding := by simp [hc]
  obtain ⟨hdata, hheld⟩ := hi.bufs.mem b hb
  have hcount : (s.vq.descState b.1).num = b.2 := by
    rw [← hheld]
    exact (if_neg hdata).symm
  have hle : b.2 ≤ s.vq.num := by
    rw [← hheld]
    exact hi.ids.pool.len_le b.1
  obtain ⟨p, hp⟩ := detachBufPacked_eq s.vq b.1
  have hids := hi.ids.detach hdata
  have hheld' := IdInv.detach_held s.vq b.1
  set w := (detachBufPacked s.vq b.1).1 with hw
  have hwnum : w.num = s.vq.num := by rw [hp]
  have hwdesc : w.desc = s.vq.desc := by rw [hp]
  obtain ⟨hidx, hwrap⟩ := advanceUsed_pos w (q := s.used) (n := b.2)
    (by rw [hwnum]; exact hi.pos.num_pos) (by rw [hwnum]; exact hi.ids.num_le)
    (by rw [hwnum]; exact hle) (by rw [hp]; exact hi.pos.lastUsedIdx)
    (by rw [hp]; exact hi.pos.usedWrapCounter)
  obtain ⟨idx, wrap, hadv⟩ := advanceUsed_eq w b.2
  rw [hcount]
  rw [hadv] at hidx hwrap ⊢
  change idx = _ at hidx
  change wrap = _ at hwrap
  subst hidx hwrap
  -- no other buffer in flight has this id
  have hother : ∀ c ∈ completed ++ s.outstanding, c.1 ≠ b.1 := by
    have hnod := hi.bufs.nodup
    rw [hc, List.cons_append, List.map_cons, List.nodup_cons] at hnod
    intro c hc' heq
    exact hnod.1 (List.mem_map.mpr ⟨c, hc', heq⟩)
  refine ⟨?_, hids.congr rfl rfl rfl rfl rfl, ?_, ?_, ?_⟩
  · change w.broken = false
    rw [hp]; exact hi.broken
  · have hdev := hi.pos.devPos
    have hroom := hi.pos.room
    rw [hc, descCount_cons] at hdev
    exact {
      num_pos := by change 0 < w.num; rw [hwnum]; exact hi.pos.num_pos
      nextAvailIdx := by
        change w.nextAvailIdx = slot w.num s.avail
        rw [hp]; exact hi.pos.nextAvailIdx
      availUsedFlags := by
        change w.availUsedFlags = lapFlags (lap w.num s.avail)
        rw [hp]; exact hi.pos.availUsedFlags
      lastUsedIdx := rfl
      usedWrapCounter := rfl
      devPos := by
        change s.devPos = s.used + b.2 + descCount completed
        omega
      avail := hi.pos.avail
      room := by
        have hfree : w.numFree = s.vq.numFree + b.2 := by rw [hp, ← hcount]
        change s.avail + w.numFree = s.used + b.2 + w.num
        omega }
  · constructor
    · intro c hc'
      change (w.descState c.1).data ≠ 0 ∧ w.held c.1 = c.2
      have hne := hother c hc'
      rw [hheld', update_of_ne hne, hp]
      simp only [update_of_ne hne]
      exact hi.bufs.mem c (by rw [hc]; exact List.mem_cons_of_mem _ hc')
    · have hnod := hi.bufs.nodup
      rw [hc, List.cons_append, List.map_cons, List.nodup_cons] at hnod
      exact hnod.2
  · constructor
    · have hrec := hi.ring.records
      rw [hc] at hrec
      change Records w.num w.desc (s.used + b.2) completed
      rw [hwnum, hwdesc]
      exact hrec.2
    · intro q hq hlt
      change DriverWritten (w.desc (slot w.num q)).flags
      rw [hwnum, hwdesc]
      exact hi.ring.driver q hq hlt
    · intro q hq hlt
      change usedFlags (w.desc (slot w.num q)).flags (lap w.num q) = false
      change q < s.devPos + w.num at hlt
      rw [hwnum] at hlt ⊢
      rw [hwdesc]
      exact hi.ring.old q hq hlt

/-- What a call of the driver for a used buffer does: it takes the first
completion, if there is one, and nothing else. -/
theorem SlotInv.getBufOutcome (hi : SlotInv s) :
    (s.completed = [] ∧ (virtqueueGetBufCtxPacked s.vq).vq = s.vq) ∨
      ∃ b completed driver, s.completed = b :: completed ∧
        (virtqueueGetBufCtxPacked s.vq).ret ≠ 0 ∧
        (virtqueueGetBufCtxPacked s.vq).vq =
          { (detachBufPacked s.vq b.1).1.advanceUsed (s.vq.descState b.1).num with
            driver := driver } := by
  have hmore' := hi.moreUsedPacked_eq
  have hout := getBufPackedOutcome s.vq
  generalize (virtqueueGetBufCtxPacked s.vq).vq = w,
    (virtqueueGetBufCtxPacked s.vq).ret = ret at hout ⊢
  cases hc : s.completed with
  | nil =>
    rw [hc] at hmore'
    cases hout with
    | idle => exact .inl ⟨rfl, rfl⟩
    | bad _ hmore => rw [hmore] at hmore'; cases hmore'
    | got _ _ _ hmore => rw [hmore] at hmore'; cases hmore'
  | cons b completed =>
    rw [hc] at hmore'
    have hb : b ∈ s.completed ++ s.outstanding := by simp [hc]
    obtain ⟨hdata, hheld⟩ := hi.bufs.mem b hb
    have hlt := hi.ids.pool.head_lt (hi.ids.held b.1 hdata)
    have hnum := hi.ids.num_le
    have hid : virtio16ToCpu (s.vq.desc s.vq.lastUsedIdx).id = b.1 := by
      have hrec := hi.ring.records
      rw [hc] at hrec
      rw [hi.pos.lastUsedIdx, hrec.1.1]
      exact Nat.mod_eq_of_lt (by omega)
    right
    cases hout with
    | idle hidle =>
      rcases hidle with hbroken | hmore
      · rw [hi.broken] at hbroken; cases hbroken
      · rw [hmore] at hmore'; cases hmore'
    | bad _ _ hbad =>
      rw [hid] at hbad
      rcases hbad with hge | hzero
      · omega
      · exact absurd hzero hdata
    | got id driver _ _ hid' _ hne =>
      rw [hid] at hid'
      subst hid'
      exact ⟨b, completed, driver, rfl, hne, rfl⟩

theorem SlotInv.getBuf (hi : SlotInv s) (h : slotStep s .getBuf = some t) : SlotInv t := by
  obtain ⟨hc, hvq⟩ | ⟨b, completed, driver, hc, hret, hvq⟩ := hi.getBufOutcome
  · simp only [slotStep, hc, hvq, Option.some.injEq] at h
    subst h
    have hsame : { s with vq := s.vq } = s := rfl
    rw [← hc, hsame]
    exact hi
  · simp only [slotStep, hc, hvq, hret, ne_eq, not_false_eq_true, if_true,
      Option.some.injEq] at h
    subst h
    exact hi.take hc driver

/-! ### Steps of the device -/

theorem perm_cons_eraseIdx {bufs : List (ℕ × ℕ)} {i : ℕ} {b : ℕ × ℕ} (h : bufs[i]? = some b) :
    (b :: bufs.eraseIdx i).Perm bufs := by
  obtain ⟨hi, rfl⟩ := List.getElem?_eq_some_iff.mp h
  exact List.getElem_cons_eraseIdx_perm hi

theorem descCount_eraseIdx {bufs : List (ℕ × ℕ)} {i : ℕ} {b : ℕ × ℕ} (h : bufs[i]? = some b) :
    b.2 + descCount (bufs.eraseIdx i) = descCount bufs := by
  have hsum := ((perm_cons_eraseIdx h).map (·.2)).sum_eq
  rw [List.map_cons, List.sum_cons] at hsum
  exact hsum

/-- The ring after the device wrote a used descriptor at its position. -/
theorem RingInv.complete (hr : RingInv s) (hp : PosInv s)
    (hpos : ∀ c ∈ s.completed, c.2 ≠ 0) {i : ℕ} {b : ℕ × ℕ} (hb : s.outstanding[i]? = some b)
    (hne : b.2 ≠ 0) {d : VringPackedDesc} (hid : d.id = b.1)
    (hflags : usedFlags d.flags (lap s.vq.num s.devPos) = true) :
    RingInv { s with
      vq := { s.vq with desc := update s.vq.desc (slot s.vq.num s.devPos) d }
      devPos := s.devPos + b.2
      outstanding := s.outstanding.eraseIdx i
      completed := s.completed ++ [b] } := by
  have hcount := descCount_eraseIdx hb
  have hdev := hp.devPos
  have havail := hp.avail
  have hroom := hp.room
  constructor
  · refine Records.concat (hr.records.congr hpos fun r hle hlt => ?_) ?_ ?_
    · change s.used ≤ r at hle
      change r < s.used + _ at hlt
      have hslot : slot s.vq.num r ≠ slot s.vq.num s.devPos := slot_ne (by omega) (by omega)
      exact update_of_ne hslot d s.vq.desc
    · rw [← hdev]
      simpa using hid
    · rw [← hdev]
      simpa using hflags
  · intro q hq hlt
    change s.devPos + b.2 ≤ q at hq
    change q < s.avail at hlt
    have hslot : slot s.vq.num q ≠ slot s.vq.num s.devPos :=
      (slot_ne (by omega) (by omega)).symm
    change DriverWritten (update s.vq.desc (slot s.vq.num s.devPos) d
      (slot s.vq.num q)).flags
    rw [update_of_ne hslot]
    exact hr.driver q (by omega) hlt
  · intro q hq hlt
    change s.avail ≤ q at hq
    change q < s.devPos + b.2 + s.vq.num at hlt
    change usedFlags (update s.vq.desc (slot s.vq.num s.devPos) d
      (slot s.vq.num q)).flags (lap s.vq.num q) = false
    by_cases hsame : q < s.devPos + s.vq.num
    · have hslot : slot s.vq.num q ≠ slot s.vq.num s.devPos :=
        (slot_ne (by omega) (by omega)).symm
      rw [update_of_ne hslot]
      exact hr.old q hq hsame
    -- one lap later, what stood in the slot is of the lap before
    · obtain ⟨r, rfl⟩ : ∃ r, q = r + s.vq.num := ⟨q - s.vq.num, by omega⟩
      have hslot : slot s.vq.num (r + s.vq.num) = slot s.vq.num r := Nat.add_mod_right r s.vq.num
      have hlap : lap s.vq.num (r + s.vq.num) = !lap s.vq.num r := by
        rw [lap_add hp.num_pos le_rfl, if_pos (Nat.le_add_left _ _)]
      rw [hslot, hlap]
      by_cases hr' : r = s.devPos
      · rw [hr', update_self]
        exact usedFlags_not hflags
      · have hslot' : slot s.vq.num r ≠ slot s.vq.num s.devPos :=
          (slot_ne (by omega) (by omega)).symm
        rw [update_of_ne hslot']
        exact usedFlags_of_driverWritten (hr.driver r (by omega) (by omega)) _

theorem SlotInv.complete (hi : SlotInv s) {i len : ℕ} {flags : BitVec 16}
    (h : slotStep s (.complete i len flags) = some t) : SlotInv t := by
  simp only [slotStep] at h
  cases hb : s.outstanding[i]? with
  | none => rw [hb] at h; cases h
  | some b =>
    rw [hb] at h
    simp only at h
    split at h
    · next hflags =>
        cases h
        have hperm : ((s.completed ++ [b]) ++ s.outstanding.eraseIdx i).Perm
            (s.completed ++ s.outstanding) := by
          rw [List.append_assoc]
          exact (perm_cons_eraseIdx hb).append_left s.completed
        have hmem : b ∈ s.completed ++ s.outstanding :=
          List.mem_append_right _ (List.mem_of_getElem? hb)
        have hcount := descCount_eraseIdx hb
        have havail := hi.pos.avail
        have hdev := hi.pos.devPos
        refine ⟨hi.broken, hi.ids.congr rfl rfl rfl rfl rfl, ?_, ?_, ?_⟩
        · exact { hi.pos with
            devPos := by
              change s.devPos + b.2 = s.used + descCount (s.completed ++ [b])
              rw [descCount_append, descCount_cons, descCount_nil]
              omega
            avail := by
              change s.avail = s.devPos + b.2 + descCount (s.outstanding.eraseIdx i)
              omega }
        · exact ⟨fun c hc => hi.bufs.mem c (hperm.mem_iff.mp hc),
            ((hperm.map (·.1)).nodup_iff).mpr hi.bufs.nodup⟩
        · exact hi.ring.complete hi.pos
            (fun c hc => hi.count_ne_zero (List.mem_append_left _ hc)) hb
            (hi.count_ne_zero hmem) rfl hflags
    · cases h

end Steps

/-! ### Main result -/

theorem slotInv_init {num : ℕ} (hnum : 0 < num) (hle : num ≤ 2 ^ 15)
    (indirect useDmaApi callback : Bool) {desc : ℕ → VringPackedDesc}
    (hzero : ∀ x, (desc x).flags = 0) (driver device : VringPackedDescEvent)
    (tables : Ptr → ℕ → VringPackedDesc) :
    SlotInv (SlotSys.init
      (vringCreateVirtqueuePacked num indirect useDmaApi callback desc driver device tables)) := by
  refine ⟨rfl, IdInv.init hle indirect useDmaApi callback desc driver device tables, ?_,
    ⟨by simp [SlotSys.init], by simp [SlotSys.init]⟩, trivial, ?_, ?_⟩
  · have hslot : slot num 0 = 0 := slot_of_lt hnum
    have hlap : lap num 0 = true := lap_of_lt hnum
    exact {
      num_pos := hnum
      nextAvailIdx := hslot.symm
      availUsedFlags := by
        change packedFAvail = lapFlags (lap num 0)
        rw [hlap]
        rfl
      lastUsedIdx := hslot.symm
      usedWrapCounter := hlap.symm
      devPos := rfl
      avail := rfl
      room := rfl }
  · intro q _ hlt
    exact absurd hlt (Nat.not_lt_zero q)
  · intro q _ hlt
    change q < 0 + num at hlt
    change usedFlags (desc (slot num q)).flags (lap num q) = false
    rw [hzero, lap_of_lt (by omega)]
    decide

/-- What holds of the slots and the ids in a reachable state. -/
structure SlotsOk (s : SlotSys) : Prop where
  /-- The window between the two indices has as many slots as are not free. -/
  window_nodup : s.vq.window.Nodup
  window_length : s.vq.window.length = s.vq.num - s.vq.numFree
  window_end : slot s.vq.num (s.vq.lastUsedIdx + (s.vq.num - s.vq.numFree)) = s.vq.nextAvailIdx
  /-- The used position is the one after all completed descriptors. -/
  lastUsedIdx : s.vq.lastUsedIdx = slot s.vq.num s.used
  usedWrapCounter : s.vq.usedWrapCounter = lap s.vq.num s.used
  devPos : s.devPos = s.used + descCount s.completed
  /-- The free ids are distinct, and none is in use. -/
  free_nodup : (chain s.vq.next s.vq.freeHead s.vq.numFree).Nodup
  free_lt : ∀ x ∈ chain s.vq.next s.vq.freeHead s.vq.numFree, x < s.vq.num
  free_busy : ∀ h, (chain s.vq.next s.vq.freeHead s.vq.numFree).Disjoint
    (chain s.vq.next h (s.vq.held h))

theorem SlotInv.slotsOk {s : SlotSys} (hi : SlotInv s) : SlotsOk s where
  window_nodup := by
    have hnum := hi.pos.num_pos
    refine (List.nodup_map_iff_inj_on List.nodup_range).mpr fun k hk k' hk' heq => ?_
    rw [List.mem_range] at hk hk'
    have hinj := slot_inj (by omega) (by omega) heq
    omega
  window_length := by simp [PackedVq.window]
  window_end := by
    have hroom := hi.pos.room
    have hfree := hi.ids.pool.numFree_le
    rw [hi.pos.lastUsedIdx, hi.pos.nextAvailIdx]
    have hsum : s.avail = s.used + (s.vq.num - s.vq.numFree) := by omega
    rw [hsum]
    exact Nat.mod_add_mod _ _ _
  lastUsedIdx := hi.pos.lastUsedIdx
  usedWrapCounter := hi.pos.usedWrapCounter
  devPos := hi.pos.devPos
  free_nodup := hi.ids.pool.free_nodup
  free_lt := hi.ids.pool.free_lt
  free_busy h x hx hx' := hi.ids.pool.free_busy h x hx hx'

theorem SlotInv.add_desc {s : SlotSys} (hi : SlotInv s) {a : AddArgs} {w : PackedVq} {err : ℤ}
    (ha : a.Counted) (h : virtqueueAddPacked s.vq a = some (w, err)) {x : ℕ}
    (hx : x ∈ s.vq.window) : w.desc x = s.vq.desc x := by
  obtain ⟨k, hk, rfl⟩ := List.mem_map.mp hx
  rw [List.mem_range] at hk
  have hroom := hi.pos.room
  have hfree := hi.ids.pool.numFree_le
  have hslot : slot s.vq.num (s.vq.lastUsedIdx + k) = slot s.vq.num (s.used + k) := by
    rw [hi.pos.lastUsedIdx]
    exact Nat.mod_add_mod _ _ _
  rw [hslot]
  cases addPackedOutcome hi.pos.num_pos hi.pos.nextAvailIdx hi.pos.availUsedFlags ha h with
  | broken => rfl
  | full => rfl
  | unmapped _ hle hwrote => exact hi.pos.desc_eq hwrote hle (by omega) (by omega)
  | @added w n _ _ _ _ hle hwrote =>
    change w.desc _ = _
    exact hi.pos.desc_eq hwrote hle (by omega) (by omega)

/-- **Packed slots.** Against a device that follows the protocol, in every
state of every run: the slots between `last_used_idx` and `next_avail_idx`
are `num - num_free` many, the used position is the one after all completed
descriptors, the free ids are distinct and not in use, and an add writes no
slot of the window. -/
theorem packed_slots_not_overwritten {num : ℕ} (hnum : 0 < num) (hle : num ≤ 2 ^ 15)
    (indirect useDmaApi callback : Bool) {desc : ℕ → VringPackedDesc}
    (hzero : ∀ x, (desc x).flags = 0) (driver device : VringPackedDescEvent)
    (tables : Ptr → ℕ → VringPackedDesc) (acts : List SlotAct) {s : SlotSys}
    (hacts : Along slotStep SlotSys.Allows (SlotSys.init
      (vringCreateVirtqueuePacked num indirect useDmaApi callback desc driver device tables)) acts)
    (hrun : exec slotStep (SlotSys.init
      (vringCreateVirtqueuePacked num indirect useDmaApi callback desc driver device tables)) acts =
        some s) :
    SlotsOk s ∧
      ∀ (a : AddArgs) (w : PackedVq) (err : ℤ), a.Counted →
        virtqueueAddPacked s.vq a = some (w, err) → ∀ x ∈ s.vq.window, w.desc x = s.vq.desc x := by
  have hstep : ∀ s act t, SlotInv s → s.Allows act → slotStep s act = some t → SlotInv t := by
    intro s act t hi hallow h
    cases act with
    | add a => exact hi.add hallow h
    | getBuf => exact hi.getBuf h
    | complete i len flags => exact hi.complete h
  have hi := exec_invariant_along hstep
    (slotInv_init hnum hle indirect useDmaApi callback hzero driver device tables) hacts hrun
  exact ⟨hi.slotsOk, fun a w err ha h x hx => hi.add_desc ha h hx⟩

/-- Three buffers on a ring of four slots, completed out of order. -/
def outOfOrderRun : List SlotAct :=
  [.add (outElements 2 7), .add (outElements 1 8), .complete 1 0 (packedFAvail ||| packedFUsed),
    .getBuf, .add (outElements 2 9), .complete 0 0 (packedFAvail ||| packedFUsed), .getBuf]

theorem packed_slots_not_overwritten_out_of_order :
    ∃ s, exec slotStep (SlotSys.init (freshPacked 4)) outOfOrderRun = some s ∧ s.used = 3 ∧
      SlotsOk s := by
  have hrun : (exec slotStep (SlotSys.init (freshPacked 4)) outOfOrderRun).map (·.used) =
      some 3 := by decide
  obtain ⟨s, hs, hused⟩ := Option.map_eq_some_iff.mp hrun
  exact ⟨s, hs, hused, (packed_slots_not_overwritten (by decide) (by decide) _ _ _
    (fun _ => rfl) _ _ _ outOfOrderRun (by decide) hs).1⟩

end GfpDrivers.Virtio
