import GfpDrivers.Lib.ChainPool
import GfpDrivers.Lib.Runs
import GfpDrivers.Virtio.PackedSpec

/-!
The wrap state of a packed virtqueue. The parity of the laps of the avail
position is kept twice: `avail_used_flags` is flipped inside the loop of an
add, `avail_wrap_counter` by a comparison of the last slot with the first.
The two agree along every run in which no add fills the empty ring with
direct descriptors; such an add comes back to its own head, and the
comparison does not see it.
-/

namespace GfpDrivers.Virtio

open Lib

/-- A packed queue, and how often its avail position has wrapped past the
last slot. -/
structure WrapSys where
  vq : PackedVq
  wraps : ℕ

/-- A step of the queue. An add that takes `n` slots from `next_avail_idx` on
passes the last slot `(next_avail_idx + n) / num` times. -/
def wrapStep (s : WrapSys) : PackedAct → Option WrapSys
  | .add a => (virtqueueAddPacked s.vq a).map fun r =>
      if r.2 = 0 then
        ⟨r.1, s.wraps + (s.vq.nextAvailIdx + (s.vq.numFree - r.1.numFree)) / s.vq.num⟩
      else ⟨r.1, s.wraps⟩
  | act => (packedStep s.vq act).map (⟨·, s.wraps⟩)

/-- The wrap state is that of `wraps` wraps. -/
structure WrapOk (vq : PackedVq) (wraps : ℕ) : Prop where
  idx_lt : vq.nextAvailIdx < vq.num
  counter : vq.availWrapCounter = decide (wraps % 2 = 0)
  avail : hasFlag vq.availUsedFlags packedFAvail ↔ vq.availWrapCounter = true
  used : hasFlag vq.availUsedFlags packedFUsed ↔ vq.availWrapCounter = false

/-- A failed add restores the wrap state. -/
structure WrapKept (vq w : PackedVq) : Prop where
  idx : w.nextAvailIdx = vq.nextAvailIdx
  counter : w.availWrapCounter = vq.availWrapCounter
  flags : w.availUsedFlags = vq.availUsedFlags

/-- Adds are counted, and none fills the empty ring with direct descriptors. -/
def WrapSys.Allows (s : WrapSys) : PackedAct → Prop
  | .add a => a.Counted ∧ ¬ s.vq.FillsRing a
  | _ => True

instance WrapSys.decidableAllows (s : WrapSys) : ∀ act, Decidable (s.Allows act)
  | .add _ => inferInstanceAs (Decidable (_ ∧ _))
  | .getBuf | .detachUnused | .device .. => isTrue trivial

/-! ### The invariant -/

/-- The avail position, as far as its slot and the number of wraps tell. -/
def WrapSys.pos (s : WrapSys) : ℕ := s.vq.num * s.wraps + s.vq.nextAvailIdx

structure WrapInv (s : WrapSys) : Prop where
  idx_lt : s.vq.nextAvailIdx < s.vq.num
  counter : s.vq.availWrapCounter = decide (s.wraps % 2 = 0)
  flags : s.vq.availUsedFlags = lapFlags (decide (s.wraps % 2 = 0))
  room : s.vq.numFree + ∑ h ∈ Finset.range s.vq.num, s.vq.held h ≤ s.vq.num

namespace WrapInv

variable {s t : WrapSys}

theorem slot_pos (hi : WrapInv s) : s.vq.nextAvailIdx = slot s.vq.num s.pos :=
  (slot_mul_add s.wraps hi.idx_lt).symm

theorem lap_pos (hi : WrapInv s) : lap s.vq.num s.pos = decide (s.wraps % 2 = 0) := by
  have hnum : 0 < s.vq.num := Nat.zero_lt_of_lt hi.idx_lt
  rw [WrapSys.pos, lap_mul_add _ hnum, Nat.div_eq_of_lt hi.idx_lt, Nat.add_zero]

theorem wrapOk (hi : WrapInv s) : WrapOk s.vq s.wraps := by
  refine ⟨hi.idx_lt, hi.counter, ?_, ?_⟩
  · rw [hi.counter, hi.flags]
    cases decide (s.wraps % 2 = 0) <;> decide
  · rw [hi.counter, hi.flags]
    cases decide (s.wraps % 2 = 0) <;> decide

/-- The invariant reads the wrap state and the number of slots held. -/
theorem congr (hi : WrapInv s) {w : PackedVq} (hnum : w.num = s.vq.num)
    (hidx : w.nextAvailIdx = s.vq.nextAvailIdx)
    (hcounter : w.availWrapCounter = s.vq.availWrapCounter)
    (hflags : w.availUsedFlags = s.vq.availUsedFlags)
    (hroom : w.numFree + ∑ h ∈ Finset.range s.vq.num, w.held h ≤ s.vq.num) :
    WrapInv ⟨w, s.wraps⟩ where
  idx_lt := by rw [hidx, hnum]; exact hi.idx_lt
  counter := hcounter.trans hi.counter
  flags := hflags.trans hi.flags
  room := by rw [hnum]; exact hroom

theorem room_detach (hi : WrapInv s) {id : ℕ} (hlt : id < s.vq.num)
    (hdata : (s.vq.descState id).data ≠ 0) {w : PackedVq}
    (hstate : w.descState = (detachBufPacked s.vq id).1.descState)
    (hfree : w.numFree = (detachBufPacked s.vq id).1.numFree) :
    w.numFree + ∑ h ∈ Finset.range s.vq.num, w.held h ≤ s.vq.num := by
  obtain ⟨p, hp⟩ := detachBufPacked_eq s.vq id
  rw [hp] at hstate hfree
  have hheld : w.held = Function.update s.vq.held id 0 := held_update hstate
  have hsum := sum_range_update s.vq.held hlt 0
  have hid : s.vq.held id = (s.vq.descState id).num := if_neg hdata
  have hroom := hi.room
  rw [hheld, hfree]
  change s.vq.numFree + (s.vq.descState id).num + _ ≤ _
  omega

theorem add (hi : WrapInv s) {a : AddArgs} (ha : a.Counted) (hfills : ¬ s.vq.FillsRing a)
    (h : wrapStep s (.add a) = some t) : WrapInv t := by
  have hnum : 0 < s.vq.num := Nat.zero_lt_of_lt hi.idx_lt
  have hroom := hi.room
  simp only [wrapStep, Option.map_eq_some_iff] at h
  obtain ⟨⟨vq', err⟩, hadd, rfl⟩ := h
  have hflags : s.vq.availUsedFlags = lapFlags (lap s.vq.num s.pos) := by
    rw [hi.lap_pos]; exact hi.flags
  cases addPackedOutcome hnum hi.slot_pos hflags ha hadd with
  | broken => exact hi
  | full => exact hi
  | unmapped _ _ hwrote =>
    refine hi.congr ?_ ?_ ?_ ?_ ?_
    · rw [hwrote.eq]
    · rw [hwrote.eq]
    · rw [hwrote.eq]
    · rw [hwrote.eq]
    · rw [hwrote.eq]; exact hroom
  | @added w n p wrap hbroken hn hle hwrote hdriver hwrap =>
    have hnum' : (w.makeAvail s.pos n a.data p wrap).num = s.vq.num := by rw [hwrote.eq]; rfl
    have hfree : (w.makeAvail s.pos n a.data p wrap).numFree = s.vq.numFree - n := by
      rw [hwrote.eq]; rfl
    have hused : s.vq.numFree - (w.makeAvail s.pos n a.data p wrap).numFree = n := by
      rw [hfree]; omega
    -- the lap after the add, by the number of wraps
    have hlap : lap s.vq.num (s.pos + n) =
        decide ((s.wraps + (s.vq.nextAvailIdx + n) / s.vq.num) % 2 = 0) := by
      rw [WrapSys.pos, Nat.add_assoc, lap_mul_add _ hnum]
    simp only [if_true, hused]
    constructor
    · change (w.makeAvail s.pos n a.data p wrap).nextAvailIdx <
        (w.makeAvail s.pos n a.data p wrap).num
      rw [hnum']
      have hslot := slot_lt (q := s.pos + n) hnum
      rw [hwrote.eq]
      exact Nat.lt_of_le_of_lt (Nat.mod_le _ _) hslot
    · change wrap = _
      rw [hwrap (by omega) hfills, ← hlap, hi.counter, ← hi.lap_pos]
      cases lap s.vq.num (s.pos + n) <;> cases lap s.vq.num s.pos <;> rfl
    · change (w.makeAvail s.pos n a.data p wrap).availUsedFlags = _
      rw [← hlap, hwrote.eq]
      rfl
    · change (w.makeAvail s.pos n a.data p wrap).numFree + _ ≤
        (w.makeAvail s.pos n a.data p wrap).num
      have hstate : (w.makeAvail s.pos n a.data p wrap).descState =
          Function.update s.vq.descState (s.vq.freeHead % 2 ^ 16)
            ⟨a.data, p, n % 2 ^ 16, s.vq.next^[n - 1] (s.vq.freeHead % 2 ^ 16) % 2 ^ 16⟩ := by
        rw [← hwrote.next, hwrote.eq]
        rfl
      have hheld : (w.makeAvail s.pos n a.data p wrap).held =
          Function.update s.vq.held (s.vq.freeHead % 2 ^ 16)
            (if a.data = 0 then 0 else n % 2 ^ 16) := held_update hstate
      have hsum := sum_range_update_le s.vq.held s.vq.num (s.vq.freeHead % 2 ^ 16)
        (if a.data = 0 then 0 else n % 2 ^ 16)
      have hmod : (if a.data = 0 then 0 else n % 2 ^ 16) ≤ n := by
        split
        · omega
        · exact Nat.mod_le _ _
      rw [hheld, hfree, hnum']
      omega

theorem step (hi : WrapInv s) {act : PackedAct} (hallow : s.Allows act)
    (h : wrapStep s act = some t) : WrapInv t := by
  cases act with
  | add a => exact hi.add hallow.1 hallow.2 h
  | getBuf =>
    simp only [wrapStep, packedStep, Option.map_some, Option.some.injEq] at h
    subst h
    have hout := getBufPackedOutcome s.vq
    generalize (virtqueueGetBufCtxPacked s.vq).vq = w,
      (virtqueueGetBufCtxPacked s.vq).ret = ret at hout ⊢
    cases hout with
    | idle => exact hi
    | bad => exact hi.congr rfl rfl rfl rfl hi.room
    | got id driver _ _ _ hlt hdata =>
      obtain ⟨idx, wrap, hadv⟩ := advanceUsed_eq (detachBufPacked s.vq id).1
        (s.vq.descState id).num
      rw [hadv]
      exact hi.congr rfl rfl rfl rfl (hi.room_detach hlt hdata rfl rfl)
  | detachUnused =>
    simp only [wrapStep, packedStep, Option.map_map, Option.map_eq_some_iff] at h
    obtain ⟨r, hdetach, rfl⟩ := h
    have hout := detachUnusedPackedOutcome hdetach
    simp only [Function.comp]
    generalize r.1 = w, r.2 = ret at hout ⊢
    cases hout with
    | none => exact hi
    | some i hlt hdata => exact hi.congr rfl rfl rfl rfl (hi.room_detach hlt hdata rfl rfl)
  | device desc event =>
    cases h
    exact hi.congr rfl rfl rfl rfl hi.room

theorem init {num : ℕ} (hnum : 0 < num) (indirect useDmaApi callback : Bool)
    (desc : ℕ → VringPackedDesc) (driver device : VringPackedDescEvent)
    (tables : Ptr → ℕ → VringPackedDesc) :
    WrapInv ⟨vringCreateVirtqueuePacked num indirect useDmaApi callback desc driver device tables,
      0⟩ where
  idx_lt := hnum
  counter := rfl
  flags := rfl
  room := by simp [vringCreateVirtqueuePacked, PackedVq.held]

end WrapInv

/-! ### Main result -/

/-- A failed add restores the wrap state, whatever it is. -/
theorem wrapKept_of_failed {vq w : PackedVq} {a : AddArgs} {q : ℕ} {err : ℤ} (hnum : 0 < vq.num)
    (hq : vq.nextAvailIdx = slot vq.num q) (hlap : vq.availUsedFlags = lapFlags (lap vq.num q))
    (ha : a.Counted) (h : virtqueueAddPacked vq a = some (w, err)) (herr : err ≠ 0) :
    WrapKept vq w := by
  cases addPackedOutcome hnum hq hlap ha h with
  | broken => exact ⟨rfl, rfl, rfl⟩
  | full => exact ⟨rfl, rfl, rfl⟩
  | unmapped _ _ hwrote =>
    rw [hwrote.eq]
    exact ⟨rfl, rfl, rfl⟩
  | added => exact absurd rfl herr

/-- **Wrap state.** In every run in which no add fills the empty ring with
direct descriptors, `next_avail_idx` stays in range, and both copies of the
lap's parity are that of the number of wraps; and an add that fails in a
state reached restores all three. -/
theorem packed_wrap_state {num : ℕ} (hnum : 0 < num) (indirect useDmaApi callback : Bool)
    (desc : ℕ → VringPackedDesc) (driver device : VringPackedDescEvent)
    (tables : Ptr → ℕ → VringPackedDesc) (acts : List PackedAct) {s : WrapSys}
    (hacts : Along wrapStep WrapSys.Allows
      ⟨vringCreateVirtqueuePacked num indirect useDmaApi callback desc driver device tables, 0⟩
      acts)
    (hrun : exec wrapStep
      ⟨vringCreateVirtqueuePacked num indirect useDmaApi callback desc driver device tables, 0⟩
      acts = some s) :
    WrapOk s.vq s.wraps ∧
      ∀ (a : AddArgs) (w : PackedVq) (err : ℤ), a.Counted →
        virtqueueAddPacked s.vq a = some (w, err) → err ≠ 0 → WrapKept s.vq w := by
  have hi : WrapInv s := exec_invariant_along (fun _ _ _ hi hallow h => hi.step hallow h)
    (WrapInv.init hnum indirect useDmaApi callback desc driver device tables) hacts hrun
  refine ⟨hi.wrapOk, fun a w err ha h herr => ?_⟩
  have hflags : s.vq.availUsedFlags = lapFlags (lap s.vq.num s.pos) := by
    rw [hi.lap_pos]; exact hi.flags
  exact wrapKept_of_failed (Nat.zero_lt_of_lt hi.idx_lt) hi.slot_pos hflags ha h herr

/-- A ring of three slots is filled by two buffers and wraps. -/
theorem packed_wrap_state_two_buffers :
    ∃ s, exec wrapStep ⟨freshPacked 3, 0⟩ [.add (outElements 2 7), .add (outElements 1 8)] =
        some s ∧ s.wraps = 1 ∧ WrapOk s.vq s.wraps := by
  have hrun : (exec wrapStep ⟨freshPacked 3, 0⟩
      [.add (outElements 2 7), .add (outElements 1 8)]).map (·.wraps) = some 1 := by decide
  obtain ⟨s, hs, hwraps⟩ := Option.map_eq_some_iff.mp hrun
  exact ⟨s, hs, hwraps, (packed_wrap_state (by decide) _ _ _ _ _ _ _ _ (by decide) hs).1⟩

/-- A ring of two slots is filled by one buffer of two elements: the flags are
those of the second lap, the counter is that of the first. -/
theorem full_ring_add_misses_wrap :
    ∃ s, exec wrapStep ⟨freshPacked 2, 0⟩ [.add (outElements 2 7)] = some s ∧ s.wraps = 1 ∧
      s.vq.availUsedFlags = packedFUsed ∧ s.vq.availWrapCounter = true ∧
      ¬ WrapOk s.vq s.wraps := by
  have hrun : (exec wrapStep ⟨freshPacked 2, 0⟩ [.add (outElements 2 7)]).map
      (fun s => (s.wraps, s.vq.availUsedFlags, s.vq.availWrapCounter)) =
      some (1, packedFUsed, true) := by decide
  obtain ⟨s, hs, hstate⟩ := Option.map_eq_some_iff.mp hrun
  simp only [Prod.mk.injEq] at hstate
  obtain ⟨hwraps, hflags, hcounter⟩ := hstate
  refine ⟨s, hs, hwraps, hflags, hcounter, fun hok => ?_⟩
  have hparity := hok.counter
  rw [hcounter, hwraps] at hparity
  cases hparity

end GfpDrivers.Virtio
