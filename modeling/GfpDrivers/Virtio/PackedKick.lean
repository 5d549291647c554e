import GfpDrivers.Virtio.PackedWrap

/-!
Notifications on a packed virtqueue. The device asks to be told when a given slot is made
available on a given lap; `virtqueue_kick_prepare_packed` decides by 16-bit indexes whether
that has happened since the last kick. The positions of the ring do not wrap here, and
`num_added` is how many of them were passed since the last kick.

The lap of the avail position is read from `avail_wrap_counter`, so the decision is right in
the runs in which that counter is (`WrapInv`).
-/

namespace GfpDrivers.Virtio

open Lib

/-- `virtqueue_kick_prepare_packed` -/
def virtqueueKickPreparePacked (vq : PackedVq) : PackedVq × Bool :=
  let old := sub16 vq.nextAvailIdx vq.numAdded
  let new := vq.nextAvailIdx
  let flags := virtio16ToCpu vq.device.flags
  let needsKick :=
    if flags ≠ packedEventFlagDesc then decide (flags ≠ packedEventFlagDisable)
    else
      let offWrap := virtio16ToCpu vq.device.offWrap
      let wrapCounter : Bool := offWrap / 2 ^ 15 = 1
      let eventIdx := offWrap % 2 ^ 15
      let eventIdx := if wrapCounter ≠ vq.availWrapCounter then sub16 eventIdx vq.num else eventIdx
      vringNeedEvent eventIdx new old
  ({ vq with numAdded := 0 }, needsKick)

/-- A packed queue with its avail position, and that position at the last kick. -/
structure PackedKickSys where
  ring : WrapSys
  kickedAt : ℕ

inductive PackedKickAct where
  | ring (act : PackedAct)
  | kickPrepare

def packedKickStep (s : PackedKickSys) : PackedKickAct → Option PackedKickSys
  | .ring act => (wrapStep s.ring act).map fun ring => { s with ring := ring }
  | .kickPrepare =>
      some { ring := { s.ring with vq := (virtqueueKickPreparePacked s.ring.vq).1 }, kickedAt := s.ring.pos }

/-- No add fills the empty ring with direct descriptors. -/
def PackedKickSys.Allows (s : PackedKickSys) : PackedKickAct → Prop
  | .ring act => s.ring.Allows act
  | .kickPrepare => True

instance PackedKickSys.decidableAllows (s : PackedKickSys) : ∀ act, Decidable (s.Allows act)
  | .ring act => WrapSys.decidableAllows s.ring act
  | .kickPrepare => isTrue trivial

/-- The slot `off` of the laps of parity `w` was made available since the last kick. -/
def PackedKickSys.Published (s : PackedKickSys) (off : ℕ) (w : Bool) : Prop :=
  ∃ q, s.kickedAt ≤ q ∧ q < s.ring.pos ∧ slot s.ring.vq.num q = off ∧ lap s.ring.vq.num q = w

/-- The queue when the device asks for the slot `off` of the laps of parity `w`. -/
def PackedKickSys.asked (s : PackedKickSys) (off : ℕ) (w : Bool) : PackedVq :=
  { s.ring.vq with device := ⟨off + w.toNat * 2 ^ 15, packedEventFlagDesc⟩ }

/-! ### Positions -/

section

variable {num wraps x n off e : ℕ} {c w : Bool}

/-- The positions of the last lap before `num * wraps + x` by their slots: those below `x` are on
the lap of that position, and those from `x` on are on the lap before. -/
theorem exists_pos_iff (hx : x < num) (hoff : off < num) (hn : n ≤ num) (hle : n ≤ num * wraps + x) :
    (∃ q, num * wraps + x - n ≤ q ∧ q < num * wraps + x ∧ slot num q = off ∧ lap num q = w) ↔
      if w = decide (wraps % 2 = 0) then off < x ∧ x ≤ off + n else x + num ≤ off + n := by
  have hnum : 0 < num := Nat.zero_lt_of_lt hx
  have hslot : ∀ k, slot num (num * k + off) = off := fun k => slot_mul_add k hoff
  have hlap : ∀ k, lap num (num * k + off) = decide (k % 2 = 0) := fun k => by
    rw [lap_mul_add k hnum, Nat.div_eq_of_lt hoff, Nat.add_zero]
  constructor
  · rintro ⟨q, hlo, hhi, hq, hw⟩
    have hqk : q = num * (q / num) + off := by
      rw [← hq, slot]
      exact (Nat.div_add_mod q num).symm
    generalize q / num = k at hqk
    subst hqk
    rw [hlap] at hw
    obtain hlt | rfl | hgt := Nat.lt_trichotomy k wraps
    · obtain ⟨j, rfl⟩ := Nat.exists_eq_add_of_lt hlt
      have hmul : num * (k + j + 1) = num * k + num * j + num := by
        rw [Nat.mul_add, Nat.mul_add, Nat.mul_one]
      -- at most one lap lies between the two positions
      have hj : j = 0 := by
        by_contra hj
        have := Nat.le_mul_of_pos_right num (Nat.pos_of_ne_zero hj)
        omega
      subst hj
      rw [← hw, if_neg]
      · omega
      · rw [decide_eq_decide]
        omega
    · rw [← hw, if_pos rfl]
      omega
    · have := Nat.mul_le_mul_left num (show wraps + 1 ≤ k from hgt)
      rw [Nat.mul_add, Nat.mul_one] at this
      omega
  · split
    · next hw =>
        intro hin
        exact ⟨num * wraps + off, by omega, by omega, hslot wraps, (hlap wraps).trans hw.symm⟩
    · next hw =>
        intro hin
        obtain ⟨k, rfl⟩ : ∃ k, wraps = k + 1 := by
          refine Nat.exists_eq_add_one_of_ne_zero ?_
          rintro rfl
          omega
        rw [Nat.mul_add, Nat.mul_one] at hle ⊢
        refine ⟨num * k + off, by omega, by omega, hslot k, ?_⟩
        have hflip : decide ((k + 1) % 2 = 0) = !decide (k % 2 = 0) := by
          rw [← decide_not, decide_eq_decide]
          omega
        rw [hflip] at hw
        rw [hlap]
        exact (Bool.ne_not.mp hw).symm

/-- The comparison of 16-bit indexes, on the lap of the avail position or on the one before. -/
theorem vringNeedEvent_iff (hnum : num ≤ 2 ^ 15) (hx : x < num) (hoff : off < num) (hn : n ≤ num) :
    vringNeedEvent (if w ≠ c then sub16 off num else off) x (sub16 x n) =
      decide (if w = c then off < x ∧ x ≤ off + n else x + num ≤ off + n) := by
  rw [vringNeedEvent, decide_eq_decide, sub16_sub16 (by omega) (by omega)]
  by_cases hw : w = c
  · rw [if_neg (not_not_intro hw), if_pos hw]
    rcases Nat.lt_or_ge off x with h | h
    · rw [sub16_of_le (a := x) (by omega) (Nat.le_of_lt h), sub16_of_le (by omega) (by omega)]
      omega
    · have hfar : n ≤ sub16 (sub16 x off) 1 := by
        rcases Nat.eq_or_lt_of_le h with rfl | h
        · rw [sub16_of_le (b := x) (by omega) le_rfl, sub16_of_lt (by decide) (by omega)]
          omega
        · rw [sub16_of_lt (b := off) (by omega) h, sub16_of_le (by omega) (by omega)]
          omega
      omega
  · rw [if_pos hw, if_neg hw, sub16_of_lt (b := num) (by omega) hoff, sub16_of_lt (a := x) (by omega) (by omega),
      sub16_of_le (by omega) (by omega)]
    omega

end

/-! ### The invariant -/

/-- What an allowed step of the ring does to the avail position and to `num_added`. -/
theorem WrapInv.pos_step {s t : WrapSys} (hi : WrapInv s) (hle : s.vq.num ≤ 2 ^ 15) {act : PackedAct}
    (hallow : s.Allows act) (h : wrapStep s act = some t) :
    t.vq.num = s.vq.num ∧ ((t.pos = s.pos ∧ t.vq.numAdded = s.vq.numAdded) ∨
      ∃ n, t.pos = s.pos + n ∧ t.vq.numAdded = (s.vq.numAdded + n) % 2 ^ 32) := by
  have hnum : 0 < s.vq.num := Nat.zero_lt_of_lt hi.idx_lt
  cases act with
  | add a =>
    simp only [wrapStep, Option.map_eq_some_iff] at h
    obtain ⟨⟨vq', err⟩, hadd, rfl⟩ := h
    have hflags : s.vq.availUsedFlags = lapFlags (lap s.vq.num s.pos) := by
      rw [hi.lap_pos]
      exact hi.flags
    cases addPackedOutcome hnum hi.slot_pos hflags hallow.1 hadd with
    | broken => exact ⟨rfl, .inl ⟨rfl, rfl⟩⟩
    | full => exact ⟨rfl, .inl ⟨rfl, rfl⟩⟩
    | unmapped _ _ hwrote =>
      rw [hwrote.eq]
      exact ⟨rfl, .inl ⟨rfl, rfl⟩⟩
    | @added w n p wrap hbroken hn hfree hwrote hdriver hwrap =>
      have hnum' : (w.makeAvail s.pos n a.data p wrap).num = s.vq.num := by
        rw [hwrote.eq]
        rfl
      have hused : s.vq.numFree - (w.makeAvail s.pos n a.data p wrap).numFree = n := by
        have hfree' : (w.makeAvail s.pos n a.data p wrap).numFree = s.vq.numFree - n := by
          rw [hwrote.eq]
          rfl
        omega
      have hidx : (w.makeAvail s.pos n a.data p wrap).nextAvailIdx = (s.vq.nextAvailIdx + n) % s.vq.num := by
        have hlt := Nat.mod_lt (s.vq.nextAvailIdx + n) hnum
        have hslot : slot s.vq.num (s.pos + n) = (s.vq.nextAvailIdx + n) % s.vq.num := by
          rw [slot, WrapSys.pos, Nat.add_assoc, Nat.mul_add_mod]
        have hsmall : slot s.vq.num (s.pos + n) % 2 ^ 16 = slot s.vq.num (s.pos + n) :=
          Nat.mod_eq_of_lt (by omega)
        rw [hwrote.eq, ← hslot]
        exact hsmall
      refine ⟨hnum', .inr ⟨n, ?_, ?_⟩⟩
      · rw [if_pos rfl, WrapSys.pos, hnum', hidx, hused, WrapSys.pos, Nat.mul_add, Nat.add_assoc, Nat.add_assoc,
          Nat.div_add_mod]
      · rw [if_pos rfl, hwrote.eq]
        rfl
  | getBuf =>
    simp only [wrapStep, packedStep, Option.map_some, Option.some.injEq] at h
    subst h
    have hout := getBufPackedOutcome s.vq
    generalize (virtqueueGetBufCtxPacked s.vq).vq = w, (virtqueueGetBufCtxPacked s.vq).ret = ret at hout ⊢
    cases hout with
    | idle => exact ⟨rfl, .inl ⟨rfl, rfl⟩⟩
    | bad => exact ⟨rfl, .inl ⟨rfl, rfl⟩⟩
    | got id driver _ _ _ hlt hdata =>
      obtain ⟨idx, wrap, hadv⟩ := advanceUsed_eq (detachBufPacked s.vq id).1 (s.vq.descState id).num
      rw [hadv]
      exact ⟨rfl, .inl ⟨rfl, rfl⟩⟩
  | detachUnused =>
    simp only [wrapStep, packedStep, Option.map_map, Option.map_eq_some_iff] at h
    obtain ⟨r, hdetach, rfl⟩ := h
    have hout := detachUnusedPackedOutcome hdetach
    simp only [Function.comp]
    generalize r.1 = w, r.2 = ret at hout ⊢
    cases hout with
    | none => exact ⟨rfl, .inl ⟨rfl, rfl⟩⟩
    | some i hlt hdata => exact ⟨rfl, .inl ⟨rfl, rfl⟩⟩
  | device desc event =>
    cases h
    exact ⟨rfl, .inl ⟨rfl, rfl⟩⟩

/-- `num_added` counts the positions that were passed since the last kick. -/
structure PackedKickInv (num : ℕ) (s : PackedKickSys) : Prop where
  wrap : WrapInv s.ring
  num_eq : s.ring.vq.num = num
  kickedAt_le : s.kickedAt ≤ s.ring.pos
  numAdded : s.ring.vq.numAdded = (s.ring.pos - s.kickedAt) % 2 ^ 32

theorem PackedKickInv.step {num : ℕ} (hle : num ≤ 2 ^ 15) {s t : PackedKickSys} {act : PackedKickAct}
    (hi : PackedKickInv num s) (hallow : s.Allows act) (h : packedKickStep s act = some t) : PackedKickInv num t := by
  cases act with
  | ring act =>
    simp only [packedKickStep, Option.map_eq_some_iff] at h
    obtain ⟨r, hr, rfl⟩ := h
    obtain ⟨hnum, hpos⟩ := hi.wrap.pos_step (hi.num_eq ▸ hle) hallow hr
    have hkicked := hi.kickedAt_le
    have hadded := hi.numAdded
    refine ⟨hi.wrap.step hallow hr, hnum.trans hi.num_eq, ?_, ?_⟩
    · rcases hpos with ⟨hpos, -⟩ | ⟨n, hpos, -⟩ <;> simp only <;> omega
    · rcases hpos with ⟨hpos, hadded'⟩ | ⟨n, hpos, hadded'⟩
      · simp only [hpos, hadded', hadded]
      · simp only [hpos, hadded', hadded]
        omega
  | kickPrepare =>
    cases h
    refine ⟨?_, hi.num_eq, Nat.le_refl _, ?_⟩
    · exact hi.wrap.congr rfl rfl rfl rfl hi.wrap.room
    · exact (Nat.sub_self s.ring.pos).symm ▸ rfl

theorem packedKickInv_init {num : ℕ} (hnum : 0 < num) (indirect useDmaApi callback : Bool)
    (desc : ℕ → VringPackedDesc) (driver device : VringPackedDescEvent) (tables : Ptr → ℕ → VringPackedDesc) :
    PackedKickInv num
      ⟨⟨vringCreateVirtqueuePacked num indirect useDmaApi callback desc driver device tables, 0⟩, 0⟩ where
  wrap := WrapInv.init hnum indirect useDmaApi callback desc driver device tables
  num_eq := rfl
  kickedAt_le := Nat.zero_le _
  numAdded := rfl

theorem PackedKickInv.kick {num : ℕ} (hle : num ≤ 2 ^ 15) {s : PackedKickSys} (hi : PackedKickInv num s)
    (hadded : s.ring.pos - s.kickedAt ≤ num) {off : ℕ} (hoff : off < num) (w : Bool) :
    (virtqueueKickPreparePacked (s.asked off w)).2 = true ↔ s.Published off w := by
  have hx : s.ring.vq.nextAvailIdx < num := hi.num_eq ▸ hi.wrap.idx_lt
  have hkicked := hi.kickedAt_le
  have hpos : s.ring.pos = num * s.ring.wraps + s.ring.vq.nextAvailIdx := by rw [WrapSys.pos, hi.num_eq]
  have hsmall : s.ring.vq.numAdded = s.ring.pos - s.kickedAt := by
    rw [hi.numAdded]
    exact Nat.mod_eq_of_lt (by omega)
  have hwrap : decide ((off + w.toNat * 2 ^ 15) % 2 ^ 16 / 2 ^ 15 = 1) = w := by
    cases w with
    | false => simp only [Bool.toNat_false, decide_eq_false_iff_not]; omega
    | true => simp only [Bool.toNat_true, decide_eq_true_eq]; omega
  have hidx : (off + w.toNat * 2 ^ 15) % 2 ^ 16 % 2 ^ 15 = off := by
    have := Bool.toNat_le w
    omega
  have hflags : packedEventFlagDesc % 2 ^ 16 = packedEventFlagDesc := rfl
  have hneed : (virtqueueKickPreparePacked (s.asked off w)).2 =
      vringNeedEvent (if w ≠ s.ring.vq.availWrapCounter then sub16 off num else off) s.ring.vq.nextAvailIdx
        (sub16 s.ring.vq.nextAvailIdx s.ring.vq.numAdded) := by
    simp only [virtqueueKickPreparePacked, PackedKickSys.asked, virtio16ToCpu, hflags, ne_eq, not_true_eq_false, if_false,
      hwrap, hidx, hi.num_eq]
  rw [hneed, hsmall, vringNeedEvent_iff hle hx hoff hadded, decide_eq_true_eq, hi.wrap.counter,
    ← exists_pos_iff hx hoff hadded (by omega), ← hpos, Nat.sub_sub_self hkicked, PackedKickSys.Published, hi.num_eq]

/-- **The kick decides by position.** On a packed ring of a size that virtio allows, in every state
of every run in which no add fills the empty ring with direct descriptors, and in which at most
`num` slots were made available since the last kick: `virtqueue_kick_prepare_packed` asks for
a notification if and only if the slot that the device waits for is one of them. -/
theorem packed_kick_by_position {num : ℕ} (hnum : 0 < num) (hle : num ≤ 2 ^ 15) (indirect useDmaApi callback : Bool)
    (desc : ℕ → VringPackedDesc) (driver device : VringPackedDescEvent) (tables : Ptr → ℕ → VringPackedDesc)
    (acts : List PackedKickAct) {s : PackedKickSys}
    (hacts : Along packedKickStep PackedKickSys.Allows
      ⟨⟨vringCreateVirtqueuePacked num indirect useDmaApi callback desc driver device tables, 0⟩, 0⟩ acts)
    (hrun : exec packedKickStep
      ⟨⟨vringCreateVirtqueuePacked num indirect useDmaApi callback desc driver device tables, 0⟩, 0⟩ acts = some s)
    (hadded : s.ring.pos - s.kickedAt ≤ num) {off : ℕ} (hoff : off < num) (w : Bool) :
    (virtqueueKickPreparePacked (s.asked off w)).2 = true ↔ s.Published off w := by
  have hi : PackedKickInv num s := exec_invariant_along (fun _ _ _ hi hallow h => hi.step hle hallow h)
    (packedKickInv_init hnum indirect useDmaApi callback desc driver device tables) hacts hrun
  exact hi.kick hle hadded hoff w

/-- Two buffers on a ring of four slots, the second one past its end, with a kick between them. -/
def packedKickRun : List PackedKickAct :=
  [.ring (.add (outElements 3 7)), .kickPrepare, .ring (.device (fun _ => ⟨0, 0, 0, 0x8080⟩) ⟨0, 0⟩), .ring .getBuf,
    .ring (.add (outElements 2 8))]

theorem packed_kick_past_the_end :
    ∃ s, exec packedKickStep ⟨⟨freshPacked 4, 0⟩, 0⟩ packedKickRun = some s ∧
      ((virtqueueKickPreparePacked (s.asked 3 true)).2 = true ↔ s.Published 3 true) ∧
      ((virtqueueKickPreparePacked (s.asked 1 false)).2 = true ↔ s.Published 1 false) := by
  have hrun : (exec packedKickStep ⟨⟨freshPacked 4, 0⟩, 0⟩ packedKickRun).map (fun s => s.ring.pos - s.kickedAt) =
      some 2 := by decide
  obtain ⟨s, hs, hadded⟩ := Option.map_eq_some_iff.mp hrun
  have hkick : ∀ off < 4, ∀ w, (virtqueueKickPreparePacked (s.asked off w)).2 = true ↔ s.Published off w :=
    fun off hoff w => packed_kick_by_position (by decide) (by decide) false true true _ _ _ _ packedKickRun (by decide) hs
      (by omega) hoff w
  exact ⟨s, hs, hkick 3 (by decide) true, hkick 1 (by decide) false⟩

/-- A buffer of two elements fills a ring of two slots. The device waits for the first of them, and
is not told. -/
theorem full_ring_kick_missed :
    ∃ s, exec packedKickStep ⟨⟨freshPacked 2, 0⟩, 0⟩ [.ring (.add (outElements 2 7))] = some s ∧
      s.ring.pos - s.kickedAt ≤ 2 ∧ (virtqueueKickPreparePacked (s.asked 0 true)).2 = false ∧ s.Published 0 true := by
  have hrun : (exec packedKickStep ⟨⟨freshPacked 2, 0⟩, 0⟩ [.ring (.add (outElements 2 7))]).map
      (fun s => (s.ring.pos, s.kickedAt, s.ring.vq.num, (virtqueueKickPreparePacked (s.asked 0 true)).2)) =
      some (2, 0, 2, false) := by decide
  obtain ⟨s, hs, hstate⟩ := Option.map_eq_some_iff.mp hrun
  simp only [Prod.mk.injEq] at hstate
  obtain ⟨hpos, hkicked, hnum, hkick⟩ := hstate
  refine ⟨s, hs, by omega, hkick, 0, by omega, by omega, ?_, ?_⟩
  · rw [hnum]
    rfl
  · rw [hnum]
    rfl

end GfpDrivers.Virtio
