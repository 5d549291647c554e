import GfpDrivers.Lib.Ledger
import GfpDrivers.Virtio.PackedIds
import GfpDrivers.Virtio.SplitAccounting

/-!
The tokens of a virtqueue, split or packed, against a device that writes
anything into the memory it owns. A buffer is named by the token passed to
`virtqueue_add`, and the driver gets the token back from `virtqueue_get_buf`
or, when the queue is torn down, from `virtqueue_detach_unused_buf`. The
tokens in flight are kept in `desc_state`, which the device cannot reach.
-/

namespace GfpDrivers.Virtio

open Lib Function

/-- `struct vring_virtqueue`: the layout is `packed_ring`. -/
inductive Vq where
  | split (vq : SplitVq)
  | packed (vq : PackedVq)

namespace Vq

def num : Vq → ℕ
  | split vq => vq.num
  | packed vq => vq.num

def broken : Vq → Bool
  | split vq => vq.broken
  | packed vq => vq.broken

/-- `desc_state[i].data` -/
def token : Vq → ℕ → Ptr
  | split vq, i => (vq.descState i).data
  | packed vq, i => (vq.descState i).data

/-- `more_used` -/
def moreUsed : Vq → Bool
  | split vq => moreUsedSplit vq
  | packed vq => moreUsedPacked vq

/-- The id in the used entry that the driver looks at next. -/
def usedId : Vq → ℕ
  | split vq => virtio32ToCpu (vq.used.ring (vq.lastUsedIdx &&& (vq.num - 1))).id
  | packed vq => virtio16ToCpu (vq.desc vq.lastUsedIdx).id

end Vq

/-- `virtqueue_add` -/
def virtqueueAdd : Vq → AddArgs → Option (Vq × ℤ)
  | .split vq, a => (virtqueueAddSplit vq a).map fun r => (.split r.1, r.2)
  | .packed vq, a => (virtqueueAddPacked vq a).map fun r => (.packed r.1, r.2)

/-- `virtqueue_get_buf`: the queue and the token. -/
def virtqueueGetBuf : Vq → Option (Vq × Ptr)
  | .split vq => (virtqueueGetBufCtxSplit vq).map fun r => (.split r.vq, r.ret)
  | .packed vq => some (.packed (virtqueueGetBufCtxPacked vq).vq, (virtqueueGetBufCtxPacked vq).ret)

/-- `virtqueue_detach_unused_buf` -/
def virtqueueDetachUnusedBuf : Vq → Option (Vq × Ptr)
  | .split vq => (virtqueueDetachUnusedBufSplit vq).map fun r => (.split r.1, r.2)
  | .packed vq => (virtqueueDetachUnusedBufPacked vq).map fun r => (.packed r.1, r.2)

/-- What the device can write: the used ring of a split queue, the descriptors
and the event structure of a packed one. -/
structure DeviceWrite where
  used : VringUsed
  desc : ℕ → VringPackedDesc
  event : VringPackedDescEvent

def Vq.write : Vq → DeviceWrite → Vq
  | .split vq, d => .split { vq with used := d.used }
  | .packed vq, d => .packed { vq with desc := d.desc, device := d.event }

/-- A queue with the tokens accepted and returned so far. -/
structure TokenSys where
  vq : Vq
  accepted : List Ptr
  returned : List Ptr

inductive TokenAct where
  | add (a : AddArgs)
  | getBuf
  | detachUnused
  | device (d : DeviceWrite)

/-- The record of a call that returned `t`. -/
def TokenSys.take (s : TokenSys) (vq : Vq) (t : Ptr) : TokenSys :=
  { s with vq := vq, returned := if t = 0 then s.returned else s.returned ++ [t] }

def tokenStep (s : TokenSys) : TokenAct → Option TokenSys
  | .add a => (virtqueueAdd s.vq a).map fun r =>
      { s with vq := r.1, accepted := if r.2 = (0 : ℤ) then s.accepted ++ [a.data] else s.accepted }
  | .getBuf => (virtqueueGetBuf s.vq).map fun r => s.take r.1 r.2
  | .detachUnused => (virtqueueDetachUnusedBuf s.vq).map fun r => s.take r.1 r.2
  | .device d => some { s with vq := s.vq.write d }

/-- Adds are counted, and their tokens are not in flight. -/
def TokenSys.Allows (s : TokenSys) : TokenAct → Prop
  | .add a => a.Counted ∧ s.accepted.count a.data = s.returned.count a.data
  | _ => True

instance TokenSys.decidableAllows (s : TokenSys) : ∀ act, Decidable (s.Allows act)
  | .add _ => inferInstanceAs (Decidable (_ ∧ _))
  | .getBuf | .detachUnused | .device _ => isTrue trivial

/-- A new queue of either layout. -/
inductive Vq.New (num : ℕ) : Vq → Prop
  | split (indirect event useDmaApi callback : Bool) (desc : ℕ → VringDesc) (avail : VringAvail)
      (used : VringUsed) (tables : Ptr → ℕ → VringDesc) :
      Vq.New num
        (.split (vringNewVirtqueue num indirect event useDmaApi callback desc avail used tables))
  | packed (indirect useDmaApi callback : Bool) (desc : ℕ → VringPackedDesc)
      (driver device : VringPackedDescEvent) (tables : Ptr → ℕ → VringPackedDesc) :
      Vq.New num (.packed
        (vringCreateVirtqueuePacked num indirect useDmaApi callback desc driver device tables))

/-! ### What the calls do to the tokens -/

/-- The wrap state of a packed queue is sound; nothing is asked of a split one. -/
def Vq.OnLap : Vq → Prop
  | .split _ => True
  | .packed vq => Virtio.OnLap vq

/-- The descriptors, or the ids, form a pool. -/
def Vq.Pooled : Vq → Prop
  | .split vq => ∃ len, SplitInv vq len
  | .packed vq => IdInv vq

/-- What an add can do to the tokens: a failed one leaves them alone, a
successful one stores its token; nothing is overwritten if the free list is
sound. -/
def AddsToken (vq w : Vq) (data : Ptr) (err : ℤ) : Prop :=
  (err ≠ 0 ∧ w.token = vq.token) ∨
    (err = 0 ∧ ∃ i, w.token = Function.update vq.token i data ∧ (vq.Pooled → vq.token i = 0))

/-- What a call that returns `t` can do to the tokens: nothing, or `t` is
taken from where it is stored. -/
def TakesToken (vq w : Vq) (t : Ptr) : Prop :=
  (t = 0 ∧ w.token = vq.token) ∨
    (t ≠ 0 ∧ ∃ i < vq.num, vq.token i = t ∧ w.token = Function.update vq.token i 0)

theorem token_split_update (vq : SplitVq) {w : SplitVq} {i : ℕ} (state : VringDescStateSplit)
    (h : w.descState = update vq.descState i state) :
    (Vq.split w).token = update (Vq.split vq).token i state.data := by
  funext x
  simp only [Vq.token, h]
  by_cases hx : x = i
  · rw [hx, update_self, update_self]
  · rw [update_of_ne hx, update_of_ne hx]
    rfl

theorem token_packed_update (vq : PackedVq) {w : PackedVq} {i : ℕ}
    (state : VringDescStatePacked) (h : w.descState = update vq.descState i state) :
    (Vq.packed w).token = update (Vq.packed vq).token i state.data := by
  funext x
  simp only [Vq.token, h]
  by_cases hx : x = i
  · rw [hx, update_self, update_self]
  · rw [update_of_ne hx, update_of_ne hx]
    rfl

theorem addsToken_split {vq w : SplitVq} {a : AddArgs} {err : ℤ} (ha : a.Counted)
    (h : virtqueueAddSplit vq a = some (w, err)) :
    AddsToken (.split vq) (.split w) a.data err := by
  cases addOutcome h ha with
  | broken => exact .inl ⟨by decide, rfl⟩
  | full => exact .inl ⟨by decide, rfl⟩
  | fullNotify => exact .inl ⟨by decide, rfl⟩
  | unmapped _ hfill =>
    refine .inl ⟨by decide, ?_⟩
    rw [hfill.eq]
    rfl
  | @added w n p _ hn hle hfill =>
    obtain ⟨m, k, b, hk⟩ := kickIfFull_eq
      (w.publish n (vq.next^[n] vq.freeHead) a.data p) a.notifyOk
    refine .inr ⟨rfl, vq.freeHead, token_split_update vq ⟨a.data, p⟩ ?_, ?_⟩
    · rw [hk, hfill.eq]
      rfl
    · rintro ⟨len, hi⟩
      have hzero := hi.pool.len_freeHead (by omega)
      by_contra hne
      exact (hi.data vq.freeHead).mpr hne hzero

theorem addsToken_packed {vq w : PackedVq} {a : AddArgs} {err : ℤ} (hl : OnLap vq)
    (ha : a.Counted) (h : virtqueueAddPacked vq a = some (w, err)) :
    AddsToken (.packed vq) (.packed w) a.data err := by
  obtain ⟨q, hq, hlap⟩ := hl.exists_pos
  cases addPackedOutcome (Nat.zero_lt_of_lt hl.idx_lt) hq hlap ha h with
  | broken => exact .inl ⟨by decide, rfl⟩
  | full => exact .inl ⟨by decide, rfl⟩
  | unmapped _ _ hwrote =>
    refine .inl ⟨by decide, ?_⟩
    rw [hwrote.eq]
    rfl
  | @added w n p wrap _ hn hle hwrote =>
    refine .inr ⟨rfl, vq.freeHead % 2 ^ 16, token_packed_update vq ⟨a.data, p, n % 2 ^ 16,
      w.next^[n - 1] (vq.freeHead % 2 ^ 16) % 2 ^ 16⟩ ?_, ?_⟩
    · rw [hwrote.eq]
      rfl
    · intro hi
      have hi : IdInv vq := hi
      have hzero := hi.pool.len_freeHead (by omega)
      rw [hi.freeHead_mod]
      by_contra hne
      exact hi.held vq.freeHead hne hzero

theorem virtqueueAdd_token {vq w : Vq} {a : AddArgs} {err : ℤ} (hl : vq.OnLap) (ha : a.Counted)
    (h : virtqueueAdd vq a = some (w, err)) : AddsToken vq w a.data err := by
  cases vq with
  | split vq =>
    simp only [virtqueueAdd, Option.map_eq_some_iff, Prod.mk.injEq] at h
    obtain ⟨⟨v, e⟩, h, rfl, rfl⟩ := h
    exact addsToken_split ha h
  | packed vq =>
    simp only [virtqueueAdd, Option.map_eq_some_iff, Prod.mk.injEq] at h
    obtain ⟨⟨v, e⟩, h, rfl, rfl⟩ := h
    exact addsToken_packed hl ha h

theorem token_detachSplit {vq v w : SplitVq} {i : ℕ} {ctx : Option Ptr}
    (h : detachBufSplit vq i = some (v, ctx)) (hw : w.descState = v.descState) :
    (Vq.split w).token = update (Vq.split vq).token i 0 := by
  obtain ⟨last, numFree, p, -, rfl⟩ := detachBufSplit_eq h
  exact token_split_update vq ⟨0, p⟩ hw

theorem token_detachPacked (vq : PackedVq) {w : PackedVq} {i : ℕ}
    (hw : w.descState = (detachBufPacked vq i).1.descState) :
    (Vq.packed w).token = update (Vq.packed vq).token i 0 := by
  obtain ⟨p, hp⟩ := detachBufPacked_eq vq i
  rw [hp] at hw
  exact token_packed_update vq _ hw

theorem virtqueueGetBuf_token {vq w : Vq} {t : Ptr} (h : virtqueueGetBuf vq = some (w, t)) :
    TakesToken vq w t := by
  cases vq with
  | split vq =>
    simp only [virtqueueGetBuf, Option.map_eq_some_iff, Prod.mk.injEq] at h
    obtain ⟨r, h, rfl, rfl⟩ := h
    have hout := getBufOutcome h
    generalize r.vq = w, r.ret = t at hout ⊢
    cases hout with
    | idle => exact .inl ⟨rfl, rfl⟩
    | bad => exact .inl ⟨rfl, rfl⟩
    | got i avail _ hi hdata hdetach =>
      exact .inr ⟨hdata, i, hi, rfl, token_detachSplit hdetach rfl⟩
  | packed vq =>
    simp only [virtqueueGetBuf, Option.some.injEq, Prod.mk.injEq] at h
    obtain ⟨rfl, rfl⟩ := h
    have hout := getBufPackedOutcome vq
    generalize (virtqueueGetBufCtxPacked vq).vq = w,
      (virtqueueGetBufCtxPacked vq).ret = t at hout ⊢
    cases hout with
    | idle => exact .inl ⟨rfl, rfl⟩
    | bad => exact .inl ⟨rfl, rfl⟩
    | got id driver _ _ _ hlt hdata =>
      obtain ⟨idx, wrap, hadv⟩ := advanceUsed_eq (detachBufPacked vq id).1
        (vq.descState id).num
      rw [hadv]
      exact .inr ⟨hdata, id, hlt, rfl, token_detachPacked vq rfl⟩

theorem virtqueueDetachUnusedBuf_token {vq w : Vq} {t : Ptr}
    (h : virtqueueDetachUnusedBuf vq = some (w, t)) : TakesToken vq w t := by
  cases vq with
  | split vq =>
    simp only [virtqueueDetachUnusedBuf, Option.map_eq_some_iff, Prod.mk.injEq] at h
    obtain ⟨r, h, rfl, rfl⟩ := h
    have hout := detachUnusedOutcome h
    generalize r.1 = w, r.2 = t at hout ⊢
    cases hout with
    | none => exact .inl ⟨rfl, rfl⟩
    | some i hi hdata hdetach => exact .inr ⟨hdata, i, hi, rfl, token_detachSplit hdetach rfl⟩
  | packed vq =>
    simp only [virtqueueDetachUnusedBuf, Option.map_eq_some_iff, Prod.mk.injEq] at h
    obtain ⟨r, h, rfl, rfl⟩ := h
    have hout := detachUnusedPackedOutcome h
    generalize r.1 = w, r.2 = t at hout ⊢
    cases hout with
    | none => exact .inl ⟨rfl, rfl⟩
    | some i hi hdata => exact .inr ⟨hdata, i, hi, rfl, token_detachPacked vq rfl⟩

/-! ### What the calls leave alone -/

/-- The queue is as big as before, on a lap and its free list sound if it was,
and a broken one stays broken. -/
structure Sound (vq w : Vq) : Prop where
  num : w.num = vq.num
  onLap : vq.OnLap → w.OnLap
  pooled : vq.OnLap → vq.Pooled → w.Pooled
  broken : vq.broken = true → w.broken = true

theorem Sound.refl (vq : Vq) : Sound vq vq := ⟨rfl, id, fun _ => id, id⟩

theorem virtqueueAdd_sound {vq w : Vq} {a : AddArgs} {err : ℤ} (hl : vq.OnLap) (ha : a.Counted)
    (h : virtqueueAdd vq a = some (w, err)) : Sound vq w := by
  cases vq with
  | split vq =>
    simp only [virtqueueAdd, Option.map_eq_some_iff, Prod.mk.injEq] at h
    obtain ⟨⟨v, e⟩, h, rfl, rfl⟩ := h
    have hpooled : (∃ len, SplitInv vq len) → ∃ len, SplitInv v len :=
      fun ⟨len, hi⟩ => hi.add ha h
    cases addOutcome h ha with
    | broken => exact .refl _
    | full => exact .refl _
    | fullNotify => exact ⟨rfl, id, fun _ => hpooled, id⟩
    | unmapped hbroken hfill =>
      refine ⟨?_, id, fun _ => hpooled, fun hb => absurd (hbroken.symm.trans hb) (by decide)⟩
      change v.num = vq.num
      rw [hfill.eq]
    | @added w n p hbroken _ _ hfill =>
      refine ⟨?_, id, fun _ => hpooled, fun hb => absurd (hbroken.symm.trans hb) (by decide)⟩
      obtain ⟨m, k, b, hk⟩ := kickIfFull_eq
        (w.publish n (vq.next^[n] vq.freeHead) a.data p) a.notifyOk
      change (SplitVq.kickIfFull _ _).num = vq.num
      rw [hk, hfill.eq]
      rfl
  | packed vq =>
    simp only [virtqueueAdd, Option.map_eq_some_iff, Prod.mk.injEq] at h
    obtain ⟨⟨v, e⟩, h, rfl, rfl⟩ := h
    have hlap : OnLap vq := hl
    have hpooled : IdInv vq → IdInv v := fun hi => hi.add hlap ha h
    have hon : OnLap v := hlap.add ha h
    obtain ⟨q, hq, hflags⟩ := hlap.exists_pos
    cases addPackedOutcome (Nat.zero_lt_of_lt hlap.idx_lt) hq hflags ha h with
    | broken => exact .refl _
    | full => exact .refl _
    | unmapped hbroken _ hwrote =>
      refine ⟨?_, fun _ => hon, fun _ => hpooled,
        fun hb => absurd (hbroken.symm.trans hb) (by decide)⟩
      change v.num = vq.num
      rw [hwrote.eq]
    | @added w n p wrap hbroken _ _ hwrote =>
      refine ⟨?_, fun _ => hon, fun _ => hpooled,
        fun hb => absurd (hbroken.symm.trans hb) (by decide)⟩
      change w.num = vq.num
      rw [hwrote.eq]

theorem virtqueueGetBuf_sound {vq w : Vq} {t : Ptr} (h : virtqueueGetBuf vq = some (w, t)) :
    Sound vq w := by
  cases vq with
  | split vq =>
    simp only [virtqueueGetBuf, Option.map_eq_some_iff, Prod.mk.injEq] at h
    obtain ⟨r, h, rfl, rfl⟩ := h
    have hpooled : (∃ len, SplitInv vq len) → ∃ len, SplitInv r.vq len :=
      fun ⟨len, hi⟩ => hi.getBuf h
    have hout := getBufOutcome h
    generalize r.vq = w, r.ret = t at hout hpooled ⊢
    cases hout with
    | idle => exact .refl _
    | bad => exact ⟨rfl, id, fun _ => hpooled, fun _ => rfl⟩
    | got i avail _ _ _ hdetach =>
      obtain ⟨last, numFree, p, -, rfl⟩ := detachBufSplit_eq hdetach
      exact ⟨rfl, id, fun _ => hpooled, id⟩
  | packed vq =>
    simp only [virtqueueGetBuf, Option.some.injEq, Prod.mk.injEq] at h
    obtain ⟨rfl, rfl⟩ := h
    have hpooled : IdInv vq → IdInv (virtqueueGetBufCtxPacked vq).vq := IdInv.getBuf
    have hout := getBufPackedOutcome vq
    generalize (virtqueueGetBufCtxPacked vq).vq = w,
      (virtqueueGetBufCtxPacked vq).ret = t at hout hpooled ⊢
    cases hout with
    | idle => exact .refl _
    | bad => exact ⟨rfl, fun hl => ⟨hl.idx_lt, hl.flags⟩, fun _ => hpooled, fun _ => rfl⟩
    | got id driver _ _ _ hlt hdata =>
      obtain ⟨idx, wrap, hadv⟩ := advanceUsed_eq (detachBufPacked vq id).1
        (vq.descState id).num
      rw [hadv] at hpooled ⊢
      exact ⟨rfl, fun hl => ⟨hl.idx_lt, hl.flags⟩, fun _ => hpooled, fun hb => hb⟩

theorem virtqueueDetachUnusedBuf_sound {vq w : Vq} {t : Ptr}
    (h : virtqueueDetachUnusedBuf vq = some (w, t)) : Sound vq w := by
  cases vq with
  | split vq =>
    simp only [virtqueueDetachUnusedBuf, Option.map_eq_some_iff, Prod.mk.injEq] at h
    obtain ⟨r, h, rfl, rfl⟩ := h
    have hpooled : (∃ len, SplitInv vq len) → ∃ len, SplitInv r.1 len :=
      fun ⟨len, hi⟩ => hi.detachUnused h
    have hout := detachUnusedOutcome h
    generalize r.1 = w, r.2 = t at hout hpooled ⊢
    cases hout with
    | none => exact .refl _
    | some i _ _ hdetach =>
      obtain ⟨last, numFree, p, -, rfl⟩ := detachBufSplit_eq hdetach
      exact ⟨rfl, id, fun _ => hpooled, id⟩
  | packed vq =>
    simp only [virtqueueDetachUnusedBuf, Option.map_eq_some_iff, Prod.mk.injEq] at h
    obtain ⟨r, h, rfl, rfl⟩ := h
    have hpooled : IdInv vq → IdInv r.1 := fun hi => hi.detachUnused h
    have hout := detachUnusedPackedOutcome h
    generalize r.1 = w, r.2 = t at hout hpooled ⊢
    cases hout with
    | none => exact .refl _
    | some i _ _ => exact ⟨rfl, fun hl => ⟨hl.idx_lt, hl.flags⟩, fun _ => hpooled, fun hb => hb⟩

theorem write_sound (vq : Vq) (d : DeviceWrite) : Sound vq (vq.write d) := by
  cases vq with
  | split vq =>
    refine ⟨rfl, id, fun _ ⟨len, hi⟩ => ?_, id⟩
    exact ⟨len, hi.congr rfl rfl rfl rfl rfl rfl⟩
  | packed vq =>
    refine ⟨rfl, fun hl => ⟨hl.idx_lt, hl.flags⟩, fun _ hi => ?_, fun hb => hb⟩
    have hi : IdInv vq := hi
    exact hi.congr rfl rfl rfl rfl rfl

theorem write_token (vq : Vq) (d : DeviceWrite) : (vq.write d).token = vq.token := by
  cases vq <;> rfl

/-! ### The invariant -/

/-- The tokens in `desc_state` are those in flight; on a ring that the 16-bit
indices can address, none of them is missing. -/
structure TokenInv (s : TokenSys) : Prop where
  onLap : s.vq.OnLap
  ledger : Ledger s.vq.token s.accepted s.returned
  kept : s.vq.num ≤ 2 ^ 15 → s.vq.Pooled ∧ Kept s.vq.token s.accepted s.returned

namespace TokenInv

variable {s t : TokenSys}

theorem init {num : ℕ} (hnum : 0 < num) {vq : Vq} (hvq : vq.New num) : TokenInv ⟨vq, [], []⟩ := by
  cases hvq with
  | split indirect event useDmaApi callback desc avail used tables =>
    refine ⟨trivial, ledger_empty, fun hle => ⟨?_, kept_empty⟩⟩
    have hle : num ≤ 2 ^ 15 := hle
    exact ⟨_, SplitInv.init (by omega) indirect event useDmaApi callback desc avail used tables⟩
  | packed indirect useDmaApi callback desc driver device tables =>
    refine ⟨⟨hnum, true, rfl⟩, ledger_empty, fun hle => ⟨?_, kept_empty⟩⟩
    exact IdInv.init hle indirect useDmaApi callback desc driver device tables

theorem add (hi : TokenInv s) {a : AddArgs} (hallow : s.Allows (.add a))
    (h : tokenStep s (.add a) = some t) : TokenInv t := by
  obtain ⟨ha, hnew⟩ := hallow
  simp only [tokenStep, Option.map_eq_some_iff] at h
  obtain ⟨⟨w, err⟩, hadd, rfl⟩ := h
  have hsound := virtqueueAdd_sound hi.onLap ha hadd
  refine ⟨hsound.onLap hi.onLap, ?_, ?_⟩
  · obtain ⟨herr, htoken⟩ | ⟨rfl, i, htoken, -⟩ := virtqueueAdd_token hi.onLap ha hadd
    · simp only [herr, if_false, htoken]
      exact hi.ledger
    · simp only [if_true, htoken]
      exact hi.ledger.put hnew i
  · intro hle
    have hle : w.num ≤ 2 ^ 15 := hle
    rw [hsound.num] at hle
    obtain ⟨hpooled, hkept⟩ := hi.kept hle
    refine ⟨hsound.pooled hi.onLap hpooled, ?_⟩
    obtain ⟨herr, htoken⟩ | ⟨rfl, i, htoken, hempty⟩ := virtqueueAdd_token hi.onLap ha hadd
    · simp only [herr, if_false, htoken]
      exact hkept
    · simp only [if_true, htoken]
      exact hkept.put (hempty hpooled)

theorem take (hi : TokenInv s) {w : Vq} {u : Ptr} (hsound : Sound s.vq w)
    (htakes : TakesToken s.vq w u) : TokenInv (s.take w u) := by
  refine ⟨hsound.onLap hi.onLap, ?_, ?_⟩
  · obtain ⟨rfl, htoken⟩ | ⟨hu, i, -, htok, htoken⟩ := htakes
    · simp only [TokenSys.take, if_true, htoken]
      exact hi.ledger
    · simp only [TokenSys.take, hu, if_false, htoken]
      exact hi.ledger.take htok hu
  · intro hle
    have hle : w.num ≤ 2 ^ 15 := hle
    rw [hsound.num] at hle
    obtain ⟨hpooled, hkept⟩ := hi.kept hle
    refine ⟨hsound.pooled hi.onLap hpooled, ?_⟩
    obtain ⟨rfl, htoken⟩ | ⟨hu, i, -, htok, htoken⟩ := htakes
    · simp only [TokenSys.take, if_true, htoken]
      exact hkept
    · simp only [TokenSys.take, hu, if_false, htoken]
      exact hkept.take hi.ledger htok hu

theorem step (hi : TokenInv s) {act : TokenAct} (hallow : s.Allows act)
    (h : tokenStep s act = some t) : TokenInv t := by
  cases act with
  | add a => exact hi.add hallow h
  | getBuf =>
    simp only [tokenStep, Option.map_eq_some_iff] at h
    obtain ⟨⟨w, u⟩, hget, rfl⟩ := h
    exact hi.take (virtqueueGetBuf_sound hget) (virtqueueGetBuf_token hget)
  | detachUnused =>
    simp only [tokenStep, Option.map_eq_some_iff] at h
    obtain ⟨⟨w, u⟩, hdetach, rfl⟩ := h
    exact hi.take (virtqueueDetachUnusedBuf_sound hdetach)
      (virtqueueDetachUnusedBuf_token hdetach)
  | device d =>
    cases h
    have hsound := write_sound s.vq d
    refine ⟨hsound.onLap hi.onLap, ?_, fun hle => ?_⟩
    · change Ledger (s.vq.write d).token _ _
      rw [write_token]
      exact hi.ledger
    · have hle : (s.vq.write d).num ≤ 2 ^ 15 := hle
      rw [hsound.num] at hle
      obtain ⟨hpooled, hkept⟩ := hi.kept hle
      refine ⟨hsound.pooled hi.onLap hpooled, ?_⟩
      change Kept (s.vq.write d).token _ _
      rw [write_token]
      exact hkept

theorem count_of_takes (hi : TokenInv s) {w : Vq} {u : Ptr} (htakes : TakesToken s.vq w u)
    (hu : u ≠ 0) : s.accepted.count u = s.returned.count u + 1 := by
  obtain ⟨h0, -⟩ | ⟨-, i, -, rfl, -⟩ := htakes
  · exact absurd h0 hu
  · exact hi.ledger.once i hu

end TokenInv

/-! ### A device that makes a mess -/

/-- An id that is out of range or names no buffer in flight breaks the queue. -/
theorem virtqueueGetBuf_bad {vq : Vq} (hbroken : vq.broken = false) (hmore : vq.moreUsed = true)
    (hbad : vq.num ≤ vq.usedId ∨ vq.token vq.usedId = 0) :
    ∃ w, virtqueueGetBuf vq = some (w, 0) ∧ w.broken = true := by
  cases vq with
  | split vq =>
    simp only [Vq.broken] at hbroken
    simp only [Vq.moreUsed] at hmore
    simp only [Vq.num, Vq.usedId, Vq.token] at hbad
    refine ⟨.split { vq with broken := true }, ?_, rfl⟩
    simp only [virtqueueGetBuf, virtqueueGetBufCtxSplit, hbroken, hmore, Bool.false_eq_true,
      Bool.not_true, if_false]
    split
    · rfl
    · next hlt => rw [if_pos (hbad.resolve_left hlt)]; rfl
  | packed vq =>
    simp only [Vq.broken] at hbroken
    simp only [Vq.moreUsed] at hmore
    simp only [Vq.num, Vq.usedId, Vq.token] at hbad
    refine ⟨.packed { vq with broken := true }, ?_, rfl⟩
    simp only [virtqueueGetBuf, virtqueueGetBufCtxPacked, hbroken, hmore, Bool.false_eq_true,
      Bool.not_true, if_false]
    split
    · rfl
    · next hlt => rw [if_pos (hbad.resolve_left hlt)]

theorem virtqueueGetBuf_broken {vq : Vq} (hbroken : vq.broken = true) :
    virtqueueGetBuf vq = some (vq, 0) := by
  cases vq with
  | split vq =>
    simp only [Vq.broken] at hbroken
    simp [virtqueueGetBuf, virtqueueGetBufCtxSplit, hbroken]
  | packed vq =>
    simp only [Vq.broken] at hbroken
    simp [virtqueueGetBuf, virtqueueGetBufCtxPacked, hbroken]

/-- A broken queue accepts nothing. The exception is a call that hits the
`BUG_ON` before. -/
theorem virtqueueAdd_broken {vq w : Vq} {a : AddArgs} {err : ℤ} (hbroken : vq.broken = true)
    (h : virtqueueAdd vq a = some (w, err)) : w = vq ∧ err = - EIO := by
  cases vq with
  | split vq =>
    simp only [Vq.broken] at hbroken
    simp only [virtqueueAdd, virtqueueAddSplit, hbroken, if_true, Option.map_eq_some_iff,
      Prod.mk.injEq] at h
    obtain ⟨r, h, rfl, rfl⟩ := h
    split at h
    · cases h
    · cases h; exact ⟨rfl, rfl⟩
  | packed vq =>
    simp only [Vq.broken] at hbroken
    simp only [virtqueueAdd, virtqueueAddPacked, hbroken, if_true, Option.map_eq_some_iff,
      Prod.mk.injEq] at h
    obtain ⟨r, h, rfl, rfl⟩ := h
    split at h
    · cases h
    · cases h; exact ⟨rfl, rfl⟩

theorem tokenStep_broken {s t : TokenSys} {act : TokenAct} (hbroken : s.vq.broken = true)
    (h : tokenStep s act = some t) : t.vq.broken = true := by
  cases act with
  | add a =>
    simp only [tokenStep, Option.map_eq_some_iff] at h
    obtain ⟨⟨w, err⟩, hadd, rfl⟩ := h
    obtain ⟨rfl, -⟩ := virtqueueAdd_broken hbroken hadd
    exact hbroken
  | getBuf =>
    simp only [tokenStep, Option.map_eq_some_iff] at h
    obtain ⟨⟨w, u⟩, hget, rfl⟩ := h
    exact (virtqueueGetBuf_sound hget).broken hbroken
  | detachUnused =>
    simp only [tokenStep, Option.map_eq_some_iff] at h
    obtain ⟨⟨w, u⟩, hdetach, rfl⟩ := h
    exact (virtqueueDetachUnusedBuf_sound hdetach).broken hbroken
  | device d =>
    cases h
    exact (write_sound s.vq d).broken hbroken

/-! ### Main result -/

/-- What the calls do in a reachable state. -/
structure TokensOk (s : TokenSys) : Prop where
  /-- A token that is returned was accepted once more often than returned. -/
  getBuf : ∀ w t, virtqueueGetBuf s.vq = some (w, t) → t ≠ 0 →
    s.accepted.count t = s.returned.count t + 1
  detachUnused : ∀ w t, virtqueueDetachUnusedBuf s.vq = some (w, t) → t ≠ 0 →
    s.accepted.count t = s.returned.count t + 1
  /-- A bad id returns `NULL` and breaks the queue. -/
  bad : s.vq.broken = false → s.vq.moreUsed = true →
    s.vq.num ≤ s.vq.usedId ∨ s.vq.token s.vq.usedId = 0 →
    ∃ w, virtqueueGetBuf s.vq = some (w, 0) ∧ w.broken = true
  /-- A broken queue stays so, returns nothing and accepts nothing. -/
  broken_stays : s.vq.broken = true → ∀ act t, tokenStep s act = some t → t.vq.broken = true
  broken_getBuf : s.vq.broken = true → virtqueueGetBuf s.vq = some (s.vq, 0)
  broken_add : s.vq.broken = true → ∀ a w err, virtqueueAdd s.vq a = some (w, err) →
    w = s.vq ∧ err = - EIO
  /-- A token not returned as often as accepted is still in the queue. -/
  kept : s.vq.num ≤ 2 ^ 15 → ∀ t, t ≠ 0 → s.accepted.count t ≠ s.returned.count t →
    ∃ i, s.vq.token i = t

/-- **Tokens.** On a queue of either layout, in every state of every run
against any device, no call returns a token that is not in flight, a bad
completion breaks the queue for good, and no token is lost. -/
theorem tokens_returned_once {num : ℕ} (hnum : 0 < num) {vq : Vq} (hvq : vq.New num)
    (acts : List TokenAct) {s : TokenSys}
    (hacts : Along tokenStep TokenSys.Allows ⟨vq, [], []⟩ acts)
    (hrun : exec tokenStep ⟨vq, [], []⟩ acts = some s) : TokensOk s := by
  have hi : TokenInv s := exec_invariant_along (fun _ _ _ hi hallow h => hi.step hallow h)
    (TokenInv.init hnum hvq) hacts hrun
  exact {
    getBuf := fun w t h ht => hi.count_of_takes (virtqueueGetBuf_token h) ht
    detachUnused := fun w t h ht => hi.count_of_takes (virtqueueDetachUnusedBuf_token h) ht
    bad := virtqueueGetBuf_bad
    broken_stays := fun hb act t h => tokenStep_broken hb h
    broken_getBuf := virtqueueGetBuf_broken
    broken_add := fun hb a w err h => virtqueueAdd_broken hb h
    kept := fun hle t ht hne => ((hi.kept hle).2 t ht).resolve_left hne }

/-- Two buffers on a packed ring; the device completes one, then names an id
out of range. -/
def messRun : List TokenAct :=
  [.add (outElements 1 7), .add (outElements 1 8),
    .device ⟨⟨0, 0, fun _ => ⟨0, 0⟩, 0⟩, fun _ => ⟨0, 0, 1, packedFAvail ||| packedFUsed⟩, ⟨0, 0⟩⟩,
    .getBuf,
    .device ⟨⟨0, 0, fun _ => ⟨0, 0⟩, 0⟩, fun _ => ⟨0, 0, 99, packedFAvail ||| packedFUsed⟩, ⟨0, 0⟩⟩,
    .getBuf]

theorem tokens_returned_once_mess :
    ∃ s, exec tokenStep ⟨.packed (freshPacked 4), [], []⟩ messRun = some s ∧
      s.returned = [8] ∧ s.vq.broken = true ∧ TokensOk s := by
  have hrun : (exec tokenStep ⟨.packed (freshPacked 4), [], []⟩ messRun).map
      (fun s => (s.returned, s.vq.broken)) = some ([8], true) := by decide
  obtain ⟨s, hs, hstate⟩ := Option.map_eq_some_iff.mp hrun
  rw [Prod.mk.injEq] at hstate
  exact ⟨s, hs, hstate.1, hstate.2,
    tokens_returned_once (show 0 < 4 by decide) (.packed ..) messRun (by decide) hs⟩

end GfpDrivers.Virtio
