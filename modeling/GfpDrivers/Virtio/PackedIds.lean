import GfpDrivers.Lib.ChainPool
import GfpDrivers.Virtio.PackedSpec

/-!
The ids of a packed virtqueue. An add takes as many ids from the free list as
slots from the ring, names the buffer by the first one, and remembers the
number and the last id in `desc_state`; that is all a detach needs to
prepend the whole chain to the free list again.
-/

namespace GfpDrivers.Virtio

open Lib Function

/-- The ids form a pool: the chain handed out at `h` is as long as `desc_state`
says, and ends where it says. -/
structure IdInv (vq : PackedVq) : Prop where
  num_le : vq.num ≤ 2 ^ 15
  pool : Pool vq.next vq.num vq.freeHead vq.numFree vq.held
  next_lt : ∀ x, vq.next x < 2 ^ 16
  freeHead_lt : vq.freeHead < 2 ^ 16
  held : ∀ h, (vq.descState h).data ≠ 0 → vq.held h ≠ 0
  last : ∀ h, vq.held h ≠ 0 → (vq.descState h).last = vq.next^[vq.held h - 1] h

namespace IdInv

variable {vq w : PackedVq}

theorem init {num : ℕ} (hnum : num ≤ 2 ^ 15) (indirect useDmaApi callback : Bool)
    (desc : ℕ → VringPackedDesc) (driver device : VringPackedDescEvent)
    (tables : Ptr → ℕ → VringPackedDesc) :
    IdInv (vringCreateVirtqueuePacked num indirect useDmaApi callback desc driver device tables) := by
  have hheld : (vringCreateVirtqueuePacked num indirect useDmaApi callback desc driver device
      tables).held = fun _ => 0 := by
    funext h
    rfl
  refine ⟨hnum, ?_, ?_, ?_, fun h hdata => absurd rfl hdata, fun h hne => absurd rfl hne⟩
  · rw [hheld]
    refine Pool.init fun i hi => ?_
    change i + 1 < num at hi
    change (if i < num - 1 then (i + 1) % 2 ^ 16 else 0) = i + 1
    rw [if_pos (by omega), Nat.mod_eq_of_lt (by omega)]
  · intro x
    change (if x < num - 1 then (x + 1) % 2 ^ 16 else 0) < 2 ^ 16
    split <;> omega
  · change 0 < 2 ^ 16
    omega

theorem congr (hi : IdInv vq) (hnum : w.num = vq.num) (hfree : w.numFree = vq.numFree)
    (hhead : w.freeHead = vq.freeHead) (hnext : w.next = vq.next)
    (hstate : w.descState = vq.descState) : IdInv w := by
  have hheld : w.held = vq.held := by
    funext h
    simp only [PackedVq.held, hstate]
  constructor
  · rw [hnum]; exact hi.num_le
  · rw [hnext, hnum, hhead, hfree, hheld]; exact hi.pool
  · rw [hnext]; exact hi.next_lt
  · rw [hhead]; exact hi.freeHead_lt
  · rw [hstate, hheld]; exact hi.held
  · rw [hstate, hheld, hnext]; exact hi.last

theorem wrote (hi : IdInv vq) {q n : ℕ} (hw : Wrote vq w q n) : IdInv w := by
  refine hi.congr ?_ ?_ ?_ hw.next ?_
  · rw [hw.eq]
  · rw [hw.eq]
  · rw [hw.eq]
  · rw [hw.eq]

theorem freeHead_mod (hi : IdInv vq) : vq.freeHead % 2 ^ 16 = vq.freeHead :=
  Nat.mod_eq_of_lt hi.freeHead_lt

/-- What an add stores for the buffer it names by the first free id. -/
theorem makeAvail_descState (hi : IdInv vq) {n : ℕ} (q : ℕ) (data p : Ptr) (wrap : Bool)
    (hn : n ≠ 0) (hle : n ≤ vq.numFree) :
    (vq.makeAvail q n data p wrap).descState = update vq.descState vq.freeHead
      ⟨data, p, n, vq.next^[n - 1] vq.freeHead⟩ := by
  have hnum := hi.num_le
  have hfree := hi.pool.numFree_le
  have hlast := hi.pool.free_lt _ (mem_chain_of_le hle (last_mem_chain vq.next vq.freeHead hn))
  simp only [PackedVq.makeAvail, hi.freeHead_mod]
  rw [Nat.mod_eq_of_lt (show n < 2 ^ 16 by omega), Nat.mod_eq_of_lt (by omega)]

theorem makeAvail_held (hi : IdInv vq) {n : ℕ} (q : ℕ) {data : Ptr} (p : Ptr) (wrap : Bool)
    (hn : n ≠ 0) (hle : n ≤ vq.numFree) (hdata : data ≠ 0) :
    (vq.makeAvail q n data p wrap).held = update vq.held vq.freeHead n := by
  rw [held_update (hi.makeAvail_descState q data p wrap hn hle), if_neg hdata]

theorem makeAvail (hi : IdInv vq) {q n : ℕ} {data p : Ptr} {wrap : Bool} (hn : n ≠ 0)
    (hle : n ≤ vq.numFree) (hdata : data ≠ 0) : IdInv (vq.makeAvail q n data p wrap) := by
  have hstate := hi.makeAvail_descState q data p wrap hn hle
  have hheld := hi.makeAvail_held q p wrap hn hle hdata
  have hhead : (vq.makeAvail q n data p wrap).freeHead = vq.next^[n] vq.freeHead := by
    simp only [PackedVq.makeAvail, hi.freeHead_mod]
  have hnext : (vq.makeAvail q n data p wrap).next = vq.next := rfl
  constructor
  · exact hi.num_le
  · rw [hheld, hhead, hnext]
    exact hi.pool.alloc hn hle
  · exact hi.next_lt
  · rw [hhead]
    obtain ⟨m, rfl⟩ := Nat.exists_eq_succ_of_ne_zero hn
    rw [iterate_succ_apply']
    exact hi.next_lt _
  · intro h hne
    rw [hheld]
    rw [hstate] at hne
    by_cases hh : h = vq.freeHead
    · rw [hh, update_self]
      exact hn
    · rw [update_of_ne hh] at hne ⊢
      exact hi.held h hne
  · intro h hne
    rw [hheld] at hne ⊢
    rw [hstate, hnext]
    by_cases hh : h = vq.freeHead
    · rw [hh, update_self, update_self]
    · rw [update_of_ne hh] at hne
      rw [update_of_ne hh, update_of_ne hh]
      exact hi.last h hne

theorem detach_held (vq : PackedVq) (id : ℕ) : (detachBufPacked vq id).1.held = update vq.held id 0 := by
  obtain ⟨p, hp⟩ := detachBufPacked_eq vq id
  have hstate : (detachBufPacked vq id).1.descState = update vq.descState id
      ⟨0, p, (vq.descState id).num, (vq.descState id).last⟩ := by rw [hp]
  exact held_update hstate

theorem detach (hi : IdInv vq) {id : ℕ} (hdata : (vq.descState id).data ≠ 0) :
    IdInv (detachBufPacked vq id).1 := by
  have hlen := hi.held id hdata
  have hnum : (vq.descState id).num = vq.held id := (if_neg hdata).symm
  obtain ⟨m, hm⟩ := Nat.exists_eq_succ_of_ne_zero hlen
  have hlast : (vq.descState id).last = vq.next^[m] id := by
    rw [hi.last id hlen, hm]
    rfl
  have hheld := detach_held vq id
  obtain ⟨p, hp⟩ := detachBufPacked_eq vq id
  have hnext : (detachBufPacked vq id).1.next =
      update vq.next (vq.next^[m] id) vq.freeHead := by
    funext x
    rw [hp, hlast]
    by_cases hx : x = vq.next^[m] id
    · rw [hx, update_self, ← Nat.mod_eq_of_lt hi.freeHead_lt]
      simp [PackedVq.next]
    · simp [PackedVq.next, hx]
  have hmem : vq.next^[m] id ∈ chain vq.next id (vq.held id) := by
    have hmem := last_mem_chain vq.next id hlen
    rwa [hm] at hmem ⊢
  constructor
  · rw [hp]; exact hi.num_le
  · rw [hnext, hheld, hp, hnum, hm]
    exact hi.pool.release hm
  · intro x
    rw [hnext]
    by_cases hx : x = vq.next^[m] id
    · rw [hx, update_self]; exact hi.freeHead_lt
    · rw [update_of_ne hx]; exact hi.next_lt x
  · have hlt := hi.pool.head_lt hlen
    have hle := hi.num_le
    rw [hp]
    change id < 2 ^ 16
    omega
  · intro h hne
    rw [hheld]
    rw [hp] at hne
    by_cases hh : h = id
    · subst hh
      simp at hne
    · simp only [update_of_ne hh] at hne ⊢
      exact hi.held h hne
  · intro h hne
    rw [hheld] at hne ⊢
    have hh : h ≠ id := by
      rintro rfl
      exact hne (update_self ..)
    rw [update_of_ne hh] at hne ⊢
    -- the link written is on the detached chain
    have hout := hi.pool.busy_busy id h (Ne.symm hh) _ hmem
    rw [hnext, iterate_eq_of_chain_eq (chain_update_of_notMem hout _) hne, hp]
    simp only [update_of_ne hh]
    exact hi.last h hne

/-! ### Steps -/

theorem add (hi : IdInv vq) (hl : OnLap vq) {a : AddArgs} {err : ℤ} (ha : a.Counted)
    (h : virtqueueAddPacked vq a = some (w, err)) : IdInv w := by
  have hdata : a.data ≠ 0 := by
    intro h0
    simp [virtqueueAddPacked, h0] at h
  obtain ⟨q, hq, hlap⟩ := hl.exists_pos
  cases addPackedOutcome (Nat.zero_lt_of_lt hl.idx_lt) hq hlap ha h with
  | broken => exact hi
  | full => exact hi
  | unmapped _ _ hwrote => exact hi.wrote hwrote
  | @added w n p wrap _ hn hle hwrote =>
    have hfree : w.numFree = vq.numFree := by rw [hwrote.eq]
    exact (hi.wrote hwrote).makeAvail hn (by omega) hdata

theorem getBuf (hi : IdInv vq) : IdInv (virtqueueGetBufCtxPacked vq).vq := by
  have hout := getBufPackedOutcome vq
  generalize (virtqueueGetBufCtxPacked vq).vq = w, (virtqueueGetBufCtxPacked vq).ret = ret at hout ⊢
  cases hout with
  | idle => exact hi
  | bad => exact hi.congr rfl rfl rfl rfl rfl
  | got id driver _ _ _ _ hdata =>
    obtain ⟨idx, wrap, hadv⟩ := advanceUsed_eq (detachBufPacked vq id).1 (vq.descState id).num
    rw [hadv]
    exact (hi.detach hdata).congr rfl rfl rfl rfl rfl

theorem detachUnused (hi : IdInv vq) {r : PackedVq × Ptr}
    (h : virtqueueDetachUnusedBufPacked vq = some r) : IdInv r.1 := by
  have hout := detachUnusedPackedOutcome h
  generalize r.1 = w, r.2 = ret at hout ⊢
  cases hout with
  | none => exact hi
  | some i _ hdata => exact hi.detach hdata

end IdInv

end GfpDrivers.Virtio
