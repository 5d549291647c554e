import GfpDrivers.Lib.Runs
import GfpDrivers.Virtio.SplitSpec

/-!
The descriptors of a split virtqueue over whole runs: each one is on the
free chain or on the chain of exactly one buffer in flight, whatever the
device writes into the used ring and wherever an add fails.

The chain of a buffer in flight is not stored. It is read back from the
flags of its descriptors, as `detach_buf_split` does; the invariant behind
the result is that this reading finds the chain that was cut off when the
buffer was added.
-/

namespace GfpDrivers.Virtio

open Lib Function

/-- The chain of length `num_free` from `free_head` on. -/
def SplitVq.freeChain (vq : SplitVq) : List ℕ := chain vq.next vq.freeHead vq.numFree

/-- The descriptors from `i` on up to the first one without
`VRING_DESC_F_NEXT`, if it is among the first `fuel` ones. -/
def followNext (vq : SplitVq) : ℕ → ℕ → Option (List ℕ)
  | 0, _ => none
  | fuel + 1, i =>
      if hasFlag (vq.desc i).flags vringDescFNext then
        (followNext vq fuel (vq.next i)).map (i :: ·)
      else some [i]

/-- The chain of the buffer in flight at `h`; empty if there is none. -/
def SplitVq.inFlight (vq : SplitVq) (h : ℕ) : Option (List ℕ) :=
  if (vq.descState h).data = 0 then some [] else followNext vq vq.num h

/-- Every descriptor is accounted for: `busy h` is the chain of the buffer in
flight at `h`. -/
structure Accounted (vq : SplitVq) (busy : ℕ → List ℕ) : Prop where
  free_lt : ∀ x ∈ vq.freeChain, x < vq.num
  free_nodup : vq.freeChain.Nodup
  inFlight : ∀ h, vq.inFlight h = some (busy h)
  busy_lt : ∀ h, ∀ x ∈ busy h, x < vq.num
  busy_nodup : ∀ h, (busy h).Nodup
  busy_busy : ∀ h h', h ≠ h' → (busy h).Disjoint (busy h')
  free_busy : ∀ h, vq.freeChain.Disjoint (busy h)
  total : vq.numFree + ∑ h ∈ Finset.range vq.num, (busy h).length = vq.num

/-! ### The invariant -/

/-- The links form a pool; a chain is handed out where a token is stored, and
its flags delimit it. -/
structure SplitInv (vq : SplitVq) (len : ℕ → ℕ) : Prop where
  num_le : vq.num ≤ 2 ^ 16
  pool : Pool vq.next vq.num vq.freeHead vq.numFree len
  next_lt : ∀ x, vq.next x < 2 ^ 16
  freeHead_lt : vq.freeHead < 2 ^ 16
  data : ∀ h, len h ≠ 0 ↔ (vq.descState h).data ≠ 0
  delimited : ∀ h, len h ≠ 0 → Delimited vq h (len h)

namespace SplitInv

variable {vq w : SplitVq} {len : ℕ → ℕ}

theorem init {num : ℕ} (hnum : num ≤ 2 ^ 16) (indirect event useDmaApi callback : Bool)
    (desc : ℕ → VringDesc) (avail : VringAvail) (used : VringUsed)
    (tables : Ptr → ℕ → VringDesc) :
    SplitInv (vringNewVirtqueue num indirect event useDmaApi callback desc avail used tables)
      fun _ => 0 := by
  refine ⟨hnum, Pool.init ?_, ?_, ?_, by simp [vringNewVirtqueue], by simp⟩
  · intro i hi
    change i + 1 < num at hi
    change (if i < num - 1 then (i + 1) % 2 ^ 16 else 0) = i + 1
    rw [if_pos (by omega), Nat.mod_eq_of_lt (by omega)]
  · intro x
    change (if x < num - 1 then (x + 1) % 2 ^ 16 else 0) < 2 ^ 16
    split <;> omega
  · change 0 < 2 ^ 16
    omega

/-- The invariant reads only the descriptors and their bookkeeping. -/
theorem congr (hi : SplitInv vq len) (hnum : w.num = vq.num) (hfree : w.numFree = vq.numFree)
    (hhead : w.freeHead = vq.freeHead) (hdesc : w.desc = vq.desc)
    (hextra : w.descExtra = vq.descExtra) (hstate : w.descState = vq.descState) :
    SplitInv w len := by
  have hnext : w.next = vq.next := by
    funext x
    simp only [SplitVq.next, hextra]
  constructor
  · rw [hnum]; exact hi.num_le
  · rw [hnext, hnum, hhead, hfree]; exact hi.pool
  · rw [hnext]; exact hi.next_lt
  · rw [hhead]; exact hi.freeHead_lt
  · rw [hstate]; exact hi.data
  · intro h hlen
    have hd := hi.delimited h hlen
    refine ⟨?_, ?_⟩
    · rw [hnext, hdesc]; exact hd.inner
    · rw [hnext, hdesc]; exact hd.last

theorem filled (hi : SplitInv vq len) {n : ℕ} (hf : Filled vq w n) (hle : n ≤ vq.numFree) :
    SplitInv w len := by
  have hnum : w.num = vq.num := by rw [hf.eq]
  have hfree : w.numFree = vq.numFree := by rw [hf.eq]
  have hhead : w.freeHead = vq.freeHead := by rw [hf.eq]
  have hstate : w.descState = vq.descState := by rw [hf.eq]
  constructor
  · rw [hnum]; exact hi.num_le
  · rw [hf.next, hnum, hhead, hfree]; exact hi.pool
  · rw [hf.next]; exact hi.next_lt
  · rw [hhead]; exact hi.freeHead_lt
  · rw [hstate]; exact hi.data
  · intro h hlen
    -- the chain of a buffer in flight is not on the free chain
    have hsame : ∀ x ∈ chain vq.next h (len h), w.desc x = vq.desc x := by
      intro x hx
      exact hf.desc x fun hx' => hi.pool.free_busy h x (mem_chain_of_le hle hx') hx
    have hd := hi.delimited h hlen
    refine ⟨fun x hx => ?_, ?_⟩
    · rw [hf.next] at hx
      rw [hsame x (mem_chain_of_le (Nat.sub_le _ _) hx)]
      exact hd.inner x hx
    · rw [hf.next, hsame _ (last_mem_chain vq.next h hlen)]
      exact hd.last

theorem publish (hi : SplitInv vq len) {n : ℕ} {data p : Ptr} (hf : Filled vq w n) (hn : n ≠ 0)
    (hle : n ≤ vq.numFree) (hd : Delimited w vq.freeHead n) (hdata : data ≠ 0) :
    SplitInv (w.publish n (vq.next^[n] vq.freeHead) data p)
      (update len vq.freeHead n) := by
  have hw := hi.filled hf hle
  have hfree : w.numFree = vq.numFree := by rw [hf.eq]
  have hhead : w.freeHead = vq.freeHead := by rw [hf.eq]
  constructor
  · exact hw.num_le
  · have hpool := hw.pool.alloc hn (by omega)
    rw [hhead, hf.next] at hpool
    change Pool w.next w.num _ (w.numFree - n) _
    rw [hf.next]
    exact hpool
  · exact hw.next_lt
  · change vq.next^[n] vq.freeHead < 2 ^ 16
    obtain ⟨m, rfl⟩ := Nat.exists_eq_succ_of_ne_zero hn
    rw [iterate_succ_apply']
    exact hi.next_lt _
  · intro h
    change _ ↔ (update w.descState w.freeHead ⟨data, p⟩ h).data ≠ 0
    rw [hhead]
    by_cases hh : h = vq.freeHead
    · subst hh
      simp [hn, hdata]
    · rw [update_of_ne hh, update_of_ne hh]
      exact hw.data h
  · intro h hlen
    by_cases hh : h = vq.freeHead
    · subst hh
      rw [update_self]
      exact ⟨hd.inner, hd.last⟩
    · rw [update_of_ne hh] at hlen ⊢
      have hd' := hw.delimited h hlen
      exact ⟨hd'.inner, hd'.last⟩

theorem detach (hi : SplitInv vq len) {i : ℕ} {ctx : Option Ptr}
    (hdata : (vq.descState i).data ≠ 0) (h : detachBufSplit vq i = some (w, ctx)) :
    SplitInv w (update len i 0) := by
  obtain ⟨last, numFree, p, hwalk, hw⟩ := detachBufSplit_eq h
  have hlen := (hi.data i).mpr hdata
  obtain ⟨m, hm⟩ := Nat.exists_eq_succ_of_ne_zero hlen
  rw [chainEndSplit_of_delimited _ _ (hi.delimited i hlen) hlen (hi.pool.len_le i), hm] at hwalk
  simp only [Nat.succ_eq_add_one, Nat.add_sub_cancel, Option.some.injEq, Prod.mk.injEq] at hwalk
  obtain ⟨rfl, rfl⟩ := hwalk
  have hnum : w.num = vq.num := by rw [hw]
  have hdesc : w.desc = vq.desc := by rw [hw]
  have hnext : w.next = update vq.next (vq.next^[m] i) vq.freeHead := by
    funext x
    rw [hw]
    by_cases hx : x = vq.next^[m] i
    · subst hx
      rw [update_self, ← Nat.mod_eq_of_lt hi.freeHead_lt]
      simp [SplitVq.next]
    · simp [SplitVq.next, hx]
  have hpool : Pool w.next w.num w.freeHead w.numFree (update len i 0) := by
    rw [hnext, hw]
    exact hi.pool.release hm
  have hlast : vq.next^[m] i ∈ chain vq.next i (len i) := by
    have hmem := last_mem_chain vq.next i hlen
    rwa [hm] at hmem ⊢
  constructor
  · rw [hnum]; exact hi.num_le
  · exact hpool
  · intro x
    rw [hnext]
    by_cases hx : x = vq.next^[m] i
    · rw [hx, update_self]; exact hi.freeHead_lt
    · rw [update_of_ne hx]; exact hi.next_lt x
  · have hlt := hi.pool.head_lt hlen
    have hle := hi.num_le
    rw [hw]
    exact Nat.lt_of_lt_of_le hlt hle
  · intro h'
    rw [hw]
    change _ ↔ (update vq.descState i ⟨0, p⟩ h').data ≠ 0
    by_cases hh : h' = i
    · subst hh; simp
    · rw [update_of_ne hh, update_of_ne hh]
      exact hi.data h'
  · intro h' hlen'
    have hh : h' ≠ i := by
      rintro rfl
      exact hlen' (update_self ..)
    rw [update_of_ne hh] at hlen' ⊢
    -- the link written is on the detached chain, so the others stay
    have hout := hi.pool.busy_busy i h' (Ne.symm hh) _ hlast
    have hin : vq.next^[m] i ∉ chain vq.next h' (len h' - 1) :=
      fun hx => hout (mem_chain_of_le (Nat.sub_le _ _) hx)
    have hd := hi.delimited h' hlen'
    refine ⟨?_, ?_⟩
    · rw [hnext, hdesc, chain_update_of_notMem hin]
      exact hd.inner
    · rw [hnext, hdesc, iterate_eq_of_chain_eq (chain_update_of_notMem hout _) hlen']
      exact hd.last

/-! ### Steps -/

theorem add (hi : SplitInv vq len) {a : AddArgs} {err : ℤ} (ha : a.Counted)
    (h : virtqueueAddSplit vq a = some (w, err)) : ∃ len', SplitInv w len' := by
  have hdata : a.data ≠ 0 := by
    intro h0
    simp [virtqueueAddSplit, h0] at h
  cases addOutcome h ha with
  | broken => exact ⟨len, hi⟩
  | full => exact ⟨len, hi⟩
  | fullNotify => exact ⟨len, hi.congr rfl rfl rfl rfl rfl rfl⟩
  | unmapped _ hfill => exact ⟨len, hi.filled hfill le_rfl⟩
  | added n p _ hn hle hfill hdelim =>
    have hpub := hi.publish hfill hn hle (hdelim hi.pool.free_nodup) hdata (p := p)
    obtain ⟨m, k, b, hk⟩ := kickIfFull_eq
      (SplitVq.publish _ n (vq.next^[n] vq.freeHead) a.data p) a.notifyOk
    rw [hk]
    exact ⟨_, hpub.congr rfl rfl rfl rfl rfl rfl⟩

theorem getBuf (hi : SplitInv vq len) {r : GetBuf SplitVq}
    (h : virtqueueGetBufCtxSplit vq = some r) : ∃ len', SplitInv r.vq len' := by
  have hout := getBufOutcome h
  generalize r.vq = w, r.ret = t at hout ⊢
  cases hout with
  | idle => exact ⟨len, hi⟩
  | bad => exact ⟨len, hi.congr rfl rfl rfl rfl rfl rfl⟩
  | got i avail _ _ hdata hdetach =>
    exact ⟨_, (hi.detach hdata hdetach).congr rfl rfl rfl rfl rfl rfl⟩

theorem detachUnused (hi : SplitInv vq len) {r : SplitVq × Ptr}
    (h : virtqueueDetachUnusedBufSplit vq = some r) : ∃ len', SplitInv r.1 len' := by
  have hout := detachUnusedOutcome h
  generalize r.1 = w, r.2 = t at hout ⊢
  cases hout with
  | none => exact ⟨len, hi⟩
  | some i _ hdata hdetach =>
    exact ⟨_, (hi.detach hdata hdetach).congr rfl rfl rfl rfl rfl rfl⟩

theorem step (hi : SplitInv vq len) {act : SplitAct}
    (ha : ∀ a, act = .add a → a.Counted) (h : splitStep vq act = some w) :
    ∃ len', SplitInv w len' := by
  cases act with
  | add a =>
    simp only [splitStep, Option.map_eq_some_iff] at h
    obtain ⟨⟨w, err⟩, h, rfl⟩ := h
    exact hi.add (ha a rfl) h
  | getBuf =>
    simp only [splitStep, Option.map_eq_some_iff] at h
    obtain ⟨r, h, rfl⟩ := h
    exact hi.getBuf h
  | detachUnused =>
    simp only [splitStep, Option.map_eq_some_iff] at h
    obtain ⟨r, h, rfl⟩ := h
    exact hi.detachUnused h
  | kick ok =>
    cases h
    obtain ⟨k, b, hk⟩ := virtqueueKickSplit_eq vq ok
    rw [hk]
    exact ⟨len, hi.congr rfl rfl rfl rfl rfl rfl⟩
  | device used =>
    cases h
    exact ⟨len, hi.congr rfl rfl rfl rfl rfl rfl⟩

/-! ### What the invariant says -/

theorem followNext_of_delimited {i n : ℕ} (fuel : ℕ) (hd : Delimited vq i n) (hn : n ≠ 0)
    (hfuel : n ≤ fuel) : followNext vq fuel i = some (chain vq.next i n) := by
  obtain ⟨n, rfl⟩ := Nat.exists_eq_succ_of_ne_zero hn
  induction n generalizing fuel i with
  | zero =>
    obtain ⟨fuel, rfl⟩ := Nat.exists_eq_add_of_le' hfuel
    have hlast := hd.last
    simp only [Nat.sub_self, iterate_zero, id_eq] at hlast
    simp [followNext, hlast, chain]
  | succ n ih =>
    obtain ⟨fuel, rfl⟩ := Nat.exists_eq_add_of_le' hfuel
    have hfirst := hd.inner i (head_mem_chain vq.next i (by omega))
    have htail : Delimited vq (vq.next i) (n + 1) :=
      ⟨fun x hx => hd.inner x (List.mem_cons_of_mem i hx), hd.last⟩
    have hrest := ih (fuel + (n + 1)) htail (by omega) (by omega)
    rw [show fuel + (n + 1 + 1) = fuel + (n + 1) + 1 by omega, followNext, if_pos hfirst, hrest]
    rfl

theorem inFlight_eq (hi : SplitInv vq len) (h : ℕ) :
    vq.inFlight h = some (chain vq.next h (len h)) := by
  unfold SplitVq.inFlight
  by_cases hlen : len h = 0
  · have hdata : (vq.descState h).data = 0 := by
      by_contra hne
      exact (hi.data h).mpr hne hlen
    simp [hdata, hlen]
  · rw [if_neg ((hi.data h).mp hlen)]
    exact followNext_of_delimited _ (hi.delimited h hlen) hlen (hi.pool.len_le h)

theorem accounted (hi : SplitInv vq len) :
    Accounted vq fun h => chain vq.next h (len h) where
  free_lt := hi.pool.free_lt
  free_nodup := hi.pool.free_nodup
  inFlight := hi.inFlight_eq
  busy_lt := hi.pool.busy_lt
  busy_nodup := hi.pool.busy_nodup
  busy_busy h h' hne x hx hx' := hi.pool.busy_busy h h' hne x hx hx'
  free_busy h x hx hx' := hi.pool.free_busy h x hx hx'
  total := by
    simp only [length_chain]
    exact hi.pool.total

end SplitInv

/-! ### Main result -/

/-- A failed add changes none of the bookkeeping. -/
structure Unmoved (vq w : SplitVq) : Prop where
  freeHead : w.freeHead = vq.freeHead
  numFree : w.numFree = vq.numFree
  availIdxShadow : w.availIdxShadow = vq.availIdxShadow
  descState : w.descState = vq.descState

theorem unmoved_of_failed {vq w : SplitVq} {a : AddArgs} {err : ℤ} (ha : a.Counted)
    (h : virtqueueAddSplit vq a = some (w, err)) (herr : err ≠ 0) : Unmoved vq w := by
  cases addOutcome h ha with
  | broken => exact ⟨rfl, rfl, rfl, rfl⟩
  | full => exact ⟨rfl, rfl, rfl, rfl⟩
  | fullNotify => exact ⟨rfl, rfl, rfl, rfl⟩
  | unmapped _ hfill =>
    rw [hfill.eq]
    exact ⟨rfl, rfl, rfl, rfl⟩
  | added => exact absurd rfl herr

/-- The adds of a run are counted. -/
def CountedAct (act : SplitAct) : Prop := ∀ a, act = .add a → a.Counted

/-- **Descriptor accounting.** On a ring of at most `2 ^ 16` entries, in every
state of every run each descriptor is on the free chain or on the chain of
one buffer in flight; and an add that fails there moves nothing. -/
theorem split_descriptors_accounted {num : ℕ} (hnum : num ≤ 2 ^ 16)
    (indirect event useDmaApi callback : Bool) (desc : ℕ → VringDesc) (avail : VringAvail)
    (used : VringUsed) (tables : Ptr → ℕ → VringDesc) (acts : List SplitAct) {vq : SplitVq}
    (hacts : ∀ act ∈ acts, CountedAct act)
    (hrun : exec splitStep
      (vringNewVirtqueue num indirect event useDmaApi callback desc avail used tables) acts =
        some vq) :
    (∃ busy, Accounted vq busy) ∧
      ∀ (a : AddArgs) (w : SplitVq) (err : ℤ), a.Counted →
        virtqueueAddSplit vq a = some (w, err) → err ≠ 0 → Unmoved vq w := by
  have hstep : ∀ s act t, (∃ len, SplitInv s len) → CountedAct act → splitStep s act = some t →
      ∃ len, SplitInv t len := by
    rintro s act t ⟨len, hi⟩ hact h
    exact hi.step hact h
  obtain ⟨len, hi⟩ := exec_invariant_of_forall hstep
    ⟨_, SplitInv.init hnum indirect event useDmaApi callback desc avail used tables⟩ hacts hrun
  exact ⟨⟨_, hi.accounted⟩, fun a w err ha h herr => unmoved_of_failed ha h herr⟩

/-- One outgoing and one incoming element; the second mapping fails if
`fails` says so. No memory for an indirect table. -/
def twoElements (fails : Bool) : AddArgs where
  outSgs := [[8]]
  inSgs := [[8]]
  totalSg := 2
  data := 7
  ctx := 0
  table := 0
  tableAddr := 0
  mapError k := fails && k == 1
  retryError _ := false
  notifyOk := true

/-- A failed add, a successful one and its completion on a ring of four. -/
theorem split_descriptors_accounted_four :
    ∃ vq, exec splitStep (freshQueue 4)
        [.add (twoElements true), .add (twoElements false), .device ⟨0, 1, fun _ => ⟨0, 0⟩, 0⟩,
          .getBuf] = some vq ∧
      ∃ busy, Accounted vq busy := by
  have hrun : (exec splitStep (freshQueue 4)
      [.add (twoElements true), .add (twoElements false), .device ⟨0, 1, fun _ => ⟨0, 0⟩, 0⟩,
        .getBuf]).isSome := by decide
  obtain ⟨vq, hvq⟩ := Option.isSome_iff_exists.mp hrun
  refine ⟨vq, hvq, (split_descriptors_accounted (by decide) _ _ _ _ _ _ _ _ _ ?_ hvq).1⟩
  intro act hact a ha
  subst ha
  simp only [List.mem_cons, SplitAct.add.injEq, reduceCtorEq, List.not_mem_nil, or_false] at hact
  obtain rfl | rfl := hact <;> rfl

/-- The links are `u16`: on a ring of `2 ^ 17` entries the link after 65535
leads back to 0. -/
theorem next_freshQueue_two_pow_seventeen {i : ℕ} (hi : i < 2 ^ 16) :
    (freshQueue (2 ^ 17)).next i = (i + 1) % 2 ^ 16 := by
  change (if i < 2 ^ 17 - 1 then (i + 1) % 2 ^ 16 else 0) = (i + 1) % 2 ^ 16
  rw [if_pos (by omega)]

/-- On a ring of `2 ^ 17` entries the free chain of the new queue already
visits an index twice. -/
theorem free_chain_of_two_pow_seventeen_repeats :
    exec splitStep (freshQueue (2 ^ 17)) [] = some (freshQueue (2 ^ 17)) ∧
      ¬ (freshQueue (2 ^ 17)).freeChain.Nodup := by
  refine ⟨rfl, ?_⟩
  have hwalk : ∀ k < 2 ^ 16, (freshQueue (2 ^ 17)).next^[k] 0 = k := by
    intro k
    induction k with
    | zero => intro _; rfl
    | succ k ih =>
        intro hk
        rw [Function.iterate_succ_apply', ih (by omega),
          next_freshQueue_two_pow_seventeen (by omega), Nat.mod_eq_of_lt hk]
  have hback : (freshQueue (2 ^ 17)).next^[2 ^ 16] 0 = 0 := by
    have hlast := hwalk (2 ^ 16 - 1) (by omega)
    rw [show 2 ^ 16 = 2 ^ 16 - 1 + 1 by omega, Function.iterate_succ_apply', hlast,
      next_freshQueue_two_pow_seventeen (by omega)]
    omega
  intro hnod
  have hsplit : (freshQueue (2 ^ 17)).freeChain =
      chain (freshQueue (2 ^ 17)).next 0 (2 ^ 16) ++ chain (freshQueue (2 ^ 17)).next 0 (2 ^ 16) := by
    change chain _ 0 (2 ^ 16 + 2 ^ 16) = _
    rw [chain_add, hback]
  rw [hsplit, List.nodup_append] at hnod
  have hzero := head_mem_chain (freshQueue (2 ^ 17)).next 0
    (show 2 ^ 16 ≠ 0 by omega)
  exact hnod.2.2 0 hzero 0 hzero rfl

end GfpDrivers.Virtio
