import GfpDrivers.Lib.ChainPool
import GfpDrivers.Virtio.Split

/-!
What the operations of a split virtqueue can do to it, said once for each:
an add fills in descriptors of the free chain and then either gives up or
publishes them, and a detach returns one chain. The runs of the queue are
analysed through these descriptions only.
-/

namespace GfpDrivers.Virtio

open Lib Function

/-- The links of the queue: free and busy descriptors alike. -/
def SplitVq.next (vq : SplitVq) : ℕ → ℕ := fun x => (vq.descExtra x).next

/-! ### The loops of an add -/

section Loop

variable {mapError : ℕ → Bool} {next : ℕ → ℕ}

theorem virtqueueAddDescSplit_next (f : Fill) (i addr len : ℕ) (flags : BitVec 16) (x : ℕ) :
    ((virtqueueAddDescSplit f i addr len flags false).1.extra x).next = (f.extra x).next := by
  by_cases hx : x = i
  · subst hx; simp [virtqueueAddDescSplit]
  · simp [virtqueueAddDescSplit, hx]

theorem virtqueueAddDescSplit_desc_of_ne (f : Fill) {i x : ℕ} (addr len : ℕ) (flags : BitVec 16)
    (b : Bool) (hx : x ≠ i) :
    (virtqueueAddDescSplit f i addr len flags b).1.desc x = f.desc x := by
  cases b <;> simp [virtqueueAddDescSplit, hx]

theorem addSgsSplit_next (es : List (ℕ × Bool)) (k : ℕ) (l : FillLoop) (x : ℕ) :
    ((addSgsSplit mapError false es k l).fill.extra x).next = (l.fill.extra x).next := by
  induction es generalizing k l with
  | nil => rfl
  | cons e es ih =>
    simp only [addSgsSplit_cons]
    split
    · rfl
    · rw [ih]
      exact virtqueueAddDescSplit_next ..

/-- Only descriptors of the chain from `l.i` on are written. -/
theorem addSgsSplit_desc (es : List (ℕ × Bool)) (k : ℕ) (l : FillLoop)
    (hnext : ∀ x, (l.fill.extra x).next = next x) {x : ℕ} (hx : x ∉ chain next l.i es.length) :
    (addSgsSplit mapError false es k l).fill.desc x = l.fill.desc x := by
  induction es generalizing k l with
  | nil => rfl
  | cons e es ih =>
    simp only [List.length_cons, chain, List.mem_cons, not_or] at hx
    simp only [addSgsSplit_cons]
    split
    · rfl
    · rw [ih]
      · exact virtqueueAddDescSplit_desc_of_ne _ _ _ _ _ hx.1
      · exact fun y => (virtqueueAddDescSplit_next ..).trans (hnext y)
      · change x ∉ chain next (l.fill.extra l.i).next es.length
        rw [hnext]
        exact hx.2

/-- If all elements are mapped, the loops end behind the last descriptor. -/
theorem addSgsSplit_end (next : ℕ → ℕ) (es : List (ℕ × Bool)) (k : ℕ) (l : FillLoop)
    (hnext : ∀ x, (l.fill.extra x).next = next x)
    (hok : (addSgsSplit mapError false es k l).failed = false) :
    (addSgsSplit mapError false es k l).i = next^[es.length] l.i ∧
      (addSgsSplit mapError false es k l).prev =
        if es = [] then l.prev else next^[es.length - 1] l.i := by
  induction es generalizing k l with
  | nil => exact ⟨rfl, rfl⟩
  | cons e es ih =>
    simp only [addSgsSplit_cons] at hok ⊢
    split at hok
    · cases hok
    · next hmap =>
        simp only [hmap, Bool.false_eq_true, ↓reduceIte] at hok ⊢
        obtain ⟨hi, hprev⟩ := ih _ _ (fun y => (virtqueueAddDescSplit_next ..).trans (hnext y)) hok
        have hstep : (virtqueueAddDescSplit l.fill l.i vringMapOneSg e.1 (sgFlagsSplit e.2) false).2 =
            next l.i := hnext l.i
        rw [hi, hprev, hstep]
        refine ⟨rfl, ?_⟩
        cases es with
        | nil => rfl
        | cons e' es => rfl

theorem hasFlag_sgFlagsSplit (write : Bool) : hasFlag (sgFlagsSplit write) vringDescFNext := by
  cases write <;> decide

/-- If all elements are mapped, every descriptor of the chain carries the
flag `VRING_DESC_F_NEXT`. -/
theorem addSgsSplit_flags (es : List (ℕ × Bool)) (k : ℕ) (l : FillLoop)
    (hnext : ∀ x, (l.fill.extra x).next = next x)
    (hok : (addSgsSplit mapError false es k l).failed = false)
    (hnod : (chain next l.i es.length).Nodup) :
    ∀ x ∈ chain next l.i es.length,
      hasFlag ((addSgsSplit mapError false es k l).fill.desc x).flags vringDescFNext := by
  induction es generalizing k l with
  | nil => simp
  | cons e es ih =>
    simp only [List.length_cons, chain, List.nodup_cons] at hnod
    intro x hx
    simp only [List.length_cons, chain, List.mem_cons] at hx
    simp only [addSgsSplit_cons] at hok ⊢
    split at hok
    · cases hok
    · next hmap =>
        simp only [hmap, Bool.false_eq_true, ↓reduceIte] at hok ⊢
        have hnext' : ∀ y, ((virtqueueAddDescSplit l.fill l.i vringMapOneSg e.1 (sgFlagsSplit e.2) false).1.extra
            y).next = next y := fun y => (virtqueueAddDescSplit_next ..).trans (hnext y)
        have hstep : (virtqueueAddDescSplit l.fill l.i vringMapOneSg e.1 (sgFlagsSplit e.2) false).2 =
            next l.i := hnext l.i
        rcases hx with rfl | hx
        -- the descriptor just filled is not visited again
        · rw [addSgsSplit_desc es _ _ hnext' (by rw [hstep]; exact hnod.1)]
          simpa [virtqueueAddDescSplit] using hasFlag_sgFlagsSplit e.2
        · refine ih _ _ hnext' hok ?_ x ?_
          · rw [hstep]; exact hnod.2
          · rw [hstep]; exact hx

end Loop

/-! ### Outcomes of an add -/

/-- `w` is `vq` with descriptors of the first `n` of the free chain filled in,
and perhaps an indirect table written. -/
structure Filled (vq w : SplitVq) (n : ℕ) : Prop where
  eq : w = { vq with desc := w.desc, descExtra := w.descExtra, tables := w.tables }
  next : w.next = vq.next
  desc : ∀ x, x ∉ chain vq.next vq.freeHead n → w.desc x = vq.desc x

/-- The chain of `n` descriptors at `i` is delimited by its flags: all but the
last one carry `VRING_DESC_F_NEXT`. -/
structure Delimited (vq : SplitVq) (i n : ℕ) : Prop where
  inner : ∀ x ∈ chain vq.next i (n - 1), hasFlag (vq.desc x).flags vringDescFNext
  last : ¬ hasFlag (vq.desc (vq.next^[n - 1] i)).flags vringDescFNext

/-- What an add can do. -/
inductive AddOutcome (vq : SplitVq) (a : AddArgs) : SplitVq → ℤ → Prop
  | broken (hbroken : vq.broken = true) : AddOutcome vq a vq (- EIO)
  | full (hbroken : vq.broken = false) : AddOutcome vq a vq (-ENOSPC)
  | fullNotify (hbroken : vq.broken = false) : AddOutcome vq a vq.notify (-ENOSPC)
  | unmapped {w : SplitVq} (hbroken : vq.broken = false) (hfill : Filled vq w vq.numFree) :
      AddOutcome vq a w (-ENOMEM)
  | added {w : SplitVq} (n : ℕ) (p : Ptr) (hbroken : vq.broken = false) (hn : n ≠ 0)
      (hle : n ≤ vq.numFree) (hfill : Filled vq w n)
      (hdelim : (chain vq.next vq.freeHead vq.numFree).Nodup → Delimited w vq.freeHead n) :
      AddOutcome vq a ((w.publish n (vq.next^[n] vq.freeHead) a.data p).kickIfFull a.notifyOk) 0

section Outcome

variable {vq : SplitVq} {a : AddArgs}

theorem Filled.mono {w : SplitVq} {m n : ℕ} (h : Filled vq w m) (hle : m ≤ n) : Filled vq w n :=
  ⟨h.eq, h.next, fun x hx => h.desc x fun hm => hx (mem_chain_of_le hle hm)⟩

theorem update_clearNext_next (extra : ℕ → VringDescExtra) (i x : ℕ) :
    (update extra i (extra i).clearNext x).next = (extra x).next := by
  by_cases hx : x = i
  · subst hx
    rw [update_self]
    rfl
  · rw [update_of_ne hx]

/-- Writing an indirect table changes nothing of the ring. -/
theorem filled_tables (tables : Ptr → ℕ → VringDesc) : Filled vq { vq with tables := tables } 0 :=
  ⟨rfl, rfl, fun _ _ => rfl⟩

theorem addOutcome_indirect (hbroken : vq.broken = false) (hfree : 1 ≤ vq.numFree) :
    AddOutcome vq a (virtqueueAddSplitIndirect vq a).1 (virtqueueAddSplitIndirect vq a).2 := by
  simp only [virtqueueAddSplitIndirect]
  split
  · exact .unmapped hbroken ((filled_tables _).mono (Nat.zero_le _))
  · split
    · exact .unmapped hbroken ((filled_tables _).mono (Nat.zero_le _))
    · generalize update vq.tables a.table _ = tables
      -- the one descriptor that points to the table
      set r := virtqueueAddDescSplit ⟨vq.desc, vq.descExtra⟩ vq.freeHead
        (if vq.useDmaApi then a.tableAddr else 0) (a.totalSg * 16) vringDescFIndirect false with hr
      have hnext : ∀ x, (r.1.extra x).next = vq.next x := fun x => virtqueueAddDescSplit_next ..
      have hhead : (r.1.extra vq.freeHead).next = vq.next^[1] vq.freeHead := hnext vq.freeHead
      rw [hhead]
      refine .added (w := { vq with tables := tables, desc := r.1.desc, descExtra := r.1.extra })
        1 a.table hbroken one_ne_zero hfree ⟨rfl, funext hnext, fun x hx => ?_⟩
        fun _ => ⟨by simp, ?_⟩
      · have hne : x ≠ vq.freeHead := by simpa [chain] using hx
        change r.1.desc x = vq.desc x
        rw [hr, virtqueueAddDescSplit_desc_of_ne _ _ _ _ _ hne]
      · simp [hr, virtqueueAddDescSplit, hasFlag, vringDescFIndirect, vringDescFNext]

theorem addOutcome_direct (hbroken : vq.broken = false) (ha : a.Counted) (hsg : a.totalSg ≠ 0)
    (hfree : a.totalSg ≤ vq.numFree) :
    AddOutcome vq a (virtqueueAddSplitDirect vq a).1 (virtqueueAddSplitDirect vq a).2 := by
  have hlen : a.elems.length = a.totalSg := ha
  have hnil : a.elems ≠ [] := by
    intro h
    rw [h] at hlen
    exact hsg hlen.symm
  simp only [virtqueueAddSplitDirect]
  set l := addSgsSplit (vq.mapError a) false a.elems 0
    { fill := ⟨vq.desc, vq.descExtra⟩, i := vq.freeHead, prev := 0, failed := false } with hl
  have hnext : ∀ x, (l.fill.extra x).next = vq.next x := fun x => addSgsSplit_next ..
  have hdesc : ∀ x, x ∉ chain vq.next vq.freeHead a.totalSg → l.fill.desc x = vq.desc x := by
    intro x hx
    exact addSgsSplit_desc a.elems 0 _ (fun _ => rfl) (by rwa [hlen])
  split
  · refine .unmapped hbroken (Filled.mono ⟨rfl, funext hnext, hdesc⟩ hfree)
  · next hok =>
      obtain ⟨hi, hprev⟩ := addSgsSplit_end vq.next a.elems 0 _ (fun _ => rfl)
        (Bool.eq_false_of_not_eq_true hok)
      rw [← hl] at hi hprev
      simp only [hnil, if_false, hlen] at hi hprev
      rw [hi]
      set w : SplitVq := { vq with
        desc := update l.fill.desc l.prev (l.fill.desc l.prev).clearNext
        descExtra :=
          if vq.useDmaApi then update l.fill.extra (l.prev &&& (vq.num - 1))
            (l.fill.extra (l.prev &&& (vq.num - 1))).clearNext
          else l.fill.extra } with hw
      have hwnext : w.next = vq.next := by
        funext x
        rw [← hnext x]
        simp only [SplitVq.next, hw]
        split
        · exact update_clearNext_next ..
        · rfl
      have hlast : l.prev ∈ chain vq.next vq.freeHead a.totalSg := hprev ▸ last_mem_chain _ _ hsg
      refine .added (w := w) a.totalSg a.ctx hbroken hsg hfree ⟨rfl, hwnext, fun x hx => ?_⟩
        fun hnod => ⟨fun x hx => ?_, ?_⟩
      · have hne : x ≠ l.prev := fun h => hx (h ▸ hlast)
        exact (update_of_ne hne ..).trans (hdesc x hx)
      · rw [hwnext] at hx
        have hnod' := nodup_chain_of_le hfree hnod
        have hne : x ≠ l.prev := by
          rintro rfl
          rw [hprev] at hx
          exact last_notMem_chain hsg hnod' hx
        have hflag := addSgsSplit_flags a.elems 0 _ (fun _ => rfl)
          (Bool.eq_false_of_not_eq_true hok) (by rwa [hlen]) x (by
            rw [hlen]
            exact mem_chain_of_le (Nat.sub_le _ _) hx)
        rw [← hl] at hflag
        change hasFlag (update l.fill.desc l.prev _ x).flags vringDescFNext
        rwa [update_of_ne hne]
      · rw [hwnext, ← hprev]
        change ¬ hasFlag (update l.fill.desc l.prev _ l.prev).flags vringDescFNext
        rw [update_self]
        exact not_hasFlag_and_not _ _

theorem addOutcome {vq' : SplitVq} {err : ℤ} (h : virtqueueAddSplit vq a = some (vq', err))
    (ha : a.Counted) : AddOutcome vq a vq' err := by
  simp only [virtqueueAddSplit] at h
  split at h
  · cases h
  split at h
  · next hbroken =>
      cases h
      exact .broken hbroken
  next hbroken =>
  have hbroken := Bool.eq_false_of_not_eq_true hbroken
  split at h
  · cases h
  next hsg =>
  cases hind : vq.useIndirect a.totalSg && decide (a.table ≠ 0) with
  | true =>
    simp only [hind, if_true] at h
    split at h
    · cases h
      split
      · exact .fullNotify hbroken
      · exact .full hbroken
    · next hfree =>
        have hout := addOutcome_indirect (a := a) hbroken (by omega)
        rwa [Option.some.inj h] at hout
  | false =>
    simp only [hind, Bool.false_eq_true, if_false] at h
    split at h
    · cases h
      split
      · exact .fullNotify hbroken
      · exact .full hbroken
    · next hfree =>
        have hout := addOutcome_direct hbroken ha hsg (by omega)
        rwa [Option.some.inj h] at hout

end Outcome

/-! ### Outcomes of the other calls -/

section Calls

variable {vq vq' : SplitVq}

theorem virtqueueKickSplit_eq (vq : SplitVq) (ok : Bool) :
    ∃ k b, (virtqueueKickSplit vq ok).1 =
      { vq with numAdded := 0, notifies := k, broken := b } := by
  have hprep : (virtqueueKickPrepareSplit vq).1 = { vq with numAdded := 0 } := rfl
  simp only [virtqueueKickSplit]
  split
  · next w heq =>
      obtain rfl : w = { vq with numAdded := 0 } := by rw [← hprep, heq]
      simp only [virtqueueNotifySplit]
      split
      · exact ⟨vq.notifies, vq.broken, rfl⟩
      · split
        · exact ⟨vq.notifies + 1, vq.broken, rfl⟩
        · exact ⟨vq.notifies + 1, true, rfl⟩
  · next w heq =>
      obtain rfl : w = { vq with numAdded := 0 } := by rw [← hprep, heq]
      exact ⟨vq.notifies, vq.broken, rfl⟩

theorem kickIfFull_eq (vq : SplitVq) (ok : Bool) :
    ∃ m k b, vq.kickIfFull ok = { vq with numAdded := m, notifies := k, broken := b } := by
  unfold SplitVq.kickIfFull
  split
  · exact ⟨0, virtqueueKickSplit_eq vq ok⟩
  · exact ⟨vq.numAdded, vq.notifies, vq.broken, rfl⟩

/-- A detach walks to the end of the chain and prepends it to the free one. -/
theorem detachBufSplit_eq {head : ℕ} {ctx : Option Ptr}
    (h : detachBufSplit vq head = some (vq', ctx)) :
    ∃ last numFree p, chainEndSplit vq vq.num head vq.numFree = some (last, numFree) ∧
      vq' = { vq with
        descState := update vq.descState head ⟨0, p⟩
        descExtra := update vq.descExtra last
          { vq.descExtra last with next := vq.freeHead % 2 ^ 16 }
        freeHead := head
        numFree := numFree + 1 } := by
  simp only [detachBufSplit, Option.bind_eq_some_iff] at h
  obtain ⟨⟨last, numFree⟩, hwalk, h⟩ := h
  refine ⟨last, numFree, ?_⟩
  split at h
  · split at h
    · cases h
      exact ⟨(vq.descState head).indirDesc, hwalk, rfl⟩
    · split at h
      · cases h
      · cases h
        refine ⟨0, hwalk, ?_⟩
        simp
  · cases h
    exact ⟨(vq.descState head).indirDesc, hwalk, rfl⟩

theorem chainEndSplit_of_delimited {i n : ℕ} (fuel m : ℕ) (hd : Delimited vq i n) (hn : n ≠ 0)
    (hfuel : n ≤ fuel) :
    chainEndSplit vq fuel i m = some (vq.next^[n - 1] i, m + (n - 1)) := by
  obtain ⟨n, rfl⟩ := Nat.exists_eq_succ_of_ne_zero hn
  induction n generalizing fuel i m with
  | zero =>
    obtain ⟨fuel, rfl⟩ := Nat.exists_eq_add_of_le' hfuel
    have hlast := hd.last
    simp only [Nat.sub_self, iterate_zero, id_eq] at hlast
    simp [chainEndSplit, hlast]
  | succ n ih =>
    obtain ⟨fuel, rfl⟩ := Nat.exists_eq_add_of_le' hfuel
    have hfirst := hd.inner i (head_mem_chain vq.next i (by omega))
    have htail : Delimited vq (vq.next i) (n + 1) :=
      ⟨fun x hx => hd.inner x (List.mem_cons_of_mem i hx), hd.last⟩
    have hrest := ih (fuel + (n + 1)) (m + 1) htail (by omega) (by omega)
    simp only [Nat.succ_eq_add_one, Nat.add_sub_cancel] at hrest ⊢
    rw [show fuel + (n + 1 + 1) = fuel + (n + 1) + 1 by omega, chainEndSplit, if_pos hfirst]
    change chainEndSplit vq (fuel + (n + 1)) (vq.next i) (m + 1) = _
    rw [hrest, iterate_succ_apply, Nat.add_assoc, Nat.add_comm 1 n]

/-- What taking a buffer from the used ring can do. -/
inductive GetBufOutcome (vq : SplitVq) : SplitVq → Ptr → Prop
  | idle : GetBufOutcome vq vq 0
  | bad (hbroken : vq.broken = false) : GetBufOutcome vq { vq with broken := true } 0
  | got {w : SplitVq} {ctx : Option Ptr} (i : ℕ) (avail : VringAvail) (hbroken : vq.broken = false)
      (hi : i < vq.num) (hdata : (vq.descState i).data ≠ 0)
      (hdetach : detachBufSplit vq i = some (w, ctx)) (hidx : avail.idx = vq.avail.idx) :
      GetBufOutcome vq
        { w with lastUsedIdx := (vq.lastUsedIdx + 1) % 2 ^ 16, avail := avail }
        (vq.descState i).data

theorem getBufOutcome {r : GetBuf SplitVq} (h : virtqueueGetBufCtxSplit vq = some r) :
    GetBufOutcome vq r.vq r.ret := by
  simp only [virtqueueGetBufCtxSplit] at h
  split at h
  · cases h; exact .idle
  next hbroken =>
  have hbroken := Bool.eq_false_of_not_eq_true hbroken
  split at h
  · cases h; exact .idle
  split at h
  · cases h; exact .bad hbroken
  next hi =>
  split at h
  · cases h; exact .bad hbroken
  next hdata =>
  rw [Option.map_eq_some_iff] at h
  obtain ⟨⟨w, ctx⟩, hdetach, h⟩ := h
  obtain ⟨last, numFree, p, -, hw⟩ := detachBufSplit_eq hdetach
  have hlast : w.lastUsedIdx = vq.lastUsedIdx := by rw [hw]
  have havail : w.avail = vq.avail := by rw [hw]
  simp only [hlast] at h
  split at h
  · subst h
    exact .got _ _ hbroken (by omega) hdata hdetach (by rw [havail])
  · subst h
    exact .got _ w.avail hbroken (by omega) hdata hdetach (by rw [havail])

/-- What tearing the queue down by one buffer can do. -/
inductive DetachUnusedOutcome (vq : SplitVq) : SplitVq → Ptr → Prop
  | none (hnone : ∀ i < vq.num, (vq.descState i).data = 0) : DetachUnusedOutcome vq vq 0
  | some {w : SplitVq} {ctx : Option Ptr} (i : ℕ) (hi : i < vq.num)
      (hdata : (vq.descState i).data ≠ 0) (hdetach : detachBufSplit vq i = some (w, ctx)) :
      DetachUnusedOutcome vq
        { w with
          availIdxShadow := sub16 vq.availIdxShadow 1
          avail := { vq.avail with idx := sub16 vq.availIdxShadow 1 } }
        (vq.descState i).data

theorem detachUnusedOutcome {r : SplitVq × Ptr}
    (h : virtqueueDetachUnusedBufSplit vq = some r) : DetachUnusedOutcome vq r.1 r.2 := by
  simp only [virtqueueDetachUnusedBufSplit] at h
  split at h
  · next i hfind =>
      have hmem := List.mem_of_find?_eq_some hfind
      have hdata := List.find?_some hfind
      rw [Option.map_eq_some_iff] at h
      obtain ⟨⟨w, ctx⟩, hdetach, rfl⟩ := h
      obtain ⟨last, numFree, p, -, hw⟩ := detachBufSplit_eq hdetach
      have hshadow : w.availIdxShadow = vq.availIdxShadow := by rw [hw]
      have havail : w.avail = vq.avail := by rw [hw]
      simp only [hshadow, havail]
      exact .some i (List.mem_range.mp hmem) (by simpa using hdata) hdetach
  · next hfind =>
      split at h
      · cases h
      · cases h
        refine .none fun i hi => ?_
        have hnot := List.find?_eq_none.mp hfind i (List.mem_range.mpr hi)
        simpa using hnot

end Calls

end GfpDrivers.Virtio
