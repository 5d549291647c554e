import GfpDrivers.Lib.Lap
import GfpDrivers.Virtio.Packed

/-!
What the operations of a packed virtqueue can do to it, said once for each.
The loop of a direct add is followed along positions that do not wrap: the
slot and the lap's bits it works with are those of the position it has
reached.
-/

namespace GfpDrivers.Virtio

open Lib Function

/-- The links between the ids. -/
def PackedVq.next (vq : PackedVq) : ℕ → ℕ := fun x => (vq.descExtra x).next

/-- The two bits of a descriptor made available on a lap. -/
def lapFlags (lap : Bool) : BitVec 16 := if lap then packedFAvail else packedFUsed

@[simp] theorem flipLap_lapFlags (b : Bool) : flipLap (lapFlags b) = lapFlags !b := by
  cases b <;> decide

/-- The two bits of a descriptor that the driver wrote last differ. -/
def DriverWritten (flags : BitVec 16) : Prop := hasFlag flags packedFAvail ↔ ¬ hasFlag flags packedFUsed

instance (flags : BitVec 16) : Decidable (DriverWritten flags) :=
  inferInstanceAs (Decidable (_ ↔ _))

theorem driverWritten_direct (b last write : Bool) :
    DriverWritten (lapFlags b ||| (if last then 0 else vringDescFNext) |||
      (if write then vringDescFWrite else 0)) := by
  cases b <;> cases last <;> cases write <;> decide

theorem driverWritten_indirect (b : Bool) : DriverWritten (vringDescFIndirect ||| lapFlags b) := by
  cases b <;> decide

/-! ### The loop of a direct add -/

/-- The loop has reached position `q`. -/
structure AtPos (vq : PackedVq) (l : PackedLoop) (q : ℕ) : Prop where
  i : l.i = slot vq.num q
  flags : l.availUsedFlags = lapFlags (lap vq.num q)

section Loop

variable {vq : PackedVq} {a : AddArgs} {next : ℕ → ℕ} {q : ℕ}

theorem AtPos.step {l : PackedLoop} (hl : AtPos vq l q) (hnum : 0 < vq.num) (totalSg len : ℕ)
    (write : Bool) : AtPos vq (addSgPacked vq totalSg len write l) (q + 1) := by
  have hlt := slot_lt (q := q) hnum
  constructor
  · rw [slot_add hnum hnum]
    simp only [addSgPacked, hl.i, decide_eq_true_eq]
    split <;> omega
  · rw [lap_add hnum hnum]
    simp only [addSgPacked, hl.i, hl.flags, decide_eq_true_eq]
    split
    · exact flipLap_lapFlags _
    · rfl

theorem addSgPacked_next (l : PackedLoop) (totalSg len : ℕ) (write : Bool) (x : ℕ) :
    ((addSgPacked vq totalSg len write l).extra x).next = (l.extra x).next := by
  simp only [addSgPacked]
  split
  · by_cases hx : x = l.curr
    · subst hx; simp
    · simp [hx]
  · rfl

/-- The flags of a slot either stay, or are written by the driver; those of
the head stay. -/
theorem addSgPacked_flags {l : PackedLoop} (hl : AtPos vq l q) (totalSg len : ℕ) (write : Bool)
    (x : ℕ) :
    ((addSgPacked vq totalSg len write l).desc x).flags = (l.desc x).flags ∨
      x ≠ vq.nextAvailIdx ∧ DriverWritten ((addSgPacked vq totalSg len write l).desc x).flags := by
  by_cases hx : x = l.i
  · subst hx
    by_cases hhead : l.i = vq.nextAvailIdx
    · left
      simp [addSgPacked, hhead]
    · right
      refine ⟨hhead, ?_⟩
      have hdriver := driverWritten_direct (lap vq.num q) (decide (l.c + 1 = totalSg)) write
      simpa [addSgPacked, hhead, hl.flags] using hdriver
  · left
    simp [addSgPacked, hx]

theorem addSgPacked_headFlags {l : PackedLoop} (hl : AtPos vq l q) (totalSg len : ℕ) (write : Bool)
    (h : DriverWritten l.headFlags ∨ l.i = vq.nextAvailIdx) :
    DriverWritten (addSgPacked vq totalSg len write l).headFlags := by
  by_cases hhead : l.i = vq.nextAvailIdx
  · have hdriver := driverWritten_direct (lap vq.num q) (decide (l.c + 1 = totalSg)) write
    simpa [addSgPacked, hhead, hl.flags] using hdriver
  · simpa [addSgPacked, hhead] using h.resolve_right hhead

theorem addSgsPacked_next (es : List (ℕ × Bool)) (l : PackedLoop) (x : ℕ) :
    ((addSgsPacked vq a es l).extra x).next = (l.extra x).next := by
  induction es generalizing l with
  | nil => rfl
  | cons e es ih =>
    simp only [addSgsPacked_cons]
    split
    · rfl
    · rw [ih]
      exact addSgPacked_next ..

/-- Slots that the loop does not visit are left as they are. -/
theorem addSgsPacked_desc (es : List (ℕ × Bool)) {l : PackedLoop} (hl : AtPos vq l q)
    (hnum : 0 < vq.num) {x : ℕ} (hx : ∀ k < es.length, x ≠ slot vq.num (q + k)) :
    (addSgsPacked vq a es l).desc x = l.desc x := by
  induction es generalizing l q with
  | nil => rfl
  | cons e es ih =>
    simp only [addSgsPacked_cons]
    split
    · rfl
    · rw [ih (hl.step hnum ..)]
      · have hne : x ≠ l.i := by
          rw [hl.i]
          exact hx 0 (Nat.succ_pos _)
        simp [addSgPacked, hne]
      · intro k hk
        rw [Nat.add_assoc, Nat.add_comm 1 k]
        exact hx (k + 1) (Nat.succ_lt_succ hk)

theorem addSgsPacked_flags (es : List (ℕ × Bool)) {l : PackedLoop} (hl : AtPos vq l q)
    (hnum : 0 < vq.num) (x : ℕ) :
    ((addSgsPacked vq a es l).desc x).flags = (l.desc x).flags ∨
      x ≠ vq.nextAvailIdx ∧ DriverWritten ((addSgsPacked vq a es l).desc x).flags := by
  induction es generalizing l q with
  | nil => exact .inl rfl
  | cons e es ih =>
    simp only [addSgsPacked_cons]
    split
    · exact .inl rfl
    · obtain heq | hdriver := ih (hl.step hnum a.totalSg e.1 e.2)
      · rw [heq]
        exact addSgPacked_flags hl ..
      · exact .inr hdriver

/-- If all elements are mapped, the loop ends at the position behind the last
slot, and behind the last id. -/
theorem addSgsPacked_end (es : List (ℕ × Bool)) {l : PackedLoop} (hl : AtPos vq l q)
    (hnum : 0 < vq.num) (hnext : ∀ x, (l.extra x).next = next x)
    (hok : (addSgsPacked vq a es l).failed = false) :
    AtPos vq (addSgsPacked vq a es l) (q + es.length) ∧
      (addSgsPacked vq a es l).curr = next^[es.length] l.curr ∧
      (addSgsPacked vq a es l).prev =
        if es = [] then l.prev else next^[es.length - 1] l.curr := by
  induction es generalizing l q with
  | nil => exact ⟨hl, rfl, rfl⟩
  | cons e es ih =>
    simp only [addSgsPacked_cons] at hok ⊢
    split at hok
    · cases hok
    · next hmap =>
        simp only [hmap, Bool.false_eq_true, ↓reduceIte] at hok ⊢
        obtain ⟨hpos, hcurr, hprev⟩ := ih (hl.step hnum a.totalSg e.1 e.2)
          (fun x => (addSgPacked_next ..).trans (hnext x)) hok
        have hstep : (addSgPacked vq a.totalSg e.1 e.2 l).curr = next l.curr := hnext l.curr
        rw [hcurr, hprev, hstep]
        refine ⟨?_, rfl, ?_⟩
        · rw [Nat.add_assoc, Nat.add_comm 1] at hpos
          exact hpos
        · cases es with
          | nil => rfl
          | cons e' es => rfl

/-- If all elements are mapped, every slot visited but the head holds flags of
the driver. -/
theorem addSgsPacked_written (es : List (ℕ × Bool)) {l : PackedLoop} (hl : AtPos vq l q)
    (hnum : 0 < vq.num) (hok : (addSgsPacked vq a es l).failed = false) {k : ℕ}
    (hk : k < es.length) (hhead : slot vq.num (q + k) ≠ vq.nextAvailIdx) :
    DriverWritten ((addSgsPacked vq a es l).desc (slot vq.num (q + k))).flags := by
  induction es generalizing l q k with
  | nil => simp at hk
  | cons e es ih =>
    simp only [addSgsPacked_cons] at hok ⊢
    split at hok
    · cases hok
    · next hmap =>
        simp only [hmap, Bool.false_eq_true, ↓reduceIte] at hok ⊢
        have hstep := hl.step hnum a.totalSg e.1 e.2
        cases k with
        | zero =>
          have hnow : DriverWritten
              ((addSgPacked vq a.totalSg e.1 e.2 l).desc (slot vq.num q)).flags := by
            have hdriver := driverWritten_direct (lap vq.num q)
              (decide (l.c + 1 = a.totalSg)) e.2
            have hne : l.i ≠ vq.nextAvailIdx := by rwa [hl.i]
            simpa [addSgPacked, ← hl.i, hne, hl.flags] using hdriver
          obtain heq | hdriver := addSgsPacked_flags (a := a) es hstep hnum (slot vq.num q)
          · rw [Nat.add_zero, heq]
            exact hnow
          · exact hdriver.2
        | succ k =>
          rw [Nat.add_comm k 1, ← Nat.add_assoc] at hhead ⊢
          exact ih hstep hok (Nat.lt_of_succ_lt_succ hk) hhead

/-- The flags kept back for the head are those of the driver, once the head
has been visited. -/
theorem addSgsPacked_headFlags (es : List (ℕ × Bool)) {l : PackedLoop} (hl : AtPos vq l q)
    (hnum : 0 < vq.num) (hok : (addSgsPacked vq a es l).failed = false)
    (h : DriverWritten l.headFlags ∨ l.i = vq.nextAvailIdx ∧ es ≠ []) :
    DriverWritten (addSgsPacked vq a es l).headFlags := by
  induction es generalizing l q with
  | nil => exact h.resolve_right fun h => h.2 rfl
  | cons e es ih =>
    simp only [addSgsPacked_cons] at hok ⊢
    split at hok
    · cases hok
    · next hmap =>
        simp only [hmap, Bool.false_eq_true, ↓reduceIte] at hok ⊢
        exact ih (hl.step hnum ..) hok
          (.inl (addSgPacked_headFlags hl _ _ _ (h.imp_right And.left)))

theorem retryError_of_not_failed (es : List (ℕ × Bool)) {l : PackedLoop}
    (hok : (addSgsPacked vq a es l).failed = false) {k : ℕ} (hk : k < es.length) :
    (vq.useDmaApi && a.retryError (l.c + k)) = false := by
  induction es generalizing l k with
  | nil => simp at hk
  | cons e es ih =>
    simp only [addSgsPacked_cons] at hok
    split at hok
    · cases hok
    · next hmap =>
        cases k with
        | zero => simpa using hmap
        | succ k =>
          have hc : (addSgPacked vq a.totalSg e.1 e.2 l).c = l.c + 1 := rfl
          have hrest := ih hok (Nat.lt_of_succ_lt_succ hk)
          rwa [hc, Nat.add_assoc, Nat.add_comm 1] at hrest

/-- The loop of an indirect add gives up only where a mapping fails. -/
theorem fillTablePacked_isSome (mapError : ℕ → Bool) (es : List (ℕ × Bool)) (k : ℕ)
    (table : ℕ → VringPackedDesc) (h : ∀ j < es.length, mapError (k + j) = false) :
    (fillTablePacked mapError es k table).isSome := by
  induction es generalizing k table with
  | nil => rfl
  | cons e es ih =>
    have hk : mapError k = false := h 0 (Nat.succ_pos _)
    simp only [fillTablePacked, hk, Bool.false_eq_true, ↓reduceIte]
    apply ih
    intro j hj
    rw [Nat.add_assoc, Nat.add_comm 1]
    exact h (j + 1) (Nat.succ_lt_succ hj)

end Loop

/-! ### Outcomes of an add -/

/-- One of the first `n` mappings fails. -/
def PackedVq.mapFails (vq : PackedVq) (mapError : ℕ → Bool) (n : ℕ) : Bool :=
  vq.useDmaApi && (List.range n).any mapError

/-- The indirect attempt is made and goes through. -/
def PackedVq.addsIndirect (vq : PackedVq) (a : AddArgs) : Bool :=
  vq.useIndirect a.totalSg && a.table ≠ 0 && !vq.mapFails a.mapError (a.elems.length + 1)

/-- The add fills the empty ring with direct descriptors. -/
def PackedVq.FillsRing (vq : PackedVq) (a : AddArgs) : Prop :=
  a.totalSg = vq.num ∧ vq.numFree = vq.num ∧ vq.broken = false ∧ vq.addsIndirect a = false ∧
    vq.mapFails a.retryError a.elems.length = false

instance (vq : PackedVq) (a : AddArgs) : Decidable (vq.FillsRing a) :=
  inferInstanceAs (Decidable (_ ∧ _))

/-- `w` is `vq` with descriptors written into slots of the `n` positions from
`q` on, and perhaps an indirect table. -/
structure Wrote (vq w : PackedVq) (q n : ℕ) : Prop where
  eq : w = { vq with desc := w.desc, descExtra := w.descExtra, tables := w.tables }
  next : w.next = vq.next
  desc : ∀ x, (∀ k < n, x ≠ slot vq.num (q + k)) → w.desc x = vq.desc x
  flags : ∀ x, (w.desc x).flags = (vq.desc x).flags ∨ DriverWritten (w.desc x).flags

/-- What an add does once its descriptors are written: `n` ids and slots are
taken, from position `q` on. -/
def PackedVq.makeAvail (vq : PackedVq) (q n : ℕ) (data p : Ptr) (wrap : Bool) : PackedVq :=
  let id := vq.freeHead % 2 ^ 16
  { vq with
    numFree := vq.numFree - n
    freeHead := vq.next^[n] id
    nextAvailIdx := slot vq.num (q + n) % 2 ^ 16
    availUsedFlags := lapFlags (lap vq.num (q + n))
    availWrapCounter := wrap
    descState := Function.update vq.descState id
      ⟨data, p, n % 2 ^ 16, vq.next^[n - 1] id % 2 ^ 16⟩
    numAdded := (vq.numAdded + n) % 2 ^ 32 }

/-- What an add that starts at position `q` can do. -/
inductive AddPackedOutcome (vq : PackedVq) (a : AddArgs) (q : ℕ) : PackedVq → ℤ → Prop
  | broken (hbroken : vq.broken = true) : AddPackedOutcome vq a q vq (- EIO)
  | full (hbroken : vq.broken = false) : AddPackedOutcome vq a q vq (-ENOSPC)
  | unmapped {w : PackedVq} (hbroken : vq.broken = false) (hle : a.totalSg ≤ vq.numFree)
      (hwrote : Wrote vq w q a.totalSg) : AddPackedOutcome vq a q w (- EIO)
  | added {w : PackedVq} (n : ℕ) (p : Ptr) (wrap : Bool) (hbroken : vq.broken = false)
      (hn : n ≠ 0) (hle : n ≤ vq.numFree) (hwrote : Wrote vq w q n)
      (hdriver : ∀ k < n, DriverWritten (w.desc (slot vq.num (q + k))).flags)
      (hwrap : vq.numFree ≤ vq.num → ¬ vq.FillsRing a →
        wrap = if lap vq.num (q + n) = lap vq.num q then vq.availWrapCounter
          else !vq.availWrapCounter) :
      AddPackedOutcome vq a q (w.makeAvail q n a.data p wrap) 0

section Outcome

variable {vq vq' : PackedVq} {a : AddArgs} {q : ℕ} {err : ℤ}

theorem addPackedOutcome_indirect (hbroken : vq.broken = false)
    (hnum : 0 < vq.num) (hq : vq.nextAvailIdx = slot vq.num q)
    (hlap : vq.availUsedFlags = lapFlags (lap vq.num q))
    (h : virtqueueAddIndirectPacked vq a = some (vq', err)) (herr : err ≠ -ENOMEM) :
    AddPackedOutcome vq a q vq' err := by
  simp only [virtqueueAddIndirectPacked] at h
  split at h
  · cases h; exact absurd rfl herr
  split at h
  · cases h; exact .full hbroken
  next hfree =>
  split at h
  · cases h
  split at h
  · cases h; exact absurd rfl herr
  next table htable =>
  split at h
  · cases h; exact absurd rfl herr
  cases h
  have hlt := slot_lt (q := q) hnum
  have hslot : (if vq.num ≤ vq.nextAvailIdx + 1 then 0 else vq.nextAvailIdx + 1) =
      slot vq.num (q + 1) := by
    rw [slot_add hnum hnum, hq]
    split <;> omega
  have hflags : (if vq.num ≤ vq.nextAvailIdx + 1 then flipLap vq.availUsedFlags
      else vq.availUsedFlags) = lapFlags (lap vq.num (q + 1)) := by
    rw [lap_add hnum hnum, hq, hlap, flipLap_lapFlags]
    split <;> rfl
  simp only [decide_eq_true_eq, hslot, hflags]
  set w : PackedVq := { vq with
    tables := update vq.tables a.table table
    desc := update vq.desc vq.nextAvailIdx
      ⟨if vq.useDmaApi then a.tableAddr else 0, a.totalSg * 16 % 2 ^ 32, vq.freeHead % 2 ^ 16,
        vringDescFIndirect ||| vq.availUsedFlags⟩
    descExtra :=
      if vq.useDmaApi then
        update vq.descExtra (vq.freeHead % 2 ^ 16)
          ⟨if vq.useDmaApi then a.tableAddr else 0, a.totalSg * 16 % 2 ^ 32,
            vringDescFIndirect ||| vq.availUsedFlags, (vq.descExtra (vq.freeHead % 2 ^ 16)).next⟩
      else vq.descExtra } with hw
  have hnext : w.next = vq.next := by
    funext x
    simp only [PackedVq.next, hw]
    split
    · by_cases hx : x = vq.freeHead % 2 ^ 16
      · rw [hx, update_self]
      · rw [update_of_ne hx]
    · rfl
  have hflags' : (w.desc vq.nextAvailIdx).flags = vringDescFIndirect ||| lapFlags (lap vq.num q) := by
    rw [← hlap]
    simp [hw]
  have hwrote : Wrote vq w q 1 := by
    refine ⟨rfl, hnext, fun x hx => ?_, fun x => ?_⟩
    · have hne : x ≠ vq.nextAvailIdx := by
        rw [hq]
        exact hx 0 Nat.one_pos
      simp [hw, hne]
    · by_cases hx : x = vq.nextAvailIdx
      · subst hx
        right
        rw [hflags']
        exact driverWritten_indirect _
      · left
        simp [hw, hx]
  have heq := AddPackedOutcome.added (a := a) 1 a.table
    (if vq.num ≤ vq.nextAvailIdx + 1 then !vq.availWrapCounter else vq.availWrapCounter)
    hbroken Nat.one_ne_zero (by omega) hwrote ?_ ?_
  · have hone : 1 % 2 ^ 16 = 1 := rfl
    simp only [PackedVq.makeAvail, hnext, iterate_one, Nat.sub_self,
      iterate_zero, id_eq, Nat.mod_mod, hone] at heq
    exact heq
  · intro k hk
    obtain rfl : k = 0 := by omega
    rw [Nat.add_zero, ← hq, hflags']
    exact driverWritten_indirect _
  · intro _ _
    rw [lap_add hnum hnum, hq]
    split
    · simp
    · simp

theorem addPackedOutcome_direct (hbroken : vq.broken = false) (hnum : 0 < vq.num)
    (hq : vq.nextAvailIdx = slot vq.num q) (hlap : vq.availUsedFlags = lapFlags (lap vq.num q))
    (ha : a.Counted) (hsg : a.totalSg ≠ 0) (hindirect : vq.addsIndirect a = false)
    (h : virtqueueAddDirectPacked vq a = some (vq', err)) : AddPackedOutcome vq a q vq' err := by
  have hlen : a.elems.length = a.totalSg := ha
  have hnil : a.elems ≠ [] := by
    intro h
    rw [h] at hlen
    exact hsg hlen.symm
  simp only [virtqueueAddDirectPacked] at h
  split at h
  · cases h; exact .full hbroken
  next hfree =>
  split at h
  · cases h
  have hpos₀ : AtPos vq vq.loopStart q := ⟨hq, hlap⟩
  set l := addSgsPacked vq a a.elems vq.loopStart with hl
  have hnext : ∀ x, (l.extra x).next = vq.next x :=
    fun x => addSgsPacked_next a.elems vq.loopStart x
  have hdesc : ∀ x, (∀ k < a.totalSg, x ≠ slot vq.num (q + k)) → l.desc x = vq.desc x := by
    intro x hx
    exact addSgsPacked_desc a.elems hpos₀ hnum (by rwa [hlen])
  have hflags : ∀ x, (l.desc x).flags = (vq.desc x).flags ∨
      x ≠ vq.nextAvailIdx ∧ DriverWritten (l.desc x).flags :=
    addSgsPacked_flags a.elems hpos₀ hnum
  split at h
  · cases h
    exact .unmapped hbroken (by omega)
      ⟨rfl, funext hnext, hdesc, fun x => (hflags x).imp_right And.right⟩
  · next hok =>
      have hok : l.failed = false := by simpa using hok
      cases h
      obtain ⟨hpos, hcurr, hprev⟩ := addSgsPacked_end a.elems hpos₀ hnum
        (fun _ => rfl) hok
      rw [← hl] at hpos hcurr hprev
      simp only [hnil, if_false, hlen] at hpos hcurr hprev
      rw [hcurr, hprev, hpos.i, hpos.flags]
      have hhead : DriverWritten l.headFlags :=
        addSgsPacked_headFlags a.elems hpos₀ hnum hok (.inr ⟨rfl, hnil⟩)
      set w : PackedVq := { vq with
        desc := update l.desc vq.nextAvailIdx
          { l.desc vq.nextAvailIdx with flags := l.headFlags }
        descExtra := l.extra } with hw
      have hwrote : Wrote vq w q a.totalSg := by
        refine ⟨rfl, funext hnext, fun x hx => ?_, fun x => ?_⟩
        · have hne : x ≠ vq.nextAvailIdx := by
            rw [hq]
            exact hx 0 (by omega)
          simp [hw, hne, hdesc x hx]
        · by_cases hx : x = vq.nextAvailIdx
          · subst hx
            right
            simpa [hw] using hhead
          · simpa [hw, hx] using (hflags x).imp_right And.right
      have heq := AddPackedOutcome.added (a := a) a.totalSg a.ctx
        (if slot vq.num (q + a.totalSg) < vq.nextAvailIdx then !vq.availWrapCounter
          else vq.availWrapCounter)
        hbroken hsg (by omega) hwrote ?_ ?_
      · simp only [PackedVq.makeAvail, show w.next = vq.next from funext hnext] at heq
        exact heq
      · intro k hk
        by_cases hx : slot vq.num (q + k) = vq.nextAvailIdx
        · rw [hx]
          simpa [hw] using hhead
        · have hwritten := addSgsPacked_written a.elems hpos₀ hnum hok (hlen ▸ hk) hx
          simpa [hw, hx] using hwritten
      · intro hle hfills
        -- a full lap leads back to the head, and the comparison misses it
        have hlt : a.totalSg < vq.num := by
          by_contra hge
          refine hfills ⟨by omega, by omega, hbroken, hindirect, ?_⟩
          by_contra hmap
          simp only [PackedVq.mapFails, Bool.not_eq_false, Bool.and_eq_true, List.any_eq_true,
            List.mem_range] at hmap
          obtain ⟨hdma, k, hk, herror⟩ := hmap
          have hnot := retryError_of_not_failed a.elems hok hk
          simp [hdma, PackedVq.loopStart, herror] at hnot
        have hslot := slot_lt (q := q) hnum
        rw [slot_add hnum (Nat.le_of_lt hlt), lap_add hnum (Nat.le_of_lt hlt), hq]
        split
        · rw [if_pos (by omega)]
          simp
        · rw [if_neg (by omega)]
          simp

/-- An indirect attempt that runs out of memory changes nothing, and is not
one that goes through. -/
theorem addIndirectPacked_enomem
    (h : virtqueueAddIndirectPacked vq a = some (vq', -ENOMEM)) :
    vq' = vq ∧ vq.addsIndirect a = false := by
  simp only [virtqueueAddIndirectPacked] at h
  split at h
  · next htable =>
      cases h
      exact ⟨rfl, by simp [PackedVq.addsIndirect, htable]⟩
  split at h
  · simp [ENOSPC, ENOMEM] at h
  split at h
  · cases h
  split at h
  · next hfill =>
      cases h
      refine ⟨rfl, ?_⟩
      by_contra hadds
      rw [Bool.not_eq_false] at hadds
      simp only [PackedVq.addsIndirect, PackedVq.mapFails, Bool.and_eq_true, Bool.not_eq_true',
        Bool.and_eq_false_iff, List.any_eq_false, List.mem_range] at hadds
      have hsome := fillTablePacked_isSome (fun k => vq.useDmaApi && a.mapError k)
        a.elems 0 (vq.tables a.table) ?_
      · rw [hfill] at hsome
        cases hsome
      · intro j hj
        rcases hadds.2 with hdma | hnone
        · simp [hdma]
        · simpa using fun _ => hnone j (by omega)
  · split at h
    · next hmap =>
        cases h
        refine ⟨rfl, ?_⟩
        simp only [Bool.and_eq_true] at hmap
        simp only [PackedVq.addsIndirect, PackedVq.mapFails, hmap.1, Bool.true_and,
          Bool.and_eq_false_iff, Bool.not_eq_false']
        right
        rw [List.any_eq_true]
        exact ⟨a.elems.length, by simp, hmap.2⟩
    · simp [ENOMEM] at h

theorem addPackedOutcome (hnum : 0 < vq.num) (hq : vq.nextAvailIdx = slot vq.num q)
    (hlap : vq.availUsedFlags = lapFlags (lap vq.num q)) (ha : a.Counted)
    (h : virtqueueAddPacked vq a = some (vq', err)) : AddPackedOutcome vq a q vq' err := by
  simp only [virtqueueAddPacked] at h
  split at h
  · cases h
  split at h
  · next hbroken => cases h; exact .broken hbroken
  next hbroken =>
  have hbroken : vq.broken = false := by simpa using hbroken
  split at h
  · cases h
  next hsg =>
  split at h
  · rw [Option.bind_eq_some_iff] at h
    obtain ⟨⟨w, err'⟩, hind, h⟩ := h
    simp only at h
    split at h
    · next herr =>
        cases h
        exact addPackedOutcome_indirect hbroken hnum hq hlap hind herr
    · next herr =>
        rw [not_not] at herr
        rw [herr] at hind
        obtain ⟨rfl, hadds⟩ := addIndirectPacked_enomem hind
        exact addPackedOutcome_direct hbroken hnum hq hlap ha hsg hadds h
  · next huse =>
      have hadds : vq.addsIndirect a = false := by
        simp [PackedVq.addsIndirect, huse]
      exact addPackedOutcome_direct hbroken hnum hq hlap ha hsg hadds h

end Outcome

/-- What an add needs to know of the wrap state, whatever the size of the
ring: the index is in range, and the flags are those of some lap. -/
structure OnLap (vq : PackedVq) : Prop where
  idx_lt : vq.nextAvailIdx < vq.num
  flags : ∃ b, vq.availUsedFlags = lapFlags b

theorem OnLap.exists_pos {vq : PackedVq} (h : OnLap vq) :
    ∃ q, vq.nextAvailIdx = slot vq.num q ∧ vq.availUsedFlags = lapFlags (lap vq.num q) := by
  have hnum : 0 < vq.num := Nat.zero_lt_of_lt h.idx_lt
  obtain ⟨b, hb⟩ := h.flags
  refine ⟨vq.num * (if b then 0 else 1) + vq.nextAvailIdx, (slot_mul_add _ h.idx_lt).symm, ?_⟩
  rw [hb, lap_mul_add _ hnum, Nat.div_eq_of_lt h.idx_lt]
  cases b <;> rfl

theorem OnLap.add {vq w : PackedVq} {a : AddArgs} {err : ℤ} (hl : OnLap vq) (ha : a.Counted)
    (h : virtqueueAddPacked vq a = some (w, err)) : OnLap w := by
  have hnum : 0 < vq.num := Nat.zero_lt_of_lt hl.idx_lt
  obtain ⟨q, hq, hlap⟩ := hl.exists_pos
  cases addPackedOutcome hnum hq hlap ha h with
  | broken => exact hl
  | full => exact hl
  | unmapped _ _ hwrote =>
    rw [hwrote.eq]
    exact ⟨hl.idx_lt, hl.flags⟩
  | @added w n p wrap _ _ _ hwrote =>
    have hslot := slot_lt (q := q + n) hnum
    refine ⟨?_, ⟨_, rfl⟩⟩
    rw [hwrote.eq]
    exact Nat.lt_of_le_of_lt (Nat.mod_le _ _) hslot

/-! ### Outcomes of the other calls -/

/-- The slots held by the buffer at id `h`. -/
def PackedVq.held (vq : PackedVq) (h : ℕ) : ℕ :=
  if (vq.descState h).data = 0 then 0 else (vq.descState h).num

theorem held_update {vq w : PackedVq} {id : ℕ} {state : VringDescStatePacked}
    (h : w.descState = update vq.descState id state) :
    w.held = update vq.held id (if state.data = 0 then 0 else state.num) := by
  funext x
  by_cases hx : x = id
  · subst hx
    rw [PackedVq.held, h, update_self, update_self]
  · rw [PackedVq.held, h, update_of_ne hx, update_of_ne hx]
    rfl

section Calls

variable {vq : PackedVq}

theorem detachBufPacked_eq (vq : PackedVq) (id : ℕ) :
    ∃ p, (detachBufPacked vq id).1 = { vq with
      descState := update vq.descState id
        ⟨0, p, (vq.descState id).num, (vq.descState id).last⟩
      descExtra := update vq.descExtra (vq.descState id).last
        { vq.descExtra (vq.descState id).last with next := vq.freeHead % 2 ^ 16 }
      freeHead := id
      numFree := vq.numFree + (vq.descState id).num } :=
  ⟨if vq.indirect then 0 else (vq.descState id).indirDesc, rfl⟩

theorem advanceUsed_eq (vq : PackedVq) (n : ℕ) :
    ∃ idx wrap, vq.advanceUsed n = { vq with lastUsedIdx := idx, usedWrapCounter := wrap } := by
  unfold PackedVq.advanceUsed
  simp only
  split
  · exact ⟨_, _, rfl⟩
  · exact ⟨_, vq.usedWrapCounter, rfl⟩

/-- What taking a buffer from the ring can do. -/
inductive GetBufPackedOutcome (vq : PackedVq) : PackedVq → Ptr → Prop
  | idle (hidle : vq.broken = true ∨ moreUsedPacked vq = false) : GetBufPackedOutcome vq vq 0
  | bad (hbroken : vq.broken = false) (hmore : moreUsedPacked vq = true)
      (hbad : vq.num ≤ virtio16ToCpu (vq.desc vq.lastUsedIdx).id ∨
        (vq.descState (virtio16ToCpu (vq.desc vq.lastUsedIdx).id)).data = 0) :
      GetBufPackedOutcome vq { vq with broken := true } 0
  | got (id : ℕ) (driver : VringPackedDescEvent) (hbroken : vq.broken = false)
      (hmore : moreUsedPacked vq = true) (hid : id = virtio16ToCpu (vq.desc vq.lastUsedIdx).id)
      (hlt : id < vq.num) (hdata : (vq.descState id).data ≠ 0) :
      GetBufPackedOutcome vq
        { (detachBufPacked vq id).1.advanceUsed (vq.descState id).num with driver := driver }
        (vq.descState id).data

theorem getBufPackedOutcome (vq : PackedVq) :
    GetBufPackedOutcome vq (virtqueueGetBufCtxPacked vq).vq (virtqueueGetBufCtxPacked vq).ret := by
  simp only [virtqueueGetBufCtxPacked]
  split
  · next hbroken => exact .idle (.inl hbroken)
  next hbroken =>
  have hbroken : vq.broken = false := by simpa using hbroken
  split
  · next hmore => exact .idle (.inr (by simpa using hmore))
  next hmore =>
  have hmore : moreUsedPacked vq = true := by simpa using hmore
  split
  · next hid => exact .bad hbroken hmore (.inl hid)
  next hid =>
  split
  · next hdata => exact .bad hbroken hmore (.inr hdata)
  next hdata =>
  split
  · exact .got _ _ hbroken hmore rfl (by omega) hdata
  · exact .got _ ((detachBufPacked vq _).1.advanceUsed _).driver hbroken hmore rfl (by omega) hdata

/-- What tearing the queue down by one buffer can do. -/
inductive DetachUnusedPackedOutcome (vq : PackedVq) : PackedVq → Ptr → Prop
  | none (hnone : ∀ i < vq.num, (vq.descState i).data = 0) : DetachUnusedPackedOutcome vq vq 0
  | some (i : ℕ) (hi : i < vq.num) (hdata : (vq.descState i).data ≠ 0) :
      DetachUnusedPackedOutcome vq (detachBufPacked vq i).1 (vq.descState i).data

theorem detachUnusedPackedOutcome {r : PackedVq × Ptr}
    (h : virtqueueDetachUnusedBufPacked vq = some r) : DetachUnusedPackedOutcome vq r.1 r.2 := by
  simp only [virtqueueDetachUnusedBufPacked] at h
  split at h
  · next i hfind =>
      have hmem := List.mem_of_find?_eq_some hfind
      have hdata := List.find?_some hfind
      cases h
      exact .some i (List.mem_range.mp hmem) (by simpa using hdata)
  · next hfind =>
      split at h
      · cases h
      · cases h
        refine .none fun i hi => ?_
        have hnot := List.find?_eq_none.mp hfind i (List.mem_range.mpr hi)
        simpa using hnot

end Calls

end GfpDrivers.Virtio
