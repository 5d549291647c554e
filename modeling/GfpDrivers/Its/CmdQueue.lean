import Mathlib.Order.Nat
import GfpDrivers.Basic
import GfpDrivers.Lib.Lap
import GfpDrivers.Lib.Runs

/-!
The command queue of an ITS (`irq-gic-v3-its.c`). The processors put commands
into a ring under `its->lock`, one or two at a time, and the ITS consumes what
was posted. Without the lock, each processor then polls `GITS_CREADR` until its
own commands are consumed, while the others go on.

A processor makes one step at a time, and between two steps anything can happen
that the lock allows. The numbers of commands that were put into the ring,
posted and consumed are kept beside the registers, which see them modulo the
size of the ring.
-/

namespace GfpDrivers.Its

open Lib Function

/-- `ITS_CMD_QUEUE_SZ` -/
def itsCmdQueueSz : ℕ := 65536

/-- `sizeof(struct its_cmd_block)` -/
def itsCmdBlockSz : ℕ := 32

/-- `ITS_CMD_QUEUE_NR_ENTRIES` -/
def itsCmdQueueNrEntries : ℕ := itsCmdQueueSz / itsCmdBlockSz

/-- How far a waiting processor has seen the ITS come. The numbers count the
commands consumed since the start: when it read `rd_idx`, when it polled last,
and when all its commands will be. `steady` says that the ITS has never gone
through a whole ring between two readings. -/
structure Waiter where
  start : ℕ
  sampled : ℕ
  target : ℕ
  steady : Bool

/-- Where a processor is in the function built by `BUILD_SINGLE_CMD_FUNC`. The
list `built` holds the commands it has put into the ring. -/
inductive Pc (γ : Type) where
  | idle
  /-- In `its_allocate_entry`, with the rounds that are left. -/
  | entry (built : List γ) (cmd : γ) (sync : Option γ) (count : ℕ)
  /-- It has got the entry `slot` and writes the command. -/
  | build (built : List γ) (cmd : γ) (sync : Option γ) (slot : ℕ)
  /-- At the label `post`. -/
  | post (built : List γ)
  /-- In `its_post_commands`. -/
  | write (built : List γ) (rdIdx start : ℕ)
  | unlock (rdIdx next : ℕ) (w : Waiter)
  /-- In the loop of `its_wait_for_range_completion`. -/
  | wait (prevIdx toIdx : ℕ) (linearIdx : ℤ) (count : ℕ) (w : Waiter)
  | done (ret : ℤ) (w : Waiter)

/-- The queue and the processors. An entry that was cleared holds `none`. -/
structure CmdQueue (ι γ : Type) where
  cmdWrite : ℕ
  cwriter : ℕ
  creadr : ℕ
  entries : ℕ → Option γ
  lock : Option ι
  pc : ι → Pc γ
  /-- The entries handed out by `its_allocate_entry`. -/
  allocated : ℕ
  posted : List γ
  /-- What the ITS has read. -/
  consumed : List (Option γ)

variable {ι γ : Type} [DecidableEq ι]

/-- `its_cmd_ptr_to_offset` -/
def itsCmdPtrToOffset (idx : ℕ) : ℕ := idx * itsCmdBlockSz

/-- `its_queue_full` -/
def itsQueueFull (s : CmdQueue ι γ) : Bool :=
  (s.cmdWrite + 1) % itsCmdQueueNrEntries = s.creadr / itsCmdBlockSz

def CmdQueue.setPc (s : CmdQueue ι γ) (i : ι) (pc : Pc γ) : CmdQueue ι γ :=
  { s with pc := Function.update s.pc i pc }

/-- The end of `its_allocate_entry`: an entry is taken and cleared. -/
def takeEntry (s : CmdQueue ι γ) : CmdQueue ι γ :=
  { s with
    cmdWrite := if s.cmdWrite + 1 = itsCmdQueueNrEntries then 0 else s.cmdWrite + 1
    entries := Function.update s.entries s.cmdWrite none
    allocated := s.allocated + 1 }

/-- `to_idx` of `its_wait_for_range_completion`. -/
def linearTo (prevIdx next : ℕ) : ℕ :=
  let toIdx := itsCmdPtrToOffset next
  if toIdx < prevIdx then toIdx + itsCmdQueueSz else toIdx

/-- `linear_idx` after a poll that found `rd_idx`. -/
def linearAfter (prevIdx rdIdx : ℕ) (linearIdx : ℤ) : ℤ :=
  let delta : ℤ := rdIdx - prevIdx
  let delta := if rdIdx < prevIdx then delta + itsCmdQueueSz else delta
  linearIdx + delta

/-- What the waiter knows after a poll. -/
def Waiter.sample (w : Waiter) (consumed : ℕ) : Waiter :=
  { w with sampled := consumed, steady := w.steady && decide (consumed - w.sampled < itsCmdQueueNrEntries) }

/-- One step of a processor. -/
def cpuStep (s : CmdQueue ι γ) (i : ι) : Option (CmdQueue ι γ) :=
  match s.pc i with
  | .idle => none
  | .entry built cmd sync count =>
      if itsQueueFull s then
        if count - 1 = 0 then
          match built with
          | [] => some ({ s with lock := none }.setPc i .idle)
          | _ :: _ => some (s.setPc i (.post built))
        else some (s.setPc i (.entry built cmd sync (count - 1)))
      else some ((takeEntry s).setPc i (.build built cmd sync s.cmdWrite))
  | .build built cmd sync slot =>
      let s := { s with entries := Function.update s.entries slot (some cmd) }
      match sync with
      | some sync => some (s.setPc i (.entry (built ++ [cmd]) sync none 1000000))
      | none => some (s.setPc i (.post (built ++ [cmd])))
  | .post built => some (s.setPc i (.write built s.creadr s.consumed.length))
  | .write built rdIdx start =>
      let s := { s with cwriter := itsCmdPtrToOffset s.cmdWrite, posted := s.posted ++ built }
      some (s.setPc i (.unlock rdIdx s.cmdWrite ⟨start, start, s.posted.length, true⟩))
  | .unlock rdIdx next w =>
      some ({ s with lock := none }.setPc i (.wait rdIdx (linearTo rdIdx next) rdIdx 1000000 w))
  | .wait prevIdx toIdx linearIdx count w =>
      let rdIdx := s.creadr
      let linearIdx := linearAfter prevIdx rdIdx linearIdx
      let w := w.sample s.consumed.length
      if toIdx ≤ linearIdx then some (s.setPc i (.done 0 w))
      else if count - 1 = 0 then some (s.setPc i (.done (-1) w))
      else some (s.setPc i (.wait rdIdx toIdx linearIdx (count - 1) w))
  | .done _ _ => none

/-- The number of entries from `GITS_CREADR` to `GITS_CWRITER`. -/
def CmdQueue.pending (s : CmdQueue ι γ) : ℕ :=
  (s.cwriter + itsCmdQueueSz - s.creadr) % itsCmdQueueSz / itsCmdBlockSz

/-- The ITS consumes `n` entries. -/
def consume (s : CmdQueue ι γ) (n : ℕ) : CmdQueue ι γ :=
  let ridx := s.creadr / itsCmdBlockSz
  { s with
    creadr := itsCmdPtrToOffset ((ridx + n) % itsCmdQueueNrEntries)
    consumed := s.consumed ++ (List.range n).map fun k => s.entries ((ridx + k) % itsCmdQueueNrEntries) }

inductive QueueStep (ι γ : Type) where
  /-- A processor calls the function and gets the lock. -/
  | call (i : ι) (cmd : γ) (sync : Option γ)
  | cpu (i : ι)
  | consume (n : ℕ)

/-- A processor that is in the middle of a call makes no other. -/
def Pc.isFree : Pc γ → Bool
  | .idle | .done .. => true
  | _ => false

def queueStep (s : CmdQueue ι γ) : QueueStep ι γ → Option (CmdQueue ι γ)
  | .call i cmd sync =>
      if s.lock.isNone ∧ (s.pc i).isFree then
        some ({ s with lock := some i }.setPc i (.entry [] cmd sync 1000000))
      else none
  | .cpu i => cpuStep s i
  | .consume n => if n ≤ s.pending then some (consume s n) else none

/-- The empty queue. -/
def CmdQueue.init : CmdQueue ι γ where
  cmdWrite := 0
  cwriter := 0
  creadr := 0
  entries _ := none
  lock := none
  pc _ := .idle
  allocated := 0
  posted := []
  consumed := []

/-! ### The invariant -/

/-- The entry of the `q`-th command. -/
abbrev entryOf (q : ℕ) : ℕ := slot itsCmdQueueNrEntries q

/-- The commands that were written but not posted are in their entries. -/
def Built (s : CmdQueue ι γ) (built : List γ) : Prop :=
  ∀ k cmd, built[k]? = some cmd → s.entries (entryOf (s.posted.length + k)) = some cmd

/-- What a waiter knows is true. -/
structure Waiter.Sees (w : Waiter) (posted consumed prevIdx toIdx : ℕ) (linearIdx : ℤ) : Prop where
  prev : prevIdx = itsCmdPtrToOffset (entryOf w.sampled)
  dest : toIdx = itsCmdPtrToOffset (entryOf w.start + (w.target - w.start))
  linear_le : linearIdx ≤ itsCmdPtrToOffset (entryOf w.start + (w.sampled - w.start))
  linear_eq : w.steady → linearIdx = itsCmdPtrToOffset (entryOf w.start + (w.sampled - w.start))
  start_le : w.start ≤ w.sampled
  sampled_le : w.sampled ≤ consumed
  start_lt : w.start < w.target
  target_le : w.target ≤ posted

/-- What holds of a processor. -/
def PcInv (s : CmdQueue ι γ) (i : ι) : Pc γ → Prop
  | .idle => True
  | .entry built _ _ _ =>
      s.lock = some i ∧ s.allocated = s.posted.length + built.length ∧ Built s built
  | .build built _ _ k =>
      s.lock = some i ∧ s.allocated = s.posted.length + built.length + 1 ∧
        k = entryOf (s.posted.length + built.length) ∧ Built s built
  | .post built =>
      s.lock = some i ∧ s.allocated = s.posted.length + built.length ∧ built ≠ [] ∧ Built s built
  | .write built rdIdx start =>
      s.lock = some i ∧ s.allocated = s.posted.length + built.length ∧ built ≠ [] ∧ Built s built ∧
        rdIdx = itsCmdPtrToOffset (entryOf start) ∧ start ≤ s.consumed.length ∧ start ≤ s.posted.length ∧
        s.allocated < start + itsCmdQueueNrEntries
  | .unlock rdIdx next w =>
      s.lock = some i ∧ s.allocated = s.posted.length ∧ next = entryOf w.target ∧
        w.Sees s.posted.length s.consumed.length rdIdx (linearTo rdIdx next) rdIdx
  | .wait prevIdx toIdx linearIdx _ w => w.Sees s.posted.length s.consumed.length prevIdx toIdx linearIdx
  | .done ret w => ret = 0 → w.target ≤ s.consumed.length

structure QueueInv (s : CmdQueue ι γ) : Prop where
  cmdWrite : s.cmdWrite = entryOf s.allocated
  cwriter : s.cwriter = itsCmdPtrToOffset (entryOf s.posted.length)
  creadr : s.creadr = itsCmdPtrToOffset (entryOf s.consumed.length)
  consumed_le : s.consumed.length ≤ s.posted.length
  posted_le : s.posted.length ≤ s.allocated
  room : s.allocated < s.consumed.length + itsCmdQueueNrEntries
  /-- The commands that were posted are in their entries until they are consumed. -/
  entries : ∀ q, s.consumed.length ≤ q → q < s.posted.length → s.entries (entryOf q) = s.posted[q]?
  inOrder : s.consumed = (s.posted.take s.consumed.length).map some
  unlocked : s.lock = none → s.allocated = s.posted.length
  pcs : ∀ i, PcInv s i (s.pc i)

variable {s s' : CmdQueue ι γ} {i j : ι} {pc : Pc γ} {w : Waiter} {start target q r n : ℕ} {l : ℤ}

/-! ### The registers -/

theorem nrEntries_eq : itsCmdQueueNrEntries = 2048 := rfl

theorem linearTo_eq (hlt : start < target) (hroom : target < start + itsCmdQueueNrEntries) :
    linearTo (itsCmdPtrToOffset (entryOf start)) (entryOf target) =
      itsCmdPtrToOffset (entryOf start + (target - start)) := by
  simp only [linearTo, itsCmdPtrToOffset, itsCmdQueueSz, itsCmdBlockSz, slot, nrEntries_eq] at *
  split <;> omega

/-- A poll sees no more than what was consumed since the last one. -/
theorem linearAfter_le (h : q ≤ r) :
    linearAfter (itsCmdPtrToOffset (entryOf q)) (itsCmdPtrToOffset (entryOf r)) l ≤
      l + itsCmdPtrToOffset (r - q) := by
  simp only [linearAfter, itsCmdPtrToOffset, itsCmdQueueSz, itsCmdBlockSz, slot, nrEntries_eq]
  split <;> omega

/-- It sees all of it when the ITS has not gone through the whole ring. -/
theorem linearAfter_eq (h : q ≤ r) (hlap : r - q < itsCmdQueueNrEntries) :
    linearAfter (itsCmdPtrToOffset (entryOf q)) (itsCmdPtrToOffset (entryOf r)) l =
      l + itsCmdPtrToOffset (r - q) := by
  simp only [linearAfter, itsCmdPtrToOffset, itsCmdQueueSz, itsCmdBlockSz, slot, nrEntries_eq] at *
  split <;> omega

omit [DecidableEq ι] in
theorem QueueInv.pending_eq (h : QueueInv s) : s.pending = s.posted.length - s.consumed.length := by
  have hle := h.consumed_le
  have hposted := h.posted_le
  have hroom := h.room
  simp only [CmdQueue.pending, h.cwriter, h.creadr, itsCmdPtrToOffset, itsCmdQueueSz, itsCmdBlockSz, slot,
    nrEntries_eq] at *
  omega

omit [DecidableEq ι] in
theorem QueueInv.room_of_not_full (h : QueueInv s) (hfull : ¬itsQueueFull s) :
    s.allocated + 1 < s.consumed.length + itsCmdQueueNrEntries := by
  have hroom := h.room
  simp only [itsQueueFull, h.cmdWrite, h.creadr, itsCmdPtrToOffset, itsCmdBlockSz, slot, nrEntries_eq,
    decide_eq_true_eq] at *
  omega

/-! ### Steps -/

section Frame

omit [DecidableEq ι]

theorem Waiter.Sees.mono {posted posted' consumed consumed' prevIdx toIdx : ℕ}
    (h : w.Sees posted consumed prevIdx toIdx l) (hposted : posted ≤ posted') (hconsumed : consumed ≤ consumed') :
    w.Sees posted' consumed' prevIdx toIdx l :=
  { h with
    sampled_le := h.sampled_le.trans hconsumed
    target_le := h.target_le.trans hposted }

/-- A processor without the lock does not mind what the others do. -/
theorem PcInv.other (h : PcInv s j pc) (hlock : s.lock ≠ some j)
    (hposted : s.posted.length ≤ s'.posted.length) (hconsumed : s.consumed.length ≤ s'.consumed.length) :
    PcInv s' j pc := by
  cases pc with
  | idle => trivial
  | entry | build | post | write | unlock => exact absurd h.1 hlock
  | wait => exact Waiter.Sees.mono h hposted hconsumed
  | done => exact fun hret => (h hret).trans hconsumed

/-- A processor with the lock does not mind what the ITS does. -/
theorem PcInv.consumed (h : PcInv s j pc) {creadr : ℕ} {more : List (Option γ)} :
    PcInv { s with creadr := creadr, consumed := s.consumed ++ more } j pc := by
  have hle : s.consumed.length ≤ (s.consumed ++ more).length := by simp
  cases pc with
  | idle => trivial
  | entry | build | post => exact h
  | write =>
    obtain ⟨hlock, halloc, hne, hbuilt, hrd, hstart, hrest⟩ := h
    exact ⟨hlock, halloc, hne, hbuilt, hrd, hstart.trans hle, hrest⟩
  | unlock =>
    obtain ⟨hlock, halloc, hnext, hsees⟩ := h
    exact ⟨hlock, halloc, hnext, hsees.mono le_rfl hle⟩
  | wait => exact Waiter.Sees.mono h le_rfl hle
  | done => exact fun hret => (h hret).trans hle

end Frame

/-- The processor `i` moves on, and the others stay where they are. -/
theorem pcs_setPc (hi : PcInv s' i pc) (hothers : ∀ j ≠ i, PcInv s' j (s'.pc j)) :
    ∀ j, PcInv (s'.setPc i pc) j ((s'.setPc i pc).pc j) := by
  intro j
  by_cases hj : j = i
  · subst hj
    rw [show (s'.setPc j pc).pc j = pc from update_self ..]
    exact hi
  · rw [show (s'.setPc i pc).pc j = s'.pc j from update_of_ne hj ..]
    exact hothers j hj

theorem QueueInv.setPc (h : QueueInv s) (hi : PcInv s i pc) : QueueInv (s.setPc i pc) :=
  { h with pcs := pcs_setPc hi fun j _ => h.pcs j }

omit [DecidableEq ι] in
theorem QueueInv.others (h : QueueInv s) (hlock : s.lock = some i)
    (hposted : s.posted.length ≤ s'.posted.length) (hconsumed : s.consumed.length ≤ s'.consumed.length) :
    ∀ j ≠ i, PcInv s' j (s.pc j) := by
  intro j hj
  refine (h.pcs j).other (fun hj' => hj ?_) hposted hconsumed
  exact Option.some.inj (hj'.symm.trans hlock)

theorem QueueInv.release (h : QueueInv s) (hlock : s.lock = some i) (halloc : s.allocated = s.posted.length)
    (hi : PcInv { s with lock := none } i pc) : QueueInv ({ s with lock := none }.setPc i pc) :=
  { h with
    unlocked := fun _ => halloc
    pcs := pcs_setPc hi (h.others hlock le_rfl le_rfl) }

theorem call_inv {cmd : γ} {sync : Option γ} (h : QueueInv s) (hlock : s.lock = none) :
    QueueInv ({ s with lock := some i }.setPc i (.entry [] cmd sync 1000000)) := by
  refine { h with unlocked := nofun, pcs := pcs_setPc ⟨rfl, h.unlocked hlock, by simp [Built]⟩ fun j _ => ?_ }
  exact (h.pcs j).other (by simp [hlock]) le_rfl le_rfl

theorem takeEntry_inv {built : List γ} {cmd : γ} {sync : Option γ} (h : QueueInv s)
    (hpc : PcInv s i (.entry built cmd sync n)) (hfull : ¬itsQueueFull s) :
    QueueInv ((takeEntry s).setPc i (.build built cmd sync s.cmdWrite)) := by
  obtain ⟨hlock, halloc, hbuilt⟩ := hpc
  have hroom := h.room_of_not_full hfull
  have hle := h.consumed_le
  -- none of the entries in use is the one that is cleared
  have hkeep : ∀ q, s.consumed.length ≤ q → q < s.allocated →
      (takeEntry s).entries (entryOf q) = s.entries (entryOf q) := by
    intro q hq hlt
    refine update_of_ne ?_ ..
    rw [h.cmdWrite]
    exact slot_ne hlt (by omega)
  refine { h with
    cmdWrite := ?_
    posted_le := (h.posted_le).trans (Nat.le_succ _)
    room := hroom
    entries := fun q hq hlt => (hkeep q hq (hlt.trans_le h.posted_le)).trans (h.entries q hq hlt)
    unlocked := fun hnone => absurd (hlock.symm.trans hnone) (by simp)
    pcs := pcs_setPc ⟨hlock, congrArg (· + 1) halloc, ?_, ?_⟩ (h.others hlock le_rfl le_rfl) }
  · change (if s.cmdWrite + 1 = itsCmdQueueNrEntries then 0 else s.cmdWrite + 1) = entryOf (s.allocated + 1)
    rw [h.cmdWrite]
    simp only [slot, nrEntries_eq]
    split <;> omega
  · rw [h.cmdWrite, halloc]
    rfl
  · intro k c hk
    have hlen : k < built.length := (List.getElem?_eq_some_iff.mp hk).1
    exact (hkeep _ (by change s.consumed.length ≤ s.posted.length + k; omega)
      (by change s.posted.length + k < s.allocated; omega)).trans (hbuilt k c hk)

/-- A command is written into the entry that was taken. -/
theorem build_inv {built : List γ} {cmd : γ} {sync : Option γ} (h : QueueInv s)
    (hpc : PcInv s i (.build built cmd sync n))
    (hnext : ∀ t : CmdQueue ι γ, t.lock = some i → t.allocated = t.posted.length + (built ++ [cmd]).length →
      Built t (built ++ [cmd]) → PcInv t i pc) :
    QueueInv ({ s with entries := update s.entries n (some cmd) }.setPc i pc) := by
  obtain ⟨hlock, halloc, rfl, hbuilt⟩ := hpc
  have hle := h.consumed_le
  have hroom := h.room
  have hkeep : ∀ q, s.consumed.length ≤ q → q < s.posted.length + built.length →
      update s.entries (entryOf (s.posted.length + built.length)) (some cmd) (entryOf q) =
        s.entries (entryOf q) := by
    intro q hq hlt
    exact update_of_ne (slot_ne hlt (by omega)) ..
  refine { h with
    entries := fun q hq hlt => (hkeep q hq ?_).trans (h.entries q hq hlt)
    pcs := pcs_setPc (hnext _ hlock ?_ fun k c hk => ?_) (h.others hlock le_rfl le_rfl) }
  · change q < s.posted.length at hlt
    omega
  · rw [List.length_append, List.length_singleton]
    exact halloc
  · rcases Nat.lt_or_ge k built.length with hk' | hk'
    · rw [List.getElem?_append_left hk'] at hk
      exact (hkeep _ (by change s.consumed.length ≤ s.posted.length + k; omega)
        (by change s.posted.length + k < _; omega)).trans (hbuilt k c hk)
    · obtain rfl : k = built.length := by
        have := (List.getElem?_eq_some_iff.mp hk).1
        simp only [List.length_append, List.length_singleton] at this
        omega
      rw [List.getElem?_concat_length] at hk
      exact (update_self ..).trans hk

theorem write_inv {built : List γ} {rdIdx : ℕ} (h : QueueInv s) (hpc : PcInv s i (.write built rdIdx start)) :
    QueueInv ({ s with cwriter := itsCmdPtrToOffset s.cmdWrite, posted := s.posted ++ built }.setPc i
      (.unlock rdIdx s.cmdWrite ⟨start, start, (s.posted ++ built).length, true⟩)) := by
  obtain ⟨hlock, halloc, hne, hbuilt, hrd, hstart, hstartP, hroom⟩ := hpc
  have hlen : (s.posted ++ built).length = s.allocated := by rw [List.length_append, halloc]
  have hpos : 0 < built.length := List.length_pos_of_ne_nil hne
  have hgrow : s.posted.length ≤ (s.posted ++ built).length := by simp
  have hdest : linearTo rdIdx s.cmdWrite = itsCmdPtrToOffset (entryOf start + (s.allocated - start)) := by
    rw [hrd, h.cmdWrite]
    exact linearTo_eq (by omega) hroom
  refine { h with
    cwriter := ?_
    consumed_le := h.consumed_le.trans hgrow
    posted_le := hlen.le
    entries := fun q hq hlt => ?_
    inOrder := ?_
    unlocked := fun _ => hlen.symm
    pcs := pcs_setPc ⟨hlock, hlen.symm, ?_, ?_⟩ (h.others hlock hgrow le_rfl) }
  · change itsCmdPtrToOffset s.cmdWrite = itsCmdPtrToOffset (entryOf (s.posted ++ built).length)
    rw [hlen, h.cmdWrite]
  · change s.entries (entryOf q) = (s.posted ++ built)[q]?
    rcases Nat.lt_or_ge q s.posted.length with hq' | hq'
    · rw [List.getElem?_append_left hq']
      exact h.entries q hq hq'
    · have hlt' : q - s.posted.length < built.length := by
        change q < (s.posted ++ built).length at hlt
        rw [List.length_append] at hlt
        omega
      have hq'' := hbuilt (q - s.posted.length) _ (List.getElem?_eq_getElem hlt')
      rw [Nat.add_sub_cancel' hq'] at hq''
      rw [List.getElem?_append_right hq', hq'', List.getElem?_eq_getElem hlt']
  · change s.consumed = ((s.posted ++ built).take s.consumed.length).map some
    rw [List.take_append_of_le_length h.consumed_le]
    exact h.inOrder
  · change s.cmdWrite = entryOf (s.posted ++ built).length
    rw [hlen, h.cmdWrite]
  · have hself : (rdIdx : ℤ) = itsCmdPtrToOffset (entryOf start + (start - start)) := by
      rw [hrd, Nat.sub_self, Nat.add_zero]
    have hbehind : start < (s.posted ++ built).length := by omega
    refine ⟨hrd, ?_, Int.le_of_eq hself, fun _ => hself, le_rfl, hstart, hbehind, le_rfl⟩
    rw [hlen]
    exact hdest

theorem Waiter.Sees.poll {posted consumed prevIdx toIdx : ℕ} (h : w.Sees posted consumed prevIdx toIdx l) :
    (w.sample consumed).Sees posted consumed (itsCmdPtrToOffset (entryOf consumed)) toIdx
      (linearAfter prevIdx (itsCmdPtrToOffset (entryOf consumed)) l) := by
  have hsum : itsCmdPtrToOffset (entryOf w.start + (consumed - w.start)) =
      itsCmdPtrToOffset (entryOf w.start + (w.sampled - w.start)) + itsCmdPtrToOffset (consumed - w.sampled) := by
    have := h.start_le
    have := h.sampled_le
    simp only [itsCmdPtrToOffset]
    rw [← Nat.add_mul]
    congr 1
    omega
  refine ⟨rfl, h.dest, ?_, fun hsteady => ?_, h.start_le.trans h.sampled_le, le_rfl, h.start_lt, h.target_le⟩
  · have hle := linearAfter_le (l := l) h.sampled_le
    have hlin := h.linear_le
    rw [← h.prev] at hle
    change _ ≤ ((itsCmdPtrToOffset (entryOf w.start + (consumed - w.start)) : ℕ) : ℤ)
    rw [hsum]
    omega
  · obtain ⟨hw, hlap⟩ := Bool.and_eq_true_iff.mp hsteady
    have heq := linearAfter_eq (l := l) h.sampled_le (by simpa using hlap)
    have hlin := h.linear_eq hw
    rw [← h.prev] at heq
    change _ = ((itsCmdPtrToOffset (entryOf w.start + (consumed - w.start)) : ℕ) : ℤ)
    rw [hsum]
    omega

theorem Waiter.Sees.target_of_le {posted consumed prevIdx toIdx : ℕ} (h : w.Sees posted consumed prevIdx toIdx l)
    (hle : (toIdx : ℤ) ≤ l) : w.target ≤ w.sampled := by
  have hlin := h.linear_le
  have hstart := h.start_le
  have hlt := h.start_lt
  rw [h.dest] at hle
  simp only [itsCmdPtrToOffset, itsCmdBlockSz] at hle hlin
  omega

theorem Waiter.Sees.le_iff {posted consumed prevIdx toIdx : ℕ} (h : w.Sees posted consumed prevIdx toIdx l)
    (hsteady : w.steady) : (toIdx : ℤ) ≤ l ↔ w.target ≤ w.sampled := by
  refine ⟨h.target_of_le, fun hle => ?_⟩
  have hstart := h.start_le
  have hlt := h.start_lt
  rw [h.dest, h.linear_eq hsteady]
  simp only [itsCmdPtrToOffset, itsCmdBlockSz]
  omega

theorem cpuStep_inv (h : QueueInv s) (hstep : cpuStep s i = some s') : QueueInv s' := by
  have hpc := h.pcs i
  cases hcase : s.pc i with
  | idle | done => simp [cpuStep, hcase] at hstep
  | entry built cmd sync count =>
    rw [hcase] at hpc
    simp only [cpuStep, hcase] at hstep
    by_cases hfull : itsQueueFull s
    · rw [if_pos hfull] at hstep
      by_cases hcount : count - 1 = 0
      · rw [if_pos hcount] at hstep
        cases built with
        | nil =>
          obtain rfl := Option.some.inj hstep
          exact h.release hpc.1 hpc.2.1 trivial
        | cons c cs =>
          obtain rfl := Option.some.inj hstep
          exact h.setPc ⟨hpc.1, hpc.2.1, by simp, hpc.2.2⟩
      · rw [if_neg hcount] at hstep
        obtain rfl := Option.some.inj hstep
        exact h.setPc hpc
    · rw [if_neg hfull] at hstep
      obtain rfl := Option.some.inj hstep
      exact takeEntry_inv h hpc hfull
  | build built cmd sync n =>
    rw [hcase] at hpc
    cases sync with
    | some sync =>
      simp only [cpuStep, hcase, Option.some.injEq] at hstep
      subst hstep
      exact build_inv h hpc fun t hlock halloc hbuilt => ⟨hlock, halloc, hbuilt⟩
    | none =>
      simp only [cpuStep, hcase, Option.some.injEq] at hstep
      subst hstep
      exact build_inv h hpc fun t hlock halloc hbuilt => ⟨hlock, halloc, by simp, hbuilt⟩
  | post built =>
    rw [hcase] at hpc
    obtain ⟨hlock, halloc, hne, hbuilt⟩ := hpc
    simp only [cpuStep, hcase, Option.some.injEq] at hstep
    subst hstep
    exact h.setPc ⟨hlock, halloc, hne, hbuilt, h.creadr, le_rfl, h.consumed_le, h.room⟩
  | write built rdIdx start =>
    rw [hcase] at hpc
    simp only [cpuStep, hcase, Option.some.injEq] at hstep
    subst hstep
    exact write_inv h hpc
  | unlock rdIdx next w =>
    rw [hcase] at hpc
    simp only [cpuStep, hcase, Option.some.injEq] at hstep
    subst hstep
    exact h.release hpc.1 hpc.2.1 hpc.2.2.2
  | wait prevIdx toIdx linearIdx count w =>
    rw [hcase] at hpc
    have hpoll := Waiter.Sees.poll hpc
    rw [← h.creadr] at hpoll
    simp only [cpuStep, hcase] at hstep
    split at hstep
    · next hle =>
        obtain rfl := Option.some.inj hstep
        exact h.setPc fun _ => hpoll.target_of_le hle
    · split at hstep
      · obtain rfl := Option.some.inj hstep
        exact h.setPc fun hret => absurd hret (by decide)
      · obtain rfl := Option.some.inj hstep
        exact h.setPc hpoll

omit [DecidableEq ι] in
theorem consume_inv (h : QueueInv s) (hn : n ≤ s.pending) : QueueInv (consume s n) := by
  rw [h.pending_eq] at hn
  have hle := h.consumed_le
  have hposted := h.posted_le
  have hroom := h.room
  have hridx : s.creadr / itsCmdBlockSz = entryOf s.consumed.length := by
    rw [h.creadr, itsCmdPtrToOffset, Nat.mul_div_cancel _ (by decide)]
  have hlen : (consume s n).consumed.length = s.consumed.length + n := by simp [consume]
  -- the ITS reads the commands in the order in which they were posted
  have hread : ((List.range n).map fun k => s.entries ((s.creadr / itsCmdBlockSz + k) % itsCmdQueueNrEntries)) =
      ((s.posted.drop s.consumed.length).take n).map some := by
    refine List.ext_getElem? fun k => ?_
    rcases Nat.lt_or_ge k n with hk | hk
    · have hentry := h.entries (s.consumed.length + k) (by omega) (by omega)
      have hslot : (s.creadr / itsCmdBlockSz + k) % itsCmdQueueNrEntries = entryOf (s.consumed.length + k) := by
        rw [hridx]
        exact Nat.mod_add_mod ..
      simp only [List.getElem?_map, List.getElem?_range hk, Option.map_some, hslot, hentry,
        List.getElem?_take_of_lt hk, List.getElem?_drop]
      rw [List.getElem?_eq_getElem (by omega : s.consumed.length + k < s.posted.length)]
      rfl
    · rw [List.getElem?_eq_none (by simpa using hk), List.getElem?_eq_none]
      simp only [List.length_map, List.length_take, List.length_drop]
      omega
  refine { h with
    creadr := ?_
    consumed_le := by rw [hlen]; change _ ≤ s.posted.length; omega
    room := by rw [hlen]; change s.allocated < _; omega
    entries := fun q hq hlt => h.entries q (by omega) hlt
    inOrder := ?_
    pcs := fun j => (h.pcs j).consumed }
  · rw [hlen]
    change itsCmdPtrToOffset ((s.creadr / itsCmdBlockSz + n) % itsCmdQueueNrEntries) = _
    rw [hridx]
    exact congrArg itsCmdPtrToOffset (Nat.mod_add_mod ..)
  · rw [hlen]
    change s.consumed ++ _ = (s.posted.take (s.consumed.length + n)).map some
    rw [hread, List.take_add, List.map_append, ← h.inOrder]

theorem queueStep_inv {step : QueueStep ι γ} (h : QueueInv s) (hstep : queueStep s step = some s') :
    QueueInv s' := by
  cases step with
  | call i cmd sync =>
    rw [queueStep] at hstep
    split at hstep
    · next hfree =>
        obtain rfl := Option.some.inj hstep
        exact call_inv h (Option.isNone_iff_eq_none.mp hfree.1)
    · simp at hstep
  | cpu i => exact cpuStep_inv h hstep
  | consume n =>
    rw [queueStep] at hstep
    split at hstep
    · next hn =>
        obtain rfl := Option.some.inj hstep
        exact consume_inv h hn
    · simp at hstep

omit [DecidableEq ι] in
theorem init_inv : QueueInv (CmdQueue.init : CmdQueue ι γ) where
  cmdWrite := rfl
  cwriter := rfl
  creadr := rfl
  consumed_le := le_rfl
  posted_le := le_rfl
  room := (by decide : 0 < 0 + itsCmdQueueNrEntries)
  entries _ _ hlt := absurd hlt (Nat.not_lt_zero _)
  inOrder := rfl
  unlocked _ := rfl
  pcs _ := trivial

/-! ### All interleavings -/

/-- The queue works. -/
structure QueueSound (s : CmdQueue ι γ) : Prop where
  /-- The entry that is handed out next held no command, or one that was consumed. -/
  cleared : ∀ q < s.allocated, entryOf q = s.cmdWrite → q < s.consumed.length
  /-- `GITS_CWRITER` is ahead of `GITS_CREADR` by what is pending, and less than once around. -/
  notPassed : s.consumed.length + s.pending = s.posted.length ∧ s.pending < itsCmdQueueNrEntries
  /-- What the ITS has read is what was posted, in this order. -/
  inOrder : s.consumed = (s.posted.take s.consumed.length).map some
  /-- A waiter that returns 0 has waited for all commands up to its own. -/
  waited : ∀ i w, s.pc i = .done 0 w → w.target ≤ s.consumed.length
  /-- It does not wait longer when the ITS stays within a ring of its readings. -/
  exact : ∀ i prevIdx toIdx linearIdx count w, s.pc i = .wait prevIdx toIdx linearIdx count w →
    (w.sample s.consumed.length).steady →
    ((toIdx : ℤ) ≤ linearAfter prevIdx s.creadr linearIdx ↔ w.target ≤ s.consumed.length)

omit [DecidableEq ι] in
theorem QueueInv.sound (h : QueueInv s) : QueueSound s := by
  have hle := h.consumed_le
  have hposted := h.posted_le
  have hroom := h.room
  refine ⟨fun q hq hentry => ?_, ?_, h.inOrder, fun i w hpc => ?_, ?_⟩
  · by_contra hge
    rw [h.cmdWrite] at hentry
    exact slot_ne hq (by omega) hentry
  · rw [h.pending_eq]
    omega
  · have := h.pcs i
    rw [hpc] at this
    exact this rfl
  · intro i prevIdx toIdx linearIdx count w hpc hsteady
    have hsees := h.pcs i
    rw [hpc] at hsees
    have hpoll := Waiter.Sees.poll hsees
    rw [← h.creadr] at hpoll
    exact hpoll.le_iff hsteady

/-- Whatever the processors and the ITS do, and in whatever order. -/
theorem cmd_queue_sound {steps : List (QueueStep ι γ)} (h : exec queueStep CmdQueue.init steps = some s) :
    QueueSound s := by
  have hinv := exec_invariant_of_forall (P := fun _ => True) (fun _ _ _ hs _ => queueStep_inv hs)
    init_inv (fun _ _ => trivial) h
  exact hinv.sound

/-- Two processors post while the ITS consumes, and the first one returns. -/
theorem cmd_queue_two_cpus : ∃ s : CmdQueue Bool ℕ, exec queueStep CmdQueue.init
    [.call false 7 (some 8), .cpu false, .cpu false, .cpu false, .cpu false, .cpu false, .cpu false, .cpu false,
      .call true 9 none, .consume 1, .cpu false, .cpu true, .cpu true, .consume 1, .cpu false] = some s ∧
    QueueSound s := by
  obtain ⟨s, hs⟩ := Option.isSome_iff_exists.mp (by decide : (exec queueStep CmdQueue.init
    [.call false 7 (some 8), .cpu false, .cpu false, .cpu false, .cpu false, .cpu false, .cpu false, .cpu false,
      .call true 9 none, .consume 1, .cpu false, .cpu true, .cpu true, .consume 1,
      .cpu false] : Option (CmdQueue Bool ℕ)).isSome)
  exact ⟨s, hs, cmd_queue_sound hs⟩

end GfpDrivers.Its
