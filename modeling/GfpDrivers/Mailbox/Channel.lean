import GfpDrivers.Basic

/-!
A mailbox channel (`mailbox.c`) and the three sections of code that change
it while holding `chan->lock`: `add_to_rbuf` queues a message, `msg_submit`
hands the oldest queued message to the controller unless a request is
active, and the first half of `tx_tick` retires the active request.

The queue is a ring of `MBOX_TX_QUEUE_LEN` message pointers of which only
the write position and the number of entries are stored. `MboxChan.queued`
reads it back as a list, oldest message first; the lemmas of this file say
what the sections do to that list.
-/

namespace GfpDrivers.Mailbox

/-- `MBOX_TX_QUEUE_LEN` -/
def mboxTxQueueLen : ℕ := 20

/-- The bits of `txdone_method` (`mailbox.h`). -/
def txdoneByIrq : ℕ := 1
def txdoneByPoll : ℕ := 2
def txdoneByAck : ℕ := 4

/-- `struct mbox_chan`. -/
structure MboxChan where
  txdoneMethod : ℕ
  cl : Ptr
  activeReq : Ptr
  msgCount : ℕ
  msgFree : ℕ
  msgData : ℕ → Ptr

/-- `add_to_rbuf`: the slot the message went to, or a negative error. -/
def addToRbuf (chan : MboxChan) (mssg : Ptr) : MboxChan × ℤ :=
  if chan.msgCount = mboxTxQueueLen then (chan, -ENOBUFS)
  else
    let idx := chan.msgFree
    ({ chan with
        msgData := Function.update chan.msgData idx mssg
        msgCount := chan.msgCount + 1
        msgFree := if idx = mboxTxQueueLen - 1 then 0 else idx + 1 }, idx)

/-- The slot `msg_submit` reads, computed from the write position. -/
def submitIdx (chan : MboxChan) : ℕ :=
  if chan.msgCount ≤ chan.msgFree then chan.msgFree - chan.msgCount
  else chan.msgFree + (mboxTxQueueLen - chan.msgCount)

/-- `msg_submit`, where `err` is what `send_data` returns if it is called.
The second component is the message that was handed over successfully. -/
def msgSubmit (chan : MboxChan) (err : ℤ) : MboxChan × Option Ptr :=
  if chan.msgCount = 0 ∨ chan.activeReq ≠ 0 then (chan, none)
  else
    let data := chan.msgData (submitIdx chan)
    if err = 0 then
      ({ chan with activeReq := data, msgCount := chan.msgCount - 1 }, some data)
    else (chan, none)

/-- The section of `tx_tick` before it calls `msg_submit`. -/
def txTickClear (chan : MboxChan) : MboxChan := { chan with activeReq := 0 }

/-! ### The queue as a list -/

/-- The queued messages, oldest first. -/
def MboxChan.queued (chan : MboxChan) : List Ptr :=
  (List.range chan.msgCount).map fun k =>
    chan.msgData ((submitIdx chan + k) % mboxTxQueueLen)

/-- The ring indices are in range. -/
structure MboxChan.Wf (chan : MboxChan) : Prop where
  free_lt : chan.msgFree < mboxTxQueueLen
  count_le : chan.msgCount ≤ mboxTxQueueLen

@[simp] theorem length_queued (chan : MboxChan) : chan.queued.length = chan.msgCount := by
  simp [MboxChan.queued]

theorem queued_eq_nil {chan : MboxChan} (h : chan.msgCount = 0) : chan.queued = [] := by
  simp [MboxChan.queued, h]

@[simp] theorem queued_txTickClear (chan : MboxChan) :
    (txTickClear chan).queued = chan.queued := rfl

/-- The read position advances to the write position in `msg_count` steps. -/
theorem submitIdx_add_count {chan : MboxChan} (h : chan.Wf) :
    (submitIdx chan + chan.msgCount) % mboxTxQueueLen = chan.msgFree := by
  obtain ⟨hfree, hcount⟩ := h
  unfold submitIdx mboxTxQueueLen at *
  split <;> omega

theorem submitIdx_lt {chan : MboxChan} (h : chan.Wf) : submitIdx chan < mboxTxQueueLen ∨
    chan.msgCount = 0 := by
  obtain ⟨hfree, hcount⟩ := h
  unfold submitIdx mboxTxQueueLen at *
  split <;> omega

/-- A full ring turns `add_to_rbuf` away and stays as it is. -/
theorem addToRbuf_full {chan : MboxChan} (h : chan.msgCount = mboxTxQueueLen) (mssg : Ptr) :
    addToRbuf chan mssg = (chan, -ENOBUFS) := by
  simp [addToRbuf, h]

theorem addToRbuf_wf {chan : MboxChan} (h : chan.Wf) (mssg : Ptr) :
    (addToRbuf chan mssg).1.Wf := by
  obtain ⟨hfree, hcount⟩ := h
  unfold addToRbuf
  split
  · exact ⟨hfree, hcount⟩
  · unfold mboxTxQueueLen at *
    constructor
    · dsimp only
      split <;> simp only [mboxTxQueueLen] <;> omega
    · simp only [mboxTxQueueLen]; omega

/-- The result is negative exactly when the message was not queued. -/
theorem addToRbuf_neg_iff (chan : MboxChan) (mssg : Ptr) :
    (addToRbuf chan mssg).2 < 0 ↔ chan.msgCount = mboxTxQueueLen := by
  unfold addToRbuf
  split
  · simp_all [ENOBUFS]
  · simp_all

theorem queued_addToRbuf {chan : MboxChan} (h : chan.Wf)
    (hroom : chan.msgCount ≠ mboxTxQueueLen) (mssg : Ptr) :
    (addToRbuf chan mssg).1.queued = chan.queued ++ [mssg] := by
  have hend := submitIdx_add_count h
  obtain ⟨hfree, hcount⟩ := h
  have hidx : submitIdx (addToRbuf chan mssg).1 = submitIdx chan ∨
      (chan.msgCount = 0 ∧ (submitIdx (addToRbuf chan mssg).1) % mboxTxQueueLen =
        submitIdx chan % mboxTxQueueLen) := by
    simp only [submitIdx, addToRbuf, hroom, if_false]
    unfold mboxTxQueueLen at *
    split <;> split <;> split <;> omega
  have hmod : ∀ k, (submitIdx (addToRbuf chan mssg).1 + k) % mboxTxQueueLen =
      (submitIdx chan + k) % mboxTxQueueLen := by
    intro k
    unfold mboxTxQueueLen at *
    omega
  have hcount' : (addToRbuf chan mssg).1.msgCount = chan.msgCount + 1 := by
    simp [addToRbuf, hroom]
  have hdata : (addToRbuf chan mssg).1.msgData =
      Function.update chan.msgData chan.msgFree mssg := by
    simp [addToRbuf, hroom]
  simp only [MboxChan.queued, hcount', hmod, hdata, List.range_succ, List.map_append,
    List.map_cons, List.map_nil]
  congr 1
  · -- the slots of the messages already queued are not the one written
    apply List.map_congr_left
    intro k hk
    rw [List.mem_range] at hk
    rw [Function.update_of_ne]
    unfold mboxTxQueueLen at *
    omega
  · rw [hend, Function.update_self]

/-- What a call of `msg_submit` can do: hand over the oldest message when
there is one and no request is active, or change nothing. -/
theorem msgSubmit_cases {chan : MboxChan} (h : chan.Wf) (err : ℤ) :
    msgSubmit chan err = (chan, none) ∨
      ∃ chan' data, msgSubmit chan err = (chan', some data) ∧ chan.activeReq = 0 ∧
        chan'.activeReq = data ∧ chan'.Wf ∧ chan'.cl = chan.cl ∧
        chan'.txdoneMethod = chan.txdoneMethod ∧ chan.queued = data :: chan'.queued := by
  unfold msgSubmit
  split
  · exact .inl rfl
  · rename_i hgo
    simp only [not_or, ne_eq, not_not] at hgo
    obtain ⟨hne, hidle⟩ := hgo
    dsimp only
    split
    · refine .inr ⟨_, _, rfl, hidle, rfl, ?_, rfl, rfl, ?_⟩
      · exact ⟨h.free_lt, Nat.le_trans (Nat.sub_le _ _) h.count_le⟩
      · obtain ⟨n, hn⟩ := Nat.exists_eq_succ_of_ne_zero hne
        have hlt : submitIdx chan < mboxTxQueueLen := (submitIdx_lt h).resolve_right hne
        simp only [MboxChan.queued, hn, Nat.succ_eq_add_one, Nat.add_sub_cancel,
          List.range_succ_eq_map, List.map_cons, List.map_map, Nat.add_zero,
          Nat.mod_eq_of_lt hlt, List.cons.injEq, true_and]
        apply List.map_congr_left
        intro k hk
        rw [List.mem_range] at hk
        simp only [Function.comp_apply]
        congr 1
        -- removing one entry moves the computed read position by one slot
        obtain ⟨hfree, hcount⟩ := h
        simp only [submitIdx]
        unfold mboxTxQueueLen at *
        split <;> split <;> omega
    · exact .inl rfl

end GfpDrivers.Mailbox
