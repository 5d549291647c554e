import GfpDrivers.Lib.Runs
import GfpDrivers.Mailbox.Channel

/-!
Transmission on one channel, under every interleaving of its callers.

`mbox_send_message` and `tx_tick` take `chan->lock` twice: once for
`add_to_rbuf` (or for clearing `active_req`), and once more inside
`msg_submit`. Other callers may run in between. A state therefore counts the
calls that have left their first section and still owe their `msg_submit`,
and an action is one section of one caller.

The log records what the channel did: which messages it accepted, which ones
it handed to the controller, and the completions. Order, loss and duplication
are statements about the log.
-/

namespace GfpDrivers.Mailbox

open GfpDrivers.Lib

inductive Event
  | accepted (mssg : Ptr)
  | sent (mssg : Ptr)
  | tick
  deriving DecidableEq

/-- A channel with the calls in progress on it and the log of its past. -/
structure TxState where
  chan : MboxChan
  due : ℕ
  log : List Event

/-- One section of one caller. The arguments are the choices of the
environment: the message, the result of the controller's `flush` (`none` if
it has none), and the result of `send_data`. -/
inductive TxAct
  | sendMessage (mssg : Ptr)
  | chanTxdone
  | clientTxdone
  | flush (ret : Option ℤ)
  | submit (err : ℤ)

/-- The start of `tx_tick`; its `msg_submit` becomes due. -/
def TxState.tick (s : TxState) : TxState where
  chan := txTickClear s.chan
  due := s.due + 1
  log := s.log ++ [.tick]

/-- `mbox_send_message` up to its `msg_submit`. A rejected message leaves
nothing due. -/
def TxState.sendMessage (s : TxState) (mssg : Ptr) : TxState :=
  if s.chan.cl = 0 then s
  else
    let (chan, t) := addToRbuf s.chan mssg
    if t < 0 then { s with chan := chan }
    else { chan := chan, due := s.due + 1, log := s.log ++ [.accepted mssg] }

def TxState.submit (s : TxState) (err : ℤ) : TxState :=
  let (chan, handed) := msgSubmit s.chan err
  { chan := chan, due := s.due - 1, log := s.log ++ (handed.map Event.sent).toList }

/-- `mbox_chan_txdone` and `mbox_client_txdone` tick only under the method
they belong to, `mbox_flush` only when the controller's flush failed. -/
def TxState.step (s : TxState) : TxAct → Option TxState
  | .sendMessage mssg => some (s.sendMessage mssg)
  | .chanTxdone =>
      some (if s.chan.txdoneMethod &&& txdoneByIrq = 0 then s else s.tick)
  | .clientTxdone =>
      some (if s.chan.txdoneMethod &&& txdoneByAck = 0 then s else s.tick)
  | .flush none => some s
  | .flush (some ret) => some (if ret < 0 then s.tick else s)
  | .submit err => if s.due = 0 then none else some (s.submit err)

/-- A channel as `mbox_request_channel` leaves it: owned, empty and idle. -/
def TxState.start (cl : Ptr) (txdoneMethod : ℕ) (msgData : ℕ → Ptr) : TxState where
  chan := { txdoneMethod, cl, activeReq := 0, msgCount := 0, msgFree := 0, msgData }
  due := 0
  log := []

/-! ### What the log says -/

def acceptedMsgs (log : List Event) : List Ptr :=
  log.filterMap fun | .accepted m => some m | _ => none

def sentMsgs (log : List Event) : List Ptr :=
  log.filterMap fun | .sent m => some m | _ => none

/-- Between two successful `send_data` calls there is a completion. -/
def TickBetweenSends (log : List Event) : Prop :=
  ∀ pre mid post m m', log = pre ++ .sent m :: (mid ++ .sent m' :: post) → Event.tick ∈ mid

/-- The last message handed over has not been completed. -/
def Outstanding (log : List Event) : Prop :=
  ∃ pre m post, log = pre ++ .sent m :: post ∧ Event.tick ∉ post

@[simp] theorem acceptedMsgs_append (log log' : List Event) :
    acceptedMsgs (log ++ log') = acceptedMsgs log ++ acceptedMsgs log' := by
  simp [acceptedMsgs]

@[simp] theorem sentMsgs_append (log log' : List Event) :
    sentMsgs (log ++ log') = sentMsgs log ++ sentMsgs log' := by
  simp [sentMsgs]

theorem not_outstanding_tick (log : List Event) : ¬ Outstanding (log ++ [.tick]) := by
  rintro ⟨pre, m, post, h, hpost⟩
  rcases List.eq_nil_or_concat post with rfl | ⟨post, e, rfl⟩
  · have hlast := congrArg List.getLast? h
    simp at hlast
  · have hlast := congrArg List.getLast? h
    simp only [List.getLast?_append, List.getLast?_cons] at hlast
    simp at hlast
    exact hpost (by simp [← hlast])

theorem outstanding_of_append_accepted {log : List Event} {m : Ptr}
    (h : Outstanding (log ++ [.accepted m])) : Outstanding log := by
  obtain ⟨pre, m', post, h, hpost⟩ := h
  rcases List.eq_nil_or_concat post with rfl | ⟨post, e, rfl⟩
  · have hlast := congrArg List.getLast? h
    simp at hlast
  · have hsplit : log ++ [Event.accepted m] = (pre ++ Event.sent m' :: post) ++ [e] := by
      simpa using h
    obtain ⟨hlog, -⟩ := List.append_inj' hsplit rfl
    exact ⟨pre, m', post, hlog, fun hm => hpost (by simp [hm])⟩

/-- Extending the log by something that is not a hand-over. -/
theorem TickBetweenSends.append_of_ne_sent {log : List Event} {e : Event}
    (h : TickBetweenSends log) (he : ∀ m, e ≠ .sent m) : TickBetweenSends (log ++ [e]) := by
  intro pre mid post m m' hlog
  rcases List.eq_nil_or_concat post with rfl | ⟨post, e', rfl⟩
  · have hsplit : log ++ [e] = (pre ++ Event.sent m :: mid) ++ [Event.sent m'] := by simpa using hlog
    obtain ⟨-, heq⟩ := List.append_inj' hsplit rfl
    exact absurd (List.singleton_inj.mp heq) (he m')
  · have hsplit : log ++ [e] = (pre ++ Event.sent m :: (mid ++ Event.sent m' :: post)) ++ [e'] := by
      simpa using hlog
    obtain ⟨hlog', -⟩ := List.append_inj' hsplit rfl
    exact h pre mid post m m' hlog'

theorem TickBetweenSends.append_sent {log : List Event} {m' : Ptr}
    (h : TickBetweenSends log) (hidle : ¬ Outstanding log) :
    TickBetweenSends (log ++ [.sent m']) := by
  intro pre mid post m m'' hlog
  rcases List.eq_nil_or_concat post with rfl | ⟨post, e', rfl⟩
  · have hsplit : log ++ [Event.sent m'] = (pre ++ Event.sent m :: mid) ++ [Event.sent m''] := by
      simpa using hlog
    obtain ⟨hlog', -⟩ := List.append_inj' hsplit rfl
    by_contra hmid
    exact hidle ⟨pre, m, mid, hlog', hmid⟩
  · have hsplit : log ++ [Event.sent m'] =
        (pre ++ Event.sent m :: (mid ++ Event.sent m'' :: post)) ++ [e'] := by
      simpa using hlog
    obtain ⟨hlog', -⟩ := List.append_inj' hsplit rfl
    exact h pre mid post m m'' hlog'

/-! ### The steps -/

/-- Everything a step can do to the channel and the log. -/
theorem TxState.step_cases {s t : TxState} {a : TxAct} (hwf : s.chan.Wf)
    (h : s.step a = some t) :
    (t.chan = s.chan ∧ t.log = s.log) ∨
    t = s.tick ∨
    (∃ mssg, a = .sendMessage mssg ∧ t.log = s.log ++ [.accepted mssg] ∧ t.chan.Wf ∧
      t.chan.activeReq = s.chan.activeReq ∧ t.chan.queued = s.chan.queued ++ [mssg]) ∨
    (∃ data, t.log = s.log ++ [.sent data] ∧ s.chan.activeReq = 0 ∧
      t.chan.activeReq = data ∧ t.chan.Wf ∧ s.chan.queued = data :: t.chan.queued) := by
  cases a with
  | sendMessage mssg =>
    simp only [TxState.step, Option.some.injEq] at h
    subst h
    unfold TxState.sendMessage
    split
    · exact .inl ⟨rfl, rfl⟩
    · by_cases hfull : s.chan.msgCount = mboxTxQueueLen
      · simp [addToRbuf_full hfull, ENOBUFS]
      · have hneg : ¬ (addToRbuf s.chan mssg).2 < 0 := by
          rw [addToRbuf_neg_iff]; exact hfull
        refine .inr (.inr (.inl ⟨mssg, rfl, ?_⟩))
        simp only [hneg, if_false, true_and]
        refine ⟨addToRbuf_wf hwf mssg, ?_, queued_addToRbuf hwf hfull mssg⟩
        simp [addToRbuf, hfull]
  | chanTxdone =>
    simp only [TxState.step, Option.some.injEq] at h
    subst h
    split
    · exact .inl ⟨rfl, rfl⟩
    · exact .inr (.inl rfl)
  | clientTxdone =>
    simp only [TxState.step, Option.some.injEq] at h
    subst h
    split
    · exact .inl ⟨rfl, rfl⟩
    · exact .inr (.inl rfl)
  | flush ret =>
    cases ret with
    | none =>
      simp only [TxState.step, Option.some.injEq] at h
      subst h
      exact .inl ⟨rfl, rfl⟩
    | some ret =>
      simp only [TxState.step, Option.some.injEq] at h
      subst h
      split
      · exact .inr (.inl rfl)
      · exact .inl ⟨rfl, rfl⟩
  | submit err =>
    simp only [TxState.step, Option.ite_none_left_eq_some, Option.some.injEq] at h
    obtain ⟨-, rfl⟩ := h
    rcases msgSubmit_cases hwf err with hnone | ⟨chan', data, hsome, hidle, hact, hwf', -, -, hq⟩
    · simp [TxState.submit, hnone]
    · refine .inr (.inr (.inr ⟨data, ?_⟩))
      simp [TxState.submit, hsome, hidle, hact, hwf', hq]

/-- The queue is what was accepted and not yet handed over. This holds
whatever the messages are. -/
structure TxState.Fifo (s : TxState) : Prop where
  wf : s.chan.Wf
  queue : acceptedMsgs s.log = sentMsgs s.log ++ s.chan.queued

theorem TxState.fifo_start (cl : Ptr) (txdoneMethod : ℕ) (msgData : ℕ → Ptr) :
    (TxState.start cl txdoneMethod msgData).Fifo :=
  ⟨⟨by simp [TxState.start, mboxTxQueueLen], by simp [TxState.start]⟩,
    by simp [TxState.start, acceptedMsgs, sentMsgs, queued_eq_nil]⟩

theorem TxState.fifo_step {s t : TxState} {a : TxAct} (hs : s.Fifo)
    (h : s.step a = some t) : t.Fifo := by
  obtain ⟨hwf, hq⟩ := hs
  rcases TxState.step_cases hwf h with
    ⟨hchan, hlog⟩ | rfl | ⟨mssg, -, hlog, hwf', -, hqueue⟩ | ⟨data, hlog, -, -, hwf', hqueue⟩
  · exact ⟨hchan ▸ hwf, by rw [hchan, hlog]; exact hq⟩
  · refine ⟨⟨hwf.free_lt, hwf.count_le⟩, ?_⟩
    simp only [TxState.tick, acceptedMsgs_append, sentMsgs_append]
    simpa [acceptedMsgs, sentMsgs] using hq
  · refine ⟨hwf', ?_⟩
    rw [hlog, hqueue, acceptedMsgs_append, sentMsgs_append, hq]
    simp [acceptedMsgs, sentMsgs]
  · refine ⟨hwf', ?_⟩
    rw [hlog, acceptedMsgs_append, sentMsgs_append, hq, hqueue]
    simp [acceptedMsgs, sentMsgs]

/-- With no `NULL` among the messages, `active_req` marks the outstanding
request. -/
structure TxState.Single (s : TxState) : Prop where
  fifo : s.Fifo
  nonnull : ∀ m ∈ s.chan.queued, m ≠ 0
  between : TickBetweenSends s.log
  marked : Outstanding s.log → s.chan.activeReq ≠ 0

theorem TxState.single_start (cl : Ptr) (txdoneMethod : ℕ) (msgData : ℕ → Ptr) :
    (TxState.start cl txdoneMethod msgData).Single where
  fifo := TxState.fifo_start cl txdoneMethod msgData
  nonnull := by simp [TxState.start, queued_eq_nil]
  between := by
    intro pre mid post m m' h
    simp [TxState.start] at h
  marked := by
    rintro ⟨pre, m, post, h, -⟩
    simp [TxState.start] at h

/-- The condition under which the busy test of `msg_submit` is reliable. -/
def TxAct.NonNull : TxAct → Prop
  | .sendMessage mssg => mssg ≠ 0
  | _ => True

theorem TxState.single_step {s t : TxState} {a : TxAct} (hs : s.Single) (ha : a.NonNull)
    (h : s.step a = some t) : t.Single := by
  obtain ⟨hfifo, hnonnull, hbetween, hmarked⟩ := hs
  have hfifo' := TxState.fifo_step hfifo h
  rcases TxState.step_cases hfifo.wf h with
    ⟨hchan, hlog⟩ | rfl | ⟨mssg, rfl, hlog, -, hact, hqueue⟩ | ⟨data, hlog, hidle, hact, -, hqueue⟩
  · exact ⟨hfifo', hchan ▸ hnonnull, hlog ▸ hbetween, by rw [hchan, hlog]; exact hmarked⟩
  · exact ⟨hfifo', hnonnull, hbetween.append_of_ne_sent (by simp),
      fun hout => absurd hout (not_outstanding_tick _)⟩
  · refine ⟨hfifo', ?_, ?_, ?_⟩
    · intro m hm
      rw [hqueue, List.mem_append, List.mem_singleton] at hm
      rcases hm with hm | rfl
      · exact hnonnull m hm
      · exact ha
    · rw [hlog]; exact hbetween.append_of_ne_sent (by simp)
    · rw [hlog, hact]
      exact fun hout => hmarked (outstanding_of_append_accepted hout)
  · have hdata : data ≠ 0 := hnonnull data (by simp [hqueue])
    refine ⟨hfifo', fun m hm => hnonnull m (by simp [hqueue, hm]), ?_, ?_⟩
    · rw [hlog]
      exact hbetween.append_sent fun hout => hmarked hout hidle
    · rw [hact]
      exact fun _ => hdata

/-- **One request in flight, first in first out, nothing lost.** In every run
whose messages are not `NULL`: what was handed over is an initial part of
what was accepted, the count is what remains, and a completion lies between
two hand-overs. -/
theorem transmit_in_order_one_at_a_time (cl : Ptr) (txdoneMethod : ℕ) (msgData : ℕ → Ptr)
    (acts : List TxAct) (s : TxState) (hacts : ∀ a ∈ acts, a.NonNull)
    (h : exec TxState.step (TxState.start cl txdoneMethod msgData) acts = some s) :
    sentMsgs s.log <+: acceptedMsgs s.log ∧
      s.chan.msgCount ≤ mboxTxQueueLen ∧
      (acceptedMsgs s.log).length = (sentMsgs s.log).length + s.chan.msgCount ∧
      TickBetweenSends s.log := by
  have hs : s.Single := exec_invariant_of_forall
    (fun _ _ _ hs ha h => TxState.single_step hs ha h)
    (TxState.single_start cl txdoneMethod msgData) hacts h
  refine ⟨?_, hs.fifo.wf.count_le, ?_, hs.between⟩
  · rw [hs.fifo.queue]
    exact List.prefix_append _ _
  · rw [hs.fifo.queue, List.length_append, length_queued]

/-- Two messages, the second one submitted by the completion of the first. -/
theorem transmit_in_order_one_at_a_time_pair :
    ∃ s, exec TxState.step (TxState.start 1 txdoneByAck fun _ => 0)
        [.sendMessage 7, .submit 0, .sendMessage 8, .submit 0, .clientTxdone, .submit 0] = some s ∧
      sentMsgs s.log <+: acceptedMsgs s.log ∧
      s.chan.msgCount ≤ mboxTxQueueLen ∧
      (acceptedMsgs s.log).length = (sentMsgs s.log).length + s.chan.msgCount ∧
      TickBetweenSends s.log :=
  ⟨_, rfl, transmit_in_order_one_at_a_time 1 txdoneByAck (fun _ => 0)
    [.sendMessage 7, .submit 0, .sendMessage 8, .submit 0, .clientTxdone, .submit 0] _
    (by simp [TxAct.NonNull]) rfl⟩

/-- A `NULL` message leaves `active_req` as if nothing were in flight, and the
next message is handed over with no completion in between. -/
theorem null_messages_overlap :
    ∃ s, exec TxState.step (TxState.start 1 txdoneByAck fun _ => 0)
        [.sendMessage 0, .submit 0, .sendMessage 0, .submit 0] = some s ∧
      ¬ TickBetweenSends s.log := by
  refine ⟨_, rfl, fun h => ?_⟩
  have hmid := h [.accepted 0] [.accepted 0] [] 0 0 rfl
  simp at hmid

end GfpDrivers.Mailbox
