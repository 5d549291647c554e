import GfpDrivers.Lib.Runs
import GfpDrivers.Mailbox.Channel
import Mathlib.Data.List.Pairwise

/-!
Who owns a channel. `mbox_request_channel` looks the channel up in the list
of controllers, resets it and makes the caller its client;
`mbox_free_channel` takes the client away again, on behalf of the owner, of a
failed `startup`, or of `mbox_controller_unregister`.

The test that a channel is free before it is given away is compiled out of
`mbox_request_channel`, so the code keeps its promise of exclusiveness only
in runs that never ask for a channel that has a client. The promise is about
tenures: a tenure begins when a request succeeds, ends when its client frees
the channel or the controller goes away, and remembers the messages accepted
and handed over in between.
-/

namespace GfpDrivers.Mailbox

open GfpDrivers.Lib

/-- `struct of_phandle_args`, as parsed from the `mboxes` property. -/
structure PhandleArgs where
  np : Ptr
  args : ℕ → ℕ

/-- What the framework reads of `struct mbox_controller`. -/
structure MboxController where
  ofNode : Ptr
  numChans : ℤ
  ofXlate : PhandleArgs → Except ℤ ℤ

/-- What the framework reads of `struct mbox_client`; `hasNode` says that
`cl->dev` and its `of_node` are there. -/
structure MboxClient where
  addr : Ptr
  hasNode : Bool
  knowsTxdone : Bool

/-- The controllers, the list `mbox_cons` of those registered, and the
channel arrays. -/
structure MboxState where
  cons : List ℕ
  ctrl : ℕ → MboxController
  chan : ℕ → ℤ → MboxChan

/-- `of_mbox_index_xlate`, the translation used by controllers that bring
none. The cell is read as an `int`. -/
def ofMboxIndexXlate (numChans : ℤ) (sp : PhandleArgs) : Except ℤ ℤ :=
  let ind := (BitVec.ofNat 32 (sp.args 0)).toInt
  if numChans ≤ ind then .error (-EINVAL) else .ok ind

/-- The loop over `mbox_cons`: the first controller of the node that
translates the specifier, else the last error. -/
def xlateLoop (ctrl : ℕ → MboxController) (spec : PhandleArgs) :
    List ℕ → Except ℤ (ℕ × ℤ) → Except ℤ (ℕ × ℤ)
  | [], chan => chan
  | mbox :: cons, chan =>
      if (ctrl mbox).ofNode = spec.np then
        match (ctrl mbox).ofXlate spec with
        | .ok ind => .ok (mbox, ind)
        | .error e => xlateLoop ctrl spec cons (.error e)
      else xlateLoop ctrl spec cons chan

/-- The channel a request comes to, before anything is changed. `parse` is
what `of_parse_phandle_with_args` finds for the given index. -/
def MboxState.resolve (s : MboxState) (cl : MboxClient) (parse : Option PhandleArgs) :
    Except ℤ (ℕ × ℤ) :=
  if cl.hasNode then
    match parse with
    | none => .error (-ENODEV)
    | some spec => xlateLoop s.ctrl spec s.cons (.error (-EPROBE_DEFER))
  else .error (-ENODEV)

def MboxState.setChan (s : MboxState) (mbox : ℕ) (idx : ℤ) (chan : MboxChan) : MboxState :=
  { s with chan := fun m i => if m = mbox ∧ i = idx then chan else s.chan m i }

/-- The locked section of `mbox_request_channel`. -/
def claimChan (chan : MboxChan) (cl : MboxClient) : MboxChan :=
  { chan with
    msgFree := 0
    msgCount := 0
    activeReq := 0
    cl := cl.addr
    txdoneMethod :=
      if chan.txdoneMethod = txdoneByPoll ∧ cl.knowsTxdone then txdoneByAck
      else chan.txdoneMethod }

/-- `mbox_free_channel`. -/
def mboxFreeChannel (chan : MboxChan) : MboxChan :=
  if chan.cl = 0 then chan
  else
    { chan with
      cl := 0
      activeReq := 0
      txdoneMethod :=
        if chan.txdoneMethod = txdoneByAck then txdoneByPoll else chan.txdoneMethod }

/-- `mbox_request_channel`; `startup` is the result of the controller's
`startup`, `none` if it has none. -/
def mboxRequestChannel (s : MboxState) (cl : MboxClient) (parse : Option PhandleArgs)
    (startup : Option ℤ) : MboxState × Except ℤ (ℕ × ℤ) :=
  match s.resolve cl parse with
  | .error e => (s, .error e)
  | .ok (mbox, idx) =>
      let chan := claimChan (s.chan mbox idx) cl
      match startup with
      | none => (s.setChan mbox idx chan, .ok (mbox, idx))
      | some ret =>
          if ret = 0 then (s.setChan mbox idx chan, .ok (mbox, idx))
          else (s.setChan mbox idx (mboxFreeChannel chan), .error ret)

/-- `mbox_send_message` with nobody in between its two locked sections: the
channel, whether the message was accepted, and what was handed over. -/
def mboxSendMessage (chan : MboxChan) (mssg : Ptr) (err : ℤ) :
    MboxChan × Bool × Option Ptr :=
  if chan.cl = 0 then (chan, false, none)
  else
    let (chan', t) := addToRbuf chan mssg
    if t < 0 then (chan', false, none)
    else
      let (chan'', handed) := msgSubmit chan' err
      (chan'', true, handed)

/-- `mbox_controller_unregister`. -/
def mboxControllerUnregister (s : MboxState) (mbox : ℕ) : MboxState :=
  { s with
    cons := s.cons.erase mbox
    chan := fun m i =>
      if m = mbox ∧ 0 ≤ i ∧ i < (s.ctrl mbox).numChans then mboxFreeChannel (s.chan m i)
      else s.chan m i }

/-! ### Tenures -/

/-- A client's time with a channel, and the messages of it. -/
structure Tenure where
  client : Ptr
  mbox : ℕ
  idx : ℤ
  accepted : List Ptr
  sent : List Ptr

def Tenure.On (t : Tenure) (mbox : ℕ) (idx : ℤ) : Prop := t.mbox = mbox ∧ t.idx = idx

def Tenure.Of (t : Tenure) (client : Ptr) (mbox : ℕ) (idx : ℤ) : Prop :=
  t.client = client ∧ t.On mbox idx

/-- Two tenures of different channels. -/
def Tenure.Apart (t u : Tenure) : Prop := ¬ u.On t.mbox t.idx

instance (t : Tenure) (mbox : ℕ) (idx : ℤ) : Decidable (t.On mbox idx) :=
  inferInstanceAs (Decidable (_ ∧ _))

instance : Std.Symm Tenure.Apart := ⟨fun _ _ h hon => h ⟨hon.1.symm, hon.2.symm⟩⟩

instance (t : Tenure) (client : Ptr) (mbox : ℕ) (idx : ℤ) : Decidable (t.Of client mbox idx) :=
  inferInstanceAs (Decidable (_ ∧ _))

structure OwnState where
  mb : MboxState
  tenures : List Tenure

inductive OwnAct
  | request (cl : MboxClient) (parse : Option PhandleArgs) (startup : Option ℤ)
  | free (client : Ptr) (mbox : ℕ) (idx : ℤ)
  | send (client : Ptr) (mbox : ℕ) (idx : ℤ) (mssg : Ptr) (err : ℤ)
  | unregister (mbox : ℕ)

/-- A client can name a channel it was given, or one that nobody has: after
its controller went away it may still hold the pointer. -/
def OwnState.Names (s : OwnState) (client : Ptr) (mbox : ℕ) (idx : ℤ) : Prop :=
  (∃ t ∈ s.tenures, t.Of client mbox idx) ∨ (s.mb.chan mbox idx).cl = 0

instance (s : OwnState) (client : Ptr) (mbox : ℕ) (idx : ℤ) :
    Decidable (s.Names client mbox idx) :=
  inferInstanceAs (Decidable (_ ∨ _))

def Tenure.record (t : Tenure) (mssg : Ptr) (took : Bool) (handed : Option Ptr) : Tenure :=
  { t with
    accepted := if took then t.accepted ++ [mssg] else t.accepted
    sent := t.sent ++ handed.toList }

def OwnState.step (s : OwnState) : OwnAct → Option OwnState
  | .request cl parse startup =>
      if cl.addr = 0 then none
      else
        let (mb, ret) := mboxRequestChannel s.mb cl parse startup
        match ret with
        | .ok (mbox, idx) =>
            some { mb, tenures := s.tenures ++ [⟨cl.addr, mbox, idx, [], []⟩] }
        | .error _ => some { s with mb := mb }
  | .free client mbox idx =>
      if s.Names client mbox idx then
        some { mb := s.mb.setChan mbox idx (mboxFreeChannel (s.mb.chan mbox idx))
               tenures := s.tenures.filter fun t => ¬ t.Of client mbox idx }
      else none
  | .send client mbox idx mssg err =>
      if s.Names client mbox idx then
        let (chan, took, handed) := mboxSendMessage (s.mb.chan mbox idx) mssg err
        some { mb := s.mb.setChan mbox idx chan
               tenures := s.tenures.map fun t =>
                 if t.Of client mbox idx then t.record mssg took handed else t }
      else none
  | .unregister mbox =>
      if mbox ∈ s.mb.cons then
        some { mb := mboxControllerUnregister s.mb mbox
               tenures := s.tenures.filter fun t =>
                 ¬ (t.mbox = mbox ∧ 0 ≤ t.idx ∧ t.idx < (s.mb.ctrl mbox).numChans) }
      else none

/-- The exclusiveness the documentation of `mbox_request_channel` promises:
no channel is in two tenures, the client of every tenure is the channel's
client, and of the messages of a tenure none has gone missing. -/
structure OwnState.Exclusive (s : OwnState) : Prop where
  alone : s.tenures.Pairwise Tenure.Apart
  owner : ∀ t ∈ s.tenures, (s.mb.chan t.mbox t.idx).cl = t.client
  kept : ∀ t ∈ s.tenures, t.accepted = t.sent ++ (s.mb.chan t.mbox t.idx).queued
  active : ∀ t ∈ s.tenures, (s.mb.chan t.mbox t.idx).activeReq = t.sent.getLastD 0

/-- The test of the source that is compiled out: a request is for a channel
without a client. -/
def OwnState.AsksForFree (s : OwnState) : OwnAct → Prop
  | .request cl parse _ =>
      ∀ mbox idx, s.mb.resolve cl parse = .ok (mbox, idx) → (s.mb.chan mbox idx).cl = 0
  | _ => True

/-! ### The operations on a channel in a tenure -/

@[simp] theorem MboxState.setChan_self (s : MboxState) (mbox : ℕ) (idx : ℤ) (chan : MboxChan) :
    (s.setChan mbox idx chan).chan mbox idx = chan := by
  simp [MboxState.setChan]

theorem MboxState.setChan_of_ne (s : MboxState) {mbox m : ℕ} {idx i : ℤ} (chan : MboxChan)
    (h : ¬ (m = mbox ∧ i = idx)) : (s.setChan mbox idx chan).chan m i = s.chan m i := by
  simp [MboxState.setChan, h]

/-- What holds of a tenure: its channel is its client's, with sound ring
indices, and holds exactly the messages that are still due. -/
structure Tenure.Holds (t : Tenure) (chan : MboxChan) : Prop where
  client : t.client ≠ 0
  owner : chan.cl = t.client
  wf : chan.Wf
  kept : t.accepted = t.sent ++ chan.queued
  active : chan.activeReq = t.sent.getLastD 0

theorem Tenure.holds_claimChan (chan : MboxChan) (cl : MboxClient) (mbox : ℕ) (idx : ℤ)
    (h : cl.addr ≠ 0) :
    Tenure.Holds ⟨cl.addr, mbox, idx, [], []⟩ (claimChan chan cl) where
  client := h
  owner := rfl
  wf := ⟨by simp [claimChan, mboxTxQueueLen], by simp [claimChan]⟩
  kept := by simp [queued_eq_nil, claimChan]
  active := rfl

theorem Tenure.Holds.send {t : Tenure} {chan : MboxChan} (h : t.Holds chan) (mssg : Ptr)
    (err : ℤ) :
    (t.record mssg (mboxSendMessage chan mssg err).2.1
      (mboxSendMessage chan mssg err).2.2).Holds (mboxSendMessage chan mssg err).1 := by
  obtain ⟨hclient, howner, hwf, hkept, hactive⟩ := h
  have hcl : chan.cl ≠ 0 := howner ▸ hclient
  by_cases hfull : chan.msgCount = mboxTxQueueLen
  · -- the ring is full: nothing is accepted and nothing changes
    simp only [mboxSendMessage, hcl, if_false, addToRbuf_full hfull, ENOBUFS]
    exact ⟨hclient, howner, hwf, by simpa [Tenure.record] using hkept,
      by simpa [Tenure.record] using hactive⟩
  · have hneg : ¬ (addToRbuf chan mssg).2 < 0 := by
      rw [addToRbuf_neg_iff]; exact hfull
    have hwf' := addToRbuf_wf hwf mssg
    have hq := queued_addToRbuf hwf hfull mssg
    have hcl' : (addToRbuf chan mssg).1.cl = chan.cl := by simp [addToRbuf, hfull]
    have hact' : (addToRbuf chan mssg).1.activeReq = chan.activeReq := by
      simp [addToRbuf, hfull]
    simp only [mboxSendMessage, hcl, if_false, hneg]
    rcases msgSubmit_cases hwf' err with hnone | ⟨chan', data, hsome, -, hact, hwf'', hcl'', -, hq'⟩
    · rw [hnone]
      refine ⟨hclient, hcl'.trans howner, hwf', ?_, ?_⟩
      · simp [Tenure.record, hkept, hq]
      · simpa [Tenure.record, hact'] using hactive
    · rw [hsome]
      refine ⟨hclient, hcl''.trans (hcl'.trans howner), hwf'', ?_, ?_⟩
      · simp only [Tenure.record, if_true, Option.toList_some, hkept]
        rw [List.append_assoc, ← hq, hq', List.append_assoc]
        rfl
      · simp [Tenure.record, hact]

/-! ### Exclusiveness along a run -/

/-- The invariant behind `OwnState.Exclusive`. -/
structure OwnState.Inv (s : OwnState) : Prop where
  alone : s.tenures.Pairwise Tenure.Apart
  holds : ∀ t ∈ s.tenures, t.Holds (s.mb.chan t.mbox t.idx)

theorem OwnState.Inv.exclusive {s : OwnState} (h : s.Inv) : s.Exclusive :=
  ⟨h.alone, fun t ht => (h.holds t ht).owner, fun t ht => (h.holds t ht).kept,
    fun t ht => (h.holds t ht).active⟩

theorem OwnState.Inv.not_on {s : OwnState} (h : s.Inv) {mbox : ℕ} {idx : ℤ}
    (hfree : (s.mb.chan mbox idx).cl = 0) : ∀ t ∈ s.tenures, ¬ t.On mbox idx := by
  rintro t ht ⟨rfl, rfl⟩
  exact (h.holds t ht).client ((h.holds t ht).owner.symm.trans hfree)

theorem OwnState.Inv.eq_of_on {s : OwnState} (h : s.Inv) {t u : Tenure}
    (ht : t ∈ s.tenures) (hu : u ∈ s.tenures) (hon : u.On t.mbox t.idx) : t = u := by
  by_contra hne
  exact h.alone.forall ht hu hne hon

/-- Changing the channel of one tenure, or of none, leaves the others with
what they had. -/
theorem OwnState.Inv.holds_setChan {s : OwnState} (h : s.Inv) {mbox : ℕ} {idx : ℤ}
    (chan : MboxChan) {t : Tenure} (ht : t ∈ s.tenures) (hoff : ¬ t.On mbox idx) :
    t.Holds ((s.mb.setChan mbox idx chan).chan t.mbox t.idx) := by
  rw [s.mb.setChan_of_ne chan hoff]
  exact h.holds t ht

theorem OwnState.inv_request {s t : OwnState} {cl : MboxClient} {parse : Option PhandleArgs}
    {startup : Option ℤ} (hs : s.Inv) (hfree : s.AsksForFree (.request cl parse startup))
    (h : s.step (.request cl parse startup) = some t) : t.Inv := by
  simp only [OwnState.step, Option.ite_none_left_eq_some] at h
  obtain ⟨hcl, h⟩ := h
  cases hres : s.mb.resolve cl parse with
  | error e =>
    simp only [mboxRequestChannel, hres, Option.some.injEq] at h
    subst h
    exact ⟨hs.alone, hs.holds⟩
  | ok where_ =>
    obtain ⟨mbox, idx⟩ := where_
    have hoff := hs.not_on (hfree mbox idx hres)
    -- granted: the new tenure is alone on its channel and starts with empty books
    have hgrant : OwnState.Inv ⟨s.mb.setChan mbox idx (claimChan (s.mb.chan mbox idx) cl),
        s.tenures ++ [⟨cl.addr, mbox, idx, [], []⟩]⟩ := by
      constructor
      · rw [List.pairwise_append]
        refine ⟨hs.alone, List.pairwise_singleton _ _, ?_⟩
        intro u hu v hv
        rw [List.mem_singleton] at hv
        subst hv
        exact fun hon => hoff u hu ⟨hon.1.symm, hon.2.symm⟩
      · intro u hu
        rw [List.mem_append, List.mem_singleton] at hu
        rcases hu with hu | rfl
        · exact hs.holds_setChan _ hu (hoff u hu)
        · rw [MboxState.setChan_self]
          exact Tenure.holds_claimChan _ cl mbox idx hcl
    simp only [mboxRequestChannel, hres] at h
    cases startup with
    | none =>
      simp only [Option.some.injEq] at h
      exact h ▸ hgrant
    | some ret =>
      by_cases hret : ret = 0
      · simp only [hret, if_true, Option.some.injEq] at h
        exact h ▸ hgrant
      · simp only [hret, if_false, Option.some.injEq] at h
        subst h
        exact ⟨hs.alone, fun u hu => hs.holds_setChan _ hu (hoff u hu)⟩

theorem OwnState.Inv.of_names {s : OwnState} (hs : s.Inv) {client : Ptr} {mbox : ℕ} {idx : ℤ}
    (hn : s.Names client mbox idx) {t : Tenure} (ht : t ∈ s.tenures) (hon : t.On mbox idx) :
    t.Of client mbox idx := by
  rcases hn with ⟨u, hu, hof⟩ | hfree
  · have hut : u = t := hs.eq_of_on hu ht ⟨hon.1.trans hof.2.1.symm, hon.2.trans hof.2.2.symm⟩
    exact hut ▸ hof
  · exact absurd hon (hs.not_on hfree t ht)

theorem OwnState.inv_free {s t : OwnState} {client : Ptr} {mbox : ℕ} {idx : ℤ} (hs : s.Inv)
    (h : s.step (.free client mbox idx) = some t) : t.Inv := by
  simp only [OwnState.step, Option.ite_none_right_eq_some, Option.some.injEq] at h
  obtain ⟨hn, rfl⟩ := h
  refine ⟨hs.alone.filter _, fun u hu => ?_⟩
  simp only [List.mem_filter, decide_not, Bool.not_eq_eq_eq_not, Bool.not_true,
    decide_eq_false_iff_not] at hu
  exact hs.holds_setChan _ hu.1 fun hon => hu.2 (hs.of_names hn hu.1 hon)

theorem OwnState.inv_send {s t : OwnState} {client : Ptr} {mbox : ℕ} {idx : ℤ} {mssg : Ptr}
    {err : ℤ} (hs : s.Inv) (h : s.step (.send client mbox idx mssg err) = some t) : t.Inv := by
  simp only [OwnState.step, Option.ite_none_right_eq_some, Option.some.injEq] at h
  obtain ⟨hn, rfl⟩ := h
  constructor
  · rw [List.pairwise_map]
    refine hs.alone.imp ?_
    intro a b hab
    unfold Tenure.Apart Tenure.On at *
    split <;> split <;> exact hab
  · intro u hu
    obtain ⟨v, hv, rfl⟩ := List.mem_map.mp hu
    by_cases hof : v.Of client mbox idx
    · simp only [hof, if_true]
      obtain ⟨-, rfl, rfl⟩ := hof
      simp only [Tenure.record, MboxState.setChan_self]
      exact (hs.holds v hv).send mssg err
    · simp only [hof, if_false]
      exact hs.holds_setChan _ hv fun hon => hof (hs.of_names hn hv hon)

theorem OwnState.inv_unregister {s t : OwnState} {mbox : ℕ} (hs : s.Inv)
    (h : s.step (.unregister mbox) = some t) : t.Inv := by
  simp only [OwnState.step, Option.ite_none_right_eq_some, Option.some.injEq] at h
  obtain ⟨-, rfl⟩ := h
  refine ⟨hs.alone.filter _, fun u hu => ?_⟩
  simp only [List.mem_filter, decide_not, Bool.not_eq_eq_eq_not, Bool.not_true,
    decide_eq_false_iff_not] at hu
  simp only [mboxControllerUnregister, hu.2, if_false]
  exact hs.holds u hu.1

theorem OwnState.inv_step {s t : OwnState} {a : OwnAct} (hs : s.Inv) (ha : s.AsksForFree a)
    (h : s.step a = some t) : t.Inv := by
  cases a with
  | request cl parse startup => exact OwnState.inv_request hs ha h
  | free client mbox idx => exact OwnState.inv_free hs h
  | send client mbox idx mssg err => exact OwnState.inv_send hs h
  | unregister mbox => exact OwnState.inv_unregister hs h

/-- **Channels are exclusively owned**, in every run whose requests are for
channels that have no client. -/
theorem channels_exclusively_owned (mb : MboxState) (acts : List OwnAct) (s : OwnState)
    (hfree : Along OwnState.step OwnState.AsksForFree ⟨mb, []⟩ acts)
    (h : exec OwnState.step ⟨mb, []⟩ acts = some s) : s.Exclusive := by
  have hinit : OwnState.Inv ⟨mb, []⟩ := ⟨List.Pairwise.nil, by simp⟩
  exact (exec_invariant_along (fun _ _ _ hs ha h => OwnState.inv_step hs ha h) hinit hfree h).exclusive

/-- One registered controller with a single idle channel. -/
def oneChannel : MboxState where
  cons := [0]
  ctrl := fun _ => ⟨1, 1, ofMboxIndexXlate 1⟩
  chan := fun _ _ => ⟨txdoneByPoll, 0, 0, 0, 0, fun _ => 0⟩

def clientA : MboxClient := ⟨10, true, true⟩
def clientB : MboxClient := ⟨11, true, true⟩

/-- The specifier of channel 0 of that controller. -/
def specZero : PhandleArgs := ⟨1, fun _ => 0⟩

/-- The channel passes from one client to another after it was freed. -/
theorem channels_exclusively_owned_handover :
    ∃ s, exec OwnState.step ⟨oneChannel, []⟩
        [.request clientA (some specZero) none, .send 10 0 0 7 0, .free 10 0 0,
          .request clientB (some specZero) (some 0)] = some s ∧ s.Exclusive := by
  refine ⟨_, rfl, channels_exclusively_owned oneChannel
    [.request clientA (some specZero) none, .send 10 0 0 7 0, .free 10 0 0,
      .request clientB (some specZero) (some 0)] _ ?_ rfl⟩
  have hzero : ∀ mbox idx, Except.ok (0, 0) = (Except.ok (mbox, idx) : Except ℤ (ℕ × ℤ)) →
      mbox = 0 ∧ idx = 0 := by
    intro mbox idx h
    cases h
    exact ⟨rfl, rfl⟩
  refine Along.cons ?_ rfl (Along.cons trivial rfl (Along.cons trivial rfl
    (Along.cons ?_ rfl trivial)))
  · intro mbox idx h
    obtain ⟨rfl, rfl⟩ := hzero mbox idx h
    rfl
  · intro mbox idx h
    obtain ⟨rfl, rfl⟩ := hzero mbox idx h
    rfl

/-- A second client is given the same channel, and the message the first one
had queued is gone. -/
theorem second_request_takes_channel :
    ∃ s, exec OwnState.step ⟨oneChannel, []⟩
        [.request clientA (some specZero) none, .send 10 0 0 7 (-EBUSY),
          .request clientB (some specZero) none] = some s ∧ ¬ s.Exclusive := by
  refine ⟨_, rfl, fun h => ?_⟩
  have hkept := h.kept ⟨10, 0, 0, [7], []⟩ (List.mem_cons_self ..)
  have hlost : ([7] : List Ptr) = [] := hkept
  simp at hlost

end GfpDrivers.Mailbox
