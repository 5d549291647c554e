import GfpDrivers.Spi.Queue

/-!
What the queue does to the messages over whole runs. Each call of the pump takes
the first message and finalizes it, unless the power management fails; so the
messages that were finalized are those that were started, in the order in which
they were queued.
-/

namespace GfpDrivers.Spi

open GfpDrivers.Lib Function

variable {μ ν ι : Type} [DecidableEq μ] [DecidableEq ν] [DecidableEq ι] {ctlr : SpiController} {dev : ι → SpiDevice}
  {env : Outcomes} {s t : SpiState μ ν ι} {spi : ι} {m : μ} {one : ℕ → ℤ × Bool} {slave : Bool} {p : Progress ι}

/-! ### The status of a message -/

omit [DecidableEq ι] in
theorem transferOrFallback_ret (hone : ∀ n, (one n).1 ≠ -EINPROGRESS) :
    (transferOrFallback one spi p).2 ≠ -EINPROGRESS := by
  unfold transferOrFallback transferOne
  dsimp only
  split
  · exact hone _
  · exact hone _

theorem spiTransferWait_ret (slave : Bool) (xfer : SpiTransfer SpiSettings) :
    spiTransferWait slave xfer ≠ -EINPROGRESS := by
  unfold spiTransferWait
  split
  · decide
  · dsimp only
    generalize (if xfer.settings.speedHz = 0 then 100000 else xfer.settings.speedHz) = speedHz
    split
    · decide
    · decide

omit [DecidableEq ι] in
theorem transferXfer_ret (hone : ∀ n, (one n).1 ≠ -EINPROGRESS) (xfer : SpiTransfer SpiSettings) {ret : ℤ}
    (hret : ret ≠ -EINPROGRESS) : (transferXfer one slave spi xfer p ret).2 ≠ -EINPROGRESS := by
  have hcalled : (transferOrFallback one spi p).2 ≠ -EINPROGRESS := transferOrFallback_ret hone
  unfold transferXfer
  split
  · generalize transferOrFallback one spi p = q at hcalled ⊢
    obtain ⟨p₁, ret₁⟩ := q
    dsimp only at hcalled ⊢
    split
    · exact spiTransferWait_ret slave xfer
    · exact hcalled
  · exact hret

theorem transferXfers_ret (hone : ∀ n, (one n).1 ≠ -EINPROGRESS) (transfers : List (SpiTransfer SpiSettings)) {ret : ℤ}
    (hret : ret ≠ -EINPROGRESS) : (transferXfers dev one slave spi transfers p ret).2.1 ≠ -EINPROGRESS := by
  induction transfers generalizing p ret with
  | nil => exact hret
  | cons xfer rest ih =>
    have hround : (transferXfer one slave spi xfer p ret).2 ≠ -EINPROGRESS := transferXfer_ret hone xfer hret
    unfold transferXfers
    generalize transferXfer one slave spi xfer p ret = q at hround ⊢
    obtain ⟨p₁, ret₁⟩ := q
    dsimp only at hround ⊢
    split
    · exact hround
    · split
      · split
        · exact hround
        · exact ih hround
      · exact ih hround

/-- A message that was transferred has a status of its own, if no callback makes
one up. -/
theorem spiTransferOneMessage_status (hone : ∀ n, (one n).1 ≠ -EINPROGRESS) (transfers : List (SpiTransfer SpiSettings)) :
    (spiTransferOneMessage dev one slave spi transfers p).1.status ≠ -EINPROGRESS := by
  have hret : (transferXfers dev one slave spi transfers { p with cs := spiSetCs dev p.cs spi true false } 0).2.1 ≠
      -EINPROGRESS := transferXfers_ret hone transfers (by decide)
  unfold spiTransferOneMessage
  generalize transferXfers dev one slave spi transfers _ 0 = q at hret ⊢
  obtain ⟨p₁, ret, keepCs⟩ := q
  dsimp only at hret ⊢
  generalize (if ret ≠ 0 ∨ keepCs = false then _ else p₁ : Progress ι) = p₂
  split
  case isTrue => exact hret
  case isFalse hstatus => exact hstatus

/-! ### The pump -/

/-- The message `m` is finalized and given back; the other messages and the queue
stay as they are. -/
structure Finalizes (s t : SpiState μ ν ι) (m : μ) : Prop where
  curMsg : t.curMsg = none
  finalized : t.finalized = s.finalized ++ [m]
  body : (t.msg m).body = spiResRelease (spiUnmapMsg (s.msg m).body)
  others (m' : μ) : m' ≠ m → t.msg m' = s.msg m'
  queue : t.queue = s.queue
  idling : t.idling = s.idling
  queued : t.queued = s.queued
  started : t.started = s.started
  returned : t.returned = s.returned

omit [DecidableEq ι] in
theorem spiFinalizeCurrentMessage_finalizes (s : SpiState μ ν ι) (m : μ) (status : ℤ) :
    Finalizes s (spiFinalizeCurrentMessage ctlr s m status) m where
  curMsg := rfl
  finalized := rfl
  body := by simp [spiFinalizeCurrentMessage]
  others m' hm' := update_of_ne hm' _ _
  queue := rfl
  idling := rfl
  queued := rfl
  started := rfl
  returned := rfl

omit [DecidableEq ι] in
theorem spiFinalizeCurrentMessage_status (s : SpiState μ ν ι) (m : μ) (status : ℤ) :
    ((spiFinalizeCurrentMessage ctlr s m status).msg m).status = status := by
  simp [spiFinalizeCurrentMessage]

theorem transferMessage_finalizes (ctlr : SpiController) (dev : ι → SpiDevice) (env : Outcomes) (s : SpiState μ ν ι)
    (m : μ) : Finalizes s (transferMessage ctlr dev env s m) m := by
  unfold transferMessage
  dsimp only
  split
  · exact spiFinalizeCurrentMessage_finalizes s m _
  · split
    · refine ⟨rfl, rfl, ?_, fun m' hm' => update_of_ne hm' _ _, rfl, rfl, rfl, rfl, rfl⟩
      simp [spiFinalizeCurrentMessage]
    · refine ⟨rfl, rfl, ?_, fun m' hm' => ?_, rfl, rfl, rfl, rfl, rfl⟩
      · simp [spiFinalizeCurrentMessage, SpiState.setMsg]
      · simp [spiFinalizeCurrentMessage, SpiState.setMsg, update_of_ne hm']

/-- No call out of the core returns `-EINPROGRESS`, which is the status of a
message that waits. -/
structure NeverInProgress (env : Outcomes) : Prop where
  prepareTransferHardware : env.prepareTransferHardware ≠ -EINPROGRESS
  prepareMessage : env.prepareMessage ≠ -EINPROGRESS
  mapMsg : env.mapMsg ≠ -EINPROGRESS
  transferOne (n : ℕ) : (env.transferOne n).1 ≠ -EINPROGRESS

theorem spiMapMsg_ret (h : NeverInProgress env) (d : SpiDevice) (xfers : List (SpiTransfer SpiSettings)) (mapped : Bool) :
    (spiMapMsg ctlr d env.mapMsg xfers mapped).1 ≠ -EINPROGRESS := by
  unfold spiMapMsg
  split
  · exact (by decide : -ENOMEM ≠ -EINPROGRESS)
  · split
    · exact h.mapMsg
    · exact (by decide : (0 : ℤ) ≠ -EINPROGRESS)

theorem transferMessage_status (h : NeverInProgress env) (s : SpiState μ ν ι) (m : μ) :
    ((transferMessage ctlr dev env s m).msg m).status ≠ -EINPROGRESS := by
  unfold transferMessage
  dsimp only
  split
  · rw [spiFinalizeCurrentMessage_status]
    exact h.prepareMessage
  · split
    · rw [spiFinalizeCurrentMessage_status]
      exact spiMapMsg_ret h _ _ _
    · rw [spiFinalizeCurrentMessage_status]
      exact spiTransferOneMessage_status h.transferOne _

/-- The power management gives way if it is asked. -/
def PmReady (ctlr : SpiController) (env : Outcomes) (s : SpiState μ ν ι) : Prop :=
  s.busy = false → ctlr.autoRuntimePm = true → 0 ≤ env.pmRuntimeGetSync

/-- The state in which the first message has been taken from the queue. -/
def SpiState.take (s : SpiState μ ν ι) (m : μ) (queue : List μ) : SpiState μ ν ι :=
  { s with curMsg := some m, queue := queue, busy := true, started := s.started ++ [m] }

theorem spiPumpMessages_cons (dev : ι → SpiDevice) (hcur : s.curMsg = none) (hidle : s.idling = false) (hrun : s.running = true)
    {queue : List μ} (hqueue : s.queue = m :: queue) (hpm : PmReady ctlr env s) :
    Finalizes (s.take m queue) (spiPumpMessages ctlr dev env s) m ∧
      (NeverInProgress env → ((spiPumpMessages ctlr dev env s).msg m).status ≠ -EINPROGRESS) := by
  have hfree : ¬ (s.curMsg.isSome = true ∨ s.idling = true) := by simp [hcur, hidle]
  have hpump : spiPumpMessages ctlr dev env s = pumpMessage ctlr dev env (s.take m queue) m s.busy := by
    rw [spiPumpMessages, if_neg hfree]
    split
    case h_1 m' queue' _ hqueue' =>
      obtain ⟨rfl, rfl⟩ := List.cons.inj (hqueue.symm.trans hqueue')
      rfl
    case h_2 hnone => exact absurd hqueue (hnone m queue hrun)
  have hpower : ¬ (s.busy = false ∧ ctlr.autoRuntimePm = true ∧ env.pmRuntimeGetSync < 0) := by
    rintro ⟨hbusy, hauto, hlt⟩
    have := hpm hbusy hauto
    omega
  rw [hpump, pumpMessage, if_neg hpower]
  split
  · refine ⟨spiFinalizeCurrentMessage_finalizes _ m _, fun h => ?_⟩
    exact ne_of_eq_of_ne (spiFinalizeCurrentMessage_status _ m _) h.prepareTransferHardware
  · exact ⟨transferMessage_finalizes ctlr dev env _ m, fun h => transferMessage_status h _ m⟩

/-- A call of the pump that finds no message changes nothing but `busy`. -/
theorem spiPumpMessages_idle (ctlr : SpiController) (dev : ι → SpiDevice) (env : Outcomes) (hqueue : s.running = false ∨ s.queue = []) :
    ∃ busy, spiPumpMessages ctlr dev env s = { s with busy := busy } := by
  unfold spiPumpMessages
  split
  · exact ⟨s.busy, rfl⟩
  · split
    case h_1 m queue hrun hcons =>
      rw [hrun, hcons] at hqueue
      exact absurd hqueue (by simp)
    case h_2 =>
      split
      · exact ⟨false, rfl⟩
      · exact ⟨s.busy, rfl⟩

/-! ### Runs -/

/-- No message is under way. Those that were finalized are those that were
started, in the order in which they were queued, and the calls that returned are
for messages among them. -/
structure Quiet (s : SpiState μ ν ι) : Prop where
  curMsg : s.curMsg = none
  idling : s.idling = false
  order : s.queued = s.started ++ s.queue
  done : s.finalized = s.started
  nodup : s.queued.Nodup
  returned (m : μ) : m ∈ s.returned → m ∈ s.finalized ∧ (s.msg m).status ≠ -EINPROGRESS

omit [DecidableEq ν] [DecidableEq ι] in
theorem Quiet.setMsg (h : Quiet s) (hm : m ∉ s.queued) (v : QueuedMessage ν ι) : Quiet (s.setMsg m v) where
  curMsg := h.curMsg
  idling := h.idling
  order := h.order
  done := h.done
  nodup := h.nodup
  returned m' hm' := by
    obtain ⟨hdone, hstatus⟩ := h.returned m' hm'
    refine ⟨hdone, ?_⟩
    have hne : m' ≠ m := by
      rintro rfl
      exact hm (by rw [h.order, ← h.done]; exact List.mem_append_left _ hdone)
    exact (congrArg QueuedMessage.status (update_of_ne hne v s.msg)).trans_ne hstatus

omit [DecidableEq μ] [DecidableEq ι] in
theorem Quiet.finalize (h : Quiet s) {queue : List μ} (hqueue : s.queue = m :: queue) (ht : Finalizes (s.take m queue) t m) :
    Quiet t where
  curMsg := ht.curMsg
  idling := ht.idling.trans h.idling
  order := by
    rw [ht.queued, ht.started, ht.queue]
    change s.queued = (s.started ++ [m]) ++ queue
    rw [h.order, hqueue, List.append_assoc, List.singleton_append]
  done := by
    rw [ht.finalized, ht.started]
    exact congrArg (· ++ [m]) h.done
  nodup := by
    rw [ht.queued]
    exact h.nodup
  returned m' hm' := by
    rw [ht.returned] at hm'
    obtain ⟨hdone, hstatus⟩ := h.returned m' hm'
    rw [ht.finalized]
    refine ⟨List.mem_append_left _ hdone, ?_⟩
    have hnodup := h.nodup
    rw [h.order, hqueue, List.nodup_append] at hnodup
    have hne : m' ≠ m := fun heq => hnodup.2.2 m' (h.done ▸ hdone) m (by simp) heq
    rw [ht.others m' hne]
    exact hstatus

theorem Quiet.spiPumpMessages (h : Quiet s) (hpm : s.queue ≠ [] → PmReady ctlr env s) :
    Quiet (spiPumpMessages ctlr dev env s) := by
  by_cases hfound : s.running = false ∨ s.queue = []
  · obtain ⟨busy, hbusy⟩ := spiPumpMessages_idle ctlr dev env hfound
    rw [hbusy]
    exact ⟨h.curMsg, h.idling, h.order, h.done, h.nodup, h.returned⟩
  · rw [not_or, Bool.not_eq_false] at hfound
    obtain ⟨m, queue, hqueue⟩ := List.exists_cons_of_ne_nil hfound.2
    have htaken := spiPumpMessages_cons dev h.curMsg h.idling hfound.1 hqueue (hpm hfound.2)
    exact h.finalize hqueue htaken.1

/-- The state in which a message has been put at the end of the queue. -/
def SpiState.enqueue (s : SpiState μ ν ι) (m : μ) : SpiState μ ν ι :=
  { s with queue := s.queue ++ [m], queued := s.queued ++ [m] }

omit [DecidableEq ν] [DecidableEq ι] in
theorem spiQueuedTransfer_cases (s : SpiState μ ν ι) (spi : ι) (m : μ) :
    ∃ v, v.body = (s.msg m).body ∧
      ((s.running = false ∧ spiQueuedTransfer s spi m = (s.setMsg m v, -ESHUTDOWN)) ∨
        (s.running = true ∧ spiQueuedTransfer s spi m = ((s.setMsg m v).enqueue m, 0))) := by
  cases hrun : s.running with
  | false =>
    refine ⟨{ s.msg m with spi := spi }, rfl, .inl ⟨rfl, ?_⟩⟩
    simp [spiQueuedTransfer, SpiState.setMsg, hrun]
  | true =>
    refine ⟨{ s.msg m with spi := spi, actualLength := 0, status := -EINPROGRESS }, rfl, .inr ⟨rfl, ?_⟩⟩
    simp [spiQueuedTransfer, SpiState.setMsg, SpiState.enqueue, hrun]

omit [DecidableEq μ] [DecidableEq ν] [DecidableEq ι] in
/-- A message that was never queued is put at the end. -/
theorem Quiet.enqueue (h : Quiet s) (hm : m ∉ s.queued) : Quiet (s.enqueue m) where
  curMsg := h.curMsg
  idling := h.idling
  order := by
    change s.queued ++ [m] = s.started ++ (s.queue ++ [m])
    rw [h.order, List.append_assoc]
  done := h.done
  nodup := by
    change (s.queued ++ [m]).Nodup
    rw [← List.concat_eq_append]
    exact h.nodup.concat hm
  returned := h.returned

omit [DecidableEq ι] in
theorem validateMessage_some {r : SpiState μ ν ι × ℤ} (h : validateMessage ctlr dev env s spi m = some r) :
    ∃ v, r.1 = s.setMsg m v := by
  unfold validateMessage at h
  split at h
  · exact absurd h (by simp)
  · exact ⟨_, (congrArg Prod.fst (Option.some.inj h)).symm⟩

omit [DecidableEq ι] in
/-- **`spi_async`** queues a message. -/
theorem Quiet.spiAsync {r : SpiState μ ν ι × ℤ} (h : Quiet s) (hm : m ∉ s.queued)
    (hr : spiAsync ctlr dev env s spi m = some r) : Quiet r.1 := by
  unfold Spi.spiAsync at hr
  split at hr
  case h_1 => exact absurd hr (by simp)
  case h_2 s₁ ret hvalid =>
    obtain ⟨v, rfl⟩ : ∃ v, s₁ = s.setMsg m v := validateMessage_some hvalid
    have h₁ : Quiet (s.setMsg m v) := h.setMsg hm v
    rw [← Option.some.inj hr]
    split
    · exact h₁
    · split
      · exact h₁
      · obtain ⟨v', -, hv' | hv'⟩ := spiQueuedTransfer_cases (s.setMsg m v) spi m
        · rw [hv'.2]
          exact h₁.setMsg hm v'
        · rw [hv'.2]
          exact (h₁.setMsg hm v').enqueue hm

/-- **`spi_sync`** with an empty queue returns a message that is finalized. -/
theorem Quiet.spiSync {r : SpiState μ ν ι × ℤ} (h : Quiet s) (hm : m ∉ s.queued) (hqueue : s.queue = [])
    (hpm : PmReady ctlr env s) (henv : NeverInProgress env) (hr : spiSync ctlr dev env s spi m = some r) :
    Quiet r.1 := by
  unfold Spi.spiSync at hr
  split at hr
  case h_1 => exact absurd hr (by simp)
  case h_2 s₁ ret hvalid =>
    obtain ⟨v, rfl⟩ : ∃ v, s₁ = s.setMsg m v := validateMessage_some hvalid
    have h₁ : Quiet (s.setMsg m v) := h.setMsg hm v
    rw [← Option.some.inj hr]
    split
    · exact h₁
    · obtain ⟨v', -, hv' | ⟨hrun, hv'⟩⟩ := spiQueuedTransfer_cases (s.setMsg m v) spi m
      · rw [hv'.2]
        exact h₁.setMsg hm v'
      · rw [hv']
        have h₂ := (h₁.setMsg hm v').enqueue hm
        have hfirst : (((s.setMsg m v).setMsg m v').enqueue m).queue = [m] := by
          change s.queue ++ [m] = [m]
          rw [hqueue, List.nil_append]
        obtain ⟨hdone, hstatus⟩ := spiPumpMessages_cons dev h₂.curMsg h₂.idling hrun hfirst hpm
        have h₃ := h₂.finalize hfirst hdone
        refine ⟨h₃.curMsg, h₃.idling, h₃.order, h₃.done, h₃.nodup, fun m' hm' => ?_⟩
        rcases List.mem_append.mp hm' with hm' | hm'
        · exact h₃.returned m' hm'
        · rw [List.mem_singleton.mp hm']
          refine ⟨?_, hstatus henv⟩
          change m ∈ (Spi.spiPumpMessages ctlr dev env (((s.setMsg m v).setMsg m v').enqueue m)).finalized
          rw [hdone.finalized]
          exact List.mem_append_right _ (List.mem_singleton_self m)

/-- The call is made in a state in which it can keep its promise: `spi_sync` finds
the queue empty, and the power management does not fail a call that takes a
message. -/
def Orderly (ctlr : SpiController) (s : SpiState μ ν ι) : SpiCall μ ι → Prop
  | .async _ _ _ => True
  | .sync env _ _ => s.queue = [] ∧ PmReady ctlr env s ∧ NeverInProgress env
  | .flush env => s.queue ≠ [] → PmReady ctlr env s

/-- The message of the call was not queued before. -/
def NewMessage (s : SpiState μ ν ι) (call : SpiCall μ ι) : Prop := ∀ m, call.message = some m → m ∉ s.queued

theorem Quiet.spiStep {call : SpiCall μ ι} (h : Quiet s) (hG : Orderly ctlr s call ∧ NewMessage s call)
    (ht : spiStep ctlr dev s call = some t) : Quiet t := by
  obtain ⟨horderly, hnew⟩ := hG
  cases call with
  | async env spi m =>
    obtain ⟨r, hr, rfl⟩ := Option.map_eq_some_iff.mp ht
    exact h.spiAsync (hnew m rfl) hr
  | sync env spi m =>
    obtain ⟨r, hr, rfl⟩ := Option.map_eq_some_iff.mp ht
    exact h.spiSync (hnew m rfl) horderly.1 horderly.2.1 horderly.2.2 hr
  | flush env =>
    rw [← Option.some.inj ht]
    exact h.spiPumpMessages horderly

/-- A call of the pump finalizes the first message or none. -/
theorem spiPumpMessages_cases (ctlr : SpiController) (dev : ι → SpiDevice) (env : Outcomes) (s : SpiState μ ν ι) :
    ((spiPumpMessages ctlr dev env s).finalized = s.finalized ∧ (spiPumpMessages ctlr dev env s).queued = s.queued) ∨
      ∃ m queue, s.queue = m :: queue ∧ Finalizes (s.take m queue) (spiPumpMessages ctlr dev env s) m := by
  unfold spiPumpMessages
  split
  · exact .inl ⟨rfl, rfl⟩
  · split
    case h_1 m queue _ hqueue =>
      unfold pumpMessage
      split
      · exact .inl ⟨rfl, rfl⟩
      · refine .inr ⟨m, queue, hqueue, ?_⟩
        split
        · exact spiFinalizeCurrentMessage_finalizes _ m _
        · exact transferMessage_finalizes ctlr dev env _ m
    case h_2 =>
      left
      split <;> exact ⟨rfl, rfl⟩

theorem spiPumpMessages_queued (s : SpiState μ ν ι) : (spiPumpMessages ctlr dev env s).queued = s.queued := by
  obtain hnone | ⟨m, queue, -, hdone⟩ := spiPumpMessages_cases ctlr dev env s
  · exact hnone.2
  · exact hdone.queued

omit [DecidableEq ν] [DecidableEq ι] in
theorem spiQueuedTransfer_queued (s : SpiState μ ν ι) (spi : ι) {m m' : μ}
    (h : m' ∈ (spiQueuedTransfer s spi m).1.queued) : m' ∈ s.queued ∨ m = m' := by
  obtain ⟨v, -, hv | hv⟩ := spiQueuedTransfer_cases s spi m
  · rw [hv.2] at h
    exact .inl h
  · rw [hv.2] at h
    rcases List.mem_append.mp h with h | h
    · exact .inl h
    · exact .inr (List.mem_singleton.mp h).symm

theorem spiStep_queued {call : SpiCall μ ι} (ht : spiStep ctlr dev s call = some t) {m : μ} (hm : m ∈ t.queued) :
    m ∈ s.queued ∨ call.message = some m := by
  cases call with
  | async env spi m' =>
    obtain ⟨r, hr, rfl⟩ := Option.map_eq_some_iff.mp ht
    unfold spiAsync at hr
    split at hr
    case h_1 => exact absurd hr (by simp)
    case h_2 s₁ ret hvalid =>
      obtain ⟨v, rfl⟩ : ∃ v, s₁ = s.setMsg m' v := validateMessage_some hvalid
      rw [← Option.some.inj hr] at hm
      split at hm
      · exact .inl hm
      · split at hm
        · exact .inl hm
        · exact (spiQueuedTransfer_queued _ spi hm).imp_right (congrArg some)
  | sync env spi m' =>
    obtain ⟨r, hr, rfl⟩ := Option.map_eq_some_iff.mp ht
    unfold spiSync at hr
    split at hr
    case h_1 => exact absurd hr (by simp)
    case h_2 s₁ ret hvalid =>
      obtain ⟨v, rfl⟩ : ∃ v, s₁ = s.setMsg m' v := validateMessage_some hvalid
      rw [← Option.some.inj hr] at hm
      split at hm
      · exact .inl hm
      · have hqueued : m ∈ (spiQueuedTransfer (s.setMsg m' v) spi m').1.queued → m ∈ s.queued ∨ m' = m :=
          spiQueuedTransfer_queued (s.setMsg m' v) spi
        generalize spiQueuedTransfer (s.setMsg m' v) spi m' = q at hqueued hm
        obtain ⟨s₂, ret₂⟩ := q
        dsimp only at hqueued hm
        split at hm
        · exact (hqueued hm).imp_right (congrArg some)
        · rw [spiPumpMessages_queued] at hm
          exact (hqueued hm).imp_right (congrArg some)
  | flush env =>
    rw [← Option.some.inj ht, spiFlushQueue, spiPumpMessages_queued] at hm
    exact .inl hm

/-- In a run of calls for distinct messages each of them is new. -/
theorem along_newMessage {calls : List (SpiCall μ ι)} (hdistinct : (calls.filterMap SpiCall.message).Nodup)
    (hs : ∀ m ∈ s.queued, m ∉ calls.filterMap SpiCall.message) (hG : Along (spiStep ctlr dev) (Orderly ctlr) s calls) :
    Along (spiStep ctlr dev) (fun s call => Orderly ctlr s call ∧ NewMessage s call) s calls := by
  induction calls generalizing s with
  | nil => trivial
  | cons call calls ih =>
    rw [List.filterMap_cons] at hdistinct hs
    refine ⟨⟨hG.1, fun m hm hmem => ?_⟩, fun t ht => ih ?_ (fun m hm hmem => ?_) (hG.2 t ht)⟩
    · rw [hm] at hs
      exact hs m hmem (List.mem_cons_self ..)
    · cases hcall : call.message with
      | none => simpa only [hcall] using hdistinct
      | some m' =>
        rw [hcall] at hdistinct
        exact (List.nodup_cons.mp hdistinct).2
    · rcases spiStep_queued ht hm with hm | hm
      · refine hs m hm ?_
        cases hcall : call.message with
        | none => exact hmem
        | some m' => exact List.mem_cons_of_mem _ hmem
      · rw [hm] at hdistinct
        exact (List.nodup_cons.mp hdistinct).1 hmem

/-- A controller whose queue has not been used. -/
structure Unused (s : SpiState μ ν ι) : Prop where
  queue : s.queue = []
  curMsg : s.curMsg = none
  idling : s.idling = false
  queued : s.queued = []
  started : s.started = []
  finalized : s.finalized = []
  returned : s.returned = []

/-- **`spi_sync` returns finished messages**, in runs where it finds the queue empty
and the power management does not fail. Messages are started in the order in which
they were queued, each is finalized at most once, and none stays the current one. -/
theorem sync_returns_finished (hs : Unused s) {calls : List (SpiCall μ ι)}
    (hdistinct : (calls.filterMap SpiCall.message).Nodup) (hG : Along (spiStep ctlr dev) (Orderly ctlr) s calls)
    (h : exec (spiStep ctlr dev) s calls = some t) :
    t.started <+: t.queued ∧ t.finalized.Nodup ∧
    (∀ m ∈ t.returned, m ∈ t.finalized ∧ m ∉ t.queue ∧ t.curMsg ≠ some m ∧ (t.msg m).status ≠ -EINPROGRESS) ∧
    t.curMsg = none := by
  have hinit : Quiet s := by
    refine ⟨hs.curMsg, hs.idling, ?_, hs.finalized.trans hs.started.symm, ?_, fun m hm => ?_⟩
    · rw [hs.queued, hs.started, hs.queue]
      rfl
    · rw [hs.queued]
      exact List.nodup_nil
    · rw [hs.returned] at hm
      exact absurd hm List.not_mem_nil
  have hnew := along_newMessage hdistinct (by simp [hs.queued]) hG
  have hquiet : Quiet t := exec_invariant_along (fun _ _ _ => Quiet.spiStep) hinit hnew h
  have hnodup := hquiet.nodup
  rw [hquiet.order, List.nodup_append, ← hquiet.done] at hnodup
  refine ⟨⟨t.queue, hquiet.order.symm⟩, hnodup.1, fun m hm => ?_, hquiet.curMsg⟩
  obtain ⟨hdone, hstatus⟩ := hquiet.returned m hm
  refine ⟨hdone, fun hqueue => hnodup.2.2 m hdone m hqueue rfl, ?_, hstatus⟩
  rw [hquiet.curMsg]
  exact Option.some_ne_none m |>.symm

/-- A controller with runtime power management and no other callback than
`transfer_one`. -/
def plainController : SpiController :=
  { flags := 0
    modeBits := 0
    bitsPerWordMask := 0
    minSpeedHz := 0
    maxSpeedHz := 0
    slave := false
    autoRuntimePm := true
    canDma := false
    prepareTransferHardware := false
    unprepareTransferHardware := false
    prepareMessage := false }

/-- All messages have one transfer of one byte. -/
def unusedState : SpiState ℕ ℕ (Fin 2) :=
  { msg := fun _ =>
      ⟨⟨[.own 0], [], fun _ => ⟨4096, 0, 1, 0, 0, false, 0, ⟨8, 1000000, 0, 1, 0, ⟨0, 0⟩⟩⟩, 0⟩, 0, 0, 0⟩
    queue := []
    curMsg := none
    idling := false
    busy := false
    running := true
    busLockFlag := false
    curMsgPrepared := false
    curMsgMapped := false
    cs := ⟨noCs, false, fun _ => false⟩
    starts := []
    queued := []
    started := []
    finalized := []
    returned := [] }

theorem unusedState_unused : Unused unusedState := ⟨rfl, rfl, rfl, rfl, rfl, rfl, rfl⟩

/-- The power management and `transfer_one` return the given values. -/
def outcomes (pm ret : ℤ) : Outcomes := ⟨fun _ => true, pm, 0, 0, 0, fun _ => (ret, false)⟩

/-- A message that waits in the queue is flushed before the next `spi_sync`. -/
theorem sync_after_flush : ∃ t,
    exec (spiStep plainController twoChips) unusedState
      [.async (outcomes 0 0) 0 0, .flush (outcomes 0 0), .sync (outcomes 0 (-5)) 1 1] = some t ∧ t.returned = [1] ∧
    t.started <+: t.queued ∧ t.finalized.Nodup ∧
    (∀ m ∈ t.returned, m ∈ t.finalized ∧ m ∉ t.queue ∧ t.curMsg ≠ some m ∧ (t.msg m).status ≠ -EINPROGRESS) ∧
    t.curMsg = none := by
  have hG : Along (spiStep plainController twoChips) (Orderly plainController) unusedState
      [.async (outcomes 0 0) 0 0, .flush (outcomes 0 0), .sync (outcomes 0 (-5)) 1 1] := by
    refine Along.cons trivial rfl (Along.cons (fun _ _ _ => Int.le_refl 0) rfl (Along.cons ⟨rfl, ?_, ?_⟩ rfl trivial))
    · exact fun _ _ => Int.le_refl 0
    · exact ⟨by decide, by decide, by decide, fun _ => (by decide : (-5 : ℤ) ≠ -EINPROGRESS)⟩
  exact ⟨_, rfl, rfl, sync_returns_finished unusedState_unused (by decide) hG rfl⟩

/-- A message that was queued before is transferred in place of the one of
`spi_sync`; and a failure of the power management leaves the message the current
one. -/
theorem sync_returns_waiting : Unused unusedState ∧
    (∃ t, exec (spiStep plainController twoChips) unusedState
        [.async (outcomes 0 0) 0 0, .sync (outcomes 0 0) 1 1] = some t ∧
      1 ∈ t.returned ∧ 1 ∈ t.queue ∧ 1 ∉ t.finalized ∧ (t.msg 1).status = -EINPROGRESS) ∧
    ∃ t, exec (spiStep plainController twoChips) unusedState [.sync (outcomes (-5) 0) 0 0] = some t ∧
      0 ∈ t.returned ∧ t.curMsg = some 0 ∧ (t.msg 0).status = -EINPROGRESS :=
  ⟨unusedState_unused, ⟨_, rfl, by decide, by decide, by decide, rfl⟩, _, rfl, by decide, rfl, rfl⟩

end GfpDrivers.Spi
