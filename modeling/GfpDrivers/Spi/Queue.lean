import GfpDrivers.Spi.Validate

/-!
The message queue of an SPI controller (`spi.c`). `spi_async` puts a message at
the end of the queue; `spi_sync` does the same and calls `__spi_pump_messages`,
which takes the first message, transfers it and gives it back.

The thread that worked the queue off and the completion that `spi_sync` waited
for are gone from this port. One call of the pump transfers one message, so a
message is done when `spi_sync` returns only if no other was before it; and when
the power management refuses the controller, the message that was taken stays
the current one for ever.
-/

namespace GfpDrivers.Spi

open GfpDrivers.Lib

/-- `struct spi_message`, with the device it is for. -/
structure QueuedMessage (ν ι : Type) where
  body : SpiMessage ν SpiSettings
  spi : ι
  status : ℤ
  actualLength : ℕ

/-- The changing part of `struct spi_controller`, and the messages. The last four
fields say which messages have been queued, started and finalized so far, in
order, and for which of those queued by `spi_sync` the call has returned. -/
structure SpiState (μ ν ι : Type) where
  msg : μ → QueuedMessage ν ι
  queue : List μ
  curMsg : Option μ
  idling : Bool
  busy : Bool
  running : Bool
  busLockFlag : Bool
  curMsgPrepared : Bool
  curMsgMapped : Bool
  cs : ChipSelects ι
  starts : List (ι × ChipSelects ι)
  queued : List μ
  started : List μ
  finalized : List μ
  returned : List μ

/-- What the calls out of the core come to during a call into it: which
allocations succeed, and what `pm_runtime_get_sync`, the callbacks of the driver
and the mapping for DMA return. -/
structure Outcomes where
  alloc : ℕ → Bool
  pmRuntimeGetSync : ℤ
  prepareTransferHardware : ℤ
  prepareMessage : ℤ
  mapMsg : ℤ
  transferOne : ℕ → ℤ × Bool

/-- The buffers that stand in for missing ones. Their allocation is commented out,
so they are never there. -/
def dummyTx : Ptr := 0
def dummyRx : Ptr := 0

variable {μ ν ι : Type} [DecidableEq μ] [DecidableEq ν] [DecidableEq ι]

/-! ### Mapping -/

/-- The longest transfer without the buffer, if the controller needs it. -/
def maxWithout (flags must : ℕ) (buf : SpiTransfer SpiSettings → Ptr) (xfers : List (SpiTransfer SpiSettings)) : ℕ :=
  xfers.foldl (fun n xfer => if flags &&& must ≠ 0 ∧ buf xfer = 0 then max xfer.len n else n) 0

/-- `spi_map_msg`, with the new `cur_msg_mapped`; `mapMsg` is what the mapping for
DMA returns. -/
def spiMapMsg (ctlr : SpiController) (spi : SpiDevice) (mapMsg : ℤ) (xfers : List (SpiTransfer SpiSettings))
    (mapped : Bool) : ℤ × Bool :=
  if ctlr.flags &&& (SPI_CONTROLLER_MUST_RX ||| SPI_CONTROLLER_MUST_TX) ≠ 0 ∧ spi.mode &&& SPI_3WIRE = 0 ∧
      (maxWithout ctlr.flags SPI_CONTROLLER_MUST_TX SpiTransfer.txBuf xfers ≠ 0 ∨
        maxWithout ctlr.flags SPI_CONTROLLER_MUST_RX SpiTransfer.rxBuf xfers ≠ 0) then (-ENOMEM, mapped)
  else if ctlr.canDma then (mapMsg, mapped || mapMsg == 0)
  else (0, mapped)

/-- A buffer that stands in for a missing one is taken out again. -/
def restoreNull (xfer : SpiTransfer SpiSettings) : SpiTransfer SpiSettings :=
  { xfer with
    txBuf := if xfer.txBuf = dummyTx then 0 else xfer.txBuf
    rxBuf := if xfer.rxBuf = dummyRx then 0 else xfer.rxBuf }

/-- `spi_unmap_msg` -/
def spiUnmapMsg (msg : SpiMessage ν SpiSettings) : SpiMessage ν SpiSettings :=
  msg.transfers.foldl (fun msg x => msg.setXfer x (restoreNull (msg.xfer x))) msg

/-! ### The queue -/

def SpiState.setMsg (s : SpiState μ ν ι) (m : μ) (v : QueuedMessage ν ι) : SpiState μ ν ι :=
  { s with msg := Function.update s.msg m v }

omit [DecidableEq ν] [DecidableEq ι] in
theorem SpiState.setMsg_self (s : SpiState μ ν ι) (m : μ) (v : QueuedMessage ν ι) : (s.setMsg m v).msg m = v :=
  Function.update_self ..

/-- `spi_finalize_current_message`, for a message with the given status. What the
driver does to unprepare the message is left out. -/
def spiFinalizeCurrentMessage (ctlr : SpiController) (s : SpiState μ ν ι) (m : μ) (status : ℤ) : SpiState μ ν ι :=
  { s with
    msg := Function.update s.msg m
      { s.msg m with body := spiResRelease (spiUnmapMsg (s.msg m).body), status := status }
    curMsg := none
    curMsgPrepared := false
    curMsgMapped := s.curMsgMapped && !ctlr.canDma
    finalized := s.finalized ++ [m] }

/-- The state in which a message is transferred. -/
def SpiState.progress (s : SpiState μ ν ι) (m : μ) (mapped : Bool) : Progress ι :=
  ⟨s.cs, mapped, (s.msg m).status, (s.msg m).actualLength, s.starts⟩

/-- `__spi_pump_messages` from the preparation of the message on. -/
def transferMessage (ctlr : SpiController) (dev : ι → SpiDevice) (env : Outcomes) (s : SpiState μ ν ι) (m : μ) :
    SpiState μ ν ι :=
  if ctlr.prepareMessage ∧ env.prepareMessage ≠ 0 then spiFinalizeCurrentMessage ctlr s m env.prepareMessage
  else
    let s := { s with curMsgPrepared := s.curMsgPrepared || ctlr.prepareMessage }
    let spi := (s.msg m).spi
    let xfers := (s.msg m).body.transfers.map (s.msg m).body.xfer
    match spiMapMsg ctlr (dev spi) env.mapMsg xfers s.curMsgMapped with
    | (ret, mapped) =>
        if ret ≠ 0 then spiFinalizeCurrentMessage ctlr { s with curMsgMapped := mapped } m ret
        else
          let p := (spiTransferOneMessage dev env.transferOne ctlr.slave spi xfers (s.progress m mapped)).1
          let s := { s with cs := p.cs, curMsgMapped := p.curMsgMapped, starts := p.starts }
          spiFinalizeCurrentMessage ctlr (s.setMsg m { s.msg m with actualLength := p.actualLength }) m p.status

/-- `__spi_pump_messages` with a message that has been taken from the queue. -/
def pumpMessage (ctlr : SpiController) (dev : ι → SpiDevice) (env : Outcomes) (s : SpiState μ ν ι) (m : μ)
    (wasBusy : Bool) : SpiState μ ν ι :=
  if wasBusy = false ∧ ctlr.autoRuntimePm ∧ env.pmRuntimeGetSync < 0 then s
  else if wasBusy = false ∧ ctlr.prepareTransferHardware ∧ env.prepareTransferHardware ≠ 0 then
    spiFinalizeCurrentMessage ctlr s m env.prepareTransferHardware
  else transferMessage ctlr dev env s m

/-- `__spi_pump_messages`. No caller is left that passes `true` for `in_kthread`. -/
def spiPumpMessages (ctlr : SpiController) (dev : ι → SpiDevice) (env : Outcomes) (s : SpiState μ ν ι) :
    SpiState μ ν ι :=
  if s.curMsg.isSome ∨ s.idling then s
  else
    match s.running, s.queue with
    | true, m :: queue =>
        pumpMessage ctlr dev env
          { s with curMsg := some m, queue := queue, busy := true, started := s.started ++ [m] } m s.busy
    | _, _ =>
        if s.busy ∧ dummyRx = 0 ∧ dummyTx = 0 ∧ ctlr.unprepareTransferHardware = false then { s with busy := false }
        else s

/-- `__spi_queued_transfer`, for which both callers have set `message->spi`. -/
def spiQueuedTransfer (s : SpiState μ ν ι) (spi : ι) (m : μ) : SpiState μ ν ι × ℤ :=
  let s := s.setMsg m { s.msg m with spi := spi }
  if s.running = false then (s, -ESHUTDOWN)
  else
    ({ s with
        msg := Function.update s.msg m { s.msg m with actualLength := 0, status := -EINPROGRESS }
        queue := s.queue ++ [m]
        queued := s.queued ++ [m] }, 0)

/-- `__spi_validate` on one of the messages, with the status it sets. -/
def validateMessage (ctlr : SpiController) (dev : ι → SpiDevice) (env : Outcomes) (s : SpiState μ ν ι) (spi : ι) (m : μ) :
    Option (SpiState μ ν ι × ℤ) :=
  match spiValidate env.alloc ctlr (dev spi) (s.msg m).body with
  | none => none
  | some (body, ret) =>
      let status := if ret ≠ 0 then (s.msg m).status else -EINPROGRESS
      some (s.setMsg m { s.msg m with body := body, status := status }, ret)

/-- `spi_async` of a controller with the core's queue. -/
def spiAsync (ctlr : SpiController) (dev : ι → SpiDevice) (env : Outcomes) (s : SpiState μ ν ι) (spi : ι) (m : μ) :
    Option (SpiState μ ν ι × ℤ) :=
  match validateMessage ctlr dev env s spi m with
  | none => none
  | some (s, ret) =>
      some (if ret ≠ 0 then (s, ret) else if s.busLockFlag then (s, -EBUSY) else spiQueuedTransfer s spi m)

/-- `spi_sync` of a controller with the core's queue. -/
def spiSync (ctlr : SpiController) (dev : ι → SpiDevice) (env : Outcomes) (s : SpiState μ ν ι) (spi : ι) (m : μ) :
    Option (SpiState μ ν ι × ℤ) :=
  match validateMessage ctlr dev env s spi m with
  | none => none
  | some (s, ret) =>
      some (
        if ret ≠ 0 then (s, ret)
        else
          match spiQueuedTransfer s spi m with
          | (s, ret) =>
              if ret ≠ 0 then (s, ret)
              else
                let s := spiPumpMessages ctlr dev env s
                ({ s with returned := s.returned ++ [m] }, (s.msg m).status))

/-- `spi_flush_queue` -/
def spiFlushQueue (ctlr : SpiController) (dev : ι → SpiDevice) (env : Outcomes) (s : SpiState μ ν ι) : SpiState μ ν ι :=
  spiPumpMessages ctlr dev env s

/-- The calls into the core. -/
inductive SpiCall (μ ι : Type) where
  | async (env : Outcomes) (spi : ι) (m : μ)
  | sync (env : Outcomes) (spi : ι) (m : μ)
  | flush (env : Outcomes)

def SpiCall.message : SpiCall μ ι → Option μ
  | async _ _ m => some m
  | sync _ _ m => some m
  | flush _ => none

def spiStep (ctlr : SpiController) (dev : ι → SpiDevice) (s : SpiState μ ν ι) : SpiCall μ ι → Option (SpiState μ ν ι)
  | .async env spi m => (spiAsync ctlr dev env s spi m).map Prod.fst
  | .sync env spi m => (spiSync ctlr dev env s spi m).map Prod.fst
  | .flush env => some (spiFlushQueue ctlr dev env s)

end GfpDrivers.Spi
