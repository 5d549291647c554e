import GfpDrivers.Spi.ChipSelect
import GfpDrivers.Spi.Pieces

/-!
The checks on a message before it is queued (`__spi_validate` of `spi.c`). Where
the chip select has to change after each word and the controller cannot do it,
the transfers are first split into words and made to release the chip. Then each
transfer gets the defaults of the device and is checked.
-/

namespace GfpDrivers.Spi

def SPI_3WIRE : ℕ := 2 ^ 4
def SPI_TX_DUAL : ℕ := 2 ^ 8
def SPI_TX_QUAD : ℕ := 2 ^ 9
def SPI_RX_DUAL : ℕ := 2 ^ 10
def SPI_RX_QUAD : ℕ := 2 ^ 11
def SPI_CS_WORD : ℕ := 2 ^ 12
def SPI_NO_RX : ℕ := 2 ^ 30
def SPI_NO_TX : ℕ := 2 ^ 31

def SPI_CONTROLLER_HALF_DUPLEX : ℕ := 2 ^ 0
def SPI_CONTROLLER_NO_RX : ℕ := 2 ^ 1
def SPI_CONTROLLER_NO_TX : ℕ := 2 ^ 2
def SPI_CONTROLLER_MUST_RX : ℕ := 2 ^ 3
def SPI_CONTROLLER_MUST_TX : ℕ := 2 ^ 4

def SPI_NBITS_SINGLE : ℕ := 1
def SPI_NBITS_DUAL : ℕ := 2
def SPI_NBITS_QUAD : ℕ := 4

def SPI_DELAY_UNIT_USECS : ℕ := 0
def SPI_DELAY_UNIT_NSECS : ℕ := 1
def SPI_DELAY_UNIT_SCK : ℕ := 2

/-- What the driver sets up of `struct spi_controller`. The last five fields say
which of its callbacks are there. -/
structure SpiController where
  flags : ℕ
  modeBits : ℕ
  bitsPerWordMask : ℕ
  minSpeedHz : ℕ
  maxSpeedHz : ℕ
  slave : Bool
  autoRuntimePm : Bool
  canDma : Bool
  prepareTransferHardware : Bool
  unprepareTransferHardware : Bool
  prepareMessage : Bool

/-! ### One transfer -/

/-- `__spi_validate_bits_per_word` -/
def spiValidateBitsPerWord (ctlr : SpiController) (bitsPerWord : ℕ) : ℤ :=
  if ctlr.bitsPerWordMask ≠ 0 then
    if 32 < bitsPerWord then -EINVAL
    else if ctlr.bitsPerWordMask &&& 2 ^ (bitsPerWord - 1) = 0 then -EINVAL
    else 0
  else 0

/-- `spi_delay_to_ns`. The product is a `u32`, and returned as an `int`. -/
def spiDelayToNs (delay : SpiDelay) (xfer : SpiSettings) : ℤ :=
  if delay.value = 0 then 0
  else if delay.unit = SPI_DELAY_UNIT_USECS then (BitVec.ofNat 32 (delay.value * 1000)).toInt
  else if delay.unit = SPI_DELAY_UNIT_NSECS then (BitVec.ofNat 32 delay.value).toInt
  else if delay.unit = SPI_DELAY_UNIT_SCK then
    let hz := if xfer.effectiveSpeedHz ≠ 0 then xfer.effectiveSpeedHz else xfer.speedHz / 2
    if hz = 0 then -EINVAL else (BitVec.ofNat 32 (delay.value * ((1000000000 + hz - 1) / hz))).toInt
  else -EINVAL

/-- `_spi_xfer_word_delay_update` -/
def spiXferWordDelayUpdate (xfer : SpiSettings) (spi : SpiDevice) : SpiSettings × ℤ :=
  let delay1 := spiDelayToNs xfer.wordDelay xfer
  let delay2 := spiDelayToNs spi.wordDelay xfer
  if delay1 < 0 then (xfer, delay1)
  else if delay2 < 0 then (xfer, delay2)
  else if delay1 < delay2 then ({ xfer with wordDelay := spi.wordDelay }, 0)
  else (xfer, 0)

/-- The checks on `tx_nbits`, or on `rx_nbits` with the bits of the mode for
receiving. -/
def nbitsValid (mode noWire dual quad nbits : ℕ) : Prop :=
  mode &&& noWire = 0 ∧
  (nbits = SPI_NBITS_SINGLE ∨ nbits = SPI_NBITS_DUAL ∨ nbits = SPI_NBITS_QUAD) ∧
  (nbits = SPI_NBITS_DUAL → mode &&& (dual ||| quad) ≠ 0) ∧
  (nbits = SPI_NBITS_QUAD → mode &&& quad ≠ 0)

instance (mode noWire dual quad nbits : ℕ) : Decidable (nbitsValid mode noWire dual quad nbits) :=
  inferInstanceAs (Decidable (_ ∧ _))

/-- The size of a word in memory. -/
def wSize (bitsPerWord : ℕ) : ℕ := if bitsPerWord ≤ 8 then 1 else if bitsPerWord ≤ 16 then 2 else 4

/-- The word size and the speed of a transfer, with the defaults of the device. -/
def defaultSettings (ctlr : SpiController) (spi : SpiDevice) (xfer : SpiSettings) : SpiSettings :=
  let speedHz := if xfer.speedHz = 0 then spi.maxSpeedHz else xfer.speedHz
  { xfer with
    effectiveSpeedHz := 0
    bitsPerWord := if xfer.bitsPerWord = 0 then spi.bitsPerWord else xfer.bitsPerWord
    speedHz := if ctlr.maxSpeedHz ≠ 0 ∧ ctlr.maxSpeedHz < speedHz then ctlr.maxSpeedHz else speedHz }

/-- The widths of a transfer; the buffers that are there have one wire as the
default. -/
def defaultNbits (xfer : SpiTransfer SpiSettings) (settings : SpiSettings) : SpiSettings :=
  { settings with
    txNbits := if xfer.txBuf ≠ 0 ∧ settings.txNbits = 0 then SPI_NBITS_SINGLE else settings.txNbits
    rxNbits := if xfer.rxBuf ≠ 0 ∧ settings.rxNbits = 0 then SPI_NBITS_SINGLE else settings.rxNbits }

/-- One round of the last loop of `__spi_validate`. What has been set stays when
a check fails. -/
def validateXfer (ctlr : SpiController) (spi : SpiDevice) (xfer : SpiTransfer SpiSettings) : SpiSettings × ℤ :=
  let settings := defaultSettings ctlr spi xfer.settings
  if spiValidateBitsPerWord ctlr settings.bitsPerWord ≠ 0 then (settings, -EINVAL)
  else if xfer.len % wSize settings.bitsPerWord ≠ 0 then (settings, -EINVAL)
  else if settings.speedHz ≠ 0 ∧ ctlr.minSpeedHz ≠ 0 ∧ settings.speedHz < ctlr.minSpeedHz then (settings, -EINVAL)
  else
    let settings := defaultNbits xfer settings
    if xfer.txBuf ≠ 0 ∧ ¬ nbitsValid spi.mode SPI_NO_TX SPI_TX_DUAL SPI_TX_QUAD settings.txNbits then
      (settings, -EINVAL)
    else if xfer.rxBuf ≠ 0 ∧ ¬ nbitsValid spi.mode SPI_NO_RX SPI_RX_DUAL SPI_RX_QUAD settings.rxNbits then
      (settings, -EINVAL)
    else
      match spiXferWordDelayUpdate settings spi with
      | (settings, ret) => (settings, if ret ≠ 0 then -EINVAL else 0)

/-- The directions of a transfer that a half duplex link can do. -/
def halfDuplexValid (flags : ℕ) (xfer : SpiTransfer SpiSettings) : Prop :=
  ¬ (xfer.rxBuf ≠ 0 ∧ xfer.txBuf ≠ 0) ∧
  ¬ (flags &&& SPI_CONTROLLER_NO_TX ≠ 0 ∧ xfer.txBuf ≠ 0) ∧
  ¬ (flags &&& SPI_CONTROLLER_NO_RX ≠ 0 ∧ xfer.rxBuf ≠ 0)

instance (flags : ℕ) (xfer : SpiTransfer SpiSettings) : Decidable (halfDuplexValid flags xfer) :=
  inferInstanceAs (Decidable (_ ∧ _))

/-- The link has one data wire. -/
def halfDuplex (ctlr : SpiController) (spi : SpiDevice) : Prop :=
  ctlr.flags &&& SPI_CONTROLLER_HALF_DUPLEX ≠ 0 ∨ spi.mode &&& SPI_3WIRE ≠ 0

instance (ctlr : SpiController) (spi : SpiDevice) : Decidable (halfDuplex ctlr spi) :=
  inferInstanceAs (Decidable (_ ∨ _))

/-! ### The message -/

variable {ν : Type} [DecidableEq ν]

/-- The chip select is to change after each word, by the core. -/
def emulatesCsWord (ctlr : SpiController) (spi : SpiDevice) : Prop :=
  spi.mode &&& SPI_CS_WORD ≠ 0 ∧ (ctlr.modeBits &&& SPI_CS_WORD = 0 ∨ spi.csGpiod = true)

instance (ctlr : SpiController) (spi : SpiDevice) : Decidable (emulatesCsWord ctlr spi) :=
  inferInstanceAs (Decidable (_ ∧ _))

/-- The loop that sets `cs_change` on all transfers but the last. -/
def changeCs (msg : SpiMessage ν SpiSettings) : SpiMessage ν SpiSettings :=
  msg.transfers.dropLast.foldl (fun msg x => msg.setXfer x { msg.xfer x with csChange := true }) msg

/-- The last loop of `__spi_validate`. -/
def validateXfers (ctlr : SpiController) (spi : SpiDevice) : List (Xfer ν) → SpiMessage ν SpiSettings →
    SpiMessage ν SpiSettings × ℤ
  | [], msg => (msg, 0)
  | x :: xs, msg =>
      match validateXfer ctlr spi (msg.xfer x) with
      | (settings, ret) =>
          let msg := msg.setXfer x { msg.xfer x with settings := settings }
          if ret ≠ 0 then (msg, ret) else validateXfers ctlr spi xs msg

/-- `__spi_validate` after the emulation. -/
def validateLists (ctlr : SpiController) (spi : SpiDevice) (msg : SpiMessage ν SpiSettings) :
    SpiMessage ν SpiSettings × ℤ :=
  if halfDuplex ctlr spi ∧ ∃ x ∈ msg.transfers, ¬ halfDuplexValid ctlr.flags (msg.xfer x) then (msg, -EINVAL)
  else validateXfers ctlr spi msg.transfers msg

/-- `__spi_validate`. The loop that splits has a round for each transfer. -/
def spiValidate (alloc : ℕ → Bool) (ctlr : SpiController) (spi : SpiDevice) (msg : SpiMessage ν SpiSettings) :
    Option (SpiMessage ν SpiSettings × ℤ) :=
  if msg.transfers = [] then some (msg, -EINVAL)
  else if emulatesCsWord ctlr spi then
    match spiSplitTransfersMaxsize alloc ((spi.bitsPerWord + 7) / 8) msg.transfers.length msg with
    | none => none
    | some (msg, ret) => some (if ret ≠ 0 then (msg, ret) else validateLists ctlr spi (changeCs msg))
  else some (validateLists ctlr spi msg)

end GfpDrivers.Spi
