import GfpDrivers.Lib.Runs
import GfpDrivers.Spi.Split
import Mathlib.Data.Nat.Bitwise

/-!
Chip selects (`spi.c`). `spi_transfer_one_message` selects the chip of a message,
hands the transfers to `transfer_one` one by one, and deselects the chip unless
the last transfer asks to leave it selected. `spi_set_cs` drops a change when the
controller remembers that it was the last one made.

What is remembered is one chip for the whole controller. The chip that was left
selected is forgotten, and stays selected, when the next message is for another
one; so the promise that a transfer meets one selected chip is kept in runs
where no message finds another chip selected.
-/

namespace GfpDrivers.Spi

open GfpDrivers.Lib

def SPI_CS_HIGH : ℕ := 4
def SPI_NO_CS : ℕ := 64

/-- `struct spi_delay` -/
structure SpiDelay where
  value : ℕ
  unit : ℕ

/-- The fields of `struct spi_transfer` that splitting copies only. -/
structure SpiSettings where
  bitsPerWord : ℕ
  speedHz : ℕ
  effectiveSpeedHz : ℕ
  txNbits : ℕ
  rxNbits : ℕ
  wordDelay : SpiDelay

/-- What the core reads of `struct spi_device`; `csGpiod` says that the chip
select is a GPIO. -/
structure SpiDevice where
  chipSelect : UInt8
  mode : ℕ
  bitsPerWord : ℕ
  maxSpeedHz : ℕ
  wordDelay : SpiDelay
  csGpiod : Bool

variable {ι : Type} [DecidableEq ι]

/-- The last change the controller remembers, and the logical values of the chip
select lines. `last_cs` is a `char`, which the compiler for this target takes as
unsigned. -/
structure ChipSelects (ι : Type) where
  lastCs : UInt8
  lastCsModeHigh : Bool
  line : ι → Bool

/-- `-1` as a `char`. -/
def noCs : UInt8 := 255

/-- `spi_set_cs`. The callback `set_cs`, which some controllers want in addition
to the GPIO, and the delays are left out. -/
def spiSetCs (dev : ι → SpiDevice) (cs : ChipSelects ι) (spi : ι) (enable force : Bool) : ChipSelects ι :=
  let d := dev spi
  if force = false ∧ ((enable = true ∧ cs.lastCs = d.chipSelect) ∨ (enable = false ∧ cs.lastCs ≠ d.chipSelect)) ∧
      cs.lastCsModeHigh.toNat = d.mode &&& SPI_CS_HIGH then cs
  else
    { lastCs := if enable then d.chipSelect else noCs
      lastCsModeHigh := d.mode &&& SPI_CS_HIGH != 0
      line := if d.csGpiod ∧ d.mode &&& SPI_NO_CS = 0 then Function.update cs.line spi enable else cs.line }

/-- A message being transferred: the chip selects, `cur_msg_mapped`, what the
message says of itself, and each call of `transfer_one` so far, with the device
and the chip selects it met. -/
structure Progress (ι : Type) where
  cs : ChipSelects ι
  curMsgMapped : Bool
  status : ℤ
  actualLength : ℕ
  starts : List (ι × ChipSelects ι)

/-- `spi_transfer_wait`, where nothing is waited for. -/
def spiTransferWait (slave : Bool) (xfer : SpiTransfer SpiSettings) : ℤ :=
  if slave then 0
  else
    let speedHz := if xfer.settings.speedHz = 0 then 100000 else xfer.settings.speedHz
    let ms := 8 * 1000 * xfer.len / speedHz
    if min (ms + (ms + 200)) (2 ^ 32 - 1) = 0 then -ETIMEDOUT else 0

section Transfer

/- `one n` is what the `n`-th call of `transfer_one` returns, and whether it sets
`SPI_TRANS_FAIL_NO_START`. -/
variable (dev : ι → SpiDevice) (one : ℕ → ℤ × Bool) (slave : Bool) (spi : ι)

/-- A call of `transfer_one`. -/
def transferOne (p : Progress ι) : Progress ι × ℤ × Bool :=
  ({ p with starts := p.starts ++ [(spi, p.cs)] }, one p.starts.length)

/-- The calls for one transfer: a mapped transfer that could not be started is
tried again without the mapping. -/
def transferOrFallback (p : Progress ι) : Progress ι × ℤ :=
  match transferOne one spi p with
  | (p, ret, noStart) =>
      if ret < 0 ∧ p.curMsgMapped ∧ noStart then
        match transferOne one spi { p with curMsgMapped := false } with
        | (p, ret, _) => (p, ret)
      else (p, ret)

/-- One round of the loop of `spi_transfer_one_message`, up to the result. -/
def transferXfer (xfer : SpiTransfer SpiSettings) (p : Progress ι) (ret : ℤ) : Progress ι × ℤ :=
  if (xfer.txBuf ≠ 0 ∨ xfer.rxBuf ≠ 0) ∧ xfer.len ≠ 0 then
    match transferOrFallback one spi p with
    | (p, ret) =>
        if 0 < ret then
          let ret := spiTransferWait slave xfer
          ({ p with status := if ret < 0 then ret else p.status }, ret)
        else (p, ret)
  else (p, ret)

/-- The chip is deselected and selected again between two transfers. -/
def toggleCs (cs : ChipSelects ι) : ChipSelects ι :=
  spiSetCs dev (spiSetCs dev cs spi false false) spi true false

/-- The loop of `spi_transfer_one_message`, with `ret` and `keep_cs`. -/
def transferXfers : List (SpiTransfer SpiSettings) → Progress ι → ℤ → Progress ι × ℤ × Bool
  | [], p, ret => (p, ret, false)
  | xfer :: rest, p, ret =>
      match transferXfer one slave spi xfer p ret with
      | (p, ret) =>
          if ret < 0 ∨ p.status ≠ -EINPROGRESS then (p, ret, false)
          else
            let p := { p with actualLength := p.actualLength + xfer.len }
            if xfer.csChange then
              if rest.isEmpty then (p, ret, true)
              else transferXfers rest { p with cs := toggleCs dev spi p.cs } ret
            else transferXfers rest p ret

/-- `spi_transfer_one_message`, up to the finalization. -/
def spiTransferOneMessage (transfers : List (SpiTransfer SpiSettings)) (p : Progress ι) : Progress ι × ℤ :=
  match transferXfers dev one slave spi transfers { p with cs := spiSetCs dev p.cs spi true false } 0 with
  | (p, ret, keepCs) =>
      let p := if ret ≠ 0 ∨ keepCs = false then { p with cs := spiSetCs dev p.cs spi false false } else p
      (if p.status = -EINPROGRESS then { p with status := ret } else p, ret)

end Transfer

/-! ### One chip -/

variable {dev : ι → SpiDevice} {one : ℕ → ℤ × Bool} {slave : Bool} {spi : ι} {cs : ChipSelects ι}
  {p : Progress ι} {ret : ℤ}

/-- The devices have distinct numbers, and each has a GPIO as chip select. -/
structure Wired (dev : ι → SpiDevice) : Prop where
  chipSelect_inj : Function.Injective fun i => (dev i).chipSelect
  csGpiod (i : ι) : (dev i).csGpiod = true
  hasCs (i : ι) : (dev i).mode &&& SPI_NO_CS = 0

/-- The line of `spi` has the value `on`, no other one is asserted, and the
controller remembers this. -/
structure Only (dev : ι → SpiDevice) (spi : ι) (on : Bool) (cs : ChipSelects ι) : Prop where
  line : cs.line spi = on
  others (j : ι) : j ≠ spi → cs.line j = false
  lastCs : cs.lastCs = if on then (dev spi).chipSelect else noCs

/-- `last_cs` is the number of the device whose line is asserted, or `-1`. -/
structure Remembered (dev : ι → SpiDevice) (cs : ChipSelects ι) : Prop where
  selected (i : ι) : cs.line i = true → cs.lastCs = (dev i).chipSelect
  deselected : (∀ i, cs.line i = false) → cs.lastCs = noCs

/-- The number of the device is not the one that stands for no chip, or its
changes are never dropped. -/
def Numbered (d : SpiDevice) : Prop := d.chipSelect = noCs → d.mode &&& SPI_CS_HIGH ≠ 0

omit [DecidableEq ι] in
theorem Only.remembered {on : Bool} (h : Only dev spi on cs) : Remembered dev cs where
  selected i hi := by
    by_cases hspi : i = spi
    · subst i
      rw [h.lastCs, ← h.line, if_pos hi]
    · rw [h.others i hspi] at hi
      exact absurd hi (by decide)
  deselected hall := by
    rw [h.lastCs, ← h.line, hall spi]
    rfl

omit [DecidableEq ι] in
theorem Remembered.only (h : Remembered dev cs) (hothers : ∀ j, j ≠ spi → cs.line j = false) :
    Only dev spi (cs.line spi) cs := by
  refine ⟨rfl, hothers, ?_⟩
  cases hspi : cs.line spi with
  | true => exact h.selected spi hspi
  | false =>
    refine h.deselected fun i => ?_
    by_cases hi : i = spi
    · rw [hi, hspi]
    · exact hothers i hi

omit [DecidableEq ι] in
/-- A change is dropped only for a device without `SPI_CS_HIGH`: the `bool` is
compared with the bit of the mode as it stands there. -/
theorem csHigh_of_eq_toNat {mode : ℕ} {b : Bool} (h : b.toNat = mode &&& SPI_CS_HIGH) : mode &&& SPI_CS_HIGH = 0 := by
  have hbit : mode &&& SPI_CS_HIGH = (mode.testBit 2).toNat * 2 ^ 2 := Nat.and_two_pow mode 2
  cases hmode : mode.testBit 2 with
  | false => rw [hbit, hmode, Bool.toNat_false, Nat.zero_mul]
  | true =>
    rw [hbit, hmode] at h
    cases b <;> exact absurd h (by decide)

/-- What `spi_set_cs` does to a chip none but which is selected. -/
theorem Only.spiSetCs {on : Bool} (h : Only dev spi on cs) (hdev : Wired dev) (hnum : Numbered (dev spi)) (enable : Bool) :
    Only dev spi enable (spiSetCs dev cs spi enable false) := by
  unfold Spi.spiSetCs
  dsimp only
  split
  case isTrue hdrop =>
    obtain ⟨-, hsame, hmode⟩ := hdrop
    have hcs : (dev spi).chipSelect ≠ noCs := fun hcs => hnum hcs (csHigh_of_eq_toNat hmode)
    have hon : on = enable := by
      rw [h.lastCs] at hsame
      cases on <;> cases enable <;> simp_all [eq_comm]
    exact hon ▸ h
  case isFalse =>
    have hline : (dev spi).csGpiod = true ∧ (dev spi).mode &&& SPI_NO_CS = 0 := ⟨hdev.csGpiod spi, hdev.hasCs spi⟩
    simp only [if_pos hline]
    refine ⟨Function.update_self _ _ _, fun j hj => ?_, rfl⟩
    exact (Function.update_of_ne hj _ _).trans (h.others j hj)

/-- A call of `transfer_one` meets its chip selected, and no other. -/
def SelectedAlone (dev : ι → SpiDevice) (start : ι × ChipSelects ι) : Prop := Only dev start.1 true start.2

/-- In the middle of a message: the chip is selected, and every call so far met
the right one. -/
def Selected (dev : ι → SpiDevice) (spi : ι) (p : Progress ι) : Prop :=
  Only dev spi true p.cs ∧ ∀ start ∈ p.starts, SelectedAlone dev start

omit [DecidableEq ι] in
theorem Selected.transferOne (h : Selected dev spi p) : Selected dev spi (transferOne one spi p).1 := by
  refine ⟨h.1, fun start hstart => ?_⟩
  rcases List.mem_append.mp hstart with hstart | hstart
  · exact h.2 start hstart
  · rw [List.mem_singleton.mp hstart]
    exact h.1

omit [DecidableEq ι] in
theorem Selected.transferOrFallback (h : Selected dev spi p) : Selected dev spi (transferOrFallback one spi p).1 := by
  have hfirst : Selected dev spi (Spi.transferOne one spi p).1 := h.transferOne
  unfold Spi.transferOrFallback
  generalize Spi.transferOne one spi p = q at hfirst ⊢
  obtain ⟨p₁, ret, noStart⟩ := q
  dsimp only at hfirst ⊢
  split
  · have hunmapped : Selected dev spi { p₁ with curMsgMapped := false } := ⟨hfirst.1, hfirst.2⟩
    have hagain : Selected dev spi (Spi.transferOne one spi { p₁ with curMsgMapped := false }).1 :=
      hunmapped.transferOne
    exact hagain
  · exact hfirst

omit [DecidableEq ι] in
theorem Selected.transferXfer (h : Selected dev spi p) (xfer : SpiTransfer SpiSettings) :
    Selected dev spi (transferXfer one slave spi xfer p ret).1 := by
  have hcalled : Selected dev spi (Spi.transferOrFallback one spi p).1 := h.transferOrFallback
  unfold Spi.transferXfer
  split
  · generalize Spi.transferOrFallback one spi p = q at hcalled ⊢
    obtain ⟨p₁, ret₁⟩ := q
    dsimp only at hcalled ⊢
    split
    · exact ⟨hcalled.1, hcalled.2⟩
    · exact hcalled
  · exact h

/-- The chip is selected at the end of the loop, whichever way it is left. -/
theorem Selected.transferXfers (hdev : Wired dev) (hnum : Numbered (dev spi)) (transfers : List (SpiTransfer SpiSettings))
    (h : Selected dev spi p) : Selected dev spi (transferXfers dev one slave spi transfers p ret).1 := by
  induction transfers generalizing p ret with
  | nil => exact h
  | cons xfer rest ih =>
    have hround : Selected dev spi (Spi.transferXfer one slave spi xfer p ret).1 := h.transferXfer xfer
    unfold Spi.transferXfers
    generalize Spi.transferXfer one slave spi xfer p ret = q at hround ⊢
    obtain ⟨p₁, ret₁⟩ := q
    dsimp only at hround ⊢
    split
    · exact hround
    · split
      · split
        · exact ⟨hround.1, hround.2⟩
        · refine ih ⟨?_, hround.2⟩
          exact (hround.1.spiSetCs hdev hnum false).spiSetCs hdev hnum true
      · exact ih ⟨hround.1, hround.2⟩

/-- Between messages: what the controller remembers is right, and so was every
call. -/
def Idle (dev : ι → SpiDevice) (p : Progress ι) : Prop :=
  Remembered dev p.cs ∧ ∀ start ∈ p.starts, SelectedAlone dev start

theorem Idle.spiTransferOneMessage (hdev : Wired dev) (hnum : Numbered (dev spi))
    (hothers : ∀ j, j ≠ spi → p.cs.line j = false) (transfers : List (SpiTransfer SpiSettings)) (h : Idle dev p) :
    Idle dev (spiTransferOneMessage dev one slave spi transfers p).1 := by
  have hloop : Selected dev spi
      (transferXfers dev one slave spi transfers { p with cs := spiSetCs dev p.cs spi true false } 0).1 :=
    Selected.transferXfers hdev hnum transfers ⟨(h.1.only hothers).spiSetCs hdev hnum true, h.2⟩
  unfold Spi.spiTransferOneMessage
  generalize transferXfers dev one slave spi transfers _ 0 = q at hloop ⊢
  obtain ⟨p₁, ret, keepCs⟩ := q
  dsimp only at hloop ⊢
  have hend : Idle dev
      (if ret ≠ 0 ∨ keepCs = false then { p₁ with cs := spiSetCs dev p₁.cs spi false false } else p₁) := by
    split
    · exact ⟨(hloop.1.spiSetCs hdev hnum false).remembered, hloop.2⟩
    · exact ⟨hloop.1.remembered, hloop.2⟩
  generalize (if ret ≠ 0 ∨ keepCs = false then _ else p₁ : Progress ι) = p₂ at hend ⊢
  split
  · exact ⟨hend.1, hend.2⟩
  · exact hend

/-! ### Runs -/

/-- A message for `spi`; `mapped` says that its buffers are mapped for DMA. -/
structure OneMessage (ι : Type) where
  spi : ι
  transfers : List (SpiTransfer SpiSettings)
  mapped : Bool

/-- A message is taken from the queue and transferred. -/
def transferStep (dev : ι → SpiDevice) (one : ℕ → ℤ × Bool) (slave : Bool) (p : Progress ι) (msg : OneMessage ι) :
    Option (Progress ι) :=
  some (spiTransferOneMessage dev one slave msg.spi msg.transfers
    { p with curMsgMapped := msg.mapped, status := -EINPROGRESS, actualLength := 0 }).1

/-- No other chip is left selected when the message is taken, and the number of
its own is not taken for none. -/
def FindsOthersDeselected (dev : ι → SpiDevice) (p : Progress ι) (msg : OneMessage ι) : Prop :=
  (∀ j, j ≠ msg.spi → p.cs.line j = false) ∧ Numbered (dev msg.spi)

/-- No chip is selected, and the controller knows it. -/
structure AllDeselected (p : Progress ι) : Prop where
  line (i : ι) : p.cs.line i = false
  lastCs : p.cs.lastCs = noCs
  starts : p.starts = []

/-- **At most one chip is selected**, in runs where every message finds the chips
of the others deselected. -/
theorem transfers_meet_one_selected (hdev : Wired dev) {s t : Progress ι} (hs : AllDeselected s)
    {msgs : List (OneMessage ι)} (hG : Along (transferStep dev one slave) (FindsOthersDeselected dev) s msgs)
    (h : exec (transferStep dev one slave) s msgs = some t) :
    (∀ start ∈ t.starts, start.2.line start.1 = true ∧ (∀ j, j ≠ start.1 → start.2.line j = false) ∧
      Remembered dev start.2) ∧
    Remembered dev t.cs := by
  have hinit : Idle dev s := by
    refine ⟨⟨fun i hi => ?_, fun _ => hs.lastCs⟩, fun start hstart => ?_⟩
    · rw [hs.line i] at hi
      exact absurd hi (by decide)
    · rw [hs.starts] at hstart
      exact absurd hstart List.not_mem_nil
  have hidle : Idle dev t := by
    refine exec_invariant_along (fun p msg q hp hmsg hq => ?_) hinit hG h
    rw [transferStep, Option.some.injEq] at hq
    subst hq
    let taken := { p with curMsgMapped := msg.mapped, status := -EINPROGRESS, actualLength := 0 }
    exact Idle.spiTransferOneMessage (p := taken) hdev hmsg.2 hmsg.1 msg.transfers ⟨hp.1, hp.2⟩
  refine ⟨fun start hstart => ?_, hidle.1⟩
  have hstart := hidle.2 start hstart
  exact ⟨hstart.line, hstart.others, hstart.remembered⟩

/-- Two chips, of which the second has an active high chip select. -/
def twoChips (i : Fin 2) : SpiDevice :=
  { chipSelect := if i = 0 then 0 else 1
    mode := if i = 0 then 0 else SPI_CS_HIGH
    bitsPerWord := 8
    maxSpeedHz := 1000000
    wordDelay := ⟨0, 0⟩
    csGpiod := true }

theorem twoChips_wired : Wired twoChips := ⟨fun i j => by revert i j; decide, by decide, by decide⟩

def noneSelected : Progress (Fin 2) := ⟨⟨noCs, false, fun _ => false⟩, false, 0, 0, []⟩

/-- A message of one byte, which asks to stay selected or not. -/
def byteMessage (spi : Fin 2) (stay : Bool) : OneMessage (Fin 2) :=
  { spi := spi
    transfers := [⟨4096, 0, 1, 0, 0, stay, 0, ⟨8, 1000000, 0, 1, 0, ⟨0, 0⟩⟩⟩]
    mapped := false }

/-- The first chip is left selected for its next message, and then the second has
its turn. -/
theorem chips_selected_in_turn : ∃ t,
    exec (transferStep twoChips (fun _ => (0, false)) false) noneSelected
      [byteMessage 0 true, byteMessage 0 false, byteMessage 1 false] = some t ∧ t.starts.length = 3 ∧
    (∀ start ∈ t.starts, start.2.line start.1 = true ∧ (∀ j, j ≠ start.1 → start.2.line j = false) ∧
      Remembered twoChips start.2) ∧
    Remembered twoChips t.cs := by
  have hG : Along (transferStep twoChips (fun _ => (0, false)) false) (FindsOthersDeselected twoChips) noneSelected
      [byteMessage 0 true, byteMessage 0 false, byteMessage 1 false] := by
    refine Along.cons ⟨by decide, ?_⟩ rfl (Along.cons ⟨by decide, ?_⟩ rfl (Along.cons ⟨by decide, ?_⟩ rfl trivial))
    all_goals exact fun h => absurd h (by decide)
  exact ⟨_, rfl, rfl, transfers_meet_one_selected twoChips_wired ⟨fun _ => rfl, rfl, rfl⟩ hG rfl⟩

/-- The message for the second chip finds the first one left selected, and both
are selected during its transfer. -/
theorem two_chips_selected : Wired twoChips ∧ AllDeselected noneSelected ∧ ∃ t,
    exec (transferStep twoChips (fun _ => (0, false)) false) noneSelected
      [byteMessage 0 true, byteMessage 1 false] = some t ∧
    (∃ start ∈ t.starts, start.1 = 1 ∧ start.2.line 1 = true ∧ start.2.line 0 = true) ∧
    t.cs.line 0 = true ∧ t.cs.lastCs = noCs :=
  ⟨twoChips_wired, ⟨fun _ => rfl, rfl, rfl⟩, _, rfl, by decide, rfl, rfl⟩

end GfpDrivers.Spi
