import Mathlib.Data.List.Nodup
import Mathlib.Data.List.Range
import GfpDrivers.Basic

/-!
Splitting the transfers of an SPI message (`spi.c`). A transfer that is too long
is taken out of the list of the message, and its pieces are put in its place;
the message keeps a resource for each replacement, with the neighbour after
which the transfer is to be put back. Releasing the resources, the last one
first, undoes all replacements.

A list is the sequence of its nodes; `none` stands for the head of the list where
the source has a pointer to a neighbour. The extra callback of a replacement is
not used by any caller and is left out.
-/

namespace GfpDrivers.Spi

/-- `struct spi_transfer`. The fields that splitting copies only are `settings`. -/
structure SpiTransfer (ρ : Type) where
  txBuf : Ptr
  rxBuf : Ptr
  len : ℕ
  txDma : ℕ
  rxDma : ℕ
  csChange : Bool
  delayValue : ℕ
  settings : ρ

/-- The addresses of transfers: those of the caller, and the members of the array
`inserted_transfers` of the `k`-th allocation. -/
inductive Xfer (ν : Type) where
  | own (x : ν)
  | piece (k i : ℕ)
deriving DecidableEq

/-- `struct spi_replaced_transfers`, from the allocation `alloc`. -/
structure SpiReplacedTransfers (ν : Type) where
  alloc : ℕ
  replacedTransfers : List (Xfer ν)
  replacedAfter : Option (Xfer ν)
  inserted : ℕ

/-- `struct spi_message`, with the contents of all transfers and the number of
allocations so far. -/
structure SpiMessage (ν ρ : Type) where
  transfers : List (Xfer ν)
  resources : List (SpiReplacedTransfers ν)
  xfer : Xfer ν → SpiTransfer ρ
  allocs : ℕ

section Lists

variable {α : Type} [DecidableEq α]

/-- The node after `a`. -/
def nextOf (l : List α) : Option α → Option α
  | none => l.head?
  | some a => l[l.idxOf a + 1]?

/-- The node before `a`. -/
def prevOf (l : List α) (a : α) : Option α := if l.idxOf a = 0 then none else l[l.idxOf a - 1]?

/-- `list_splice` -/
def listSplice (xs : List α) : Option α → List α → List α
  | none, l => xs ++ l
  | some _, [] => []
  | some a, b :: l => if b = a then b :: (xs ++ l) else b :: listSplice xs (some a) l

/-- `list_add` -/
def listAdd (x : α) (after : Option α) (l : List α) : List α := listSplice [x] after l

/-- `list_del` -/
def listDel (x : α) (l : List α) : List α := l.erase x

end Lists

variable {ν ρ : Type} [DecidableEq ν]

def SpiMessage.setXfer (msg : SpiMessage ν ρ) (x : Xfer ν) (v : SpiTransfer ρ) : SpiMessage ν ρ :=
  { msg with xfer := Function.update msg.xfer x v }

/-! ### Replacing -/

/-- The loop of `spi_replace_transfers` that takes transfers out of the list, and
puts all of them back if there are too few. -/
def removeTransfers (after : Option (Xfer ν)) : ℕ → List (Xfer ν) → List (Xfer ν) →
    Except (List (Xfer ν)) (List (Xfer ν) × List (Xfer ν))
  | 0, replaced, transfers => .ok (replaced, transfers)
  | n + 1, replaced, transfers =>
      match nextOf transfers after with
      | none => .error (listSplice replaced after transfers)
      | some x => removeTransfers after n (replaced ++ [x]) (listDel x transfers)

/-- The copy of the `i`-th round. The copies are made in reverse order, so the
first one is the last transfer. -/
def copyTransfer (t : SpiTransfer ρ) (i : ℕ) : SpiTransfer ρ :=
  if i = 0 then t else { t with csChange := false, delayValue := 0 }

/-- One round of the loop that puts copies into the list. -/
def insertTransfer (k insert : ℕ) (first : Xfer ν) (after : Option (Xfer ν)) (msg : SpiMessage ν ρ) (i : ℕ) :
    SpiMessage ν ρ :=
  let xfer := .piece k (insert - 1 - i)
  let msg := msg.setXfer xfer (copyTransfer (msg.xfer first) i)
  { msg with transfers := listAdd xfer after msg.transfers }

/-- `spi_replace_transfers`, where `alloc` says which allocations succeed. -/
def spiReplaceTransfers (alloc : ℕ → Bool) (msg : SpiMessage ν ρ) (first : Xfer ν) (remove insert : ℕ) :
    SpiMessage ν ρ × Except ℤ (SpiReplacedTransfers ν) :=
  let k := msg.allocs
  let msg := { msg with allocs := k + 1 }
  if alloc k = false then (msg, .error (-ENOMEM))
  else
    let after := prevOf msg.transfers first
    match removeTransfers after remove [] msg.transfers with
    | .error transfers => ({ msg with transfers := transfers }, .error (-EINVAL))
    | .ok (replaced, transfers) =>
        let msg := (List.range insert).foldl (insertTransfer k insert first after) { msg with transfers := transfers }
        let rxfer := ⟨k, replaced, after, insert⟩
        ({ msg with resources := msg.resources ++ [rxfer] }, .ok rxfer)

/-! ### Splitting -/

/-- A buffer that is not there has no later parts. -/
def advance (buf offset : ℕ) : ℕ := if buf ≠ 0 then buf + offset else buf

/-- One round of the loop of `__spi_split_transfer_maxsize`. -/
def fixupTransfer (k maxsize : ℕ) (msg : SpiMessage ν ρ) (i : ℕ) : SpiMessage ν ρ :=
  let xfer := msg.xfer (.piece k i)
  let offset := i * maxsize
  msg.setXfer (.piece k i) { xfer with
    rxBuf := advance xfer.rxBuf offset
    rxDma := advance xfer.rxDma offset
    txBuf := advance xfer.txBuf offset
    txDma := advance xfer.txDma offset
    len := min maxsize (xfer.len - offset) }

/-- `__spi_split_transfer_maxsize`, which returns the last piece. -/
def spiSplitTransferMaxsize (alloc : ℕ → Bool) (maxsize : ℕ) (msg : SpiMessage ν ρ) (x : Xfer ν) :
    SpiMessage ν ρ × Except ℤ (Xfer ν) :=
  let len := (msg.xfer x).len
  let count := (len + maxsize - 1) / maxsize
  match spiReplaceTransfers alloc msg x 1 count with
  | (msg, .error ret) => (msg, .error ret)
  | (msg, .ok srt) =>
      let first := .piece srt.alloc 0
      let msg := msg.setXfer first { msg.xfer first with len := min maxsize (msg.xfer x).len }
      let msg := ((List.range count).drop 1).foldl (fixupTransfer srt.alloc maxsize) msg
      (msg, .ok (.piece srt.alloc (count - 1)))

/-- The loop of `spi_split_transfers_maxsize` from a transfer on, with at most so
many rounds. -/
def splitFrom (alloc : ℕ → Bool) (maxsize : ℕ) : ℕ → SpiMessage ν ρ → Option (Xfer ν) →
    Option (SpiMessage ν ρ × ℤ)
  | _, msg, none => some (msg, 0)
  | 0, _, some _ => none
  | fuel + 1, msg, some x =>
      if maxsize < (msg.xfer x).len then
        match spiSplitTransferMaxsize alloc maxsize msg x with
        | (msg, .error ret) => some (msg, ret)
        | (msg, .ok last) => splitFrom alloc maxsize fuel msg (nextOf msg.transfers (some last))
      else splitFrom alloc maxsize fuel msg (nextOf msg.transfers (some x))

/-- `spi_split_transfers_maxsize` -/
def spiSplitTransfersMaxsize (alloc : ℕ → Bool) (maxsize fuel : ℕ) (msg : SpiMessage ν ρ) :
    Option (SpiMessage ν ρ × ℤ) :=
  splitFrom alloc maxsize fuel msg msg.transfers.head?

/-! ### Releasing -/

/-- `__spi_replace_transfers_release` -/
def spiReplaceTransfersRelease (transfers : List (Xfer ν)) (rxfer : SpiReplacedTransfers ν) : List (Xfer ν) :=
  (List.range rxfer.inserted).foldl (fun l i => listDel (.piece rxfer.alloc i) l)
    (listSplice rxfer.replacedTransfers rxfer.replacedAfter transfers)

/-- `spi_res_release` -/
def spiResRelease (msg : SpiMessage ν ρ) : SpiMessage ν ρ :=
  { msg with
    transfers := msg.resources.reverse.foldl spiReplaceTransfersRelease msg.transfers
    resources := [] }

end GfpDrivers.Spi
