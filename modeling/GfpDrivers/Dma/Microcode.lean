import GfpDrivers.Basic
import GfpDrivers.Lib.TwoPass
import Mathlib.Data.BitVec

/-!
The microcode that the PL330 driver writes for a request (`pl330.c`). Every function is called with a flag for a dry run, in
which it only returns the number of bytes, and with the place in the buffer where its code begins.
-/

namespace GfpDrivers.Dma

open Lib Generator

def EAGAIN : ℤ := 11

abbrev Byte := BitVec 8

/-- `enum dma_transfer_direction` -/
inductive Direction where
  | memToMem
  | memToDev
  | devToMem
  | devToDev
  | transNone
deriving DecidableEq

/-- `enum pl330_cond` -/
inductive Cond where
  | single
  | burst
  | always
deriving DecidableEq

/-- `enum dmamov_dst` -/
inductive DmamovDst where
  | sar
  | ccr
  | dar
deriving DecidableEq

/-- The number of an `enum dmamov_dst`. -/
def DmamovDst.val : DmamovDst → Byte
  | .sar => 0
  | .ccr => 1
  | .dar => 2

/-- `struct pl330_reqcfg`, without the pointer to the configuration -/
structure Reqcfg where
  dstInc : Bool
  srcInc : Bool
  nonsecure : Bool
  privileged : Bool
  insnaccess : Bool
  brstLen : BitVec 5
  brstSize : BitVec 3
  dcctl : BitVec 3
  scctl : BitVec 3
  swap : BitVec 3
deriving DecidableEq

/-- What is used of a `struct dma_pl330_desc`. -/
structure Desc where
  srcAddr : BitVec 32
  dstAddr : BitVec 32
  bytes : BitVec 32
  rqcfg : Reqcfg
  rqtype : Direction
  peri : BitVec 5
deriving DecidableEq

/-- What is used of a `struct pl330_dmac`: the revision is `periph_id` of the configuration, `quirks` has the bits
`PL330_QUIRK_BROKEN_NO_FLUSHP` and `PL330_QUIRK_PERIPH_BURST`, and `dying` says that `state` is `DYING`. -/
structure Dmac where
  mcbufsz : BitVec 32
  periphId : BitVec 32
  modeNs : Bool
  numPeri : BitVec 6
  brokenNoFlushp : Bool
  periphBurst : Bool
  dying : Bool
  resetChan : Byte

/-- `struct _xfer_spec` -/
structure XferSpec where
  ccr : BitVec 32
  desc : Desc

/-! ### Instructions -/

/-- The two bits of a condition in a load or store. -/
def Cond.bits : Cond → Byte
  | .single => 0#8 <<< 1 ||| 1#8 <<< 0
  | .burst => 1#8 <<< 1 ||| 1#8 <<< 0
  | .always => 0

/-- The bit of a condition in a peripheral load or store. -/
def Cond.burstBit (cond : Cond) : Byte := if cond = .burst then 1#8 <<< 1 else 0#8

def CMD_DMAEND : Byte := 0x00
def CMD_DMAFLUSHP : Byte := 0x35
def CMD_DMALD : Byte := 0x04
def CMD_DMALDP : Byte := 0x25
def CMD_DMALP : Byte := 0x20
def CMD_DMALPEND : Byte := 0x28
def CMD_DMAMOV : Byte := 0xbc
def CMD_DMARMB : Byte := 0x12
def CMD_DMASEV : Byte := 0x34
def CMD_DMAST : Byte := 0x08
def CMD_DMASTP : Byte := 0x29
def CMD_DMAWFP : Byte := 0x30
def CMD_DMAWMB : Byte := 0x13

/-- `peri &= 0x1f; peri <<= 3;` -/
def periField (peri : Byte) : Byte := (peri &&& 0x1f) <<< 3

def emitEnd : Generator Byte := emit [CMD_DMAEND]

def emitFlushp (peri : Byte) : Generator Byte := emit [CMD_DMAFLUSHP, periField peri]

def emitLd (cond : Cond) : Generator Byte := emit [CMD_DMALD ||| cond.bits]

def emitLdp (cond : Cond) (peri : Byte) : Generator Byte := emit [CMD_DMALDP ||| cond.burstBit, periField peri]

/-- The controller adds 1 to the number of rounds. -/
def emitLp (loop : Bool) (cnt : Byte) : Generator Byte := emit [CMD_DMALP ||| (if loop then 1#8 <<< 1 else 0#8), cnt - 1]

/-- `struct _arg_LPEND` -/
structure ArgLpend where
  cond : Cond
  forever : Bool
  loop : Bool
  bjump : Byte

def emitLpend (arg : ArgLpend) : Generator Byte :=
  emit [CMD_DMALPEND ||| (if arg.loop then 1#8 <<< 2 else 0#8) ||| (if arg.forever then 0#8 else 1#8 <<< 4) ||| arg.cond.bits,
    arg.bjump]

def emitMov (dst : DmamovDst) (val : BitVec 32) : Generator Byte :=
  emit [CMD_DMAMOV, dst.val, val.setWidth 8, (val >>> 8).setWidth 8, (val >>> 16).setWidth 8, (val >>> 24).setWidth 8]

def emitRmb : Generator Byte := emit [CMD_DMARMB]

def emitSev (ev : Byte) : Generator Byte := emit [CMD_DMASEV, periField ev]

def emitSt (cond : Cond) : Generator Byte := emit [CMD_DMAST ||| cond.bits]

def emitStp (cond : Cond) (peri : Byte) : Generator Byte := emit [CMD_DMASTP ||| cond.burstBit, periField peri]

def emitWfp (cond : Cond) (peri : Byte) : Generator Byte :=
  emit [CMD_DMAWFP ||| (match cond with
      | .single => 0#8 <<< 1 ||| 0#8 <<< 0
      | .burst => 1#8 <<< 1 ||| 0#8 <<< 0
      | .always => 0#8 <<< 1 ||| 1#8 <<< 0), periField peri]

def emitWmb : Generator Byte := emit [CMD_DMAWMB]

/-! ### Bursts -/

/-- `BRST_LEN` -/
def brstLen (ccr : BitVec 32) : ℕ := ((ccr >>> 4) &&& 0xf).toNat + 1

/-- `BRST_SIZE` -/
def brstSize (ccr : BitVec 32) : ℕ := 2 ^ ((ccr >>> 1) &&& 0x7).toNat

/-- `get_revision` -/
def getRevision (periphId : BitVec 32) : BitVec 32 := (periphId >>> 20) &&& 0xf

def PERIPH_REV_R1P0 : BitVec 32 := 1

variable (pl330 : Dmac) (pxs : XferSpec)

/-- `_ldst_memtomem` -/
def ldstMemtomem (cyc : ℕ) : Generator Byte :=
  if getRevision pl330.periphId ≥ PERIPH_REV_R1P0 then (emitLd .always ++ emitSt .always).times cyc
  else (emitLd .always ++ emitRmb ++ emitSt .always ++ emitWmb).times cyc

/-- `_emit_load` -/
def emitLoad (cond : Cond) (direction : Direction) (peri : Byte) : Generator Byte :=
  match direction with
  | .memToMem | .memToDev => emitLd cond
  | .devToMem => if cond = .always then emitLdp .single peri ++ emitLdp .burst peri else emitLdp cond peri
  | .devToDev | .transNone => nop

/-- `_emit_store` -/
def emitStore (cond : Cond) (direction : Direction) (peri : Byte) : Generator Byte :=
  match direction with
  | .memToMem | .devToMem => emitSt cond
  | .memToDev => if cond = .always then emitStp .single peri ++ emitStp .burst peri else emitStp cond peri
  | .devToDev | .transNone => nop

/-- `desc->peri` as the `u8` that the instructions take. -/
def Desc.periByte (desc : Desc) : Byte := desc.peri.setWidth 8

/-- `_ldst_peripheral` -/
def ldstPeripheral (cyc : ℕ) (cond : Cond) : Generator Byte :=
  (if pl330.brokenNoFlushp then nop else emitFlushp pxs.desc.periByte) ++
    (emitWfp cond pxs.desc.periByte ++ emitLoad cond pxs.desc.rqtype pxs.desc.periByte ++
      emitStore cond pxs.desc.rqtype pxs.desc.periByte).times cyc

/-- The condition of the bursts of a peripheral. -/
def burstCond : Cond := if pl330.periphBurst then .burst else if 1 < brstLen pxs.ccr then .burst else .single

/-- `_bursts` -/
def bursts (cyc : ℕ) : Generator Byte :=
  match pxs.desc.rqtype with
  | .memToDev | .devToMem => ldstPeripheral pl330 pxs cyc (burstCond pl330 pxs)
  | .memToMem => ldstMemtomem pl330 cyc
  | .devToDev | .transNone => nop

/-- `dregs_ccr` -/
def dregsCcr (transferLength : ℕ) : BitVec 32 :=
  pxs.ccr &&& ~~~(0xf#32 <<< 4 ||| 0xf#32 <<< 18) ||| (BitVec.ofNat 32 (transferLength - 1) &&& 0xf) <<< 4 |||
    (BitVec.ofNat 32 (transferLength - 1) &&& 0xf) <<< 18

/-- `_dregs` -/
def dregs (transferLength : ℕ) : Generator Byte :=
  if transferLength = 0 then nop
  else
    match pxs.desc.rqtype with
    | .memToDev | .devToMem => emitMov .ccr (dregsCcr pxs transferLength) ++ ldstPeripheral pl330 pxs 1 .burst
    | .memToMem => emitMov .ccr (dregsCcr pxs transferLength) ++ ldstMemtomem pl330 1
    | .devToDev | .transNone => nop

/-! ### Loops -/

/-- `lcnt1`, `lcnt0` and the first value of `cyc` in `_loop`. -/
structure LoopCounts where
  lcnt1 : ℕ
  lcnt0 : ℕ
  cyc : ℕ

/-- A loop has at most 256 rounds. -/
def loopCounts (n : ℕ) : LoopCounts :=
  if n ≥ 256 * 256 then ⟨256, 256, n / 256 / 256⟩ else if n > 256 then ⟨256, n / 256, 1⟩ else ⟨n, 0, 1⟩

/-- The inner loop. -/
def innerLoop (lcnt1 cyc : ℕ) : Generator Byte :=
  emitLp true (BitVec.ofNat 8 lcnt1) ++
    (bursts pl330 pxs cyc).andThen fun size => emitLpend ⟨.always, false, true, BitVec.ofNat 8 size⟩

/-- The loops of `_loop`. A jump back is as long as the code that was written since the loop began. -/
def loopCode (lcnt1 lcnt0 cyc : ℕ) : Generator Byte :=
  if lcnt0 = 0 then innerLoop pl330 pxs lcnt1 cyc
  else
    emitLp false (BitVec.ofNat 8 lcnt0) ++
      (innerLoop pl330 pxs lcnt1 cyc).andThen fun size => emitLpend ⟨.always, false, false, BitVec.ofNat 8 size⟩

/-- `_loop`, with the number of bursts that it leaves in `*bursts`. The sizes come from dry runs. -/
def loop (n : ℕ) (dryRun : Bool) (buf : ℕ) : Traced (ℕ × Byte) (ℕ × ℕ) :=
  if n = 1 then do
    let off ← (bursts pl330 pxs 1).run dryRun buf
    pure (off, n)
  else do
    let szlp ← (emitLp false 0).run true buf
    let szbrst ← (bursts pl330 pxs 1).run true buf
    let szlpend ← (emitLpend ⟨.always, false, false, 0⟩).run true buf
    let k := if (loopCounts n).lcnt0 = 0 then 1 else 2
    let cycmax := (255 - (szlp * k + szlpend * k)) / szbrst
    let cyc := if cycmax < (loopCounts n).cyc then cycmax else (loopCounts n).cyc
    let off ← (loopCode pl330 pxs (loopCounts n).lcnt1 (loopCounts n).lcnt0 cyc).run dryRun buf
    pure (off, if (loopCounts n).lcnt0 = 0 then (loopCounts n).lcnt1 * cyc else (loopCounts n).lcnt1 * cyc * (loopCounts n).lcnt0)

/-- `bursts -= c` on an `unsigned long` -/
def subLong (n c : ℕ) : ℕ := (n + 2 ^ 64 - c) % 2 ^ 64

/-- The loop of `_setup_loops`. -/
def setupLoopsFrom (dryRun : Bool) : ℕ → ℕ → ℕ → Traced (ℕ × Byte) ℕ
  | 0, _, _ => Traced.unfinished
  | fuel + 1, n, buf =>
      if n = 0 then pure 0
      else do
        let r ← loop pl330 pxs n dryRun buf
        let off ← setupLoopsFrom dryRun fuel (subLong n r.2) (buf + r.1)
        pure (r.1 + off)

/-- `BYTE_TO_BURST(x->bytes, ccr)` -/
def numBursts : ℕ := pxs.desc.bytes.toNat / brstSize pxs.ccr / brstLen pxs.ccr

/-- `num_dregs` of `_setup_loops` -/
def numDregs : ℕ :=
  (pxs.desc.bytes.toNat - numBursts pxs * brstSize pxs.ccr * brstLen pxs.ccr) / brstSize pxs.ccr

variable (fuel : ℕ)

/-- `_setup_loops` -/
def setupLoops : Generator Byte :=
  Generator.mk (fun dryRun buf => setupLoopsFrom pl330 pxs dryRun fuel (numBursts pxs) buf) ++
    dregs pl330 pxs (numDregs pxs)

/-- `_setup_xfer` -/
def setupXfer : Generator Byte :=
  emitMov .sar pxs.desc.srcAddr ++ emitMov .dar pxs.desc.dstAddr ++ setupLoops pl330 pxs fuel

/-- `_setup_req`, for a thread with the event `ev` -/
def setupReq (ev : Byte) : Generator Byte :=
  emitMov .ccr pxs.ccr ++ setupXfer pl330 pxs fuel ++ emitSev ev ++ emitEnd

/-- `_prepare_ccr` -/
def prepareCcr (rqc : Reqcfg) : BitVec 32 :=
  (if rqc.srcInc then 1#32 <<< 0 else 0#32) ||| (if rqc.dstInc then 1#32 <<< 14 else 0#32) |||
    (if rqc.privileged then 1#32 <<< 8 ||| 1#32 <<< 22 else 0#32) |||
    (if rqc.nonsecure then 1#32 <<< 9 ||| 1#32 <<< 23 else 0#32) |||
    (if rqc.insnaccess then 1#32 <<< 10 ||| 1#32 <<< 24 else 0#32) |||
    ((rqc.brstLen.setWidth 32 - 1) &&& 0xf) <<< 4 ||| ((rqc.brstLen.setWidth 32 - 1) &&& 0xf) <<< 18 |||
    rqc.brstSize.setWidth 32 <<< 1 ||| rqc.brstSize.setWidth 32 <<< 15 |||
    rqc.scctl.setWidth 32 <<< 11 ||| rqc.dcctl.setWidth 32 <<< 25 ||| rqc.swap.setWidth 32 <<< 28

/-! ### Requests -/

/-- What is used of a `struct pl330_thread`: the descriptors of its two requests, and their buffers. -/
structure Thread where
  id : Byte
  ev : Byte
  req0 : Option Desc
  req1 : Option Desc
  lstenq : ℕ

/-- The index of the request that is free. -/
def Thread.freeIdx (thrd : Thread) : ℕ := if thrd.req0 = none then 0 else 1

/-- The request `idx` is taken for `desc`. -/
def Thread.hook (thrd : Thread) (desc : Desc) : Thread :=
  if thrd.freeIdx = 0 then { thrd with req0 := some desc, lstenq := 0 } else { thrd with req1 := some desc, lstenq := 1 }

/-- `desc` with the protection that the manager needs. -/
def Desc.secured (desc : Desc) : Desc := { desc with rqcfg := { desc.rqcfg with nonsecure := pl330.modeNs } }

/-- `xs` -/
def xferSpec (desc : Desc) : XferSpec := ⟨prepareCcr (desc.secured pl330).rqcfg, desc.secured pl330⟩

/-- `pl330_submit_req`. What is written is written to the buffer of the request that is free. -/
def submitReq (thrd : Thread) (desc : Desc) : Traced (ℕ × Byte) (ℤ × Thread) :=
  if desc.rqtype = .devToDev ∨ desc.rqtype = .transNone then pure (-ENOTSUPP, thrd)
  else if pl330.dying ∨ pl330.resetChan.toNat.testBit thrd.id.toNat then pure (-EAGAIN, thrd)
  else if desc.rqtype ≠ .memToMem ∧ pl330.numPeri.toNat ≤ desc.peri.toNat then pure (-EINVAL, thrd)
  else if thrd.req0 ≠ none ∧ thrd.req1 ≠ none then pure (-EAGAIN, thrd)
  else do
    let size ← (setupReq pl330 (xferSpec pl330 desc) fuel thrd.ev).run true 0
    if size > pl330.mcbufsz.toNat / 2 then pure (-ENOMEM, thrd)
    else do
      let _ ← (setupReq pl330 (xferSpec pl330 desc) fuel thrd.ev).run false 0
      pure (0, thrd.hook (desc.secured pl330))

end GfpDrivers.Dma
