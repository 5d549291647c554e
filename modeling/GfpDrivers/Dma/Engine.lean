import GfpDrivers.Dma.Ccr
import GfpDrivers.Dma.Program
import GfpDrivers.Lib.Bytecode

/-!
The PL330 as a machine that runs bytes. This is the meaning of the instructions, which is not part of the driver: a load takes
a burst from the source into the queue of the channel, a store takes one out of it, and both are only done for the kind of
request that was waited for. What a channel has done is the list of the bytes it moved, with both addresses of each, and of the
events it signalled.
-/

namespace GfpDrivers.Dma

open Lib

inductive Action where
  | move (src dst : BitVec 32)
  | event (ev : Byte)
deriving DecidableEq

/-- The registers of a channel. The queue has the address of every byte that was loaded and not stored yet. -/
structure Regs where
  sar : BitVec 32
  dar : BitVec 32
  ccr : BitVec 32
  lc0 : Byte
  lc1 : Byte
  request : Cond
  fifo : List (BitVec 32)
  log : List Action

/-- The address of byte `i` on one side. The beats of a burst to a fixed address all go to that address. -/
def addrOf (inc : Bool) (size : ℕ) (start : BitVec 32) (i : ℕ) : BitVec 32 :=
  start + BitVec.ofNat 32 (if inc then i else i % size)

/-- The address register after `n` bytes. -/
def advance (inc : Bool) (start : BitVec 32) (n : ℕ) : BitVec 32 := if inc then start + BitVec.ofNat 32 n else start

namespace Regs

def load (r : Regs) : Regs :=
  { r with
    fifo := r.fifo ++ (List.range (brstSize r.ccr * brstLen r.ccr)).map (addrOf (srcInc r.ccr) (brstSize r.ccr) r.sar)
    sar := advance (srcInc r.ccr) r.sar (brstSize r.ccr * brstLen r.ccr) }

/-- A store needs a whole burst in the queue. -/
def store (r : Regs) : Option Regs :=
  if dstBrstSize r.ccr * dstBrstLen r.ccr ≤ r.fifo.length then
    some { r with
      fifo := r.fifo.drop (dstBrstSize r.ccr * dstBrstLen r.ccr)
      log := r.log ++ List.zipWith .move (r.fifo.take (dstBrstSize r.ccr * dstBrstLen r.ccr))
        ((List.range (dstBrstSize r.ccr * dstBrstLen r.ccr)).map (addrOf (dstInc r.ccr) (dstBrstSize r.ccr) r.dar))
      dar := advance (dstInc r.ccr) r.dar (dstBrstSize r.ccr * dstBrstLen r.ccr) }
  else none

def lc (r : Regs) (loop : Bool) : Byte := if loop then r.lc1 else r.lc0

def setLc (r : Regs) (loop : Bool) (cnt : Byte) : Regs := if loop then { r with lc1 := cnt } else { r with lc0 := cnt }

def setReg (r : Regs) (dst : DmamovDst) (val : BitVec 32) : Regs :=
  match dst with
  | .sar => { r with sar := val }
  | .ccr => { r with ccr := val }
  | .dar => { r with dar := val }

/-- An instruction for one kind of request does nothing for the other one. -/
def Runs (r : Regs) (cond : Cond) : Prop := cond = .always ∨ r.request = cond

instance (r : Regs) (cond : Cond) : Decidable (r.Runs cond) := inferInstanceAs (Decidable (_ ∨ _))

end Regs

def Instr.exec : Instr → Regs → Option (Next × Regs)
  | .done, r => some (.stop, r)
  | .flushp _, r => some (.following, r)
  | .ld cond, r => some (.following, if r.Runs cond then r.load else r)
  | .ldp cond _, r => some (.following, if r.Runs cond then r.load else r)
  | .lp loop cnt, r => some (.following, r.setLc loop cnt)
  | .lpend arg, r =>
      if ¬r.Runs arg.cond then some (.following, r)
      else if arg.forever then some (.back arg.bjump.toNat, r)
      else if r.lc arg.loop = 0 then some (.following, r)
      else some (.back arg.bjump.toNat, r.setLc arg.loop (r.lc arg.loop - 1))
  | .mov dst val, r => some (.following, r.setReg dst val)
  | .rmb, r => some (.following, r)
  | .sev ev, r => some (.following, { r with log := r.log ++ [.event ev] })
  | .st cond, r => if r.Runs cond then r.store.map fun r' => (.following, r') else some (.following, r)
  | .stp cond _, r => if r.Runs cond then r.store.map fun r' => (.following, r') else some (.following, r)
  -- a wait for whatever the peripheral asks for has no meaning here, and no program has one
  | .wfp cond _, r => if cond = .always then none else some (.following, { r with request := cond })
  | .wmb, r => some (.following, r)

/-! ### Decoding -/

/-- The value of four bytes, the lowest one first. -/
def word (b₀ b₁ b₂ b₃ : Byte) : BitVec 32 :=
  b₀.setWidth 32 ||| b₁.setWidth 32 <<< 8 ||| b₂.setWidth 32 <<< 16 ||| b₃.setWidth 32 <<< 24

/-- Instructions of one byte. -/
def decodeOne : ℕ → Option Instr
  | 0x00 => some .done
  | 0x04 => some (.ld .always)
  | 0x05 => some (.ld .single)
  | 0x07 => some (.ld .burst)
  | 0x08 => some (.st .always)
  | 0x09 => some (.st .single)
  | 0x0b => some (.st .burst)
  | 0x12 => some .rmb
  | 0x13 => some .wmb
  | _ => none

/-- Instructions of two bytes. -/
def decodeTwo (arg : Byte) : ℕ → Option Instr
  | 0x20 => some (.lp false arg)
  | 0x22 => some (.lp true arg)
  | 0x25 => some (.ldp .single (arg >>> 3))
  | 0x27 => some (.ldp .burst (arg >>> 3))
  | 0x28 => some (.lpend ⟨.always, true, false, arg⟩)
  | 0x29 => some (.stp .single (arg >>> 3))
  | 0x2b => some (.stp .burst (arg >>> 3))
  | 0x2c => some (.lpend ⟨.always, true, true, arg⟩)
  | 0x30 => some (.wfp .single (arg >>> 3))
  | 0x31 => some (.wfp .always (arg >>> 3))
  | 0x32 => some (.wfp .burst (arg >>> 3))
  | 0x34 => some (.sev (arg >>> 3))
  | 0x35 => some (.flushp (arg >>> 3))
  | 0x38 => some (.lpend ⟨.always, false, false, arg⟩)
  | 0x39 => some (.lpend ⟨.single, false, false, arg⟩)
  | 0x3b => some (.lpend ⟨.burst, false, false, arg⟩)
  | 0x3c => some (.lpend ⟨.always, false, true, arg⟩)
  | 0x3d => some (.lpend ⟨.single, false, true, arg⟩)
  | 0x3f => some (.lpend ⟨.burst, false, true, arg⟩)
  | _ => none

def decodeDst : ℕ → Option DmamovDst
  | 0 => some .sar
  | 1 => some .ccr
  | 2 => some .dar
  | _ => none

/-- The instruction at the begin of some bytes. -/
def decode : List Byte → Option Instr
  | [] => none
  | op :: rest =>
      match decodeOne op.toNat with
      | some i => some i
      | none =>
          match rest with
          | [] => none
          | arg :: rest =>
              match decodeTwo arg op.toNat with
              | some i => some i
              | none =>
                  match rest with
                  | b₀ :: b₁ :: b₂ :: b₃ :: _ =>
                      if op = CMD_DMAMOV then (decodeDst arg.toNat).map fun dst => .mov dst (word b₀ b₁ b₂ b₃) else none
                  | _ => none

/-- The instructions whose bytes determine them: the number of a peripheral or an event has five bits, a peripheral load or store
is for one kind of request, and a loop forever has no condition. -/
def Instr.Encodable : Instr → Prop
  | .flushp peri => peri &&& 0x1f = peri
  | .ldp cond peri => cond ≠ .always ∧ peri &&& 0x1f = peri
  | .stp cond peri => cond ≠ .always ∧ peri &&& 0x1f = peri
  | .wfp _ peri => peri &&& 0x1f = peri
  | .sev ev => ev &&& 0x1f = ev
  | .lpend arg => arg.forever → arg.cond = .always
  | _ => True

theorem periField_shift {peri : Byte} (h : peri &&& 0x1f = peri) : periField peri >>> 3 = peri := by
  revert peri
  decide

theorem word_bytes (val : BitVec 32) :
    word (val.setWidth 8) ((val >>> 8).setWidth 8) ((val >>> 16).setWidth 8) ((val >>> 24).setWidth 8) = val := by
  apply BitVec.eq_of_getLsbD_eq
  intro i hi
  unfold word
  interval_cases i <;> simp

/-- Decoding undoes `Instr.bytes`, whatever follows. -/
theorem decode_bytes {i : Instr} (h : i.Encodable) (rest : List Byte) : decode (i.bytes ++ rest) = some i := by
  cases i with
  | done => rfl
  | flushp peri => exact congrArg (some ∘ Instr.flushp) (periField_shift h)
  | ld cond => cases cond <;> rfl
  | ldp cond peri =>
    cases cond with
    | single => exact congrArg (some ∘ Instr.ldp .single) (periField_shift h.2)
    | burst => exact congrArg (some ∘ Instr.ldp .burst) (periField_shift h.2)
    | always => exact absurd rfl h.1
  | lp loop cnt => cases loop <;> rfl
  | lpend arg =>
    obtain ⟨cond, forever, loop, bjump⟩ := arg
    cases forever with
    | true =>
      obtain rfl : cond = .always := h rfl
      cases loop <;> simp [decode, decodeOne, decodeTwo, Instr.bytes, CMD_DMALPEND, Cond.bits]
    | false =>
      cases cond <;> cases loop <;> simp [decode, decodeOne, decodeTwo, Instr.bytes, CMD_DMALPEND, Cond.bits]
  | mov dst val =>
    have hword := congrArg (some ∘ Instr.mov dst) (word_bytes val)
    cases dst <;> exact hword
  | rmb => rfl
  | sev ev => exact congrArg (some ∘ Instr.sev) (periField_shift h)
  | st cond => cases cond <;> rfl
  | stp cond peri =>
    cases cond with
    | single => exact congrArg (some ∘ Instr.stp .single) (periField_shift h.2)
    | burst => exact congrArg (some ∘ Instr.stp .burst) (periField_shift h.2)
    | always => exact absurd rfl h.1
  | wfp cond peri =>
    cases cond with
    | single => exact congrArg (some ∘ Instr.wfp .single) (periField_shift h)
    | burst => exact congrArg (some ∘ Instr.wfp .burst) (periField_shift h)
    | always => exact congrArg (some ∘ Instr.wfp .always) (periField_shift h)
  | wmb => rfl

/-- The engine. -/
def engine : Bytecode Byte Instr Regs := ⟨Instr.bytes, decode, Instr.exec⟩

theorem coded {i : Instr} (h : i.Encodable) : engine.Coded i := decode_bytes h

end GfpDrivers.Dma
