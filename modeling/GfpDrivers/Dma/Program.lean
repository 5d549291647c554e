import GfpDrivers.Dma.Microcode

/-!
The programs that are written for a request, as lists of instructions. Both runs of a generator return the size of its
program in bytes, and the second one writes just these bytes. For every number of bursts a pass of the loop takes at least
one of them and no more than there are, so that the loop ends.
-/

namespace GfpDrivers.Dma

open Lib Generator

/-- The instructions that are used. A loop instruction has the number of rounds after the first. -/
inductive Instr where
  | done
  | flushp (peri : Byte)
  | ld (cond : Cond)
  | ldp (cond : Cond) (peri : Byte)
  | lp (loop : Bool) (cnt : Byte)
  | lpend (arg : ArgLpend)
  | mov (dst : DmamovDst) (val : BitVec 32)
  | rmb
  | sev (ev : Byte)
  | st (cond : Cond)
  | stp (cond : Cond) (peri : Byte)
  | wfp (cond : Cond) (peri : Byte)
  | wmb

/-- The bytes of an instruction. -/
def Instr.bytes : Instr → List Byte
  | .done => [CMD_DMAEND]
  | .flushp peri => [CMD_DMAFLUSHP, periField peri]
  | .ld cond => [CMD_DMALD ||| cond.bits]
  | .ldp cond peri => [CMD_DMALDP ||| cond.burstBit, periField peri]
  | .lp loop cnt => [CMD_DMALP ||| (if loop then 1#8 <<< 1 else 0#8), cnt]
  | .lpend arg =>
      [CMD_DMALPEND ||| (if arg.loop then 1#8 <<< 2 else 0#8) ||| (if arg.forever then 0#8 else 1#8 <<< 4) ||| arg.cond.bits,
        arg.bjump]
  | .mov dst val =>
      [CMD_DMAMOV, dst.val, val.setWidth 8, (val >>> 8).setWidth 8, (val >>> 16).setWidth 8, (val >>> 24).setWidth 8]
  | .rmb => [CMD_DMARMB]
  | .sev ev => [CMD_DMASEV, periField ev]
  | .st cond => [CMD_DMAST ||| cond.bits]
  | .stp cond peri => [CMD_DMASTP ||| cond.burstBit, periField peri]
  | .wfp cond peri =>
      [CMD_DMAWFP ||| (match cond with
          | .single => 0#8 <<< 1 ||| 0#8 <<< 0
          | .burst => 1#8 <<< 1 ||| 0#8 <<< 0
          | .always => 0#8 <<< 1 ||| 1#8 <<< 0), periField peri]
  | .wmb => [CMD_DMAWMB]

/-- The bytes of a program. -/
def assemble (is : List Instr) : List Byte := is.flatMap Instr.bytes

variable {is is' : List Instr} {g g' : Generator Byte} {f : ℕ → Generator Byte}

@[simp] theorem assemble_append : assemble (is ++ is') = assemble is ++ assemble is' := List.flatMap_append

@[simp] theorem assemble_nil : assemble [] = [] := rfl

/-- The generator writes the program. -/
def Writes (g : Generator Byte) (is : List Instr) : Prop := Emits g (assemble is)

theorem Writes.append (h : Writes g is) (h' : Writes g' is') : Writes (g ++ g') (is ++ is') := by
  rw [Writes, assemble_append]
  exact Emits.append h h'

theorem Writes.andThen (h : Writes g is) (h' : Writes (f (assemble is).length) is') : Writes (g.andThen f) (is ++ is') := by
  rw [Writes, assemble_append]
  exact Emits.andThen h h'

theorem Writes.times (h : Writes g is) (n : ℕ) : Writes (g.times n) (List.replicate n is).flatten := by
  have hcode : assemble (List.replicate n is).flatten = (List.replicate n (assemble is)).flatten := by
    induction n with
    | zero => rfl
    | succ n ih => rw [List.replicate_succ, List.flatten_cons, assemble_append, ih, List.replicate_succ, List.flatten_cons]
  rw [Writes, hcode]
  exact Emits.times h n

theorem writes_nop : Writes nop [] := emits_nop

theorem writes_emitLd (cond : Cond) : Writes (emitLd cond) [.ld cond] := emits_emit

theorem writes_emitLdp (cond : Cond) (peri : Byte) : Writes (emitLdp cond peri) [.ldp cond peri] := emits_emit

theorem writes_emitSt (cond : Cond) : Writes (emitSt cond) [.st cond] := emits_emit

theorem writes_emitStp (cond : Cond) (peri : Byte) : Writes (emitStp cond peri) [.stp cond peri] := emits_emit

theorem writes_emitWfp (cond : Cond) (peri : Byte) : Writes (emitWfp cond peri) [.wfp cond peri] := emits_emit

theorem writes_emitFlushp (peri : Byte) : Writes (emitFlushp peri) [.flushp peri] := emits_emit

theorem writes_emitRmb : Writes emitRmb [.rmb] := emits_emit

theorem writes_emitWmb : Writes emitWmb [.wmb] := emits_emit

theorem writes_emitLp (loop : Bool) (cnt : Byte) : Writes (emitLp loop cnt) [.lp loop (cnt - 1)] := emits_emit

theorem writes_emitLpend (arg : ArgLpend) : Writes (emitLpend arg) [.lpend arg] := emits_emit

theorem writes_emitMov (dst : DmamovDst) (val : BitVec 32) : Writes (emitMov dst val) [.mov dst val] := emits_emit

theorem writes_emitSev (ev : Byte) : Writes (emitSev ev) [.sev ev] := emits_emit

theorem writes_emitEnd : Writes emitEnd [.done] := emits_emit

theorem length_assemble_times (n : ℕ) :
    (assemble (List.replicate n is).flatten).length = n * (assemble is).length := by
  induction n with
  | zero => simp
  | succ n ih =>
    rw [List.replicate_succ, List.flatten_cons, assemble_append, List.length_append, ih, Nat.succ_mul, Nat.add_comm]

/-! ### Bursts -/

variable (pl330 : Dmac) (pxs : XferSpec)

/-- One load and one store between memories. -/
def memProgram : List Instr :=
  if getRevision pl330.periphId ≥ PERIPH_REV_R1P0 then [.ld .always, .st .always] else [.ld .always, .rmb, .st .always, .wmb]

theorem writes_ldstMemtomem (cyc : ℕ) : Writes (ldstMemtomem pl330 cyc) (List.replicate cyc (memProgram pl330)).flatten := by
  unfold ldstMemtomem memProgram
  split
  · exact ((writes_emitLd _).append (writes_emitSt _)).times cyc
  · exact ((((writes_emitLd _).append writes_emitRmb).append (writes_emitSt _)).append writes_emitWmb).times cyc

/-- A load for a peripheral. -/
def loadProgram (cond : Cond) (direction : Direction) (peri : Byte) : List Instr :=
  match direction with
  | .memToMem | .memToDev => [.ld cond]
  | .devToMem => if cond = .always then [.ldp .single peri, .ldp .burst peri] else [.ldp cond peri]
  | .devToDev | .transNone => []

def storeProgram (cond : Cond) (direction : Direction) (peri : Byte) : List Instr :=
  match direction with
  | .memToMem | .devToMem => [.st cond]
  | .memToDev => if cond = .always then [.stp .single peri, .stp .burst peri] else [.stp cond peri]
  | .devToDev | .transNone => []

theorem writes_emitLoad (cond : Cond) (direction : Direction) (peri : Byte) :
    Writes (emitLoad cond direction peri) (loadProgram cond direction peri) := by
  cases direction with
  | memToMem => exact writes_emitLd cond
  | memToDev => exact writes_emitLd cond
  | devToMem =>
    rw [emitLoad, loadProgram]
    split
    · exact (writes_emitLdp .single peri).append (writes_emitLdp .burst peri)
    · exact writes_emitLdp cond peri
  | devToDev => exact writes_nop
  | transNone => exact writes_nop

theorem writes_emitStore (cond : Cond) (direction : Direction) (peri : Byte) :
    Writes (emitStore cond direction peri) (storeProgram cond direction peri) := by
  cases direction with
  | memToMem => exact writes_emitSt cond
  | devToMem => exact writes_emitSt cond
  | memToDev =>
    rw [emitStore, storeProgram]
    split
    · exact (writes_emitStp .single peri).append (writes_emitStp .burst peri)
    · exact writes_emitStp cond peri
  | devToDev => exact writes_nop
  | transNone => exact writes_nop

/-- What comes before the bursts of a peripheral. -/
def flushProgram : List Instr := if pl330.brokenNoFlushp then [] else [.flushp pxs.desc.periByte]

/-- A burst of a peripheral. -/
def periProgram (cond : Cond) : List Instr :=
  .wfp cond pxs.desc.periByte :: (loadProgram cond pxs.desc.rqtype pxs.desc.periByte ++
    storeProgram cond pxs.desc.rqtype pxs.desc.periByte)

theorem writes_ldstPeripheral (cyc : ℕ) (cond : Cond) :
    Writes (ldstPeripheral pl330 pxs cyc cond)
      (flushProgram pl330 pxs ++ (List.replicate cyc (periProgram pxs cond)).flatten) := by
  have hflush : Writes (if pl330.brokenNoFlushp then nop else emitFlushp pxs.desc.periByte) (flushProgram pl330 pxs) := by
    unfold flushProgram
    split
    · exact writes_nop
    · exact writes_emitFlushp _
  have hburst := ((writes_emitWfp cond pxs.desc.periByte).append
    (writes_emitLoad cond pxs.desc.rqtype pxs.desc.periByte)).append (writes_emitStore cond pxs.desc.rqtype pxs.desc.periByte)
  exact hflush.append (hburst.times cyc)

/-- What comes before the bursts. -/
def headProgram : List Instr :=
  match pxs.desc.rqtype with
  | .memToDev | .devToMem => flushProgram pl330 pxs
  | .memToMem | .devToDev | .transNone => []

/-- One burst. -/
def burstProgram : List Instr :=
  match pxs.desc.rqtype with
  | .memToDev | .devToMem => periProgram pxs (burstCond pl330 pxs)
  | .memToMem => memProgram pl330
  | .devToDev | .transNone => []

def burstsProgram (cyc : ℕ) : List Instr := headProgram pl330 pxs ++ (List.replicate cyc (burstProgram pl330 pxs)).flatten

theorem writes_bursts (cyc : ℕ) : Writes (bursts pl330 pxs cyc) (burstsProgram pl330 pxs cyc) := by
  rw [bursts, burstsProgram, headProgram, burstProgram]
  cases pxs.desc.rqtype with
  | memToMem => exact writes_ldstMemtomem pl330 cyc
  | memToDev => exact writes_ldstPeripheral pl330 pxs cyc _
  | devToMem => exact writes_ldstPeripheral pl330 pxs cyc _
  | devToDev => simpa using writes_nop
  | transNone => simpa using writes_nop

/-- The transfer with the rest of the bytes. -/
def dregsProgram (n : ℕ) : List Instr :=
  if n = 0 then []
  else
    match pxs.desc.rqtype with
    | .memToDev | .devToMem =>
        [.mov .ccr (dregsCcr pxs n)] ++ (flushProgram pl330 pxs ++ (List.replicate 1 (periProgram pxs .burst)).flatten)
    | .memToMem => [.mov .ccr (dregsCcr pxs n)] ++ (List.replicate 1 (memProgram pl330)).flatten
    | .devToDev | .transNone => []

theorem writes_dregs (n : ℕ) : Writes (dregs pl330 pxs n) (dregsProgram pl330 pxs n) := by
  rw [dregs, dregsProgram]
  split
  · exact writes_nop
  cases pxs.desc.rqtype with
  | memToMem => exact (writes_emitMov _ _).append (writes_ldstMemtomem pl330 1)
  | memToDev => exact (writes_emitMov _ _).append (writes_ldstPeripheral pl330 pxs 1 .burst)
  | devToMem => exact (writes_emitMov _ _).append (writes_ldstPeripheral pl330 pxs 1 .burst)
  | devToDev => exact writes_nop
  | transNone => exact writes_nop

/-! ### A pass of the loop -/

def innerProgram (lcnt1 cyc : ℕ) : List Instr :=
  [.lp true (BitVec.ofNat 8 lcnt1 - 1)] ++ (burstsProgram pl330 pxs cyc ++
    [.lpend ⟨.always, false, true, BitVec.ofNat 8 (assemble (burstsProgram pl330 pxs cyc)).length⟩])

def loopProgram (lcnt1 lcnt0 cyc : ℕ) : List Instr :=
  if lcnt0 = 0 then innerProgram pl330 pxs lcnt1 cyc
  else
    [.lp false (BitVec.ofNat 8 lcnt0 - 1)] ++ (innerProgram pl330 pxs lcnt1 cyc ++
      [.lpend ⟨.always, false, false, BitVec.ofNat 8 (assemble (innerProgram pl330 pxs lcnt1 cyc)).length⟩])

theorem writes_innerLoop (lcnt1 cyc : ℕ) : Writes (innerLoop pl330 pxs lcnt1 cyc) (innerProgram pl330 pxs lcnt1 cyc) :=
  (writes_emitLp _ _).append ((writes_bursts pl330 pxs cyc).andThen (writes_emitLpend _))

theorem writes_loopCode (lcnt1 lcnt0 cyc : ℕ) :
    Writes (loopCode pl330 pxs lcnt1 lcnt0 cyc) (loopProgram pl330 pxs lcnt1 lcnt0 cyc) := by
  unfold loopCode loopProgram
  split
  · exact writes_innerLoop pl330 pxs lcnt1 cyc
  · exact (writes_emitLp _ _).append ((writes_innerLoop pl330 pxs lcnt1 cyc).andThen (writes_emitLpend _))

/-- `szbrst` -/
def szbrst : ℕ := (assemble (burstsProgram pl330 pxs 1)).length

/-- `cycmax`: a jump back has 8 bits. -/
def cycmax (n : ℕ) : ℕ :=
  (255 - (2 * (if (loopCounts n).lcnt0 = 0 then 1 else 2) + 2 * (if (loopCounts n).lcnt0 = 0 then 1 else 2))) /
    szbrst pl330 pxs

/-- The `cyc` that is used. -/
def cyc (n : ℕ) : ℕ :=
  if cycmax pl330 pxs n < (loopCounts n).cyc then cycmax pl330 pxs n else (loopCounts n).cyc

/-- How many of `n` bursts a pass takes. -/
def taken (n : ℕ) : ℕ :=
  if n = 1 then 1
  else if (loopCounts n).lcnt0 = 0 then (loopCounts n).lcnt1 * cyc pl330 pxs n
  else (loopCounts n).lcnt1 * cyc pl330 pxs n * (loopCounts n).lcnt0

def passProgram (n : ℕ) : List Instr :=
  if n = 1 then burstsProgram pl330 pxs 1
  else loopProgram pl330 pxs (loopCounts n).lcnt1 (loopCounts n).lcnt0 (cyc pl330 pxs n)

theorem loop_eq (n : ℕ) (dryRun : Bool) (buf : ℕ) : loop pl330 pxs n dryRun buf =
    (emit (assemble (passProgram pl330 pxs n))).run dryRun buf >>= fun off => pure (off, taken pl330 pxs n) := by
  rw [loop, passProgram, taken]
  split
  next h => rw [(writes_bursts pl330 pxs 1) dryRun buf, h]
  next h =>
    have hlp : (emitLp false 0).run true buf = pure 2 := rfl
    have hlpend : (emitLpend ⟨.always, false, false, 0⟩).run true buf = pure 2 := rfl
    rw [hlp, Traced.pure_bind, Emits.run_true (writes_bursts pl330 pxs 1), Traced.pure_bind, hlpend, Traced.pure_bind,
      ← szbrst]
    dsimp only
    rw [← cycmax, ← cyc, writes_loopCode pl330 pxs]

/-! ### Progress -/

/-- The requests that are accepted. -/
def Direction.Supported (direction : Direction) : Prop := direction ≠ .devToDev ∧ direction ≠ .transNone

variable {pxs} {n : ℕ}

variable (pxs) in
theorem burstCond_ne_always : burstCond pl330 pxs ≠ .always := by
  unfold burstCond
  split_ifs <;> decide

theorem length_memProgram : (assemble (memProgram pl330)).length = 2 ∨ (assemble (memProgram pl330)).length = 4 := by
  unfold memProgram
  split
  · exact .inl rfl
  · exact .inr rfl

variable (pxs) in
theorem length_flushProgram : (assemble (flushProgram pl330 pxs)).length ≤ 2 := by
  unfold flushProgram
  split
  · exact Nat.zero_le 2
  · exact le_rfl

theorem length_periProgram (cond : Cond) (hc : cond ≠ .always)
    (hr : pxs.desc.rqtype = .memToDev ∨ pxs.desc.rqtype = .devToMem) : (assemble (periProgram pxs cond)).length = 5 := by
  unfold periProgram
  obtain hr | hr := hr
  · rw [hr, loadProgram, storeProgram, if_neg hc]
    rfl
  · rw [hr, loadProgram, storeProgram, if_neg hc]
    rfl

theorem length_burstsProgram (c : ℕ) : (assemble (burstsProgram pl330 pxs c)).length =
    (assemble (headProgram pl330 pxs)).length + c * (assemble (burstProgram pl330 pxs)).length := by
  rw [burstsProgram, assemble_append, List.length_append, length_assemble_times]

theorem szbrst_eq : szbrst pl330 pxs =
    (assemble (headProgram pl330 pxs)).length + (assemble (burstProgram pl330 pxs)).length := by
  rw [szbrst, length_burstsProgram, Nat.one_mul]

theorem szbrst_pos (hs : pxs.desc.rqtype.Supported) : 0 < szbrst pl330 pxs := by
  rw [szbrst_eq, burstProgram]
  obtain ⟨h1, h2⟩ := hs
  have hc := burstCond_ne_always pl330 pxs
  cases hr : pxs.desc.rqtype with
  | memToMem => have := length_memProgram pl330; dsimp only; omega
  | memToDev => have := length_periProgram _ hc (.inl hr); dsimp only; omega
  | devToMem => have := length_periProgram _ hc (.inr hr); dsimp only; omega
  | devToDev => exact absurd hr h1
  | transNone => exact absurd hr h2

variable (pxs) in
theorem szbrst_le : szbrst pl330 pxs ≤ 7 := by
  rw [szbrst_eq, burstProgram, headProgram]
  have hc := burstCond_ne_always pl330 pxs
  have hflush := length_flushProgram pl330 pxs
  cases hr : pxs.desc.rqtype with
  | memToMem => have := length_memProgram pl330; dsimp only [assemble_nil, List.length_nil]; omega
  | memToDev => have := length_periProgram _ hc (.inl hr); dsimp only; omega
  | devToMem => have := length_periProgram _ hc (.inr hr); dsimp only; omega
  | devToDev => exact Nat.zero_le 7
  | transNone => exact Nat.zero_le 7

theorem loopCounts_cyc_pos : 0 < (loopCounts n).cyc := by
  unfold loopCounts
  split_ifs <;> dsimp only <;> omega

theorem cycmax_pos (hs : pxs.desc.rqtype.Supported) : 0 < cycmax pl330 pxs n := by
  have hle := szbrst_le pl330 pxs
  have hroom : 7 ≤ 255 - (2 * (if (loopCounts n).lcnt0 = 0 then 1 else 2) +
      2 * (if (loopCounts n).lcnt0 = 0 then 1 else 2)) := by
    split_ifs <;> decide
  exact Nat.div_pos (hle.trans hroom) (szbrst_pos pl330 hs)

theorem cyc_pos (hs : pxs.desc.rqtype.Supported) : 0 < cyc pl330 pxs n := by
  unfold cyc
  split
  · exact cycmax_pos pl330 hs
  · exact loopCounts_cyc_pos

variable (pxs n) in
theorem cyc_le : cyc pl330 pxs n ≤ (loopCounts n).cyc := by
  unfold cyc
  split
  next h => exact h.le
  next => exact le_rfl

theorem cyc_le_cycmax : cyc pl330 pxs n ≤ cycmax pl330 pxs n := by
  unfold cyc
  split
  next => exact le_rfl
  next h => exact Nat.le_of_not_lt h

theorem loopCounts_of_big (h : 256 * 256 ≤ n) : loopCounts n = ⟨256, 256, n / 256 / 256⟩ := if_pos h

theorem loopCounts_of_mid (h : 256 < n) (h' : n < 256 * 256) : loopCounts n = ⟨256, n / 256, 1⟩ := by
  rw [loopCounts, if_neg (by omega), if_pos h]

theorem loopCounts_of_small (h : n ≤ 256) : loopCounts n = ⟨n, 0, 1⟩ := by
  rw [loopCounts, if_neg (by omega), if_neg (by omega)]

theorem taken_of_big (h : 256 * 256 ≤ n) : taken pl330 pxs n = 256 * 256 * cyc pl330 pxs n := by
  rw [taken, if_neg (by omega), loopCounts_of_big h, if_neg (Nat.succ_ne_zero 255)]
  dsimp only
  omega

/-- A loop of one level and one of two levels with less than 2 ^ 16 rounds have one burst in each round. -/
theorem cyc_eq_one (hs : pxs.desc.rqtype.Supported) (h : n < 256 * 256) : cyc pl330 pxs n = 1 := by
  have hpos := cyc_pos pl330 (n := n) hs
  have hle := cyc_le pl330 pxs n
  obtain h' | h' := Nat.lt_or_ge 256 n
  · rw [loopCounts_of_mid h' h] at hle
    exact Nat.le_antisymm hle hpos
  · rw [loopCounts_of_small h'] at hle
    exact Nat.le_antisymm hle hpos

theorem taken_of_mid (hs : pxs.desc.rqtype.Supported) (h : 256 < n) (h' : n < 256 * 256) :
    taken pl330 pxs n = 256 * (n / 256) := by
  rw [taken, if_neg (by omega), cyc_eq_one pl330 hs h', loopCounts_of_mid h h', if_neg (by dsimp only; omega), Nat.mul_one]

theorem taken_of_small (hs : pxs.desc.rqtype.Supported) (h : n ≤ 256) : taken pl330 pxs n = n := by
  rw [taken, cyc_eq_one pl330 hs (by omega), loopCounts_of_small h, if_pos rfl, Nat.mul_one]
  split
  next h1 => exact h1.symm
  next => rfl

theorem taken_bounds (hs : pxs.desc.rqtype.Supported) (hn : 0 < n) : 0 < taken pl330 pxs n ∧ taken pl330 pxs n ≤ n := by
  obtain hbig | hlt := Nat.lt_or_ge n (256 * 256) |>.symm
  · have hpos := cyc_pos pl330 (n := n) hs
    have hle := cyc_le pl330 pxs n
    rw [loopCounts_of_big hbig] at hle
    rw [taken_of_big pl330 hbig]
    dsimp only at hle
    omega
  · obtain hmid | hsmall := Nat.lt_or_ge 256 n
    · rw [taken_of_mid pl330 hs hmid hlt]
      omega
    · rw [taken_of_small pl330 hs hsmall]
      omega

/-! ### The whole request -/

variable (pxs)

/-- The passes for `n` bursts. -/
def loopsProgram : ℕ → ℕ → List Instr
  | 0, _ => []
  | fuel + 1, n => if n = 0 then [] else passProgram pl330 pxs n ++ loopsProgram fuel (n - taken pl330 pxs n)

variable {pxs}

theorem subLong_of_le {c : ℕ} (hc : c ≤ n) (hn : n < 2 ^ 64) : subLong n c = n - c := by
  unfold subLong
  omega

theorem setupLoopsFrom_emits (hs : pxs.desc.rqtype.Supported) {fuel : ℕ} (hfuel : n < fuel) (hn : n < 2 ^ 64) :
    Emits ⟨fun dryRun buf => setupLoopsFrom pl330 pxs dryRun fuel n buf⟩
      (assemble (loopsProgram pl330 pxs fuel n)) := by
  induction fuel generalizing n with
  | zero => exact absurd hfuel (Nat.not_lt_zero n)
  | succ fuel ih =>
    rw [loopsProgram]
    split
    next h =>
      intro dryRun pos
      dsimp only
      rw [setupLoopsFrom, if_pos h]
      exact emits_nop dryRun pos
    next h =>
      obtain ⟨hpos, hle⟩ := taken_bounds pl330 hs (Nat.pos_of_ne_zero h)
      have hrest := Emits.andThen (f := fun _ => _) emits_emit
        (ih (n := n - taken pl330 pxs n) (by omega) (by omega)) (c := assemble (passProgram pl330 pxs n))
      intro dryRun pos
      rw [assemble_append, ← hrest dryRun pos]
      dsimp only [Generator.andThen]
      rw [setupLoopsFrom, if_neg h, loop_eq]
      cases dryRun with
      | true => rw [run_emit_true, Traced.pure_bind, Traced.pure_bind, Traced.pure_bind, subLong_of_le hle hn]
      | false =>
        have hpass : ((emit (assemble (passProgram pl330 pxs n))).run false pos >>= fun off =>
            Pure.pure (off, taken pl330 pxs n)) =
              ⟨placed pos (assemble (passProgram pl330 pxs n)),
                some ((assemble (passProgram pl330 pxs n)).length, taken pl330 pxs n)⟩ := by
          rw [run_emit_false, Traced.bind_of_result rfl, Traced.trace_pure, List.append_nil, Traced.result_pure]
        rw [hpass, run_emit_false, Traced.bind_of_result rfl, subLong_of_le hle hn]
        rfl

variable (pxs) (fuel : ℕ)

/-- The program that `_setup_req` writes. -/
def setupReqProgram (ev : Byte) : List Instr :=
  [.mov .ccr pxs.ccr] ++ ([.mov .sar pxs.desc.srcAddr] ++ [.mov .dar pxs.desc.dstAddr] ++
    (loopsProgram pl330 pxs fuel (numBursts pxs) ++ dregsProgram pl330 pxs (numDregs pxs))) ++ [.sev ev] ++ [.done]

theorem numBursts_le : numBursts pxs ≤ pxs.desc.bytes.toNat :=
  (Nat.div_le_self _ _).trans (Nat.div_le_self _ _)

theorem numBursts_lt : numBursts pxs < 2 ^ 32 := (numBursts_le pxs).trans_lt pxs.desc.bytes.isLt

variable {pxs fuel}

theorem writes_setupReq (hs : pxs.desc.rqtype.Supported) (hfuel : 2 ^ 32 ≤ fuel) (ev : Byte) :
    Writes (setupReq pl330 pxs fuel ev) (setupReqProgram pl330 pxs fuel ev) := by
  have hn := numBursts_lt pxs
  have hloops : Writes ⟨fun dryRun buf => setupLoopsFrom pl330 pxs dryRun fuel (numBursts pxs) buf⟩
      (loopsProgram pl330 pxs fuel (numBursts pxs)) := setupLoopsFrom_emits pl330 hs (by omega) (by omega)
  have haddrs := (writes_emitMov .sar pxs.desc.srcAddr).append (writes_emitMov .dar pxs.desc.dstAddr)
  have hxfer := haddrs.append (hloops.append (writes_dregs pl330 pxs (numDregs pxs)))
  exact (((writes_emitMov .ccr pxs.ccr).append hxfer).append (writes_emitSev ev)).append writes_emitEnd

/-! ### Sizes -/

theorem length_burstsProgram_le {c : ℕ} (hc : 0 < c) :
    (assemble (burstsProgram pl330 pxs c)).length ≤ c * szbrst pl330 pxs := by
  rw [length_burstsProgram, szbrst_eq, Nat.mul_add]
  have := Nat.le_mul_of_pos_left (assemble (headProgram pl330 pxs)).length hc
  omega

/-- The code between a loop instruction and its end has at most 255 bytes, so that the jump back can be written. -/
theorem length_innerProgram_le (hs : pxs.desc.rqtype.Supported) :
    (assemble (burstsProgram pl330 pxs (cyc pl330 pxs n))).length ≤
      255 - (2 * (if (loopCounts n).lcnt0 = 0 then 1 else 2) + 2 * (if (loopCounts n).lcnt0 = 0 then 1 else 2)) :=
  calc (assemble (burstsProgram pl330 pxs (cyc pl330 pxs n))).length
      ≤ cyc pl330 pxs n * szbrst pl330 pxs := length_burstsProgram_le pl330 (cyc_pos pl330 hs)
    _ ≤ cycmax pl330 pxs n * szbrst pl330 pxs := Nat.mul_le_mul_right _ (cyc_le_cycmax pl330)
    _ ≤ _ := Nat.div_mul_le_self _ _

theorem length_innerProgram (lcnt1 c : ℕ) : (assemble (innerProgram pl330 pxs lcnt1 c)).length =
    (assemble (burstsProgram pl330 pxs c)).length + 4 := by
  rw [innerProgram, assemble_append, assemble_append, List.length_append, List.length_append]
  have h1 : (assemble [Instr.lp true (BitVec.ofNat 8 lcnt1 - 1)]).length = 2 := rfl
  have h2 (arg : ArgLpend) : (assemble [Instr.lpend arg]).length = 2 := rfl
  rw [h1, h2]
  omega

theorem length_passProgram_le (hs : pxs.desc.rqtype.Supported) : (assemble (passProgram pl330 pxs n)).length ≤ 255 := by
  unfold passProgram
  split
  next h => exact (szbrst_le pl330 pxs).trans (by decide)
  next h =>
    have hbody := length_innerProgram_le pl330 (n := n) hs
    unfold loopProgram
    split
    next h0 =>
      rw [if_pos h0] at hbody
      rw [length_innerProgram]
      omega
    next h0 =>
      rw [if_neg h0] at hbody
      rw [assemble_append, assemble_append, List.length_append, List.length_append, length_innerProgram]
      have h1 : (assemble [Instr.lp false (BitVec.ofNat 8 (loopCounts n).lcnt0 - 1)]).length = 2 := rfl
      have h2 (arg : ArgLpend) : (assemble [Instr.lpend arg]).length = 2 := rfl
      rw [h1, h2]
      omega

variable (fuel) in
theorem length_loopsProgram_small (hs : pxs.desc.rqtype.Supported) (h : n ≤ 256) :
    (assemble (loopsProgram pl330 pxs fuel n)).length ≤ 255 := by
  cases fuel with
  | zero => exact Nat.zero_le _
  | succ fuel =>
    rw [loopsProgram]
    split
    next => exact Nat.zero_le _
    next =>
      have hnil : loopsProgram pl330 pxs fuel 0 = [] := by
        cases fuel with
        | zero => rfl
        | succ fuel => rfl
      rw [taken_of_small pl330 hs h, Nat.sub_self, hnil, List.append_nil]
      exact length_passProgram_le pl330 hs

variable (fuel) in
theorem length_loopsProgram_mid (hs : pxs.desc.rqtype.Supported) (h : n < 256 * 256) :
    (assemble (loopsProgram pl330 pxs fuel n)).length ≤ 510 := by
  obtain hmid | hsmall := Nat.lt_or_ge 256 n
  · cases fuel with
    | zero => exact Nat.zero_le _
    | succ fuel =>
      rw [loopsProgram, if_neg (by omega), assemble_append, List.length_append, taken_of_mid pl330 hs hmid h]
      have hpass := length_passProgram_le pl330 (n := n) hs
      have hrest := length_loopsProgram_small pl330 fuel (n := n - 256 * (n / 256)) hs (by omega)
      omega
  · exact (length_loopsProgram_small pl330 _ hs hsmall).trans (by decide)

variable (fuel n) in
theorem length_loopsProgram_le (hs : pxs.desc.rqtype.Supported) :
    (assemble (loopsProgram pl330 pxs fuel n)).length ≤ 255 * (n / 65536 + 2) := by
  induction fuel generalizing n with
  | zero => exact Nat.zero_le _
  | succ fuel ih =>
    obtain hbig | hlt := Nat.lt_or_ge n (256 * 256) |>.symm
    · rw [loopsProgram, if_neg (by omega), assemble_append, List.length_append]
      have hpass := length_passProgram_le pl330 (n := n) hs
      have hrest := ih (n := n - taken pl330 pxs n)
      rw [taken_of_big pl330 hbig] at hrest ⊢
      have hpos := cyc_pos pl330 (n := n) hs
      omega
    · have := length_loopsProgram_mid pl330 (fuel + 1) hs hlt
      omega

variable (pxs n) in
theorem length_dregsProgram_le : (assemble (dregsProgram pl330 pxs n)).length ≤ 13 := by
  unfold dregsProgram
  split
  · exact Nat.zero_le _
  have hmov : (assemble [Instr.mov .ccr (dregsCcr pxs n)]).length = 6 := rfl
  have hflush := length_flushProgram pl330 pxs
  cases hr : pxs.desc.rqtype with
  | memToMem =>
    have := length_memProgram pl330
    dsimp only
    rw [assemble_append, List.length_append, hmov, length_assemble_times]
    omega
  | memToDev =>
    have := length_periProgram .burst (by decide) (.inl hr)
    dsimp only
    rw [assemble_append, List.length_append, hmov, assemble_append, List.length_append, length_assemble_times]
    omega
  | devToMem =>
    have := length_periProgram .burst (by decide) (.inr hr)
    dsimp only
    rw [assemble_append, List.length_append, hmov, assemble_append, List.length_append, length_assemble_times]
    omega
  | devToDev => exact Nat.zero_le _
  | transNone => exact Nat.zero_le _

variable (fuel) in
/-- The size of a request is an `int`. -/
theorem length_setupReqProgram_lt (hs : pxs.desc.rqtype.Supported) (ev : Byte) :
    (assemble (setupReqProgram pl330 pxs fuel ev)).length < 2 ^ 31 := by
  have hn := numBursts_lt pxs
  have hloops := length_loopsProgram_le pl330 (numBursts pxs) fuel hs
  have hdregs := length_dregsProgram_le pl330 pxs (numDregs pxs)
  have hmov (dst : DmamovDst) (val : BitVec 32) : (assemble [Instr.mov dst val]).length = 6 := rfl
  have hsev : (assemble [Instr.sev ev]).length = 2 := rfl
  have hend : (assemble [Instr.done]).length = 1 := rfl
  simp only [setupReqProgram, assemble_append, List.length_append, hmov, hsev, hend]
  omega

end GfpDrivers.Dma
