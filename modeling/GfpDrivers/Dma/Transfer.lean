import GfpDrivers.Dma.Engine
import GfpDrivers.Dma.SubmitReq
import Mathlib.Tactic.Ring

/-!
What the generated code does on the engine. A burst takes the registers from one place of the transfer to the next one, a pass
of the loop takes them over the bursts that `_loop` says it takes, and the whole program moves every byte of the transfer once,
in order, and signals its event.
-/

namespace GfpDrivers.Dma

open Lib Bytecode

section Places

variable {inc : Bool} {size : ℕ} {start : BitVec 32} {p q i : ℕ}

theorem advance_advance : advance inc (advance inc start p) q = advance inc start (p + q) := by
  cases inc with
  | true => rw [advance, advance, advance, if_pos rfl, if_pos rfl, if_pos rfl, BitVec.ofNat_add, BitVec.add_assoc]
  | false => rfl

theorem advance_zero : advance inc start 0 = start := by
  cases inc with
  | true => exact BitVec.add_zero start
  | false => rfl

theorem addrOf_advance (h : size ∣ p) : addrOf inc size (advance inc start p) i = addrOf inc size start (p + i) := by
  cases inc with
  | true => rw [addrOf, addrOf, advance, if_pos rfl, if_pos rfl, if_pos rfl, BitVec.ofNat_add, BitVec.add_assoc]
  | false =>
    obtain ⟨k, rfl⟩ := h
    rw [addrOf, addrOf, advance, if_neg Bool.false_ne_true, if_neg Bool.false_ne_true, if_neg Bool.false_ne_true,
      Nat.mul_add_mod]

end Places

variable (pl330 : Dmac) (pxs : XferSpec)

/-- Byte `i` of the transfer. -/
def moveOf (i : ℕ) : Action :=
  .move (addrOf (srcInc pxs.ccr) (brstSize pxs.ccr) pxs.desc.srcAddr i)
    (addrOf (dstInc pxs.ccr) (brstSize pxs.ccr) pxs.desc.dstAddr i)

/-- The first `n` bytes of the transfer. -/
def moves (n : ℕ) : List Action := (List.range n).map (moveOf pxs)

theorem moves_add (p q : ℕ) : moves pxs (p + q) = moves pxs p ++ (List.range q).map fun i => moveOf pxs (p + i) := by
  rw [moves, List.range_add, List.map_append, List.map_map]
  rfl

/-- The registers when `p` bytes have been moved. -/
structure At (ccr : BitVec 32) (log : List Action) (lc0 lc1 : Byte) (p : ℕ) (r : Regs) : Prop where
  sar : r.sar = advance (srcInc pxs.ccr) pxs.desc.srcAddr p
  dar : r.dar = advance (dstInc pxs.ccr) pxs.desc.dstAddr p
  ccr : r.ccr = ccr
  lc0 : r.lc0 = lc0
  lc1 : r.lc1 = lc1
  fifo : r.fifo = []
  log : r.log = log ++ moves pxs p

/-- The registers when `p` bytes have been moved and `q` more have been loaded. -/
structure Loaded (ccr : BitVec 32) (log : List Action) (lc0 lc1 : Byte) (p q : ℕ) (r : Regs) : Prop where
  sar : r.sar = advance (srcInc pxs.ccr) pxs.desc.srcAddr (p + q)
  dar : r.dar = advance (dstInc pxs.ccr) pxs.desc.dstAddr p
  ccr : r.ccr = ccr
  lc0 : r.lc0 = lc0
  lc1 : r.lc1 = lc1
  fifo : r.fifo = (List.range q).map fun i => addrOf (srcInc pxs.ccr) (brstSize pxs.ccr) pxs.desc.srcAddr (p + i)
  log : r.log = log ++ moves pxs p

/-- The burst may be loaded. -/
def Ready (ccr : BitVec 32) (log : List Action) (lc0 lc1 : Byte) (p : ℕ) (cond : Cond) (r : Regs) : Prop :=
  At pxs ccr log lc0 lc1 p r ∧ r.Runs cond

/-- The burst may be stored. -/
def Full (ccr : BitVec 32) (log : List Action) (lc0 lc1 : Byte) (p q : ℕ) (cond : Cond) (r : Regs) : Prop :=
  Loaded pxs ccr log lc0 lc1 p q r ∧ r.Runs cond

/-- A control word for bursts of `len` beats of the transfer. -/
structure Moves (ccr : BitVec 32) (len : ℕ) : Prop where
  srcInc : srcInc ccr = srcInc pxs.ccr
  dstInc : dstInc ccr = dstInc pxs.ccr
  srcSize : brstSize ccr = brstSize pxs.ccr
  dstSize : dstBrstSize ccr = brstSize pxs.ccr
  srcLen : brstLen ccr = len
  dstLen : dstBrstLen ccr = len

variable {pxs} {ccr : BitVec 32} {log : List Action} {lc0 lc1 : Byte} {p len : ℕ} {r : Regs} {cond : Cond}

/-! ### Instructions -/

theorem At.load (h : At pxs ccr log lc0 lc1 p r) (hm : Moves pxs ccr len) (hp : brstSize pxs.ccr ∣ p) :
    Loaded pxs ccr log lc0 lc1 p (brstSize pxs.ccr * len) r.load where
  sar := by
    rw [Regs.load, h.ccr, hm.srcInc, hm.srcSize, hm.srcLen, h.sar]
    exact advance_advance
  dar := h.dar
  ccr := h.ccr
  lc0 := h.lc0
  lc1 := h.lc1
  fifo := by
    rw [Regs.load, h.ccr, hm.srcInc, hm.srcSize, hm.srcLen, h.sar, h.fifo, List.nil_append]
    exact List.map_congr_left fun i _ => addrOf_advance hp
  log := h.log

theorem Loaded.store (h : Loaded pxs ccr log lc0 lc1 p (brstSize pxs.ccr * len) r) (hm : Moves pxs ccr len)
    (hp : brstSize pxs.ccr ∣ p) :
    ∃ r', r.store = some r' ∧ At pxs ccr log lc0 lc1 (p + brstSize pxs.ccr * len) r' := by
  have hlen : r.fifo.length = brstSize pxs.ccr * len := by rw [h.fifo, List.length_map, List.length_range]
  have hq : dstBrstSize r.ccr * dstBrstLen r.ccr = r.fifo.length := by rw [h.ccr, hm.dstSize, hm.dstLen, hlen]
  refine ⟨_, if_pos hq.le, ?_, ?_, h.ccr, h.lc0, h.lc1, ?_, ?_⟩
  · exact h.sar
  · dsimp only
    rw [hq, hlen, h.ccr, hm.dstInc, h.dar]
    exact advance_advance
  · dsimp only
    rw [hq, List.drop_length]
  · dsimp only
    rw [hq, List.take_length, hlen, h.fifo, h.ccr, hm.dstInc, hm.dstSize, h.dar, h.log, moves_add, List.append_assoc,
      List.zipWith_map, List.zipWith_self]
    congr 2
    exact List.map_congr_left fun i _ => congrArg _ (addrOf_advance hp)

theorem triple_load {i : Instr} (hi : i.Encodable)
    (hexec : ∀ r, i.exec r = some (.following, if r.Runs cond then r.load else r)) (hm : Moves pxs ccr len)
    (hp : brstSize pxs.ccr ∣ p) :
    engine.Triple [i] (Ready pxs ccr log lc0 lc1 p cond) (Full pxs ccr log lc0 lc1 p (brstSize pxs.ccr * len) cond) := by
  refine .single (coded hi) fun r hr => ⟨r.load, ?_, hr.1.load hm hp, hr.2⟩
  exact (hexec r).trans (by rw [if_pos hr.2])

theorem triple_store {i : Instr} (hi : i.Encodable)
    (hexec : ∀ r, i.exec r = if r.Runs cond then r.store.map fun r' => (.following, r') else some (.following, r))
    (hm : Moves pxs ccr len) (hp : brstSize pxs.ccr ∣ p) :
    engine.Triple [i] (Full pxs ccr log lc0 lc1 p (brstSize pxs.ccr * len) cond)
      (At pxs ccr log lc0 lc1 (p + brstSize pxs.ccr * len)) := by
  refine .single (coded hi) fun r hr => ?_
  obtain ⟨r', hstore, hat⟩ := hr.1.store hm hp
  refine ⟨r', (hexec r).trans ?_, hat⟩
  rw [if_pos hr.2, hstore]
  rfl

theorem triple_idle (i : Instr) (hi : i.Encodable) (hexec : ∀ r, i.exec r = some (.following, r)) {P : Regs → Prop} :
    engine.Triple [i] P P := .single (coded hi) fun r hr => ⟨r, hexec r, hr⟩

theorem triple_wfp {peri : Byte} (hperi : peri &&& 0x1f = peri) (hc : cond ≠ .always) :
    engine.Triple [.wfp cond peri] (At pxs ccr log lc0 lc1 p) (Ready pxs ccr log lc0 lc1 p cond) := by
  refine .single (coded hperi) fun r hr => ⟨{ r with request := cond }, if_neg hc, ?_, .inr rfl⟩
  exact ⟨hr.sar, hr.dar, hr.ccr, hr.lc0, hr.lc1, hr.fifo, hr.log⟩

/-! ### Bursts -/

theorem triple_mem (hm : Moves pxs ccr len) (hp : brstSize pxs.ccr ∣ p) :
    engine.Triple (memProgram pl330) (At pxs ccr log lc0 lc1 p) (At pxs ccr log lc0 lc1 (p + brstSize pxs.ccr * len)) := by
  have hstart : ∀ r, At pxs ccr log lc0 lc1 p r → Ready pxs ccr log lc0 lc1 p .always r := fun r hr => ⟨hr, .inl rfl⟩
  have hld : engine.Triple [.ld .always] (Ready pxs ccr log lc0 lc1 p .always)
      (Full pxs ccr log lc0 lc1 p (brstSize pxs.ccr * len) .always) := triple_load trivial (fun _ => rfl) hm hp
  have hst : engine.Triple [.st .always] (Full pxs ccr log lc0 lc1 p (brstSize pxs.ccr * len) .always)
      (At pxs ccr log lc0 lc1 (p + brstSize pxs.ccr * len)) := triple_store trivial (fun _ => rfl) hm hp
  unfold memProgram
  split
  · exact (hld.append hst).mono hstart fun _ hr => hr
  · have hrmb {P : Regs → Prop} : engine.Triple [.rmb] P P := triple_idle .rmb trivial fun _ => rfl
    have hwmb {P : Regs → Prop} : engine.Triple [.wmb] P P := triple_idle .wmb trivial fun _ => rfl
    exact (((hld.append hrmb).append hst).append hwmb).mono hstart fun _ hr => hr

theorem periByte_and (desc : Desc) : desc.periByte &&& 0x1f = desc.periByte := by
  have h : ∀ peri : BitVec 5, peri.setWidth 8 &&& 0x1f = peri.setWidth 8 := by decide
  exact h desc.peri

theorem triple_peri (hr : pxs.desc.rqtype = .memToDev ∨ pxs.desc.rqtype = .devToMem) (hc : cond ≠ .always)
    (hm : Moves pxs ccr len) (hp : brstSize pxs.ccr ∣ p) :
    engine.Triple (periProgram pxs cond) (At pxs ccr log lc0 lc1 p)
      (At pxs ccr log lc0 lc1 (p + brstSize pxs.ccr * len)) := by
  have hperi := periByte_and pxs.desc
  have hld : ∀ i : Instr, i.Encodable → (∀ r, i.exec r = some (.following, if r.Runs cond then r.load else r)) →
      engine.Triple [i] (Ready pxs ccr log lc0 lc1 p cond) (Full pxs ccr log lc0 lc1 p (brstSize pxs.ccr * len) cond) :=
    fun i hi hexec => triple_load hi hexec hm hp
  have hst : ∀ i : Instr, i.Encodable → (∀ r, i.exec r =
      if r.Runs cond then r.store.map fun r' => (.following, r') else some (.following, r)) →
      engine.Triple [i] (Full pxs ccr log lc0 lc1 p (brstSize pxs.ccr * len) cond)
        (At pxs ccr log lc0 lc1 (p + brstSize pxs.ccr * len)) :=
    fun i hi hexec => triple_store hi hexec hm hp
  refine (triple_wfp hperi hc).append ?_
  obtain hr | hr := hr
  · rw [hr, loadProgram, storeProgram, if_neg hc]
    exact (hld (.ld cond) trivial fun _ => rfl).append (hst (.stp cond pxs.desc.periByte) ⟨hc, hperi⟩ fun _ => rfl)
  · rw [hr, loadProgram, storeProgram, if_neg hc]
    exact (hld (.ldp cond pxs.desc.periByte) ⟨hc, hperi⟩ fun _ => rfl).append (hst (.st cond) trivial fun _ => rfl)

theorem triple_flush {P : Regs → Prop} : engine.Triple (flushProgram pl330 pxs) P P := by
  unfold flushProgram
  split
  · exact .nil fun _ hr => hr
  · exact triple_idle (.flushp pxs.desc.periByte) (periByte_and pxs.desc) fun _ => rfl

theorem triple_burst (hs : pxs.desc.rqtype.Supported) (hm : Moves pxs ccr len) (hp : brstSize pxs.ccr ∣ p) :
    engine.Triple (burstProgram pl330 pxs) (At pxs ccr log lc0 lc1 p)
      (At pxs ccr log lc0 lc1 (p + brstSize pxs.ccr * len)) := by
  have hc := burstCond_ne_always pl330 pxs
  unfold burstProgram
  cases hr : pxs.desc.rqtype with
  | memToMem => exact triple_mem pl330 hm hp
  | memToDev => exact triple_peri (.inl hr) hc hm hp
  | devToMem => exact triple_peri (.inr hr) hc hm hp
  | devToDev => exact absurd hr hs.1
  | transNone => exact absurd hr hs.2

theorem triple_head {P : Regs → Prop} : engine.Triple (headProgram pl330 pxs) P P := by
  unfold headProgram
  cases pxs.desc.rqtype with
  | memToMem => exact .nil fun _ hr => hr
  | memToDev => exact triple_flush pl330
  | devToMem => exact triple_flush pl330
  | devToDev => exact .nil fun _ hr => hr
  | transNone => exact .nil fun _ hr => hr

theorem triple_bursts (hs : pxs.desc.rqtype.Supported) (hm : Moves pxs ccr len) (hp : brstSize pxs.ccr ∣ p) (c : ℕ) :
    engine.Triple (burstsProgram pl330 pxs c) (At pxs ccr log lc0 lc1 p)
      (At pxs ccr log lc0 lc1 (p + c * (brstSize pxs.ccr * len))) := by
  have hbursts : engine.Triple (List.replicate c (burstProgram pl330 pxs)).flatten
      (At pxs ccr log lc0 lc1 (p + 0 * (brstSize pxs.ccr * len)))
      (At pxs ccr log lc0 lc1 (p + c * (brstSize pxs.ccr * len))) := by
    refine Triple.times (F := fun k => At pxs ccr log lc0 lc1 (p + k * (brstSize pxs.ccr * len))) c fun k _ => ?_
    have hk : brstSize pxs.ccr ∣ p + k * (brstSize pxs.ccr * len) :=
      Nat.dvd_add hp (Dvd.dvd.mul_left (Nat.dvd_mul_right _ _) k)
    rw [Nat.succ_mul, ← Nat.add_assoc]
    exact triple_burst pl330 hs hm hk
  rw [Nat.zero_mul, Nat.add_zero] at hbursts
  exact (triple_head pl330).append hbursts

/-! ### Loops -/

theorem Regs.lc_setLc (r : Regs) (l : Bool) (cnt : Byte) : (r.setLc l cnt).lc l = cnt := by
  cases l <;> rfl

theorem ofNat_succ_sub_one (k : ℕ) : BitVec.ofNat 8 (k + 1) - 1 = BitVec.ofNat 8 k := by
  rw [BitVec.ofNat_add]
  exact BitVec.add_sub_cancel _ _

/-- A loop of `cnt` rounds. The facts between the rounds do not depend on its counter. -/
theorem triple_loop {l : Bool} {body : List Instr} {cnt : ℕ} (hpos : 0 < cnt) (hle : cnt ≤ 256)
    (hlen : (assemble body).length < 256) {F : ℕ → Regs → Prop} (hF : ∀ k r v, F k r → F k (r.setLc l v))
    (hbody : ∀ k v, engine.Triple body (fun r => F k r ∧ r.lc l = v) fun r => F (k + 1) r ∧ r.lc l = v) :
    engine.Triple ([.lp l (BitVec.ofNat 8 cnt - 1)] ++
      (body ++ [.lpend ⟨.always, false, l, BitVec.ofNat 8 (assemble body).length⟩])) (F 0) (F cnt) := by
  obtain ⟨c, rfl⟩ := Nat.exists_eq_add_one.mpr hpos
  have hi : (Instr.lpend ⟨.always, false, l, BitVec.ofNat 8 (assemble body).length⟩).Encodable := fun _ => rfl
  have hlp : engine.Triple [.lp l (BitVec.ofNat 8 (c + 1) - 1)] (F 0)
      fun r => ∃ j, j + c = c ∧ F j r ∧ r.lc l = BitVec.ofNat 8 c := by
    refine .single (coded trivial) fun r hr => ⟨_, rfl, 0, Nat.zero_add c, hF _ _ _ hr, ?_⟩
    rw [Regs.lc_setLc, ofNat_succ_sub_one]
  refine hlp.append (Triple.loop (F := fun k r => ∃ j, j + k = c ∧ F j r ∧ r.lc l = BitVec.ofNat 8 k)
    (G := fun k r => ∃ j, 0 < j ∧ j + k = c + 1 ∧ F j r ∧ r.lc l = BitVec.ofNat 8 k) (coded hi) ?_ ?_ ?_ c)
  · intro k before after r ⟨j, hj, hr, hlc⟩
    obtain ⟨r', ⟨hr', hlc'⟩, hreach⟩ := hbody j (BitVec.ofNat 8 k) before after r ⟨hr, hlc⟩
    exact ⟨r', ⟨j + 1, j.succ_pos, by omega, hr', hlc'⟩, hreach⟩
  · intro k r ⟨j, hj0, hj, hr, hlc⟩
    have hne : r.lc l ≠ 0 := by
      intro h0
      have hzero : (k + 1) % 256 = 0 := congrArg BitVec.toNat (hlc.symm.trans h0)
      omega
    have hjump : (BitVec.ofNat 8 (assemble body).length).toNat = (assemble body).length := by
      rw [BitVec.toNat_ofNat]
      exact Nat.mod_eq_of_lt hlen
    refine ⟨r.setLc l (r.lc l - 1), ?_, j, by omega, hF _ _ _ hr, ?_⟩
    · have hexec : (Instr.lpend ⟨.always, false, l, BitVec.ofNat 8 (assemble body).length⟩).exec r =
          some (.back (BitVec.ofNat 8 (assemble body).length).toNat, r.setLc l (r.lc l - 1)) := by
        rw [Instr.exec, if_neg (not_not_intro (.inl rfl)), if_neg Bool.false_ne_true, if_neg hne]
      rw [hjump] at hexec
      exact hexec
    · rw [Regs.lc_setLc, hlc, ofNat_succ_sub_one]
  · intro r ⟨j, _, hj, hr, hlc⟩
    have hzero : r.lc l = 0 := hlc
    have hexec : (Instr.lpend ⟨.always, false, l, BitVec.ofNat 8 (assemble body).length⟩).exec r = some (.following, r) := by
      rw [Instr.exec, if_neg (not_not_intro (.inl rfl)), if_neg Bool.false_ne_true, if_pos hzero]
    rw [Nat.add_zero] at hj
    exact ⟨r, hexec, hj ▸ hr⟩

variable (pxs) in
/-- The registers when `p` bytes have been moved, with whatever loop counters. -/
def Arrived (ccr : BitVec 32) (log : List Action) (p : ℕ) (r : Regs) : Prop := ∃ lc0 lc1, At pxs ccr log lc0 lc1 p r

variable {n c : ℕ}

theorem triple_inner (hs : pxs.desc.rqtype.Supported) (hm : Moves pxs ccr len) (hp : brstSize pxs.ccr ∣ p) {lcnt1 : ℕ}
    (hpos : 0 < lcnt1) (hle : lcnt1 ≤ 256) (hlen : (assemble (burstsProgram pl330 pxs c)).length < 256) :
    engine.Triple (innerProgram pl330 pxs lcnt1 c) (fun r => ∃ v, At pxs ccr log lc0 v p r)
      fun r => ∃ v, At pxs ccr log lc0 v (p + lcnt1 * (c * (brstSize pxs.ccr * len))) r := by
  have hloop := triple_loop hpos hle hlen (l := true)
    (F := fun k r => ∃ v, At pxs ccr log lc0 v (p + k * (c * (brstSize pxs.ccr * len))) r) ?_ ?_
  · rwa [Nat.zero_mul, Nat.add_zero] at hloop
  · intro k r v ⟨_, hr⟩
    exact ⟨v, hr.sar, hr.dar, hr.ccr, hr.lc0, rfl, hr.fifo, hr.log⟩
  · intro k v
    have hk : brstSize pxs.ccr ∣ p + k * (c * (brstSize pxs.ccr * len)) :=
      Nat.dvd_add hp (Dvd.dvd.mul_left (Dvd.dvd.mul_left (Nat.dvd_mul_right _ _) c) k)
    rw [Nat.succ_mul, ← Nat.add_assoc]
    refine (triple_bursts pl330 hs hm hk c).mono (fun r ⟨⟨_, hr⟩, hlc⟩ => ?_) fun r hr => ⟨⟨v, hr⟩, hr.lc1⟩
    exact ⟨hr.sar, hr.dar, hr.ccr, hr.lc0, hlc, hr.fifo, hr.log⟩

theorem triple_outer (hs : pxs.desc.rqtype.Supported) (hm : Moves pxs ccr len) (hp : brstSize pxs.ccr ∣ p) {lcnt1 lcnt0 : ℕ}
    (hpos : 0 < lcnt1) (hle : lcnt1 ≤ 256) (hpos' : 0 < lcnt0) (hle' : lcnt0 ≤ 256)
    (hlen : (assemble (innerProgram pl330 pxs lcnt1 c)).length < 256) :
    engine.Triple (loopProgram pl330 pxs lcnt1 lcnt0 c) (Arrived pxs ccr log p)
      (Arrived pxs ccr log (p + lcnt0 * (lcnt1 * (c * (brstSize pxs.ccr * len))))) := by
  have hloop := triple_loop hpos' hle' hlen (l := false)
    (F := fun k => Arrived pxs ccr log (p + k * (lcnt1 * (c * (brstSize pxs.ccr * len))))) ?_ ?_
  · rw [Nat.zero_mul, Nat.add_zero] at hloop
    rw [loopProgram, if_neg hpos'.ne']
    exact hloop
  · intro k r v ⟨_, lc1, hr⟩
    exact ⟨v, lc1, hr.sar, hr.dar, hr.ccr, rfl, hr.lc1, hr.fifo, hr.log⟩
  · intro k v
    have hk : brstSize pxs.ccr ∣ p + k * (lcnt1 * (c * (brstSize pxs.ccr * len))) :=
      Nat.dvd_add hp (Dvd.dvd.mul_left (Dvd.dvd.mul_left (Dvd.dvd.mul_left (Nat.dvd_mul_right _ _) c) lcnt1) k)
    rw [length_innerProgram] at hlen
    rw [Nat.succ_mul, ← Nat.add_assoc]
    refine (triple_inner pl330 hs hm hk hpos hle (by omega)).mono (fun r ⟨⟨_, lc1, hr⟩, hlc⟩ => ?_)
      fun r ⟨lc1, hr⟩ => ⟨⟨v, lc1, hr⟩, hr.lc0⟩
    exact ⟨lc1, hr.sar, hr.dar, hr.ccr, hlc, hr.lc1, hr.fifo, hr.log⟩

theorem loopCounts_lcnt1 (hn : 0 < n) : 0 < (loopCounts n).lcnt1 ∧ (loopCounts n).lcnt1 ≤ 256 := by
  unfold loopCounts
  split_ifs <;> dsimp only <;> omega

theorem loopCounts_lcnt0 : (loopCounts n).lcnt0 ≤ 256 := by
  unfold loopCounts
  split_ifs <;> dsimp only <;> omega

theorem triple_pass (hs : pxs.desc.rqtype.Supported) (hm : Moves pxs ccr len) (hp : brstSize pxs.ccr ∣ p) (hn : 0 < n) :
    engine.Triple (passProgram pl330 pxs n) (Arrived pxs ccr log p)
      (Arrived pxs ccr log (p + taken pl330 pxs n * (brstSize pxs.ccr * len))) := by
  have hbody := length_innerProgram_le pl330 (n := n) hs
  obtain ⟨hpos, hle⟩ := loopCounts_lcnt1 hn
  unfold passProgram taken
  split_ifs with h1 h0
  · intro before after r ⟨lc0, lc1, hr⟩
    obtain ⟨r', hr', hreach⟩ := triple_bursts pl330 hs hm hp 1 before after r hr
    exact ⟨r', ⟨lc0, lc1, hr'⟩, hreach⟩
  · rw [if_pos h0] at hbody
    rw [loopProgram, if_pos h0, Nat.mul_assoc]
    intro before after r ⟨lc0, lc1, hr⟩
    obtain ⟨r', ⟨lc1', hr'⟩, hreach⟩ := triple_inner pl330 hs hm hp hpos hle (c := cyc pl330 pxs n) (by omega) before after r
      ⟨lc1, hr⟩
    exact ⟨r', ⟨lc0, lc1', hr'⟩, hreach⟩
  · rw [if_neg h0] at hbody
    have hcount : (loopCounts n).lcnt1 * cyc pl330 pxs n * (loopCounts n).lcnt0 * (brstSize pxs.ccr * len) =
        (loopCounts n).lcnt0 * ((loopCounts n).lcnt1 * (cyc pl330 pxs n * (brstSize pxs.ccr * len))) := by
      ring
    rw [hcount]
    exact triple_outer pl330 hs hm hp hpos hle (Nat.pos_of_ne_zero h0) loopCounts_lcnt0
      (by rw [length_innerProgram]; omega)

theorem triple_loops (hs : pxs.desc.rqtype.Supported) (hm : Moves pxs ccr len) (hp : brstSize pxs.ccr ∣ p) {fuel : ℕ}
    (hn : n < fuel) :
    engine.Triple (loopsProgram pl330 pxs fuel n) (Arrived pxs ccr log p)
      (Arrived pxs ccr log (p + n * (brstSize pxs.ccr * len))) := by
  induction fuel generalizing n p with
  | zero => exact absurd hn (Nat.not_lt_zero n)
  | succ fuel ih =>
    rw [loopsProgram]
    split
    next h0 =>
      rw [h0, Nat.zero_mul, Nat.add_zero]
      exact .nil fun _ hr => hr
    next h0 =>
      obtain ⟨hpos, hle⟩ := taken_bounds pl330 hs (Nat.pos_of_ne_zero h0)
      have hp' : brstSize pxs.ccr ∣ p + taken pl330 pxs n * (brstSize pxs.ccr * len) :=
        Nat.dvd_add hp (Dvd.dvd.mul_left (Nat.dvd_mul_right _ _) _)
      have hsum : p + n * (brstSize pxs.ccr * len) = p + taken pl330 pxs n * (brstSize pxs.ccr * len) +
          (n - taken pl330 pxs n) * (brstSize pxs.ccr * len) := by
        rw [Nat.add_assoc, ← Nat.add_mul, Nat.add_sub_cancel' hle]
      rw [hsum]
      exact (triple_pass pl330 hs hm hp (Nat.pos_of_ne_zero h0)).append (ih hp' (by omega))

/-! ### The whole transfer -/

variable (pxs) in
theorem moves_ccr (h : Balanced pxs.ccr) : Moves pxs pxs.ccr (brstLen pxs.ccr) := ⟨rfl, rfl, rfl, h.size, rfl, h.len⟩

theorem moves_dregsCcr (h : Balanced pxs.ccr) (hpos : 0 < n) (hle : n ≤ 16) : Moves pxs (dregsCcr pxs n) n where
  srcInc := srcInc_dregsCcr pxs n
  dstInc := dstInc_dregsCcr pxs n
  srcSize := brstSize_dregsCcr pxs n
  dstSize := (dstBrstSize_dregsCcr pxs n).trans h.size
  srcLen := brstLen_dregsCcr pxs hpos hle
  dstLen := dstBrstLen_dregsCcr pxs hpos hle

/-- The registers when `p` bytes have been moved, with whatever control word. -/
def Done (pxs : XferSpec) (log : List Action) (p : ℕ) (r : Regs) : Prop := ∃ ccr, Arrived pxs ccr log p r

theorem triple_setCcr : engine.Triple [.mov .ccr ccr] (Done pxs log p) (Arrived pxs ccr log p) := by
  refine .single (coded trivial) fun r ⟨_, lc0, lc1, hr⟩ => ⟨_, rfl, lc0, lc1, ?_⟩
  exact ⟨hr.sar, hr.dar, rfl, hr.lc0, hr.lc1, hr.fifo, hr.log⟩

theorem triple_dregs (hs : pxs.desc.rqtype.Supported) (h : Balanced pxs.ccr) (hp : brstSize pxs.ccr ∣ p) (hle : n ≤ 16) :
    engine.Triple (dregsProgram pl330 pxs n) (Done pxs log p) (Done pxs log (p + n * brstSize pxs.ccr)) := by
  unfold dregsProgram
  split
  next h0 =>
    rw [h0, Nat.zero_mul, Nat.add_zero]
    exact .nil fun _ hr => hr
  next h0 =>
    have hm := moves_dregsCcr h (Nat.pos_of_ne_zero h0) hle
    have hburst : Cond.burst ≠ .always := by decide
    have hdone {r : Regs} : ∀ lc0 lc1, At pxs (dregsCcr pxs n) log lc0 lc1 (p + brstSize pxs.ccr * n) r →
        Done pxs log (p + n * brstSize pxs.ccr) r := fun lc0 lc1 hr => ⟨_, lc0, lc1, by rwa [Nat.mul_comm n]⟩
    have hperi (hr : pxs.desc.rqtype = .memToDev ∨ pxs.desc.rqtype = .devToMem) : engine.Triple
        (flushProgram pl330 pxs ++ (List.replicate 1 (periProgram pxs .burst)).flatten)
        (Arrived pxs (dregsCcr pxs n) log p) (Done pxs log (p + n * brstSize pxs.ccr)) := by
      refine (triple_flush pl330).append ?_
      intro before after r ⟨lc0, lc1, hr'⟩
      rw [List.replicate_one, List.flatten_singleton]
      obtain ⟨r', hr', hreach⟩ := triple_peri hr hburst hm hp before after r hr'
      exact ⟨r', hdone lc0 lc1 hr', hreach⟩
    cases hr : pxs.desc.rqtype with
    | memToMem =>
      refine triple_setCcr.append ?_
      intro before after r ⟨lc0, lc1, hr'⟩
      rw [List.replicate_one, List.flatten_singleton]
      obtain ⟨r', hr', hreach⟩ := triple_mem pl330 hm hp before after r hr'
      exact ⟨r', hdone lc0 lc1 hr', hreach⟩
    | memToDev => exact triple_setCcr.append (hperi (.inl hr))
    | devToMem => exact triple_setCcr.append (hperi (.inr hr))
    | devToDev => exact absurd hr hs.1
    | transNone => exact absurd hr hs.2

theorem numBursts_numDregs (pxs : XferSpec) : numBursts pxs * brstLen pxs.ccr + numDregs pxs = pxs.desc.bytes.toNat / brstSize pxs.ccr ∧
    numDregs pxs < brstLen pxs.ccr := by
  have hpos := brstLen_pos pxs.ccr
  have hdregs : numDregs pxs = pxs.desc.bytes.toNat / brstSize pxs.ccr - numBursts pxs * brstLen pxs.ccr := by
    rw [numDregs, Nat.mul_assoc, Nat.mul_comm (numBursts pxs), Nat.mul_assoc, Nat.sub_mul_div, Nat.mul_comm (brstLen _)]
  have hdiv := Nat.div_add_mod (pxs.desc.bytes.toNat / brstSize pxs.ccr) (brstLen pxs.ccr)
  have hmod := Nat.mod_lt (pxs.desc.bytes.toNat / brstSize pxs.ccr) hpos
  rw [hdregs, numBursts, Nat.mul_comm]
  omega

theorem triple_setupXfer (hs : pxs.desc.rqtype.Supported) (h : Balanced pxs.ccr) {fuel : ℕ} (hfuel : 2 ^ 32 ≤ fuel) :
    engine.Triple ([.mov .ccr pxs.ccr] ++ ([.mov .sar pxs.desc.srcAddr] ++ [.mov .dar pxs.desc.dstAddr] ++
        (loopsProgram pl330 pxs fuel (numBursts pxs) ++ dregsProgram pl330 pxs (numDregs pxs))))
      (fun r => r.fifo = [] ∧ r.log = log)
      (Done pxs log (pxs.desc.bytes.toNat / brstSize pxs.ccr * brstSize pxs.ccr)) := by
  have hn := numBursts_lt pxs
  obtain ⟨hbeats, hlt⟩ := numBursts_numDregs pxs
  have hccr : engine.Triple [.mov .ccr pxs.ccr] (fun r => r.fifo = [] ∧ r.log = log)
      fun r => r.ccr = pxs.ccr ∧ r.fifo = [] ∧ r.log = log :=
    .single (coded trivial) fun r hr => ⟨_, rfl, rfl, hr⟩
  have hsar : engine.Triple [.mov .sar pxs.desc.srcAddr] (fun r => r.ccr = pxs.ccr ∧ r.fifo = [] ∧ r.log = log)
      fun r => r.sar = pxs.desc.srcAddr ∧ r.ccr = pxs.ccr ∧ r.fifo = [] ∧ r.log = log :=
    .single (coded trivial) fun r hr => ⟨_, rfl, rfl, hr⟩
  have hdar : engine.Triple [.mov .dar pxs.desc.dstAddr]
      (fun r => r.sar = pxs.desc.srcAddr ∧ r.ccr = pxs.ccr ∧ r.fifo = [] ∧ r.log = log) (Arrived pxs pxs.ccr log 0) := by
    refine .single (coded trivial) fun r ⟨hsar, hccr, hfifo, hlog⟩ => ⟨_, rfl, r.lc0, r.lc1, ?_⟩
    exact ⟨hsar.trans advance_zero.symm, advance_zero.symm, hccr, rfl, rfl, hfifo, hlog.trans (List.append_nil log).symm⟩
  have hloops : engine.Triple (loopsProgram pl330 pxs fuel (numBursts pxs)) (Arrived pxs pxs.ccr log 0)
      (Arrived pxs pxs.ccr log (0 + numBursts pxs * (brstSize pxs.ccr * brstLen pxs.ccr))) :=
    triple_loops pl330 hs (moves_ccr pxs h) (Nat.dvd_zero _) (by omega)
  have hp : brstSize pxs.ccr ∣ 0 + numBursts pxs * (brstSize pxs.ccr * brstLen pxs.ccr) := by
    rw [Nat.zero_add]
    exact Dvd.dvd.mul_left (Nat.dvd_mul_right _ _) _
  have hle : numDregs pxs ≤ 16 := hlt.le.trans (brstLen_le pxs.ccr)
  have htotal : pxs.desc.bytes.toNat / brstSize pxs.ccr * brstSize pxs.ccr =
      0 + numBursts pxs * (brstSize pxs.ccr * brstLen pxs.ccr) + numDregs pxs * brstSize pxs.ccr := by
    rw [← hbeats]
    ring
  have hdregs : engine.Triple (dregsProgram pl330 pxs (numDregs pxs)) (Arrived pxs pxs.ccr log
      (0 + numBursts pxs * (brstSize pxs.ccr * brstLen pxs.ccr)))
      (Done pxs log (pxs.desc.bytes.toNat / brstSize pxs.ccr * brstSize pxs.ccr)) := by
    rw [htotal]
    exact (triple_dregs pl330 hs h hp hle).mono (fun _ hr => ⟨_, hr⟩) fun _ hr => hr
  exact hccr.append ((hsar.append hdar).append (hloops.append hdregs))

/-! ### Requests -/

/-- Byte `i` of a request, by the words of its descriptor. -/
def Desc.moveOf (desc : Desc) (i : ℕ) : Action :=
  .move (addrOf desc.rqcfg.srcInc (2 ^ desc.rqcfg.brstSize.toNat) desc.srcAddr i)
    (addrOf desc.rqcfg.dstInc (2 ^ desc.rqcfg.brstSize.toNat) desc.dstAddr i)

/-- The bytes of a request that are whole beats. -/
def Desc.wholeBytes (desc : Desc) : ℕ := desc.bytes.toNat / 2 ^ desc.rqcfg.brstSize.toNat * 2 ^ desc.rqcfg.brstSize.toNat

theorem moves_xferSpec (desc : Desc) (n : ℕ) : moves (xferSpec pl330 desc) n = (List.range n).map desc.moveOf := by
  refine List.map_congr_left fun i _ => ?_
  rw [Dma.moveOf, xferSpec, srcInc_prepareCcr, dstInc_prepareCcr, brstSize_prepareCcr]
  rfl

/-- The program of a request runs to its end on a channel with an empty queue. -/
theorem ends_setupReq {desc : Desc} (hs : desc.rqtype.Supported) {fuel : ℕ} (hfuel : 2 ^ 32 ≤ fuel) {ev : Byte}
    (hev : ev.toNat < 32) (after : List Byte) {r : Regs} (hr : r.fifo = []) :
    ∃ r', engine.Ends (assemble (setupReqProgram pl330 (xferSpec pl330 desc) fuel ev) ++ after) r r' ∧ r'.fifo = [] ∧
      r'.log = r.log ++ (List.range desc.wholeBytes).map desc.moveOf ++ [.event ev] := by
  have hencodable : (Instr.sev ev).Encodable := by
    have hall : ∀ ev : Byte, ev.toNat < 32 → ev &&& 0x1f = ev := by decide
    exact hall _ hev
  have hdone : Instr.done.Encodable := trivial
  have hbytes : (xferSpec pl330 desc).desc.bytes.toNat / brstSize (xferSpec pl330 desc).ccr *
      brstSize (xferSpec pl330 desc).ccr = desc.wholeBytes := by
    have hsize : brstSize (xferSpec pl330 desc).ccr = 2 ^ desc.rqcfg.brstSize.toNat := brstSize_prepareCcr _
    rw [hsize]
    rfl
  have hxfer : engine.Triple _ (fun r' => r'.fifo = [] ∧ r'.log = r.log)
      (Done (xferSpec pl330 desc) r.log desc.wholeBytes) :=
    hbytes ▸ triple_setupXfer pl330 hs (balanced_prepareCcr (desc.secured pl330).rqcfg) hfuel
  have hsev : engine.Triple [.sev ev] (Done (xferSpec pl330 desc) r.log desc.wholeBytes)
      fun r' => r'.fifo = [] ∧ r'.log = r.log ++ (List.range desc.wholeBytes).map desc.moveOf ++ [.event ev] := by
    refine .single (coded hencodable) fun r' ⟨_, _, _, hat⟩ => ⟨_, rfl, hat.fifo, ?_⟩
    rw [← moves_xferSpec pl330, ← hat.log]
  exact (hxfer.append hsev).ends (coded hdone) (fun _ => rfl) ⟨hr, rfl⟩

/-- A controller with one peripheral, and a request for six bytes between memories. -/
def sampleDmac : Dmac := ⟨0xffffffff, 0x00141330, true, 1, false, false, false, 0⟩

def sampleThread : Thread := ⟨0, 3, none, none, 1⟩

def sampleDesc : Desc := ⟨0x1000, 0x2000, 6, ⟨true, true, true, false, false, 2, 1, 0, 0, 0⟩, .memToMem, 0⟩

/-- The buffer of the sample is large enough for every request. -/
theorem fits_sampleDmac {thrd : Thread} {desc : Desc} (h : Admissible sampleDmac thrd desc) :
    (assemble (setupReqProgram sampleDmac (xferSpec sampleDmac desc) (2 ^ 32) thrd.ev)).length ≤
      sampleDmac.mcbufsz.toNat / 2 :=
  Nat.le_of_lt_succ (length_setupReqProgram_lt sampleDmac _ h.supported thrd.ev)

end GfpDrivers.Dma
