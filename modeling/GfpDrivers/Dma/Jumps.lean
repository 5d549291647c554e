import GfpDrivers.Dma.Transfer

/-!
The jumps in the code of a request. Every loop end has its loop instruction before it, with the same counter, its jump goes to
the instruction behind that one, and the counter is not used by another loop in between.
-/

namespace GfpDrivers.Dma

open Lib Generator

/-- No loop with this counter begins or ends here. -/
def Unused (l : Bool) (is : List Instr) : Prop :=
  (∀ cnt, .lp l cnt ∉ is) ∧ ∀ arg : ArgLpend, arg.loop = l → .lpend arg ∉ is

/-- Every loop end belongs to a loop instruction. -/
def Bracketed (is : List Instr) : Prop :=
  ∀ before arg after, is = before ++ .lpend arg :: after → ∃ outside cnt body,
    before = outside ++ .lp arg.loop cnt :: body ∧ arg.bjump.toNat = (assemble body).length ∧ arg.forever = false ∧
      Unused arg.loop body

/-- A loop begins or ends here. -/
def Instr.OfLoop : Instr → Prop
  | .lp _ _ => True
  | .lpend _ => True
  | _ => False

/-- Code without loops that can be read back. -/
def Straight (is : List Instr) : Prop := ∀ i ∈ is, i.Encodable ∧ ¬i.OfLoop

/-- Code that can be read back, with its loops. -/
structure Looped (is : List Instr) : Prop where
  encodable : ∀ i ∈ is, i.Encodable
  bracketed : Bracketed is

variable {is is' : List Instr} {l : Bool}

theorem Straight.nil : Straight [] := fun _ hm => absurd hm List.not_mem_nil

theorem Straight.one (i : Instr) (h : i.Encodable) (hl : ¬i.OfLoop) : Straight [i] :=
  fun _ hm => List.mem_singleton.mp hm ▸ ⟨h, hl⟩

theorem Straight.append (h : Straight is) (h' : Straight is') : Straight (is ++ is') := List.forall_mem_append.mpr ⟨h, h'⟩

theorem Straight.times (h : Straight is) (n : ℕ) : Straight (List.replicate n is).flatten := by
  intro i hm
  obtain ⟨is', hm', hi⟩ := List.mem_flatten.mp hm
  rw [List.eq_of_mem_replicate hm'] at hi
  exact h i hi

theorem Straight.unused (h : Straight is) : Unused l is :=
  ⟨fun _ hm => (h _ hm).2 trivial, fun _ _ hm => (h _ hm).2 trivial⟩

theorem Straight.looped (h : Straight is) : Looped is := by
  refine ⟨fun i hm => (h i hm).1, ?_⟩
  rintro before arg after rfl
  exact absurd trivial (h (.lpend arg) (List.mem_append_right before List.mem_cons_self)).2

theorem append_eq_cons {before after : List Instr} {i : Instr} (h : is ++ is' = before ++ i :: after) :
    (∃ mid, is = before ++ i :: mid) ∨ ∃ mid, before = is ++ mid ∧ is' = mid ++ i :: after := by
  obtain ⟨mid, hmid, hafter⟩ | ⟨mid, hmid, hafter⟩ := List.append_eq_append_iff.mp h
  · exact .inr ⟨mid, hmid, hafter⟩
  · cases mid with
    | nil => exact .inr ⟨[], by rw [hmid, List.append_nil, List.append_nil], hafter.symm⟩
    | cons j mid =>
      obtain ⟨rfl, -⟩ := List.cons_eq_cons.mp hafter
      exact .inl ⟨mid, hmid⟩

theorem Looped.append (h : Looped is) (h' : Looped is') : Looped (is ++ is') := by
  refine ⟨List.forall_mem_append.mpr ⟨h.encodable, h'.encodable⟩, fun before arg after heq => ?_⟩
  obtain ⟨mid, hmid⟩ | ⟨mid, rfl, hafter⟩ := append_eq_cons heq
  · exact h.bracketed before arg mid hmid
  · obtain ⟨outside, cnt, body, rfl, hjump⟩ := h'.bracketed mid arg after hafter
    exact ⟨is ++ outside, cnt, body, (List.append_assoc _ _ _).symm, hjump⟩

/-- A loop around a program that does not use its counter. -/
theorem Looped.loop (h : Looped is) (hu : Unused l is) (hlen : (assemble is).length < 256) (cnt : Byte) :
    Looped ([.lp l cnt] ++ (is ++ [.lpend ⟨.always, false, l, BitVec.ofNat 8 (assemble is).length⟩])) := by
  have hlp : Looped [.lp l cnt] := by
    refine ⟨fun i hm => List.mem_singleton.mp hm ▸ trivial, fun before arg after heq => ?_⟩
    have hm : Instr.lpend arg ∈ [Instr.lp l cnt] := heq ▸ List.mem_append_right before List.mem_cons_self
    simp at hm
  rw [← List.append_assoc]
  constructor
  · refine List.forall_mem_append.mpr ⟨(hlp.append h).encodable, fun i hm => ?_⟩
    rw [List.mem_singleton.mp hm]
    exact fun _ => rfl
  intro before arg after heq
  obtain ⟨mid, hmid⟩ | ⟨mid, rfl, hafter⟩ := append_eq_cons heq
  · exact (hlp.append h).bracketed before arg mid hmid
  · cases mid with
    | nil =>
      have harg : arg = ⟨.always, false, l, BitVec.ofNat 8 (assemble is).length⟩ :=
        (Instr.lpend.inj (List.cons_eq_cons.mp hafter).1).symm
      subst harg
      refine ⟨[], cnt, is, List.append_nil _, ?_, rfl, hu⟩
      rw [BitVec.toNat_ofNat]
      exact Nat.mod_eq_of_lt hlen
    | cons i mid => simp at hafter

/-! ### The code of a request -/

variable (pl330 : Dmac) (pxs : XferSpec)

theorem straight_mem : Straight (memProgram pl330) := by
  unfold memProgram
  split_ifs <;> simp [Straight, Instr.Encodable, Instr.OfLoop]

theorem straight_flush : Straight (flushProgram pl330 pxs) := by
  unfold flushProgram
  split_ifs
  · exact .nil
  · exact .one _ (periByte_and pxs.desc) id

theorem straight_peri {cond : Cond} (hc : cond ≠ .always) : Straight (periProgram pxs cond) := by
  have hperi := periByte_and pxs.desc
  unfold periProgram
  cases pxs.desc.rqtype <;>
    simpa [Straight, loadProgram, storeProgram, Instr.Encodable, Instr.OfLoop, hc] using hperi

theorem straight_bursts (cyc : ℕ) : Straight (burstsProgram pl330 pxs cyc) := by
  have hflush := straight_flush pl330 pxs
  have hperi := straight_peri pxs (burstCond_ne_always pl330 pxs)
  unfold burstsProgram headProgram burstProgram
  cases pxs.desc.rqtype with
  | memToMem => exact Straight.nil.append ((straight_mem pl330).times cyc)
  | memToDev | devToMem => exact hflush.append (hperi.times cyc)
  | devToDev | transNone => exact Straight.nil.append (Straight.nil.times cyc)

theorem straight_dregs (n : ℕ) : Straight (dregsProgram pl330 pxs n) := by
  have hmov : Straight [.mov .ccr (dregsCcr pxs n)] := .one _ trivial id
  have hburst : Straight (periProgram pxs .burst) := straight_peri pxs (by decide)
  have hperi := (straight_flush pl330 pxs).append (hburst.times 1)
  unfold dregsProgram
  split
  · exact .nil
  · cases pxs.desc.rqtype with
    | memToMem => exact hmov.append ((straight_mem pl330).times 1)
    | memToDev | devToMem => exact hmov.append hperi
    | devToDev | transNone => exact .nil

theorem looped_inner {lcnt1 cyc : ℕ} (hlen : (assemble (burstsProgram pl330 pxs cyc)).length < 256) :
    Looped (innerProgram pl330 pxs lcnt1 cyc) :=
  .loop (straight_bursts pl330 pxs cyc).looped (straight_bursts pl330 pxs cyc).unused hlen _

/-- The inner loop does not use the counter of the outer one. -/
theorem unused_inner (lcnt1 cyc : ℕ) : Unused false (innerProgram pl330 pxs lcnt1 cyc) := by
  obtain ⟨hlp, hlpend⟩ : Unused false (burstsProgram pl330 pxs cyc) := (straight_bursts pl330 pxs cyc).unused
  refine ⟨fun cnt hm => ?_, fun arg harg hm => ?_⟩ <;>
    simp only [innerProgram, List.mem_append, List.mem_singleton] at hm <;> obtain hm | hm | hm := hm
  · simp at hm
  · exact hlp _ hm
  · simp at hm
  · simp at hm
  · exact hlpend _ harg hm
  · rw [Instr.lpend.inj hm] at harg
    simp at harg

variable {pxs}

theorem looped_pass (hs : pxs.desc.rqtype.Supported) (n : ℕ) : Looped (passProgram pl330 pxs n) := by
  have hbody := length_innerProgram_le pl330 (n := n) hs
  unfold passProgram loopProgram
  split_ifs with h1 h0
  · exact (straight_bursts pl330 pxs 1).looped
  · rw [if_pos h0] at hbody
    exact looped_inner pl330 pxs (by omega)
  · rw [if_neg h0] at hbody
    refine .loop (looped_inner pl330 pxs (by omega)) (unused_inner pl330 pxs _ _) ?_ _
    rw [length_innerProgram]
    omega

theorem looped_loops (hs : pxs.desc.rqtype.Supported) (fuel n : ℕ) : Looped (loopsProgram pl330 pxs fuel n) := by
  induction fuel generalizing n with
  | zero => exact Straight.nil.looped
  | succ fuel ih =>
    rw [loopsProgram]
    split
    · exact Straight.nil.looped
    · exact (looped_pass pl330 hs n).append (ih _)

theorem looped_setupReq (hs : pxs.desc.rqtype.Supported) (fuel : ℕ) {ev : Byte} (hev : ev &&& 0x1f = ev) :
    Looped (setupReqProgram pl330 pxs fuel ev) := by
  have hmov (dst : DmamovDst) (val : BitVec 32) : Looped [.mov dst val] := (Straight.one (.mov dst val) trivial id).looped
  have hsev : Looped [.sev ev] := (Straight.one (.sev ev) hev id).looped
  have hdone : Looped [.done] := (Straight.one .done trivial id).looped
  have hloops := (looped_loops pl330 hs fuel (numBursts pxs)).append (straight_dregs pl330 pxs (numDregs pxs)).looped
  exact (((hmov _ _).append (((hmov _ _).append (hmov _ _)).append hloops)).append hsev).append hdone

/-! ### From the bytes -/

/-- The instructions of a code. -/
def disassemble : ℕ → List Byte → Option (List Instr)
  | 0, _ => none
  | _ + 1, [] => some []
  | fuel + 1, b :: bs => do
      let i ← decode (b :: bs)
      let is ← disassemble fuel ((b :: bs).drop i.bytes.length)
      some (i :: is)

theorem bytes_ne_nil (i : Instr) : i.bytes ≠ [] := by
  cases i <;> exact List.cons_ne_nil _ _

theorem disassemble_assemble {fuel : ℕ} (h : ∀ i ∈ is, i.Encodable) (hfuel : is.length < fuel) :
    disassemble fuel (assemble is) = some is := by
  induction is generalizing fuel with
  | nil =>
    obtain ⟨fuel, rfl⟩ := Nat.exists_eq_add_one.mpr hfuel
    rfl
  | cons i is ih =>
    obtain ⟨fuel, rfl⟩ := Nat.exists_eq_add_one.mpr (Nat.zero_lt_of_lt hfuel)
    have hdecode := decode_bytes (h i List.mem_cons_self) (assemble is)
    have hrest := ih (fun j hj => h j (List.mem_cons_of_mem i hj)) (Nat.lt_of_succ_lt_succ hfuel)
    have hcode : assemble (i :: is) = i.bytes ++ assemble is := List.flatMap_cons
    obtain ⟨b, bs, hb⟩ := List.exists_cons_of_ne_nil (bytes_ne_nil i)
    rw [hcode, hb, List.cons_append, disassemble, ← List.cons_append, ← hb, hdecode, Option.bind_eq_bind, Option.bind_some,
      List.drop_left, hrest]
    rfl

/-- The bytes that are written for a supported request are the code of some instructions and of no others, and in them every
jump back goes to the first instruction of its own loop, with the whole distance in its eight bits. -/
theorem setupReq_jumps (hs : pxs.desc.rqtype.Supported) (k : ℕ) {ev : Byte} (hev : ev.toNat < 32) : ∃ code is,
    (∀ buf, ((setupReq pl330 pxs (2 ^ 32 + k) ev).run false buf).trace = placed buf code) ∧
      disassemble (is.length + 1) code = some is ∧ Bracketed is := by
  have hfield : ∀ ev : Byte, ev.toNat < 32 → ev &&& 0x1f = ev := by decide
  have hwrites := writes_setupReq pl330 hs (Nat.le_add_right _ k) ev
  have hlooped := looped_setupReq pl330 hs (2 ^ 32 + k) (hfield ev hev)
  exact ⟨_, _, fun buf => Emits.trace hwrites buf, disassemble_assemble hlooped.encodable (Nat.lt_succ_self _), hlooped.bracketed⟩

theorem setupReq_jumps_sample : ∃ code is,
    (∀ buf, ((setupReq sampleDmac (xferSpec sampleDmac sampleDesc) (2 ^ 32) 3).run false buf).trace = placed buf code) ∧
      disassemble (is.length + 1) code = some is ∧ Bracketed is :=
  setupReq_jumps sampleDmac ⟨by decide, by decide⟩ 0 (by decide)

end GfpDrivers.Dma
