import GfpDrivers.Dma.Program

/-!
Safety of `pl330_submit_req`: the code that is generated for a request ends, has the size that the dry run said, and stays in
the half of the buffer that the request may use.
-/

namespace GfpDrivers.Dma

open Lib Generator Traced

variable (pl330 : Dmac) (thrd : Thread) (desc : Desc)

/-- What an accepted request is promised, with `pxs` for the request. -/
structure Accepted (fuel : ℕ) (pxs : XferSpec) : Prop where
  /-- The loop of `_setup_loops` makes progress: a pass takes some of the bursts, and no more than there are. -/
  pass : ∀ n dryRun buf, 0 < n → ∃ off c, (loop pl330 pxs n dryRun buf).result = some (off, c) ∧ 0 < c ∧ c ≤ n
  /-- Both runs return the same size, an `int`, and the second one writes below it. -/
  size : ∃ size < 2 ^ 31, size ≤ pl330.mcbufsz.toNat / 2 ∧
    (∀ dryRun, ((setupReq pl330 pxs fuel thrd.ev).run dryRun 0).result = some size) ∧
    AllEvents (fun w => w.1 < size) ((setupReq pl330 pxs fuel thrd.ev).run false 0)

/-- With enough rounds for the loop the request is accepted or refused. Whatever it is, nothing is written outside of the half
of the buffer. -/
structure Safe (fuel : ℕ) : Prop where
  ends : ∃ r, (submitReq pl330 fuel thrd desc).result = some r ∧
    (r.1 = 0 → Accepted pl330 thrd fuel (xferSpec pl330 desc))
  writes : AllEvents (fun w => w.1 < pl330.mcbufsz.toNat / 2) (submitReq pl330 fuel thrd desc)

variable {pl330 thrd desc} {fuel : ℕ}

theorem loop_result (pxs : XferSpec) (n : ℕ) (dryRun : Bool) (buf : ℕ) : (loop pl330 pxs n dryRun buf).result =
    some ((assemble (passProgram pl330 pxs n)).length, taken pl330 pxs n) := by
  rw [loop_eq, result_bind, Emits.result emits_emit]
  rfl

theorem accepted {pxs : XferSpec} (hs : pxs.desc.rqtype.Supported) (hfuel : 2 ^ 32 ≤ fuel)
    (hsize : (assemble (setupReqProgram pl330 pxs fuel thrd.ev)).length ≤ pl330.mcbufsz.toNat / 2) :
    Accepted pl330 thrd fuel pxs where
  pass n dryRun buf hn := ⟨_, _, loop_result pxs n dryRun buf, taken_bounds pl330 hs hn⟩
  size := by
    have hwrites := writes_setupReq pl330 hs hfuel thrd.ev
    refine ⟨_, length_setupReqProgram_lt pl330 fuel hs thrd.ev, hsize, fun dryRun => Emits.result hwrites dryRun 0,
      fun w hw => ?_⟩
    have := (Emits.write_lt hwrites w hw).2
    omega

/-- The conditions under which a request is looked at. -/
structure Admissible (pl330 : Dmac) (thrd : Thread) (desc : Desc) : Prop where
  rqtype : ¬(desc.rqtype = .devToDev ∨ desc.rqtype = .transNone)
  running : ¬(pl330.dying ∨ pl330.resetChan.toNat.testBit thrd.id.toNat)
  peri : ¬(desc.rqtype ≠ .memToMem ∧ pl330.numPeri.toNat ≤ desc.peri.toNat)
  free : ¬(thrd.req0 ≠ none ∧ thrd.req1 ≠ none)

theorem Admissible.supported (h : Admissible pl330 thrd desc) : (xferSpec pl330 desc).desc.rqtype.Supported :=
  not_or.mp h.rqtype

theorem submitReq_of_fits (h : Admissible pl330 thrd desc) (hfuel : 2 ^ 32 ≤ fuel)
    (hsize : (assemble (setupReqProgram pl330 (xferSpec pl330 desc) fuel thrd.ev)).length ≤ pl330.mcbufsz.toNat / 2) :
    submitReq pl330 fuel thrd desc = ⟨placed 0 (assemble (setupReqProgram pl330 (xferSpec pl330 desc) fuel thrd.ev)),
      some (0, thrd.hook (desc.secured pl330))⟩ := by
  have hwrites := writes_setupReq pl330 h.supported hfuel thrd.ev
  rw [submitReq, if_neg h.rqtype, if_neg h.running, if_neg h.peri, if_neg h.free, Emits.run_true hwrites, pure_bind,
    if_neg (Nat.not_lt.mpr hsize), hwrites, run_emit_false, bind_of_result rfl, trace_pure, List.append_nil, result_pure]

theorem submitReq_cases (hfuel : 2 ^ 32 ≤ fuel) :
    (∃ err ≠ 0, submitReq pl330 fuel thrd desc = pure (err, thrd)) ∨ Admissible pl330 thrd desc ∧
      (assemble (setupReqProgram pl330 (xferSpec pl330 desc) fuel thrd.ev)).length ≤ pl330.mcbufsz.toNat / 2 := by
  by_cases hdir : desc.rqtype = .devToDev ∨ desc.rqtype = .transNone
  · exact .inl ⟨-ENOTSUPP, by decide, if_pos hdir⟩
  by_cases hdying : pl330.dying ∨ pl330.resetChan.toNat.testBit thrd.id.toNat
  · exact .inl ⟨-EAGAIN, by decide, (if_neg hdir).trans (if_pos hdying)⟩
  by_cases hperi : desc.rqtype ≠ .memToMem ∧ pl330.numPeri.toNat ≤ desc.peri.toNat
  · exact .inl ⟨-EINVAL, by decide, ((if_neg hdir).trans (if_neg hdying)).trans (if_pos hperi)⟩
  by_cases hfull : thrd.req0 ≠ none ∧ thrd.req1 ≠ none
  · exact .inl ⟨-EAGAIN, by decide, (((if_neg hdir).trans (if_neg hdying)).trans (if_neg hperi)).trans (if_pos hfull)⟩
  have hadm : Admissible pl330 thrd desc := ⟨hdir, hdying, hperi, hfull⟩
  have hwrites := writes_setupReq pl330 hadm.supported hfuel thrd.ev
  by_cases hsize : (assemble (setupReqProgram pl330 (xferSpec pl330 desc) fuel thrd.ev)).length > pl330.mcbufsz.toNat / 2
  · refine .inl ⟨-ENOMEM, by decide, ?_⟩
    rw [submitReq, if_neg hdir, if_neg hdying, if_neg hperi, if_neg hfull, Emits.run_true hwrites, pure_bind, if_pos hsize]
  · exact .inr ⟨hadm, Nat.le_of_not_lt hsize⟩

theorem fits_of_accepted (hfuel : 2 ^ 32 ≤ fuel) {thrd' : Thread}
    (h : (submitReq pl330 fuel thrd desc).result = some (0, thrd')) : Admissible pl330 thrd desc ∧
      (assemble (setupReqProgram pl330 (xferSpec pl330 desc) fuel thrd.ev)).length ≤ pl330.mcbufsz.toNat / 2 := by
  obtain ⟨err, herr, heq⟩ | hfits := submitReq_cases hfuel
  · rw [heq] at h
    exact absurd (congrArg Prod.fst (Option.some.inj h)) herr
  · exact hfits

/-- The microcode of a request ends, both runs agree on its size, and it never overruns its half of the buffer. -/
theorem submitReq_safe (pl330 : Dmac) (thrd : Thread) (desc : Desc) (k : ℕ) : Safe pl330 thrd desc (2 ^ 32 + k) := by
  have hfuel : 2 ^ 32 ≤ 2 ^ 32 + k := Nat.le_add_right _ k
  obtain ⟨err, herr, heq⟩ | ⟨hadm, hsize⟩ := submitReq_cases hfuel
  · refine ⟨⟨(err, thrd), by rw [heq]; rfl, fun h0 => absurd h0 herr⟩, ?_⟩
    rw [heq]
    exact .pure
  · have heq := submitReq_of_fits hadm hfuel hsize
    refine ⟨⟨_, by rw [heq], fun _ => accepted hadm.supported hfuel hsize⟩, fun w hw => ?_⟩
    rw [heq] at hw
    have := (List.getElem?_eq_some_iff.mp (mem_placed.mp hw).2).1
    omega

end GfpDrivers.Dma
