import GfpDrivers.Of.ParseBounds

/-!
When `of_irq_parse_raw` and `of_irq_parse_one` stay in the arrays and in the maps. The sizes of the specifiers
are cells of the tree: `of_irq_parse_raw` compares their sum with the bound after adding them in 32 bits, and
`of_irq_parse_one` does not compare its size at all.
-/

namespace GfpDrivers.Of

open Lib Relation Traced

variable {v : TreeView} {stray : ℕ → ℤ → ℕ} {initial : ℕ → ℕ} {addr : Option Bytes} {np p child fuel rounds addrsize : ℕ}
  {out : PhandleArgs}

/-! ### `of_irq_parse_raw` -/

theorem AddressCells.loop (h : AddressCells v np addrsize) :
    ∃ k, ∀ rounds ≥ k, (addressCellsLoop v rounds np).result = some addrsize := by
  induction h with
  | own hprop =>
    refine ⟨1, fun rounds hrounds => ?_⟩
    obtain ⟨rounds, rfl⟩ := Nat.exists_eq_add_of_le' hrounds
    simp only [addressCellsLoop_result, hprop]
  | above hnone hparent _ ih =>
    obtain ⟨k, hk⟩ := ih
    refine ⟨k + 1, fun rounds hrounds => ?_⟩
    obtain ⟨rounds, rfl⟩ := Nat.exists_eq_add_of_le' (Nat.one_le_of_lt hrounds)
    simp only [addressCellsLoop_result, hnone, hparent]
    exact hk rounds (by omega)
  | default hnone hroot =>
    refine ⟨1, fun rounds hrounds => ?_⟩
    obtain ⟨rounds, rfl⟩ := Nat.exists_eq_add_of_le' hrounds
    simp only [addressCellsLoop_result, hnone, hroot]

theorem AddressCells.lt (h : AddressCells v np addrsize) : addrsize < 2 ^ 32 := by
  induction h with
  | own _ => exact be32ToCpup_lt _
  | above _ _ _ ih => exact ih
  | default _ _ => exact (by decide : 2 < 2 ^ 32)

theorem acc_of_seek {ipar intsize : ℕ} (hseek : ReflTransGen (SeekStep v) np ipar)
    (hread : v.ofPropertyReadU32 ipar "#interrupt-cells" = .ok intsize) : Acc (flip (SeekStep v)) np := by
  induction hseek using ReflTransGen.head_induction_on with
  | refl => exact ⟨_, fun p hp => absurd hread (hp.1 intsize)⟩
  | head hstep _ ih =>
    refine ⟨_, fun p hp => ?_⟩
    obtain rfl := Option.some.inj (hstep.2.symm.trans hp.2)
    exact ih

/-- Filling the array touches as many of its cells, and what is read for them. -/
theorem fillFrom_stays_iff {read : ℕ → Traced ParseEvent ℕ} {val : ℕ → ℕ} (hread : ∀ i, (read i).result = some (val i))
    (start n i : ℕ) (a : ℕ → ℕ) :
    Stays v (fillFrom read start n i a) ↔ ∀ j < n, Stays v (read (i + j)) ∧ (start + (i + j)) % 2 ^ 32 < maxPhandleArgs := by
  induction n generalizing i a with
  | zero => exact iff_of_true (.pure _) fun j hj => absurd hj (Nat.not_lt_zero j)
  | succ n ih =>
    simp only [fillFrom, stays_bind_iff, hread, stays_emit_iff, initial_inBounds_iff, result_emit, Option.some.injEq, forall_eq',
      forall_const, ih, ← and_assoc]
    exact (forall_lt_succ_shift (P := fun j => Stays v (read j) ∧ (start + j) % 2 ^ 32 < maxPhandleArgs)).symm

/-- The specifier is put into the array. -/
def fillSpecifier (addr : Option Bytes) (out : PhandleArgs) (addrsize intsize : ℕ) : Traced ParseEvent (ℕ → ℕ) := do
  let initial ← fillFrom (fun i => pure (addrCell addr i)) 0 addrsize 0 fun _ => 0
  fillFrom (readArgs out) addrsize intsize 0 initial

theorem fillSpecifier_result (addr : Option Bytes) (out : PhandleArgs) (addrsize intsize : ℕ) :
    (fillSpecifier addr out addrsize intsize).result = some (irqMatchArray addr out addrsize intsize) := by
  have hread : ∀ i, (readArgs out i).result = some (out.args i) := fun i => rfl
  simp only [fillSpecifier, result_bind, fillFrom_result (fun i => result_pure), fillFrom_result hread, Option.bind_some]
  rfl

/-- A specifier that seems to be short enough fits in the array if the sum of its sizes has not wrapped. -/
theorem fillSpecifier_stays_iff (haddr : addrsize < 2 ^ 32) (hint : out.argsCount < 2 ^ 32)
    (hle : (addrsize + out.argsCount) % 2 ^ 32 ≤ maxPhandleArgs) :
    Stays v (fillSpecifier addr out addrsize out.argsCount) ↔ addrsize + out.argsCount < 2 ^ 32 := by
  have hpure : ∀ i, Stays v (pure (addrCell addr i) : Traced ParseEvent ℕ) := fun i => .pure _
  have hargs : ∀ i, Stays v (readArgs out i) ↔ i < maxPhandleArgs := fun i => by
    rw [readArgs, stays_bind_iff, stays_emit_iff, args_inBounds_iff]
    exact and_iff_left fun _ _ => .pure _
  have hread : ∀ i, (readArgs out i).result = some (out.args i) := fun i => rfl
  simp only [fillSpecifier, stays_bind_iff, fillFrom_stays_iff (fun i => result_pure), fillFrom_stays_iff hread, hpure, hargs,
    fillFrom_result (fun i => result_pure), Option.some.injEq, forall_eq', Nat.zero_add, true_and]
  unfold maxPhandleArgs at hle ⊢
  constructor
  · rintro ⟨haddress, hinterrupt⟩
    have haddrsize : addrsize ≤ 16 := by
      by_contra hlong
      have hlast := haddress 16 (by omega)
      omega
    have hintsize : out.argsCount ≤ 16 := by
      by_contra hlong
      have hlast := hinterrupt 16 (by omega)
      omega
    omega
  · intro hlt
    refine ⟨fun j hj => ?_, fun j hj => ?_⟩ <;> omega

/-- What `of_irq_parse_raw` needs: wherever its search ends, the sum of the sizes does not wrap, and all levels of the
walk from there fit. -/
def RawFits (v : TreeView) (stray : ℕ → ℤ → ℕ) (addr : Option Bytes) (out : PhandleArgs) : Prop :=
  ∀ np ∈ out.np, ∀ ipar addrsize, IrqStart v np out ipar addrsize →
    addrsize + out.argsCount < 2 ^ 32 ∧
    ∀ l, ReflTransGen (IrqStep v stray (irqMatchArray addr out addrsize out.argsCount) addr)
        (.level ⟨ipar, addrsize, out.argsCount, .initialMatchArray⟩) (.level l) →
      l.FitsAt v stray (irqMatchArray addr out addrsize out.argsCount) addr

theorem IrqStart.inv {ipar : ℕ} (h : IrqStart v np out ipar addrsize) :
    IrqLevel.Inv v ⟨ipar, addrsize, out.argsCount, .initialMatchArray⟩ :=
  ⟨h.cells_le, fun _ _ _ hptr => nomatch hptr⟩

theorem ofIrqParseRaw_stays_iff_of_start {ipar : ℕ} (hnp : out.np = some np)
    (hseek : (seekLoop fuel v fuel np).result = some (some (ipar, out.argsCount)))
    (haddr : (addressCellsLoop v fuel ipar).result = some addrsize) (hle : (addrsize + out.argsCount) % 2 ^ 32 ≤ maxPhandleArgs) :
    Stays v (ofIrqParseRaw fuel v stray addr out) ↔
      Stays v (fillSpecifier addr out addrsize out.argsCount) ∧
      Stays v (irqLevels fuel v stray (irqMatchArray addr out addrsize out.argsCount) addr fuel
        ⟨ipar, addrsize, out.argsCount, .initialMatchArray⟩ out) := by
  have hread : ∀ i, (readArgs out i).result = some (out.args i) := fun i => rfl
  have hlevels := fillSpecifier_result addr out addrsize out.argsCount
  simp only [fillSpecifier, result_bind, fillFrom_result (fun i => result_pure), fillFrom_result hread, Option.bind_some,
    Option.some.injEq] at hlevels
  simp only [ofIrqParseRaw, fillSpecifier, stays_bind_iff, ofNodeGet_stays, hnp, seekLoop_stays, hseek, addressCellsLoop_stays, haddr,
    ofNodeGet_result, ne_eq, not_true_eq_false, if_false, if_neg (Nat.not_lt.mpr hle), fillFrom_result (fun i => result_pure),
    fillFrom_result hread, Option.some.injEq, forall_eq', forall_const, true_and, hlevels, and_assoc]

/-- The calls stay in the arrays and maps exactly if the walk fits. -/
theorem ofIrqParseRaw_stays_iff (v : TreeView) (stray : ℕ → ℤ → ℕ) (addr : Option Bytes) (out : PhandleArgs) (k : ℕ) :
    (∀ fuel ≥ k, Stays v (ofIrqParseRaw fuel v stray addr out)) ↔ RawFits v stray addr out := by
  constructor
  · intro h np hnp ipar addrsize hstart
    obtain ⟨found, k₁, hk₁⟩ := seekLoop_ends (acc_of_seek hstart.seek hstart.intsize_eq)
    obtain rfl := seekLoop_complete (hk₁ k₁ le_rfl k₁ le_rfl) hstart.seek hstart.intsize_eq
    obtain ⟨k₂, hk₂⟩ := hstart.addressCells.loop
    have hrun : ∀ fuel ≥ max k (max k₁ k₂), _ := fun fuel hfuel =>
      (ofIrqParseRaw_stays_iff_of_start hnp (hk₁ fuel (by omega) fuel (by omega)) (hk₂ fuel (by omega)) hstart.cells_le).mp
        (h fuel (by omega))
    have hint : out.argsCount < 2 ^ 32 := TreeView.ofPropertyReadU32_lt hstart.intsize_eq
    refine ⟨(fillSpecifier_stays_iff hstart.addressCells.lt hint hstart.cells_le).mp (hrun _ le_rfl).1, ?_⟩
    exact (irqLevels_stays_iff hstart.inv out (max k (max k₁ k₂))).mp fun fuel hfuel => (hrun fuel hfuel).2
  · intro h fuel _
    rw [ofIrqParseRaw]
    refine (ofNodeGet_stays _).bind fun _ _ => ?_
    cases hnp : out.np with
    | none => exact .pure _
    | some np =>
      refine seekLoop_stays.bind fun found hfound => ?_
      cases found with
      | none => exact .pure _
      | some found =>
        obtain ⟨ipar, intsize⟩ := found
        simp only
        split_ifs with hcount
        · exact (ofNodePut_stays _).bind fun _ _ => .pure _
        · obtain rfl := not_not.mp hcount
          refine (ofNodeGet_stays _).bind fun _ _ => addressCellsLoop_stays.bind fun addrsize haddr => ?_
          split_ifs with hlong
          · exact (ofNodePut_stays _).bind fun _ _ => .pure _
          · obtain ⟨hseek, hread⟩ := seekLoop_found hfound
            have hstart : IrqStart v np out ipar addrsize := ⟨hseek, hread, addressCellsLoop_sound haddr, Nat.not_lt.mp hlong⟩
            obtain ⟨hlt, hlevels⟩ := h np hnp ipar addrsize hstart
            have hint : out.argsCount < 2 ^ 32 := TreeView.ofPropertyReadU32_lt hread
            have hfill : Stays v (fillSpecifier addr out addrsize out.argsCount) :=
              (fillSpecifier_stays_iff hstart.addressCells.lt hint hstart.cells_le).mpr hlt
            obtain ⟨haddress, hinterrupt⟩ := stays_bind_iff.mp hfill
            refine haddress.bind fun a ha => (hinterrupt a ha).bind fun initial hinitial => ?_
            have hresult : (fillSpecifier addr out addrsize out.argsCount).result = some initial := by
              rw [fillSpecifier, result_bind, ha]
              exact hinitial
            obtain rfl := Option.some.inj ((fillSpecifier_result addr out addrsize out.argsCount).symm.trans hresult)
            exact irqLevels_stays hstart.inv hlevels out

/-! ### `of_irq_parse_one` -/

/-- What `of_irq_find_parent` finds: the first interrupt parent with `#interrupt-cells`. -/
def FindsParent (v : TreeView) (child p : ℕ) : Prop :=
  ∃ c, ReflTransGen (ParentStep v) child c ∧ irqParent v c = some p ∧ HasCells v p

theorem findParentLoop_finds (h : (findParentLoop v rounds child).result = some (some p)) : FindsParent v child p := by
  induction rounds generalizing child with
  | zero => cases h
  | succ rounds ih =>
    rw [findParentLoop_result] at h
    cases hirq : irqParent v child with
    | none => simp [hirq] at h
    | some p' =>
      simp only [hirq] at h
      split_ifs at h with hcells
      · obtain rfl := Option.some.inj (Option.some.inj h)
        exact ⟨child, .refl, hirq, hcells⟩
      · obtain ⟨c, hc, hp⟩ := ih h
        exact ⟨c, .head ⟨hirq, hcells⟩ hc, hp⟩

theorem FindsParent.loop (h : FindsParent v child p) : ∃ k, ∀ fuel ≥ k, (findParentLoop v fuel child).result = some (some p) := by
  obtain ⟨c, hc, hirq, hcells⟩ := h
  induction hc using ReflTransGen.head_induction_on with
  | refl =>
    refine ⟨1, fun fuel hfuel => ?_⟩
    obtain ⟨fuel, rfl⟩ := Nat.exists_eq_add_of_le' hfuel
    simp only [findParentLoop_result, hirq, if_pos hcells]
  | head hstep _ ih =>
    obtain ⟨k, hk⟩ := ih
    refine ⟨k + 1, fun fuel hfuel => ?_⟩
    obtain ⟨fuel, rfl⟩ := Nat.exists_eq_add_of_le' (Nat.one_le_of_lt hfuel)
    simp only [findParentLoop_result, hstep.1, if_neg hstep.2]
    exact hk fuel (by omega)

/-- The cell `i` of an interrupt that starts at `base`. -/
def interruptCell (v : TreeView) (device base i : ℕ) : Except ℤ ℕ :=
  v.ofPropertyReadU32Index device "interrupts" ((base + i) % 2 ^ 32)

/-- The cell can be read. -/
def CellReadable (v : TreeView) (device base i : ℕ) : Prop := ∃ val, interruptCell v device base i = .ok val

/-- The arguments that the cells of an interrupt are copied to. -/
def interruptArgs (v : TreeView) (device base intsize : ℕ) (args : ℕ → ℕ) (i : ℕ) : ℕ :=
  if i < intsize then (interruptCell v device base i).toOption.getD 0 else args i

theorem ofPropertyReadU32Index_error {name : String} {index : ℕ} {e : ℤ}
    (h : v.ofPropertyReadU32Index np name index = .error e) : e ≠ 0 := by
  unfold TreeView.ofPropertyReadU32Index at h
  cases hprop : v.ofGetProperty np name with
  | none =>
    simp only [hprop, Except.error.injEq] at h
    subst h
    decide
  | some p =>
    simp only [hprop] at h
    split_ifs at h
    obtain rfl := Except.error.inj h
    decide

section Copy

variable {device base : ℕ}

theorem copyInterrupts_stays_iff (n i : ℕ) (args : ℕ → ℕ) :
    Stays v (copyInterrupts v device base n i args) ↔
      ∀ j < n, (∀ m < j + 1, CellReadable v device base (i + m)) → i + j < maxPhandleArgs := by
  induction n generalizing i args with
  | zero => exact iff_of_true (.pure _) fun j hj => absurd hj (Nat.not_lt_zero j)
  | succ n ih =>
    rw [copyInterrupts]
    cases hcell : v.ofPropertyReadU32Index device "interrupts" ((base + i) % 2 ^ 32) with
    | error e =>
      refine iff_of_true (.pure _) fun j _ hread => ?_
      obtain ⟨val, hval⟩ := hread 0 (Nat.succ_pos j)
      exact absurd (hcell.symm.trans hval) (by simp)
    | ok val =>
      have hread : CellReadable v device base i := ⟨val, hcell⟩
      have hshift : ∀ j, (∀ m < j + 1, CellReadable v device base (i + m)) ↔ ∀ m < j, CellReadable v device base (i + 1 + m) :=
        fun j => forall_lt_succ_shift.trans (and_iff_right hread)
      simp only [stays_bind_iff, stays_emit_iff, args_inBounds_iff, result_emit, forall_const, ih, hshift]
      rw [Nat.forall_lt_succ_left]
      refine and_congr (by simp) (forall₂_congr fun j _ => imp_congr_right fun _ => ?_)
      omega

theorem copyInterrupts_result (n i : ℕ) (args : ℕ → ℕ) (h : ∀ j < n, CellReadable v device base (i + j)) :
    (copyInterrupts v device base n i args).result =
      some (0, fun j => if i ≤ j ∧ j < i + n then (interruptCell v device base j).toOption.getD 0 else args j) := by
  induction n generalizing i args with
  | zero =>
    refine congrArg (fun f => some (0, f)) (funext fun j => ?_)
    rw [if_neg (by omega)]
  | succ n ih =>
    obtain ⟨⟨val, hval⟩, hrest⟩ := (forall_lt_succ_shift (P := CellReadable v device base)).mp h
    have hcell : v.ofPropertyReadU32Index device "interrupts" ((base + i) % 2 ^ 32) = .ok val := hval
    have hgetD : (interruptCell v device base i).toOption.getD 0 = val := by rw [hval]; rfl
    rw [copyInterrupts, hcell]
    simp only [result_bind, result_emit, Option.bind_some]
    rw [ih _ _ hrest, ← hgetD]
    exact congrArg (fun f => some (0, f)) (update_overwrite (fun j => (interruptCell v device base j).toOption.getD 0) args i n)

theorem copyInterrupts_eq (n : ℕ) (args : ℕ → ℕ) (h : ∀ j < n, CellReadable v device base j) :
    (copyInterrupts v device base n 0 args).result = some (0, interruptArgs v device base n args) := by
  rw [copyInterrupts_result n 0 args fun j hj => by simpa using h j hj]
  simp only [Nat.zero_le, true_and, Nat.zero_add]
  rfl

theorem readable_of_copyInterrupts {n i : ℕ} {args args' : ℕ → ℕ}
    (h : (copyInterrupts v device base n i args).result = some (0, args')) : ∀ j < n, CellReadable v device base (i + j) := by
  induction n generalizing i args with
  | zero => exact fun j hj => absurd hj (Nat.not_lt_zero j)
  | succ n ih =>
    rw [copyInterrupts] at h
    cases hcell : v.ofPropertyReadU32Index device "interrupts" ((base + i) % 2 ^ 32) with
    | error e =>
      simp only [hcell, result_pure, Option.some.injEq, Prod.mk.injEq] at h
      exact absurd h.1 (ofPropertyReadU32Index_error hcell)
    | ok val =>
      simp only [hcell, result_bind, result_emit, Option.bind_some] at h
      exact forall_lt_succ_shift.mpr ⟨⟨val, hcell⟩, ih h⟩

end Copy

/-- What the list `interrupts-extended` of a device says. -/
def extendedInterrupt (v : TreeView) (device : ℕ) (index : ℤ) (out : PhandleArgs) : ℤ × Option PhandleArgs :=
  if index < 0 then (-EINVAL, some out)
  else parsedEntry (referenceList v device "interrupts-extended" (some "#interrupt-cells")) index.toNat (some out)

/-- Where the cells of an interrupt are. -/
def interruptBase (index : ℤ) (intsize : ℕ) : ℕ := ((index * intsize) % 2 ^ 32).toNat

/-- What `of_irq_parse_one` needs: the walk from an extended interrupt fits, and where the interrupt is one for the
interrupt parent, this one does not ask for cells that can be read and are too many, and the walk from it fits. -/
structure OneFits (v : TreeView) (stray : ℕ → ℤ → ℕ) (device : ℕ) (index : ℤ) (out : PhandleArgs) : Prop where
  extended : (extendedInterrupt v device index out).1 = 0 →
    RawFits v stray ((v.ofGetProperty device "reg").map (·.1)) ((extendedInterrupt v device index out).2.getD out)
  narrow : (extendedInterrupt v device index out).1 ≠ 0 → ∀ p intsize, FindsParent v device p →
    v.ofPropertyReadU32 p "#interrupt-cells" = .ok intsize → maxPhandleArgs < intsize →
      ¬ ∀ i ≤ maxPhandleArgs, CellReadable v device (interruptBase index intsize) i
  raw : (extendedInterrupt v device index out).1 ≠ 0 → ∀ p intsize, FindsParent v device p →
    v.ofPropertyReadU32 p "#interrupt-cells" = .ok intsize → (∀ i < intsize, CellReadable v device (interruptBase index intsize) i) →
      RawFits v stray ((v.ofGetProperty device "reg").map (·.1))
        ⟨some p, intsize, interruptArgs v device (interruptBase index intsize) intsize
          ((extendedInterrupt v device index out).2.getD out).args⟩

theorem extendedInterrupt_result {device : ℕ} {index : ℤ} {r : ℤ × Option PhandleArgs}
    (h : (ofParsePhandleWithArgs fuel v device "interrupts-extended" (some "#interrupt-cells") (-1) index (some out)).result = some r) :
    r = extendedInterrupt v device index out := by
  unfold extendedInterrupt
  split_ifs with hindex
  · rw [ofParsePhandleWithArgs, if_pos hindex] at h
    exact (Option.some.inj h).symm
  · obtain ⟨i, rfl⟩ := Int.eq_ofNat_of_zero_le (not_lt.mp hindex)
    exact ofParsePhandleWithArgs_named h

theorem extendedInterrupt_returns (v : TreeView) (device : ℕ) (index : ℤ) (out : PhandleArgs) : ∃ k, ∀ fuel ≥ k,
    (ofParsePhandleWithArgs fuel v device "interrupts-extended" (some "#interrupt-cells") (-1) index (some out)).result =
      some (extendedInterrupt v device index out) := by
  unfold extendedInterrupt
  split_ifs with hindex
  · refine ⟨0, fun fuel _ => ?_⟩
    rw [ofParsePhandleWithArgs, if_pos hindex]
    rfl
  · obtain ⟨i, rfl⟩ := Int.eq_ofNat_of_zero_le (not_lt.mp hindex)
    exact ofParsePhandleWithArgs_eq v device "interrupts-extended" (some "#interrupt-cells") (some out) i

/-- The copy stays in the array if the cells that can be read are not too many. -/
theorem copyInterrupts_stays_of {device base n : ℕ}
    (h : maxPhandleArgs < n → ¬ ∀ i ≤ maxPhandleArgs, CellReadable v device base i) (args : ℕ → ℕ) :
    Stays v (copyInterrupts v device base n 0 args) := by
  refine (copyInterrupts_stays_iff n 0 args).mpr fun j hj hread => ?_
  by_contra hlong
  refine h (by omega) fun i hi => ?_
  have hi := hread i (by omega)
  rwa [Nat.zero_add] at hi

/-- The calls stay in the arrays and maps exactly if the interrupt is not too wide and the walk from it fits. -/
theorem ofIrqParseOne_stays_iff (v : TreeView) (stray : ℕ → ℤ → ℕ) (device : ℕ) (index : ℤ) (out : PhandleArgs) :
    (∀ fuel, Stays v (ofIrqParseOne fuel v stray device index out)) ↔ OneFits v stray device index out := by
  constructor
  · intro h
    obtain ⟨k, hk⟩ := extendedInterrupt_returns v device index out
    -- a call with enough rounds whose interrupt is one for the interrupt parent
    have hown : (extendedInterrupt v device index out).1 ≠ 0 → ∀ p intsize, FindsParent v device p →
        v.ofPropertyReadU32 p "#interrupt-cells" = .ok intsize → ∃ k', ∀ fuel ≥ k',
          Stays v (copyInterrupts v device (interruptBase index intsize) intsize 0
            ((extendedInterrupt v device index out).2.getD out).args) ∧
          ∀ args, (copyInterrupts v device (interruptBase index intsize) intsize 0
              ((extendedInterrupt v device index out).2.getD out).args).result = some (0, args) →
            Stays v (ofIrqParseRaw fuel v stray ((v.ofGetProperty device "reg").map (·.1)) ⟨some p, intsize, args⟩) := by
      intro hres p intsize hfinds hcells
      obtain ⟨k', hk'⟩ := hfinds.loop
      refine ⟨max k k', fun fuel hfuel => ?_⟩
      have hcall := (stays_bind_iff.mp (h fuel)).2 _ (hk fuel (by omega))
      simp only [if_neg hres] at hcall
      have hparent := (stays_bind_iff.mp hcall).2 (some p) (by rw [ofIrqFindParent_result, hk' fuel (by omega)])
      simp only [hcells] at hparent
      refine ⟨(stays_bind_iff.mp hparent).1, fun args hargs => ?_⟩
      have hcopied := (stays_bind_iff.mp hparent).2 (0, args) hargs
      simp only [ne_eq, not_true_eq_false, if_false] at hcopied
      exact (stays_bind_iff.mp hcopied).1
    refine ⟨fun hres => ?_, fun hres p intsize hfinds hcells hlong hread => ?_, fun hres p intsize hfinds hcells hread => ?_⟩
    · refine (ofIrqParseRaw_stays_iff v stray _ _ k).mp fun fuel hfuel => ?_
      have hcall := (stays_bind_iff.mp (h fuel)).2 _ (hk fuel hfuel)
      simpa only [if_pos hres] using hcall
    · obtain ⟨k', hk'⟩ := hown hres p intsize hfinds hcells
      have hlast := (copyInterrupts_stays_iff _ _ _).mp (hk' k' le_rfl).1 maxPhandleArgs hlong fun m hm => by
        rw [Nat.zero_add]
        exact hread m (Nat.le_of_lt_succ hm)
      omega
    · obtain ⟨k', hk'⟩ := hown hres p intsize hfinds hcells
      exact (ofIrqParseRaw_stays_iff v stray _ _ k').mp fun fuel hfuel => (hk' fuel hfuel).2 _ (copyInterrupts_eq _ _ hread)
  · intro h fuel
    refine ofParsePhandleWithArgs_stays.bind fun r hr => ?_
    obtain rfl := extendedInterrupt_result hr
    have hextended := h.extended
    have hnarrow := h.narrow
    have hraw := h.raw
    generalize extendedInterrupt v device index out = entry at hextended hnarrow hraw
    obtain ⟨res, found⟩ := entry
    simp only
    split_ifs with hres
    · exact (ofIrqParseRaw_stays_iff v stray _ _ 0).mpr (hextended hres) fuel (Nat.zero_le _)
    · refine (ofIrqFindParent_stays device).bind fun p hp => ?_
      cases p with
      | none => exact .pure _
      | some p =>
        rw [ofIrqFindParent_result] at hp
        have hfinds := findParentLoop_finds hp
        simp only
        cases hcells : v.ofPropertyReadU32 p "#interrupt-cells" with
        | error e => exact (ofNodePut_stays _).bind fun _ _ => .pure _
        | ok intsize =>
          refine (copyInterrupts_stays_of (hnarrow hres p intsize hfinds hcells) _).bind fun copied hcopied => ?_
          obtain ⟨res', args⟩ := copied
          simp only
          split_ifs with hres'
          · exact (ofNodePut_stays _).bind fun _ _ => .pure _
          · obtain rfl := not_not.mp hres'
            have hread : ∀ i < intsize, CellReadable v device (interruptBase index intsize) i := fun i hi => by
              have hi := readable_of_copyInterrupts hcopied i hi
              rwa [Nat.zero_add] at hi
            obtain ⟨-, rfl⟩ := Prod.mk.inj (Option.some.inj (hcopied.symm.trans (copyInterrupts_eq _ _ hread)))
            have hfits := hraw hres p intsize hfinds hcells hread
            exact ((ofIrqParseRaw_stays_iff v stray _ _ 0).mpr hfits fuel (Nat.zero_le _)).bind fun _ _ =>
              (ofNodePut_stays _).bind fun _ _ => .pure _

/-! ### The three functions -/

/-- Each of the functions stays in the arrays and maps exactly if its specifiers do: for `of_irq_parse_raw` the sizes
do not wrap when they are added, and the specifiers along the walk are neither too long nor in front of a map;
`of_irq_parse_one` must besides not copy too many cells; and for `of_parse_phandle_with_args_map` the node of the
entry must not ask for too many arguments. -/
theorem parsing_stays_iff (v : TreeView) (stray : ℕ → ℤ → ℕ) :
    (∀ (addr : Option Bytes) (out : PhandleArgs),
      (∀ fuel, Stays v (ofIrqParseRaw fuel v stray addr out)) ↔ RawFits v stray addr out) ∧
    (∀ (device : ℕ) (index : ℤ) (out : PhandleArgs),
      (∀ fuel, Stays v (ofIrqParseOne fuel v stray device index out)) ↔ OneFits v stray device index out) ∧
    (∀ (alloc : Fin 4 → Bool) (np : ℕ) (listName stemName : String) (index : ℤ) (out : PhandleArgs),
      (∀ fuel, Stays v (ofParsePhandleWithArgsMap fuel v stray alloc np listName stemName index out)) ↔
        (0 ≤ index → (∀ k, alloc k = true) →
          ∀ e ∈ calledEntry v np listName stemName index.toNat, e.phandle ≠ 0 → e.args.length ≤ maxPhandleArgs)) := by
  refine ⟨fun addr out => ?_, ofIrqParseOne_stays_iff v stray, fun alloc np listName stemName index out =>
    argsMap_stays_iff v stray alloc np listName stemName index out⟩
  rw [← ofIrqParseRaw_stays_iff v stray addr out 0]
  exact forall_congr' fun fuel => ⟨fun h _ => h, fun h => h (Nat.zero_le fuel)⟩

theorem wideInterrupt_find_zero : (none : Option ℕ) = none := rfl

/-- The node 0 has an interrupt of 17 cells for its parent, the node 1. -/
def wideInterrupt : TreeView where
  ofGetProperty np name :=
    if np = 0 ∧ name = "interrupts" then some (cellBytes (List.range 17), 68)
    else if np = 1 ∧ name = "#interrupt-cells" then some (cellBytes [17], 4)
    else none
  fullName _ := ""
  ofGetParent np := if np = 0 then some 1 else none
  ofFindNodeByPhandle _ := none
  find_zero := wideInterrupt_find_zero

/-- Its last cell is written behind the arguments. -/
theorem wideInterrupt_leaves_args :
    ¬ Stays wideInterrupt (ofIrqParseOne 2 wideInterrupt (fun _ _ => 0) 0 0 ⟨none, 0, fun _ => 0⟩) := by
  intro h
  have hlast : ParseEvent.access .args 16 ∈
      (ofIrqParseOne 2 wideInterrupt (fun _ _ => 0) 0 0 ⟨none, 0, fun _ => 0⟩).trace := by decide
  exact absurd (args_inBounds_iff.mp (h _ hlast)) (by decide)

end GfpDrivers.Of
