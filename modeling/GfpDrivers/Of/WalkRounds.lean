import GfpDrivers.Of.IrqWalk

/-!
The loops of the parsers of references and the walks that they are on. A loop that has returned was on a
walk that ends, by induction on its rounds, and on a walk that ends the loop returns, by induction along
the walk.
-/

namespace GfpDrivers.Of

open Lib Relation

variable {v : TreeView} {stray : ℕ → ℤ → ℕ} {names : NexusNames} {initial : ℕ → ℕ} {addr : Option Bytes} {nodes : Set ℕ}
  {np p child fuel rounds addrsize : ℕ} {l : IrqLevel} {out : PhandleArgs} {lines : List MapLine × MapStop} {line : MapLine}
  {q : Option ℕ}

/-- A function of the rounds that returns something. -/
def Ending {β : Type} (f : ℕ → Option β) : Prop := ∃ b, Returns f b

/-! ### `of_irq_find_parent` -/

theorem acc_of_findParentLoop (h : (findParentLoop v rounds child).result = some q) : Acc (flip (ParentStep v)) child := by
  induction rounds generalizing child with
  | zero => cases h
  | succ rounds ih =>
    refine ⟨_, fun p hp => ?_⟩
    obtain ⟨hirq, hcells⟩ := hp
    rw [findParentLoop_result, hirq] at h
    simp only [if_neg hcells] at h
    exact ih h

theorem findParentLoop_ends (h : Acc (flip (ParentStep v)) child) :
    ∃ q k, ∀ fuel ≥ k, (findParentLoop v fuel child).result = some q := by
  induction h with
  | intro child _ ih =>
    cases hirq : irqParent v child with
    | none =>
      refine ⟨none, 1, fun fuel hfuel => ?_⟩
      obtain ⟨fuel, rfl⟩ := Nat.exists_eq_add_of_le' hfuel
      simp only [findParentLoop_result, hirq]
    | some p =>
      by_cases hcells : HasCells v p
      · refine ⟨some p, 1, fun fuel hfuel => ?_⟩
        obtain ⟨fuel, rfl⟩ := Nat.exists_eq_add_of_le' hfuel
        simp only [findParentLoop_result, hirq, if_pos hcells]
      · obtain ⟨q, k, hk⟩ := ih p ⟨hirq, hcells⟩
        refine ⟨q, k + 1, fun fuel hfuel => ?_⟩
        obtain ⟨fuel, rfl⟩ := Nat.exists_eq_add_of_le' (Nat.one_le_of_lt hfuel)
        simp only [findParentLoop_result, hirq, if_neg hcells]
        exact hk fuel (by omega)

/-- `of_irq_find_parent` returns exactly on walks that end. -/
theorem ofIrqFindParent_ending_iff :
    Ending (fun fuel => (ofIrqFindParent fuel v (some child)).result) ↔ Acc (flip (ParentStep v)) child := by
  simp only [ofIrqFindParent_result]
  refine ⟨fun h => ?_, findParentLoop_ends⟩
  obtain ⟨q, k, hk⟩ := h
  exact acc_of_findParentLoop (hk k le_rfl)

/-! ### Looking for a node with a number of cells -/

theorem seek_of_findParentLoop (hchild : NoCells v child) (h : (findParentLoop v rounds child).result = some (some p)) :
    TransGen (SeekStep v) child p := by
  induction rounds generalizing child with
  | zero => cases h
  | succ rounds ih =>
    rw [findParentLoop_result] at h
    cases hirq : irqParent v child with
    | none => simp [hirq] at h
    | some p' =>
      simp only [hirq] at h
      split_ifs at h with hcells
      · obtain rfl := Option.some.inj (Option.some.inj h)
        exact .single ⟨hchild, hirq⟩
      · exact .head ⟨hchild, hirq⟩ (ih (noCells_of_not_hasCells hcells) h)

theorem acc_seek_of_findParentLoop (h : (findParentLoop v rounds child).result = some q)
    (hq : ∀ p ∈ q, Acc (flip (SeekStep v)) p) : Acc (flip (SeekStep v)) child := by
  induction rounds generalizing child with
  | zero => cases h
  | succ rounds ih =>
    refine ⟨_, fun p hp => ?_⟩
    rw [findParentLoop_result, hp.2] at h
    simp only at h
    split_ifs at h with hcells
    · exact hq p (Option.some.inj h).symm
    · exact ih h

theorem acc_parent_of_acc_seek (h : Acc (flip (SeekStep v)) child) (hchild : NoCells v child) :
    Acc (flip (ParentStep v)) child := by
  induction h with
  | intro child _ ih =>
    refine ⟨_, fun p hp => ih p ⟨hchild, hp.1⟩ (noCells_of_not_hasCells hp.2)⟩

theorem seekLoop_noCells (h : NoCells v np) :
    (seekLoop fuel v (rounds + 1) np).result =
      (findParentLoop v fuel np).result.bind fun q =>
        match q with
        | none => some none
        | some p => (seekLoop fuel v rounds p).result := by
  rw [seekLoop]
  cases hread : v.ofPropertyReadU32 np "#interrupt-cells" with
  | ok intsize => exact absurd hread (h intsize)
  | error e =>
    simp only [Traced.result_bind, ofIrqFindParent_result, ofNodePut_result, Option.bind_some]
    congr 1
    funext q
    cases q <;> rfl

theorem seekLoop_cells {intsize : ℕ} (h : v.ofPropertyReadU32 np "#interrupt-cells" = .ok intsize) :
    seekLoop fuel v (rounds + 1) np = pure (some (np, intsize)) := by
  rw [seekLoop, h]

theorem acc_of_seekLoop {found : Option (ℕ × ℕ)} (h : (seekLoop fuel v rounds np).result = some found) :
    Acc (flip (SeekStep v)) np := by
  induction rounds generalizing np with
  | zero => cases h
  | succ rounds ih =>
    by_cases hcells : NoCells v np
    · rw [seekLoop_noCells hcells] at h
      obtain ⟨q, hq, h⟩ := Option.bind_eq_some_iff.mp h
      refine acc_seek_of_findParentLoop hq fun p hp => ?_
      obtain rfl := Option.mem_def.mp hp
      exact ih h
    · exact ⟨_, fun p hp => absurd hp.1 hcells⟩

theorem seekLoop_found {ipar intsize : ℕ} (h : (seekLoop fuel v rounds np).result = some (some (ipar, intsize))) :
    ReflTransGen (SeekStep v) np ipar ∧ v.ofPropertyReadU32 ipar "#interrupt-cells" = .ok intsize := by
  induction rounds generalizing np with
  | zero => cases h
  | succ rounds ih =>
    by_cases hcells : NoCells v np
    · rw [seekLoop_noCells hcells] at h
      obtain ⟨q, hq, h⟩ := Option.bind_eq_some_iff.mp h
      cases q with
      | none => simp at h
      | some p =>
        obtain ⟨hseek, hread⟩ := ih h
        exact ⟨(seek_of_findParentLoop hcells hq).to_reflTransGen.trans hseek, hread⟩
    · obtain ⟨size, hsize⟩ := not_forall_not.mp hcells
      rw [seekLoop_cells hsize] at h
      obtain ⟨rfl, rfl⟩ := Prod.mk.inj (Option.some.inj (Option.some.inj h))
      exact ⟨.refl, hsize⟩

/-- The search does not go past a node with a number of cells. -/
theorem findParentLoop_towards {ipar intsize : ℕ} (hchild : NoCells v child) (hseek : ReflTransGen (SeekStep v) child ipar)
    (hread : v.ofPropertyReadU32 ipar "#interrupt-cells" = .ok intsize) (h : (findParentLoop v rounds child).result = some q) :
    ∃ p, q = some p ∧ ReflTransGen (SeekStep v) p ipar := by
  induction rounds generalizing child with
  | zero => cases h
  | succ rounds ih =>
    rcases ReflTransGen.cases_head hseek with rfl | ⟨p, hp, hpi⟩
    · exact absurd hread (hchild intsize)
    · rw [findParentLoop_result, hp.2] at h
      simp only at h
      split_ifs at h with hcells
      · exact ⟨p, (Option.some.inj h).symm, hpi⟩
      · exact ih (noCells_of_not_hasCells hcells) hpi h

/-- The search finds the node with a number of cells that it comes to. -/
theorem seekLoop_complete {found : Option (ℕ × ℕ)} {ipar intsize : ℕ} (h : (seekLoop fuel v rounds np).result = some found)
    (hseek : ReflTransGen (SeekStep v) np ipar) (hread : v.ofPropertyReadU32 ipar "#interrupt-cells" = .ok intsize) :
    found = some (ipar, intsize) := by
  induction rounds generalizing np with
  | zero => cases h
  | succ rounds ih =>
    by_cases hcells : NoCells v np
    · rw [seekLoop_noCells hcells] at h
      obtain ⟨q, hq, h⟩ := Option.bind_eq_some_iff.mp h
      obtain ⟨p, rfl, hpi⟩ := findParentLoop_towards hcells hseek hread hq
      exact ih h hpi
    · rcases ReflTransGen.cases_head hseek with rfl | ⟨p, hp, -⟩
      · rw [seekLoop_cells hread] at h
        exact (Option.some.inj h).symm
      · exact absurd hp.1 hcells

theorem seekLoop_ends (h : Acc (flip (SeekStep v)) np) :
    ∃ found k, ∀ fuel ≥ k, ∀ rounds ≥ k, (seekLoop fuel v rounds np).result = some found := by
  have htrans : Acc (TransGen (flip (SeekStep v))) np := h.transGen
  induction htrans with
  | intro np _ ih =>
    by_cases hcells : NoCells v np
    · obtain ⟨q, k, hk⟩ := findParentLoop_ends (acc_parent_of_acc_seek h hcells)
      cases q with
      | none =>
        refine ⟨none, k + 1, fun fuel hfuel rounds hrounds => ?_⟩
        obtain ⟨rounds, rfl⟩ := Nat.exists_eq_add_of_le' (Nat.one_le_of_lt hrounds)
        rw [seekLoop_noCells hcells, hk fuel (by omega)]
        rfl
      | some p =>
        have hp : TransGen (SeekStep v) np p := seek_of_findParentLoop hcells (hk k le_rfl)
        obtain ⟨found, k', hk'⟩ := ih p (transGen_swap.mpr hp) (acc_of_reflTransGen h hp.to_reflTransGen)
        refine ⟨found, max k k' + 1, fun fuel hfuel rounds hrounds => ?_⟩
        obtain ⟨rounds, rfl⟩ := Nat.exists_eq_add_of_le' (Nat.one_le_of_lt hrounds)
        rw [seekLoop_noCells hcells, hk fuel (by omega)]
        exact hk' fuel (by omega) rounds (by omega)
    · obtain ⟨size, hsize⟩ := not_forall_not.mp hcells
      refine ⟨some (np, size), 1, fun fuel _ rounds hrounds => ?_⟩
      obtain ⟨rounds, rfl⟩ := Nat.exists_eq_add_of_le' hrounds
      rw [seekLoop_cells hsize]
      rfl

/-! ### The number of address cells -/

theorem addressCells_unique {m n : ℕ} (hm : AddressCells v np m) (hn : AddressCells v np n) : m = n := by
  induction hm with
  | own hprop =>
    cases hn with
    | own hprop' =>
      obtain ⟨rfl, -⟩ := Prod.mk.inj (Option.some.inj (hprop.symm.trans hprop'))
      rfl
    | above hnone => exact absurd (hprop.symm.trans hnone) (by simp)
    | default hnone => exact absurd (hprop.symm.trans hnone) (by simp)
  | above hnone hparent _ ih =>
    cases hn with
    | own hprop => exact absurd (hnone.symm.trans hprop) (by simp)
    | above _ hparent' hn =>
      obtain rfl := Option.some.inj (hparent.symm.trans hparent')
      exact ih hn
    | default _ hroot => exact absurd (hparent.symm.trans hroot) (by simp)
  | default hnone hroot =>
    cases hn with
    | own hprop => exact absurd (hnone.symm.trans hprop) (by simp)
    | above _ hparent => exact absurd (hroot.symm.trans hparent) (by simp)
    | default => rfl

theorem addressCellsLoop_result :
    (addressCellsLoop v (rounds + 1) np).result =
      match v.ofGetProperty np "#address-cells", v.ofGetParent np with
      | some (value, _), _ => some (be32ToCpup value)
      | none, none => some 2
      | none, some p => (addressCellsLoop v rounds p).result := by
  simp only [addressCellsLoop, getParent, Traced.result_bind, ofNodeGet_result, ofNodePut_result, Option.bind_some,
    Traced.result_pure]
  cases v.ofGetProperty np "#address-cells" <;> cases v.ofGetParent np <;>
    simp only [Traced.result_bind, ofNodePut_result, Option.bind_some, Traced.result_pure]

theorem addressCellsLoop_sound (h : (addressCellsLoop v rounds np).result = some addrsize) : AddressCells v np addrsize := by
  induction rounds generalizing np with
  | zero => cases h
  | succ rounds ih =>
    rw [addressCellsLoop_result] at h
    cases hprop : v.ofGetProperty np "#address-cells" with
    | some p =>
      obtain ⟨value, length⟩ := p
      simp only [hprop, Option.some.injEq] at h
      exact h ▸ .own hprop
    | none =>
      cases hparent : v.ofGetParent np with
      | none =>
        simp only [hprop, hparent, Option.some.injEq] at h
        exact h ▸ .default hprop hparent
      | some p =>
        simp only [hprop, hparent] at h
        exact .above hprop hparent (ih h)

theorem addressCellsLoop_ends (h : Acc (fun p c => v.ofGetParent c = some p) np) :
    ∃ addrsize k, ∀ rounds ≥ k, (addressCellsLoop v rounds np).result = some addrsize := by
  induction h with
  | intro np _ ih =>
    cases hprop : v.ofGetProperty np "#address-cells" with
    | some p =>
      obtain ⟨value, length⟩ := p
      refine ⟨be32ToCpup value, 1, fun rounds hrounds => ?_⟩
      obtain ⟨rounds, rfl⟩ := Nat.exists_eq_add_of_le' hrounds
      simp only [addressCellsLoop_result, hprop]
    | none =>
      cases hparent : v.ofGetParent np with
      | none =>
        refine ⟨2, 1, fun rounds hrounds => ?_⟩
        obtain ⟨rounds, rfl⟩ := Nat.exists_eq_add_of_le' hrounds
        simp only [addressCellsLoop_result, hprop, hparent]
      | some p =>
        obtain ⟨addrsize, k, hk⟩ := ih p hparent
        refine ⟨addrsize, k + 1, fun rounds hrounds => ?_⟩
        obtain ⟨rounds, rfl⟩ := Nat.exists_eq_add_of_le' (Nat.one_le_of_lt hrounds)
        simp only [addressCellsLoop_result, hprop, hparent]
        exact hk rounds (by omega)

/-! ### The levels of `of_irq_parse_raw` -/

/-- The size of the specifiers for a node, and the two numbers that it is made of. -/
theorem interruptCells_of_size {node n : ℕ} (h : (interruptRules v).size node = .ok n) :
    ∃ newintsize newaddrsize, interruptCells v node = .ok (newintsize, newaddrsize) ∧
      n = (newaddrsize + newintsize) % 2 ^ 32 := by
  simp only [interruptRules] at h
  cases hcells : interruptCells v node with
  | error e => simp [hcells, Except.map] at h
  | ok cells =>
    obtain ⟨newintsize, newaddrsize⟩ := cells
    simp only [hcells, Except.map, Except.ok.injEq] at h
    exact ⟨newintsize, newaddrsize, rfl, h.symm⟩

theorem copyIntspec_ends (v : TreeView) (stray : ℕ → ℤ → ℕ) (ipar : ℕ) (start : ℤ) (n i : ℕ) (args : ℕ → ℕ) :
    ∃ args', (copyIntspec v stray ipar start n i args).result = some args' := by
  induction n generalizing i args with
  | zero => exact ⟨args, rfl⟩
  | succ n ih => simpa [copyIntspec] using ih (i + 1) _

theorem irqLevels_up (hgo : l.GoesOn v addr) (hprop : v.ofGetProperty l.ipar "interrupt-map" = none) (out : PhandleArgs) :
    (irqLevels fuel v stray initial addr (rounds + 1) l out).result =
      (findParentLoop v fuel l.ipar).result.bind fun q =>
        match q with
        | none => some (-ENOENT, { out with np := none })
        | some p => (irqLevels fuel v stray initial addr rounds { l with ipar := p } { out with np := some p }).result := by
  have hctl : ¬ l.isController v = true := by simp [hgo.1]
  rw [irqLevels, if_neg hctl, if_neg hgo.2, hprop]
  simp only [Traced.result_bind, ofIrqFindParent_result, ofNodePut_result, Option.bind_some]
  congr 1
  funext q
  cases q <;> rfl

/-- The loop over the map of a level. -/
def IrqLevel.scan (fuel : ℕ) (v : TreeView) (stray : ℕ → ℤ → ℕ) (initial : ℕ → ℕ) (l : IrqLevel) (imaplen : ℕ) :
    Traced ParseEvent (MapScan × Bool) :=
  scanMap v stray (interruptRules v) initial l.ipar l.cells l.matchArray fuel ⟨none, 0, imaplen / 4, false, 0, -EINVAL⟩

section Map

variable {map : Bytes} {imaplen : ℕ} {r : MapScan × Bool}

theorem irqLevels_scan (hgo : l.GoesOn v addr) (hprop : v.ofGetProperty l.ipar "interrupt-map" = some (map, imaplen))
    (out : PhandleArgs) {x : ℤ × PhandleArgs}
    (h : (irqLevels fuel v stray initial addr (rounds + 1) l out).result = some x) :
    ∃ r, (l.scan fuel v stray initial imaplen).result = some r := by
  have hctl : ¬ l.isController v = true := by simp [hgo.1]
  rw [irqLevels, if_neg hctl, if_neg hgo.2, hprop] at h
  simp only [Traced.result_bind] at h
  obtain ⟨r, hr, -⟩ := Option.bind_eq_some_iff.mp h
  exact ⟨r, hr⟩

theorem irqLevels_missed (stray : ℕ → ℤ → ℕ) (initial : ℕ → ℕ) (hgo : l.GoesOn v addr)
    (hprop : v.ofGetProperty l.ipar "interrupt-map" = some (map, imaplen))
    (hmissed : r.2 = true ∨ r.1.matched = false) (out : PhandleArgs) :
    ∃ x, ∀ fuel rounds, (l.scan fuel v stray initial imaplen).result = some r →
      (irqLevels fuel v stray initial addr (rounds + 1) l out).result = some x := by
  have hctl : ¬ l.isController v = true := by simp [hgo.1]
  obtain ⟨st, failed⟩ := r
  have hleft : failed = true ∨ st.matched = false := hmissed
  refine ⟨(if failed = false ∧ (v.ofGetProperty l.ipar "interrupt-controller").isSome then 0 else st.ret, out),
    fun fuel rounds hr => ?_⟩
  rw [irqLevels, if_neg hctl, if_neg hgo.2, hprop]
  simp only [Traced.result_bind]
  rw [show (scanMap _ _ _ _ _ _ _ _ _).result = some (st, failed) from hr, Option.bind_some]
  cases failed with
  | true => simp [ofNodePut_result]
  | false =>
    have hmatched : st.matched = false := by simpa using hleft
    simp only [hmatched, Bool.false_eq_true, if_false, if_true, true_and]
    split_ifs <;> simp [ofNodePut_result]

theorem irqLevels_found {newintsize newaddrsize : ℕ} (stray : ℕ → ℤ → ℕ) (initial : ℕ → ℕ) (hgo : l.GoesOn v addr)
    (hprop : v.ofGetProperty l.ipar "interrupt-map" = some (map, imaplen))
    (hcells : interruptCells v line.node = .ok (newintsize, newaddrsize)) (out : PhandleArgs) :
    ∃ out', ∀ fuel rounds r, (l.scan fuel v stray initial imaplen).result = some r → Found line r →
      (irqLevels fuel v stray initial addr (rounds + 1) l out).result =
        if l.ipar = line.node then some (0, { out' with np := out.np })
        else (irqLevels fuel v stray initial addr rounds (l.along line newintsize newaddrsize) out').result := by
  have hctl : ¬ l.isController v = true := by simp [hgo.1]
  obtain ⟨args, hargs⟩ := copyIntspec_ends v stray l.ipar (((line.start + line.newSpec.length : ℕ) : ℤ) - newintsize) newintsize 0
    out.args
  refine ⟨⟨some line.node, newintsize, args⟩, fun fuel rounds r hr hfound => ?_⟩
  obtain ⟨st, failed⟩ := r
  obtain ⟨rfl, hmatched, hnew, -, hpos⟩ := hfound
  simp only at hmatched hnew hpos
  rw [irqLevels, if_neg hctl, if_neg hgo.2, hprop]
  simp only [Traced.result_bind]
  rw [show (scanMap _ _ _ _ _ _ _ _ _).result = some (st, false) from hr, Option.bind_some]
  simp only [hmatched, hnew, hcells, hpos, Traced.result_bind, hargs, Option.bind_some, Bool.false_eq_true, if_false,
    Bool.true_eq_false]
  split_ifs
  · rfl
  · simp [ofNodePut_result, IrqLevel.along]

end Map

theorem acc_climb_of_findParentLoop (h : (findParentLoop v rounds l.ipar).result = some q)
    (hq : ∀ p ∈ q, Acc (flip (IrqStep v stray initial addr)) (.level { l with ipar := p })) :
    Acc (flip (IrqStep v stray initial addr)) (.climb l) := by
  induction rounds generalizing l with
  | zero => cases h
  | succ rounds ih =>
    refine ⟨_, fun place hplace => ?_⟩
    rw [findParentLoop_result] at h
    cases hplace with
    | further hirq hcells =>
      simp only [hirq, if_neg hcells] at h
      exact ih h hq
    | arrive hirq hcells =>
      simp only [hirq, if_pos hcells] at h
      exact hq _ (Option.some.inj h).symm

theorem acc_of_irqLevels {x : ℤ × PhandleArgs} (h : (irqLevels fuel v stray initial addr rounds l out).result = some x) :
    Acc (flip (IrqStep v stray initial addr)) (.level l) := by
  induction rounds generalizing l out with
  | zero => cases h
  | succ rounds ih =>
    refine ⟨_, fun place hplace => ?_⟩
    cases hplace with
    | up hgo hprop =>
      rw [irqLevels_up hgo hprop] at h
      obtain ⟨q, hq, h⟩ := Option.bind_eq_some_iff.mp h
      refine acc_climb_of_findParentLoop hq fun p hp => ?_
      obtain rfl := Option.mem_def.mp hp
      exact ih h
    | map hgo hlines haccept hcells hne =>
      obtain ⟨map, imaplen, hprop, -⟩ := nodeLines_inMap hlines
      obtain ⟨r, hr⟩ := irqLevels_scan hgo hprop out h
      obtain ⟨out', hfound⟩ := irqLevels_found stray initial hgo hprop hcells out
      have hsearched := (scanMap_spec hlines hprop none (-EINVAL)).1 r hr
      rw [hfound fuel rounds r hr (hsearched.found _ haccept), if_neg hne] at h
      exact ih h

/-- The levels come to an end from here. -/
def IrqLevel.Ends (v : TreeView) (stray : ℕ → ℤ → ℕ) (initial : ℕ → ℕ) (addr : Option Bytes) (l : IrqLevel) : Prop :=
  ∀ out, ∃ x k, ∀ fuel ≥ k, ∀ rounds ≥ k, (irqLevels fuel v stray initial addr rounds l out).result = some x

/-- What a walk that ends means for the loops. -/
def IrqPlace.Ends (v : TreeView) (stray : ℕ → ℤ → ℕ) (initial : ℕ → ℕ) (addr : Option Bytes) : IrqPlace → Prop
  | .level l => l.Ends v stray initial addr
  | .climb l => ∃ q k, (∀ fuel ≥ k, (findParentLoop v fuel l.ipar).result = some q) ∧
      ∀ p ∈ q, IrqLevel.Ends v stray initial addr { l with ipar := p }

theorem climb_ends
    (ih : ∀ place, IrqStep v stray initial addr (.climb l) place → place.Ends v stray initial addr) :
    IrqPlace.Ends v stray initial addr (.climb l) := by
  cases hirq : irqParent v l.ipar with
  | none =>
    refine ⟨none, 1, fun fuel hfuel => ?_, fun p hp => absurd hp (by simp)⟩
    obtain ⟨fuel, rfl⟩ := Nat.exists_eq_add_of_le' hfuel
    simp only [findParentLoop_result, hirq]
  | some p =>
    by_cases hcells : HasCells v p
    · refine ⟨some p, 1, fun fuel hfuel => ?_, fun p' hp' => ?_⟩
      · obtain ⟨fuel, rfl⟩ := Nat.exists_eq_add_of_le' hfuel
        simp only [findParentLoop_result, hirq, if_pos hcells]
      · obtain rfl := Option.some.inj hp'
        exact ih _ (.arrive hirq hcells)
    · obtain ⟨q, k, hk, hq⟩ := ih _ (.further hirq hcells)
      refine ⟨q, k + 1, fun fuel hfuel => ?_, hq⟩
      obtain ⟨fuel, rfl⟩ := Nat.exists_eq_add_of_le' (Nat.one_le_of_lt hfuel)
      simp only [findParentLoop_result, hirq, if_neg hcells]
      exact hk fuel (by omega)

theorem level_ends
    (ih : ∀ place, IrqStep v stray initial addr (.level l) place → place.Ends v stray initial addr) :
    l.Ends v stray initial addr := by
  intro out
  by_cases hgo : l.GoesOn v addr
  · cases hprop : v.ofGetProperty l.ipar "interrupt-map" with
    | none =>
      obtain ⟨q, k, hk, hq⟩ := ih _ (.up hgo hprop)
      cases q with
      | none =>
        refine ⟨(-ENOENT, { out with np := none }), k + 1, fun fuel hfuel rounds hrounds => ?_⟩
        obtain ⟨rounds, rfl⟩ := Nat.exists_eq_add_of_le' (Nat.one_le_of_lt hrounds)
        rw [irqLevels_up hgo hprop, hk fuel (by omega)]
        rfl
      | some p =>
        obtain ⟨x, k', hk'⟩ := hq p rfl { out with np := some p }
        refine ⟨x, max k k' + 1, fun fuel hfuel rounds hrounds => ?_⟩
        obtain ⟨rounds, rfl⟩ := Nat.exists_eq_add_of_le' (Nat.one_le_of_lt hrounds)
        rw [irqLevels_up hgo hprop, hk fuel (by omega)]
        exact hk' fuel (by omega) rounds (by omega)
    | some prop =>
      obtain ⟨map, imaplen⟩ := prop
      obtain ⟨lines, hlines⟩ := nodeLines_of_property (interruptRules v) hprop l.cells
      obtain ⟨r, hr⟩ : ∃ r, (l.scan (lines.1.length + 1) v stray initial imaplen).result = some r :=
        (scanMap_spec hlines hprop none (-EINVAL)).2 (Nat.lt_succ_self _)
      have hsearched := (scanMap_spec hlines hprop none (-EINVAL)).1 r hr
      have hscan : ∀ fuel ≥ lines.1.length + 1, (l.scan fuel v stray initial imaplen).result = some r :=
        fun fuel hfuel => scanMap_mono hfuel hr
      cases haccept : acceptingLine v (interruptRules v) l.ipar (l.matchArray.value v stray initial) lines.1 with
      | none =>
        obtain ⟨x, hx⟩ := irqLevels_missed stray initial hgo hprop (hsearched.missed haccept).1 out
        refine ⟨x, lines.1.length + 1, fun fuel hfuel rounds hrounds => ?_⟩
        obtain ⟨rounds, rfl⟩ := Nat.exists_eq_add_of_le' (Nat.one_le_of_lt hrounds)
        exact hx fuel rounds (hscan fuel hfuel)
      | some line =>
        obtain ⟨_, _, -, hin⟩ := nodeLines_inMap hlines
        obtain ⟨newintsize, newaddrsize, hcells, -⟩ := interruptCells_of_size (hin line (acceptingLine_mem haccept)).size_eq
        obtain ⟨out', hout⟩ := irqLevels_found stray initial hgo hprop hcells out
        have hout := fun fuel rounds hfuel => hout fuel rounds r (hscan fuel hfuel) (hsearched.found line haccept)
        by_cases hself : l.ipar = line.node
        · refine ⟨(0, { out' with np := out.np }), lines.1.length + 1, fun fuel hfuel rounds hrounds => ?_⟩
          obtain ⟨rounds, rfl⟩ := Nat.exists_eq_add_of_le' (Nat.one_le_of_lt hrounds)
          rw [hout fuel rounds hfuel, if_pos hself]
        · obtain ⟨x, k, hk⟩ := ih _ (.map hgo hlines haccept hcells hself) out'
          refine ⟨x, max k (lines.1.length + 1) + 1, fun fuel hfuel rounds hrounds => ?_⟩
          obtain ⟨rounds, rfl⟩ := Nat.exists_eq_add_of_le' (Nat.one_le_of_lt hrounds)
          rw [hout fuel rounds (by omega), if_neg hself]
          exact hk fuel (by omega) rounds (by omega)
  · obtain ⟨x, hx⟩ := irqLevels_stop stray initial hgo out
    refine ⟨x, 1, fun fuel _ rounds hrounds => ?_⟩
    obtain ⟨rounds, rfl⟩ := Nat.exists_eq_add_of_le' hrounds
    exact hx fuel rounds

theorem irqPlace_ends {place : IrqPlace} (h : Acc (flip (IrqStep v stray initial addr)) place) :
    place.Ends v stray initial addr := by
  induction h with
  | intro place _ ih =>
    cases place with
    | climb l => exact climb_ends ih
    | level l => exact level_ends ih

/-! ### `of_irq_parse_raw` -/

theorem fillFrom_result {read : ℕ → Traced ParseEvent ℕ} {val : ℕ → ℕ} (hread : ∀ i, (read i).result = some (val i))
    (start n i : ℕ) (a : ℕ → ℕ) : (fillFrom read start n i a).result = some (filled val start n i a) := by
  induction n generalizing i a with
  | zero => rfl
  | succ n ih => simp only [fillFrom, filled, Traced.result_bind, hread, Option.bind_some, Traced.result_emit, ih]

/-- The whole call, where the node for the walk is found. -/
theorem ofIrqParseRaw_start {ipar : ℕ} (hnp : out.np = some np)
    (hseek : (seekLoop fuel v fuel np).result = some (some (ipar, out.argsCount)))
    (haddr : (addressCellsLoop v fuel ipar).result = some addrsize) (hle : (addrsize + out.argsCount) % 2 ^ 32 ≤ maxPhandleArgs) :
    (ofIrqParseRaw fuel v stray addr out).result =
      (irqLevels fuel v stray (irqMatchArray addr out addrsize out.argsCount) addr fuel
        ⟨ipar, addrsize, out.argsCount, .initialMatchArray⟩ out).result := by
  have hread : ∀ i, (readArgs out i).result = some (out.args i) := fun i => rfl
  simp only [ofIrqParseRaw, Traced.result_bind, ofNodeGet_result, Option.bind_some, hnp, hseek, ne_eq, not_true_eq_false, if_false,
    haddr, if_neg (Nat.not_lt.mpr hle), fillFrom_result (fun i => Traced.result_pure), fillFrom_result hread]
  rfl

/-- The call returns at once if the search finds no node, or the number of cells is not the right one. -/
theorem ofIrqParseRaw_other {found : Option (ℕ × ℕ)} (v : TreeView) (stray : ℕ → ℤ → ℕ) (addr : Option Bytes)
    (hnp : out.np = some np)
    (hfound : ∀ ipar, found ≠ some (ipar, out.argsCount)) :
    ∃ x, ∀ fuel, (seekLoop fuel v fuel np).result = some found → (ofIrqParseRaw fuel v stray addr out).result = some x := by
  refine ⟨(-EINVAL, out), fun fuel hseek => ?_⟩
  simp only [ofIrqParseRaw, Traced.result_bind, ofNodeGet_result, Option.bind_some, hnp, hseek]
  cases found with
  | none => rfl
  | some found =>
    obtain ⟨ipar, intsize⟩ := found
    have hne : out.argsCount ≠ intsize := fun h => hfound ipar (h ▸ rfl)
    simp [hne, ofNodePut_result]

theorem ofIrqParseRaw_tooLong (v : TreeView) (stray : ℕ → ℤ → ℕ) (addr : Option Bytes) (ipar : ℕ) (hnp : out.np = some np)
    (hle : ¬ (addrsize + out.argsCount) % 2 ^ 32 ≤ maxPhandleArgs) :
    ∃ x, ∀ fuel, (seekLoop fuel v fuel np).result = some (some (ipar, out.argsCount)) →
      (addressCellsLoop v fuel ipar).result = some addrsize → (ofIrqParseRaw fuel v stray addr out).result = some x := by
  refine ⟨(-EFAULT, out), fun fuel hseek haddr => ?_⟩
  simp only [ofIrqParseRaw, Traced.result_bind, ofNodeGet_result, Option.bind_some, hnp, hseek, ne_eq, not_true_eq_false, if_false,
    haddr, if_pos (Nat.not_le.mp hle), ofNodePut_result, Traced.result_pure]

theorem ofIrqParseRaw_seek {x : ℤ × PhandleArgs} (hnp : out.np = some np)
    (h : (ofIrqParseRaw fuel v stray addr out).result = some x) : ∃ found, (seekLoop fuel v fuel np).result = some found := by
  simp only [ofIrqParseRaw, Traced.result_bind, ofNodeGet_result, Option.bind_some, hnp] at h
  obtain ⟨found, hfound, -⟩ := Option.bind_eq_some_iff.mp h
  exact ⟨found, hfound⟩

theorem TreeView.FiniteTree.seek (h : v.FiniteTree nodes) (hnp : np ∈ nodes) (hseek : ReflTransGen (SeekStep v) np p) :
    p ∈ nodes := by
  induction hseek with
  | refl => exact hnp
  | tail _ hp ih => exact h.irqParent ih hp.2

/-- `of_irq_parse_raw` returns exactly if its search ends, and then the walk from where it has led. -/
theorem ofIrqParseRaw_ending_iff (h : v.FiniteTree nodes) (hnp : np ∈ nodes) (hout : out.np = some np) :
    Ending (fun fuel => (ofIrqParseRaw fuel v stray addr out).result) ↔
      Acc (flip (SeekStep v)) np ∧ ∀ ipar addrsize, IrqStart v np out ipar addrsize →
        Acc (flip (IrqStep v stray (irqMatchArray addr out addrsize out.argsCount) addr))
          (.level ⟨ipar, addrsize, out.argsCount, .initialMatchArray⟩) := by
  simp only [Ending, Returns]
  constructor
  · rintro ⟨x, k, hk⟩
    obtain ⟨found, hfound⟩ := ofIrqParseRaw_seek hout (hk k le_rfl)
    have hacc := acc_of_seekLoop hfound
    refine ⟨hacc, fun ipar addrsize hstart => ?_⟩
    obtain ⟨found, k', hk'⟩ := seekLoop_ends hacc
    obtain rfl := seekLoop_complete (hk' k' le_rfl k' le_rfl) hstart.seek hstart.intsize_eq
    obtain ⟨addrsize', k'', hk''⟩ := addressCellsLoop_ends (h.up ipar (h.seek hnp hstart.seek))
    obtain rfl := addressCells_unique hstart.addressCells (addressCellsLoop_sound (hk'' k'' le_rfl))
    have hrun := hk (max k (max k' k'')) (le_max_left _ _)
    rw [ofIrqParseRaw_start hout (hk' _ (by omega) _ (by omega)) (hk'' _ (by omega)) hstart.cells_le] at hrun
    exact acc_of_irqLevels hrun
  · rintro ⟨hacc, hlevels⟩
    obtain ⟨found, k, hk⟩ := seekLoop_ends hacc
    by_cases hfound : ∃ ipar, found = some (ipar, out.argsCount)
    · obtain ⟨ipar, rfl⟩ := hfound
      obtain ⟨hseek, hread⟩ := seekLoop_found (hk k le_rfl k le_rfl)
      obtain ⟨addrsize, k', hk'⟩ := addressCellsLoop_ends (h.up ipar (h.seek hnp hseek))
      have hcells := addressCellsLoop_sound (hk' k' le_rfl)
      by_cases hle : (addrsize + out.argsCount) % 2 ^ 32 ≤ maxPhandleArgs
      · obtain ⟨x, k'', hk''⟩ := irqPlace_ends (hlevels ipar addrsize ⟨hseek, hread, hcells, hle⟩) out
        refine ⟨x, max k (max k' k''), fun fuel hfuel => ?_⟩
        rw [ofIrqParseRaw_start hout (hk _ (by omega) _ (by omega)) (hk' _ (by omega)) hle]
        exact hk'' fuel (by omega) fuel (by omega)
      · obtain ⟨x, hx⟩ := ofIrqParseRaw_tooLong v stray addr ipar hout hle
        exact ⟨x, max k k', fun fuel hfuel => hx fuel (hk _ (by omega) _ (by omega)) (hk' _ (by omega))⟩
    · obtain ⟨x, hx⟩ := ofIrqParseRaw_other v stray addr hout (not_exists.mp hfound)
      exact ⟨x, k, fun fuel hfuel => hx fuel (hk _ hfuel _ hfuel)⟩

/-! ### The levels of `of_parse_phandle_with_args_map` -/

section Nexus

variable {cur listSize : ℕ} {new : Option ℕ} {ret : ℤ} {map : Bytes} {mapLen : ℕ} {r : MapScan × Bool}

theorem copySpecifier_ends (v : TreeView) (stray : ℕ → ℤ → ℕ) (names : NexusNames) (cur listSize start : ℕ) (pass : ℕ → ℕ) (n i : ℕ)
    (args : ℕ → ℕ) :
    ∃ args', (copySpecifier v stray names cur listSize start pass n i args).result = some args' := by
  induction n generalizing i args with
  | zero => exact ⟨args, rfl⟩
  | succ n ih =>
    simp only [copySpecifier, Traced.result_bind, readMap_result, Option.bind_some]
    split_ifs
    · simpa using ih (i + 1) _
    · simpa using ih (i + 1) _

/-- The loop over the map of a level. -/
def NexusLevel.scan (fuel : ℕ) (v : TreeView) (stray : ℕ → ℤ → ℕ) (names : NexusNames) (initial : ℕ → ℕ) (l : NexusLevel)
    (new : Option ℕ) (mapLen : ℕ) (ret : ℤ) : Traced ParseEvent (MapScan × Bool) :=
  scanMap v stray (names.rules v) initial l.cur l.listSize l.matchArray fuel ⟨new, 0, mapLen / 4, false, 0, ret⟩

/-- The levels from `l` on. -/
def NexusLevel.levels (fuel : ℕ) (v : TreeView) (stray : ℕ → ℤ → ℕ) (names : NexusNames) (initial : ℕ → ℕ) (rounds : ℕ)
    (l : NexusLevel) (new : Option ℕ) (ret : ℤ) (out : PhandleArgs) : Traced ParseEvent (ℤ × PhandleArgs) :=
  mapLevels fuel v stray names initial rounds l.cur new l.listSize l.matchArray ret out

variable {l : NexusLevel}

theorem levels_last (hprop : v.ofGetProperty l.cur names.map = none) (new : Option ℕ) (ret : ℤ) (out : PhandleArgs) :
    l.levels fuel v stray names initial (rounds + 1) new ret out = pure (0, out) := by
  rw [NexusLevel.levels, mapLevels, hprop]

theorem levels_scan (hprop : v.ofGetProperty l.cur names.map = some (map, mapLen)) {x : ℤ × PhandleArgs}
    (h : (l.levels fuel v stray names initial (rounds + 1) new ret out).result = some x) :
    ∃ r, (l.scan fuel v stray names initial new mapLen ret).result = some r := by
  rw [NexusLevel.levels, mapLevels, hprop] at h
  simp only [Traced.result_bind] at h
  obtain ⟨r, hr, -⟩ := Option.bind_eq_some_iff.mp h
  exact ⟨r, hr⟩

theorem levels_missed (hprop : v.ofGetProperty l.cur names.map = some (map, mapLen))
    (hr : (l.scan fuel v stray names initial new mapLen ret).result = some r) (hmissed : r.2 = true ∨ r.1.matched = false) :
    (l.levels fuel v stray names initial (rounds + 1) new ret out).result = some (r.1.ret, out) := by
  rw [NexusLevel.levels, mapLevels, hprop]
  simp only [Traced.result_bind]
  rw [show (scanMap _ _ _ _ _ _ _ _ _).result = some r from hr, Option.bind_some]
  simp only [if_pos hmissed, Traced.result_bind, ofNodePut_result, Option.bind_some, Traced.result_pure]

theorem levels_found (hprop : v.ofGetProperty l.cur names.map = some (map, mapLen))
    (hfound : Found line r) (out : PhandleArgs) :
    ∃ out', ∀ fuel rounds, (l.scan fuel v stray names initial new mapLen ret).result = some r →
      (l.levels fuel v stray names initial (rounds + 1) new ret out).result =
        (NexusLevel.levels fuel v stray names initial rounds ⟨line.node, line.newSpec.length, .map l.cur names.map line.start⟩
          (some line.node) r.1.ret out').result := by
  obtain ⟨st, failed⟩ := r
  obtain ⟨rfl, hmatched, hnew, hsize, hpos⟩ := hfound
  simp only at hmatched hnew hsize hpos
  have hstart : st.pos - line.newSpec.length = line.start := by omega
  obtain ⟨args, hargs⟩ := copySpecifier_ends v stray names l.cur l.listSize line.start (optionalCells v l.cur names.pass 0)
    line.newSpec.length 0 out.args
  refine ⟨⟨some line.node, line.newSpec.length, args⟩, fun fuel rounds hr => ?_⟩
  rw [NexusLevel.levels, mapLevels, hprop]
  simp only [Traced.result_bind]
  rw [show (scanMap _ _ _ _ _ _ _ _ _).result = some (st, false) from hr, Option.bind_some]
  have hnot : ¬ (false = true ∨ st.matched = false) := by simp [hmatched]
  simp only [if_neg hnot, hnew, hsize, hstart, Traced.result_bind, hargs, ofNodePut_result, Option.bind_some]
  rfl

theorem acc_of_levels {x : ℤ × PhandleArgs} (h : (l.levels fuel v stray names initial rounds new ret out).result = some x) :
    Acc (flip (NexusStep v stray names initial)) l := by
  induction rounds generalizing l new ret out with
  | zero => exact absurd h (by simp [NexusLevel.levels, mapLevels])
  | succ rounds ih =>
    refine ⟨_, fun l' hl' => ?_⟩
    obtain ⟨hlines, haccept⟩ := hl'
    obtain ⟨map, mapLen, hprop, -⟩ := nodeLines_inMap hlines
    obtain ⟨r, hr⟩ := levels_scan hprop h
    have hsearched := (scanMap_spec hlines hprop new ret).1 r hr
    obtain ⟨out', hout⟩ := levels_found hprop (hsearched.found _ haccept) out
    rw [hout fuel rounds hr] at h
    exact ih h

theorem levels_end (h : Acc (flip (NexusStep v stray names initial)) l) :
    ∀ new ret out, ∃ x k, ∀ fuel ≥ k, ∀ rounds ≥ k, (l.levels fuel v stray names initial rounds new ret out).result = some x := by
  induction h with
  | intro l _ ih =>
    intro new ret out
    cases hprop : v.ofGetProperty l.cur names.map with
    | none =>
      refine ⟨(0, out), 1, fun fuel _ rounds hrounds => ?_⟩
      obtain ⟨rounds, rfl⟩ := Nat.exists_eq_add_of_le' hrounds
      rw [levels_last hprop]
      rfl
    | some p =>
      obtain ⟨map, mapLen⟩ := p
      obtain ⟨lines, hlines⟩ := nodeLines_of_property (names.rules v) hprop l.listSize
      obtain ⟨r, hr⟩ : ∃ r, (l.scan (lines.1.length + 1) v stray names initial new mapLen ret).result = some r :=
        (scanMap_spec hlines hprop new ret).2 (Nat.lt_succ_self _)
      have hsearched := (scanMap_spec hlines hprop new ret).1 r hr
      have hscan : ∀ fuel ≥ lines.1.length + 1, (l.scan fuel v stray names initial new mapLen ret).result = some r :=
        fun fuel hfuel => scanMap_mono hfuel hr
      cases haccept : acceptingLine v (names.rules v) l.cur (l.matchArray.value v stray initial) lines.1 with
      | none =>
        refine ⟨(r.1.ret, out), lines.1.length + 1, fun fuel hfuel rounds hrounds => ?_⟩
        obtain ⟨rounds, rfl⟩ := Nat.exists_eq_add_of_le' (Nat.one_le_of_lt hrounds)
        exact levels_missed hprop (hscan fuel hfuel) (hsearched.missed haccept).1
      | some line =>
        obtain ⟨out', hout⟩ := levels_found hprop (hsearched.found line haccept) out
        obtain ⟨x, k, hk⟩ := ih _ ⟨hlines, haccept⟩ (some line.node) r.1.ret out'
        refine ⟨x, max k (lines.1.length + 1) + 1, fun fuel hfuel rounds hrounds => ?_⟩
        obtain ⟨rounds, rfl⟩ := Nat.exists_eq_add_of_le' (Nat.one_le_of_lt hrounds)
        rw [hout fuel rounds (hscan fuel (by omega))]
        exact hk fuel (by omega) rounds (by omega)

end Nexus

/-! ### `of_parse_phandle_with_args_map` -/

section MapCall

variable {alloc : Fin 4 → Bool} {listName stemName : String} {i : ℕ} {e : ListEntry} {c : ℕ}

/-- The entry of a list that a call reads. -/
def calledEntry (v : TreeView) (np : ℕ) (listName stemName : String) (i : ℕ) : Option ListEntry :=
  (referenceList v np listName (some (nexusNames stemName).cells)).1[i]?

/-- A call that gets to a node goes on from level to level. -/
theorem argsMap_levels (halloc : ∀ k, alloc k = true) (hentry : calledEntry v np listName stemName i = some e)
    (hph : e.phandle ≠ 0) (hc : e.node = some c)
    (hparse : (ofParsePhandleWithArgs fuel v np listName (some (nexusNames stemName).cells) (-1) i (some out)).result =
      some (0, some (e.fill out))) :
    (ofParsePhandleWithArgsMap fuel v stray alloc np listName stemName i out).result =
      (NexusLevel.levels fuel v stray (nexusNames stemName) (nexusMatchArray (e.fill out).args e.args.length) fuel
        ⟨c, e.args.length, .initialMatchArray⟩ none (-EINVAL) (e.fill out)).result := by
  obtain ⟨c', hc', -, hsize⟩ := referenceList_node e (List.mem_of_getElem? hentry) hph
  obtain rfl := Option.some.inj (hc.symm.trans hc')
  have hnode : (e.fill out).np = some c := hc
  have hindex : ¬ (i : ℤ) < 0 := not_lt.mpr (Int.natCast_nonneg i)
  have hall : ¬ ∃ k, alloc k = false := by simp [halloc]
  simp only [ofParsePhandleWithArgsMap, if_neg hindex, if_neg hall, Traced.result_bind, hparse, Option.bind_some, Option.getD_some,
    ne_eq, not_true_eq_false, if_false, hnode, hsize, fillMatchArray_eq]
  rfl

theorem argsMap_other (v : TreeView) (stray : ℕ → ℤ → ℕ) (alloc : Fin 4 → Bool) (np : ℕ) (listName stemName : String) (i : ℕ)
    (out : PhandleArgs) {found : ℤ × Option PhandleArgs} (hother : found.1 ≠ 0) :
    ∃ x, ∀ fuel,
      (ofParsePhandleWithArgs fuel v np listName (some (nexusNames stemName).cells) (-1) i (some out)).result = some found →
      (ofParsePhandleWithArgsMap fuel v stray alloc np listName stemName i out).result = some x := by
  have hindex : ¬ (i : ℤ) < 0 := not_lt.mpr (Int.natCast_nonneg i)
  by_cases hall : ∃ k, alloc k = false
  · exact ⟨(-ENOMEM, out), fun fuel _ => by rw [ofParsePhandleWithArgsMap, if_neg hindex, if_pos hall]; rfl⟩
  · refine ⟨(found.1, found.2.getD out), fun fuel hparse => ?_⟩
    simp only [ofParsePhandleWithArgsMap, if_neg hindex, if_neg hall, Traced.result_bind, hparse, Option.bind_some, ne_eq, hother,
      not_false_eq_true, if_true, Traced.result_pure]

theorem argsMap_parse {x : ℤ × PhandleArgs} (halloc : ∀ k, alloc k = true)
    (h : (ofParsePhandleWithArgsMap fuel v stray alloc np listName stemName i out).result = some x) :
    (ofParsePhandleWithArgs fuel v np listName (some (nexusNames stemName).cells) (-1) i (some out)).result =
      some (parsedEntry (referenceList v np listName (some (nexusNames stemName).cells)) i (some out)) := by
  have hindex : ¬ (i : ℤ) < 0 := not_lt.mpr (Int.natCast_nonneg i)
  have hall : ¬ ∃ k, alloc k = false := by simp [halloc]
  simp only [ofParsePhandleWithArgsMap, if_neg hindex, if_neg hall, Traced.result_bind] at h
  obtain ⟨found, hfound, -⟩ := Option.bind_eq_some_iff.mp h
  rw [hfound, ofParsePhandleWithArgs_named hfound]

/-- What the entry is, as the reader of the list returns it. -/
theorem parsedEntry_called (hentry : calledEntry v np listName stemName i = some e) (hph : e.phandle ≠ 0) :
    parsedEntry (referenceList v np listName (some (nexusNames stemName).cells)) i (some out) = (0, some (e.fill out)) := by
  unfold parsedEntry
  rw [show (referenceList v np listName _).1[i]? = some e from hentry]
  simp only [if_neg hph, Option.map_some]

theorem parsedEntry_not_called (out : PhandleArgs) (h : ∀ e, calledEntry v np listName stemName i = some e → e.phandle = 0) :
    (parsedEntry (referenceList v np listName (some (nexusNames stemName).cells)) i (some out)).1 ≠ 0 := by
  unfold parsedEntry
  cases hentry : (referenceList v np listName (some (nexusNames stemName).cells)).1[i]? with
  | some e =>
    simp only [if_pos (h e hentry)]
    decide
  | none =>
    cases hlast : (referenceList v np listName (some (nexusNames stemName).cells)).2 with
    | none => exact show -ENOENT ≠ 0 by decide
    | some error => exact (referenceList_error v np listName _ error hlast).ne

/-- `of_parse_phandle_with_args_map` returns exactly if the walk from the node of the entry ends. -/
theorem ofParsePhandleWithArgsMap_ending_iff (v : TreeView) (stray : ℕ → ℤ → ℕ) (alloc : Fin 4 → Bool) (np : ℕ)
    (listName stemName : String) (index : ℤ) (out : PhandleArgs) :
    Ending (fun fuel => (ofParsePhandleWithArgsMap fuel v stray alloc np listName stemName index out).result) ↔
      (0 ≤ index → (∀ k, alloc k = true) →
        ∀ e ∈ calledEntry v np listName stemName index.toNat, e.phandle ≠ 0 → ∀ c ∈ e.node,
          Acc (flip (NexusStep v stray (nexusNames stemName) (nexusMatchArray (e.fill out).args e.args.length)))
            ⟨c, e.args.length, .initialMatchArray⟩) := by
  simp only [Ending, Returns]
  by_cases hindex : index < 0
  · refine iff_of_true ⟨(-EINVAL, out), 0, fun fuel _ => ?_⟩ fun h => absurd h (not_le.mpr hindex)
    rw [ofParsePhandleWithArgsMap, if_pos hindex]
    rfl
  obtain ⟨i, rfl⟩ := Int.eq_ofNat_of_zero_le (not_lt.mp hindex)
  rw [Int.toNat_natCast]
  by_cases hall : ∃ k, alloc k = false
  · refine iff_of_true ⟨(-ENOMEM, out), 0, fun fuel _ => ?_⟩ fun _ h => ?_
    · rw [ofParsePhandleWithArgsMap, if_neg hindex, if_pos hall]
      rfl
    · obtain ⟨k, hk⟩ := hall
      exact absurd (h k) (by simp [hk])
  have halloc : ∀ k, alloc k = true := by simpa using hall
  constructor
  · rintro ⟨x, k, hk⟩ - - e hentry hph c hc
    have hparse := argsMap_parse halloc (hk k le_rfl)
    rw [parsedEntry_called hentry hph] at hparse
    have hrun := hk k le_rfl
    rw [argsMap_levels halloc hentry hph hc hparse] at hrun
    exact acc_of_levels hrun
  · intro h
    obtain ⟨k, hk⟩ := ofParsePhandleWithArgs_eq v np listName (some (nexusNames stemName).cells) (some out) i
    by_cases hcalled : ∃ e, calledEntry v np listName stemName i = some e ∧ e.phandle ≠ 0
    · obtain ⟨e, hentry, hph⟩ := hcalled
      obtain ⟨c, hc, -⟩ := referenceList_node e (List.mem_of_getElem? hentry) hph
      obtain ⟨x, k', hk'⟩ := levels_end (h (Int.natCast_nonneg i) halloc e hentry hph c hc) none (-EINVAL) (e.fill out)
      refine ⟨x, max k k', fun fuel hfuel => ?_⟩
      have hparse := hk fuel (by omega)
      rw [parsedEntry_called hentry hph] at hparse
      rw [argsMap_levels halloc hentry hph hc hparse]
      exact hk' fuel (by omega) fuel (by omega)
    · have hnone : ∀ e, calledEntry v np listName stemName i = some e → e.phandle = 0 := fun e he => by
        by_contra hph
        exact hcalled ⟨e, he, hph⟩
      obtain ⟨x, hx⟩ := argsMap_other v stray alloc np listName stemName i out (parsedEntry_not_called out hnone)
      exact ⟨x, k, fun fuel hfuel => hx fuel (hk fuel hfuel)⟩

end MapCall

end GfpDrivers.Of
