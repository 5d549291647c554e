import GfpDrivers.Of.ArgsMap
import Mathlib.Algebra.Order.Pi
import Mathlib.Tactic.Abel

/-!
The references that following the maps of a list takes and drops, as a sum over the trace
(`refs`). The first level keeps them in balance. On every further level the loop over the map drops
the only reference to the node of the level with its first line, as that of the node the last map
led to, and then drops it again, as that of the node of the level.
-/

namespace GfpDrivers.Of

open Lib

/-- The references that an event takes. -/
def ParseEvent.refs : ParseEvent → ℕ → ℤ
  | .get np => Pi.single np 1
  | .put np => -Pi.single np 1
  | .access _ _ => 0

/-- The references that are taken and not dropped. -/
def refs (es : List ParseEvent) : ℕ → ℤ := Traced.weight ParseEvent.refs es

/-- One reference, if there is a node. -/
def held : Option ℕ → ℕ → ℤ
  | none => 0
  | some np => Pi.single np 1

@[simp] theorem refs_nil : refs [] = 0 := rfl

@[simp] theorem refs_append (es es' : List ParseEvent) : refs (es ++ es') = refs es + refs es' := Traced.weight_append _ es es'

@[simp] theorem held_none : held none = 0 := rfl

theorem held_some_pos (np : ℕ) : 0 < held (some np) np := by simp [held]

theorem held_nonneg (np : Option ℕ) : 0 ≤ held np := by
  cases np with
  | none => exact le_rfl
  | some np => exact Pi.single_nonneg.mpr zero_le_one

variable {v : TreeView} {stray : ℕ → ℤ → ℕ} {names : NexusNames} {initial : ℕ → ℕ} {cur listSize rounds fuel : ℕ}
  {matchArray : CellPtr} {st : MapScan} {map : Bytes} {mapLen : ℕ} {ret index curIndex : ℤ} {out : PhandleArgs}
  {it : PhandleIterator} {cellsName : Option String}

open Traced

/-- The program ends with these references. -/
def EndsRefs {α : Type} (Q : α → (ℕ → ℤ) → Prop) (x : Traced ParseEvent α) : Prop := Ends (fun a es => Q a (refs es)) x

namespace EndsRefs

variable {α β : Type} {x : Traced ParseEvent α} {f : α → Traced ParseEvent β} {a : α} {Q Q' : α → (ℕ → ℤ) → Prop}
  {R : β → (ℕ → ℤ) → Prop}

theorem pure (h : Q a 0) : EndsRefs Q (Pure.pure a : Traced ParseEvent α) := Ends.pure h

theorem unfinished : EndsRefs Q (Traced.unfinished : Traced ParseEvent α) := Ends.unfinished

theorem emit {Q : Unit → (ℕ → ℤ) → Prop} {e : ParseEvent} (h : Q () e.refs) : EndsRefs Q (Traced.emit e) :=
  Ends.emit (by simpa [refs] using h)

theorem mono (hx : EndsRefs Q x) (h : ∀ a k, Q a k → Q' a k) : EndsRefs Q' x := Ends.mono hx fun a es => h a (refs es)

theorem bind (hx : EndsRefs Q x) (hf : ∀ a k, Q a k → EndsRefs (fun b k' => R b (k + k')) (f a)) : EndsRefs R (x >>= f) :=
  Ends.bind hx fun a es ha => Ends.mono (hf a _ ha) fun b es' hb => by rwa [refs_append]

theorem with_result (hx : EndsRefs Q x) : EndsRefs (fun a k => a ∈ x.result ∧ Q a k) x := Ends.with_result hx

end EndsRefs

/-- The program leaves the references alone. -/
def NoRefs {α : Type} (x : Traced ParseEvent α) : Prop := EndsRefs (fun _ k => k = 0) x

theorem NoRefs.bind {α β : Type} {x : Traced ParseEvent α} {f : α → Traced ParseEvent β} {R : β → (ℕ → ℤ) → Prop}
    (hx : NoRefs x) (hf : ∀ a, EndsRefs R (f a)) : EndsRefs R (x >>= f) :=
  EndsRefs.bind hx fun a k hk => (hf a).mono fun b k' hb => by rwa [hk, zero_add]

/-! ### The parts that go over references -/

theorem ofNodePut_refs (np : Option ℕ) : EndsRefs (fun _ k => k = -held np) (ofNodePut np) := by
  cases np with
  | none => exact .pure (by simp)
  | some np => exact .emit rfl

theorem getNodeByPhandle_refs (handle : ℕ) :
    EndsRefs (fun np k => np = v.ofFindNodeByPhandle handle ∧ k = held np) (getNodeByPhandle v handle) := by
  unfold getNodeByPhandle ofNodeGet
  cases v.ofFindNodeByPhandle handle with
  | none => exact .pure ⟨rfl, rfl⟩
  | some np =>
    refine EndsRefs.bind (Q := fun _ k => k = held (some np)) (.emit rfl) fun _ k hk => .pure ⟨rfl, ?_⟩
    rw [hk, add_zero]

theorem access_noRefs (buf : Buffer) (i : ℤ) : NoRefs (emit (.access buf i)) := EndsRefs.emit rfl

theorem readMap_noRefs (np : ℕ) (name : String) (j : ℤ) : NoRefs (readMap v stray np name j) :=
  (access_noRefs _ _).bind fun _ => .pure rfl

theorem readMatchArray_noRefs (i : ℕ) : NoRefs (readMatchArray v stray initial matchArray i) := by
  cases matchArray with
  | initialMatchArray => exact (access_noRefs _ _).bind fun _ => .pure rfl
  | map np name off => exact readMap_noRefs np name (off + i)

theorem compareCells_noRefs {readMatch readEntry : ℕ → Traced ParseEvent ℕ} {mask : ℕ → ℕ} (ha : ∀ i, NoRefs (readMatch i))
    (hb : ∀ i, NoRefs (readEntry i)) (n i : ℕ) (matched : Bool) :
    NoRefs (compareCells readMatch readEntry mask n i matched) := by
  induction n generalizing i matched with
  | zero => exact .pure rfl
  | succ n ih => exact (ha i).bind fun _ => (hb i).bind fun _ => ih (i + 1) _

theorem copySpecifier_noRefs {start : ℕ} {pass : ℕ → ℕ} (n i : ℕ) (args : ℕ → ℕ) :
    NoRefs (copySpecifier v stray names cur listSize start pass n i args) := by
  induction n generalizing i args with
  | zero => exact .pure rfl
  | succ n ih =>
    refine (readMap_noRefs _ _ _).bind fun val => ?_
    split_ifs
    · exact (access_noRefs _ _).bind fun _ => (access_noRefs _ _).bind fun _ => ih (i + 1) _
    · exact (access_noRefs _ _).bind fun _ => ih (i + 1) _

theorem fillMatchArray_noRefs {args : ℕ → ℕ} (n i : ℕ) (initial : ℕ → ℕ) : NoRefs (fillMatchArray args n i initial) := by
  induction n generalizing i initial with
  | zero => exact .pure rfl
  | succ n ih => exact (access_noRefs _ _).bind fun _ => (access_noRefs _ _).bind fun _ => ih (i + 1) _

theorem copyArgs_noRefs {cells : ℕ} (n i : ℕ) (args : ℕ → ℕ) : NoRefs (copyArgs it cells args n i) := by
  induction n generalizing i args with
  | zero => exact .pure rfl
  | succ n ih => exact (access_noRefs _ _).bind fun _ => ih _ _

/-! ### The list -/

theorem ofPhandleIteratorNext_refs :
    EndsRefs (fun r k => k = held r.1.node - held it.node ∧ (r.2 ≠ 0 → r.1.node = none)) (ofPhandleIteratorNext v it) := by
  refine (ofNodePut_refs it.node).bind fun _ k hk => ?_
  simp only
  split_ifs with hend hzero
  · exact .pure (by simp [hk])
  · exact .pure (by simp [hk])
  · refine (getNodeByPhandle_refs _).bind fun node k' hk' => ?_
    obtain ⟨-, rfl⟩ := hk'
    generalize argumentCount v _ = count
    cases count with
    | none => exact (ofNodePut_refs _).bind fun _ k'' hk'' => .pure (by simp [hk, hk''])
    | some count =>
      simp only
      split_ifs
      · exact (ofNodePut_refs _).bind fun _ k'' hk'' => .pure (by simp [hk, hk''])
      · exact .pure (by simp [hk, neg_add_eq_sub])

/-- The loop hands out the reference to the node of the entry, if there is no error. -/
theorem parseLoop_refs :
    EndsRefs (fun r k => k = (if r.1 = 0 then held (r.2.bind PhandleArgs.np) else 0) - held it.node)
      (parseLoop v index (some out) rounds it curIndex) := by
  induction rounds generalizing it curIndex with
  | zero => exact .unfinished
  | succ rounds ih =>
    refine (ofPhandleIteratorNext_refs).bind fun r k hk => ?_
    obtain ⟨it', rc⟩ := r
    obtain ⟨rfl, hnode⟩ := hk
    simp only at hnode ⊢
    split_ifs with hrc hindex hzero
    · refine (ofNodePut_refs _).bind fun _ k' hk' => .pure ?_
      simp [hk', hnode hrc, hrc]
    · refine (ofNodePut_refs _).bind fun _ k' hk' => .pure ?_
      have hne : ¬ -ENOENT = 0 := by decide
      rw [hk', if_neg hne]
      abel
    · have hargs : NoRefs (ofPhandleIteratorArgs it' out.args maxPhandleArgs) :=
        (copyArgs_noRefs _ _ _).bind fun _ => .pure rfl
      refine hargs.bind fun _ => .pure ?_
      simp
    · refine ih.mono fun r' k' hk' => ?_
      rw [hk']
      abel

theorem ofPhandleIteratorInit_node (v : TreeView) (np : ℕ) (listName : String) (cellsName : Option String) (cellCount : ℤ) :
    (ofPhandleIteratorInit v np listName cellsName cellCount).1.node = none := by
  unfold ofPhandleIteratorInit
  cases v.ofGetProperty np listName <;> split_ifs <;> rfl

/-- `__of_parse_phandle_with_args` hands out one reference, or none. -/
theorem ofParsePhandleWithArgs_refs (np : ℕ) (listName : String) (cellCount : ℤ) :
    EndsRefs (fun r k => k = if r.1 = 0 then held (r.2.bind PhandleArgs.np) else 0)
      (ofParsePhandleWithArgs fuel v np listName cellsName cellCount index (some out)) := by
  unfold ofParsePhandleWithArgs
  split_ifs
  · exact .pure (by simp [EINVAL])
  · refine (parseLoop_refs).mono fun r k hk => ?_
    rw [hk, ofPhandleIteratorInit_node, held_none, sub_zero]

/-! ### The maps -/

theorem scanMap_refs {rules : MapRules} (hdrops : rules.dropsOld = true) :
    EndsRefs (fun r k => k = held r.1.new - held st.new) (scanMap v stray rules initial cur listSize matchArray rounds st) := by
  induction rounds generalizing st with
  | zero => exact .unfinished
  | succ rounds ih =>
    rw [scanMap]
    split_ifs with hgo
    · refine (compareCells_noRefs readMatchArray_noRefs (fun i => readMap_noRefs _ _ _) _ _ _).bind fun matched => ?_
      have hdrop : EndsRefs (fun _ k => k = -held st.new) (dropOld rules.dropsOld st.new) := by
        rw [dropOld, if_pos hdrops]
        exact ofNodePut_refs _
      refine hdrop.bind fun _ k hk => (readMap_noRefs _ _ _).bind fun handle => ?_
      refine (getNodeByPhandle_refs _).bind fun new k' hk' => ?_
      obtain ⟨-, rfl⟩ := hk'
      cases new with
      | none => exact .pure (by simp [hk])
      | some node =>
        have hsum : k + held (some node) = held (some node) - held st.new := by rw [hk, neg_add_eq_sub]
        simp only [← add_assoc, hsum]
        generalize rules.size node = size
        cases size with
        | error ret => exact .pure (add_zero _)
        | ok newSize =>
          simp only
          split_ifs
          · exact .pure (add_zero _)
          · refine ih.mono fun r k' hk' => ?_
            rw [hk']
            abel
    · exact .pure (by simp)

/-! ### The levels -/

/-- A lost reference is not made good by others that are lost. -/
theorem held_add_ne_zero {np : ℕ} {lost : ℕ → ℤ} (h : 0 ≤ lost) : held (some np) + lost ≠ 0 := by
  intro hzero
  have hpos := held_some_pos np
  have hnonneg : 0 ≤ lost np := h np
  have hsum : held (some np) np + lost np = 0 := congrFun hzero np
  omega

theorem target_nonneg (ret : ℤ) (np : Option ℕ) : 0 ≤ if ret = 0 then held np else 0 := by
  split_ifs
  · exact held_nonneg np
  · exact le_rfl

/-- The references of a level that the last map led to, whose node is held once for both variables.
Some are lost if the node has a map. -/
theorem mapLevels_refs_shared (hout : out.np = some cur) :
    EndsRefs (fun r k => ∃ lost : ℕ → ℤ, 0 ≤ lost ∧ (lost = 0 ↔ v.ofGetProperty cur names.map = none) ∧
        k = (if r.1 = 0 then held r.2.np else 0) - held (some cur) - lost)
      (mapLevels fuel v stray names initial rounds cur (some cur) listSize matchArray ret out) := by
  induction rounds generalizing cur listSize matchArray ret out with
  | zero => exact .unfinished
  | succ rounds ih =>
    rw [mapLevels]
    cases hmap : v.ofGetProperty cur names.map with
    | none => exact .pure ⟨0, le_rfl, by simp, by simp [hout]⟩
    | some p =>
      have hlost {lost : ℕ → ℤ} (h : 0 ≤ lost) : 0 ≤ held (some cur) + lost ∧ held (some cur) + lost ≠ 0 :=
        ⟨fun n => add_nonneg (held_nonneg _ n) (h n), held_add_ne_zero h⟩
      refine (scanMap_refs rfl).bind fun r k hk => ?_
      obtain ⟨st, failed⟩ := r
      simp only at hk ⊢
      split_ifs with hfailed
      · refine (ofNodePut_refs _).bind fun _ k' hk' => (ofNodePut_refs _).bind fun _ k'' hk'' => .pure ?_
        obtain ⟨hnonneg, hzero⟩ := hlost (target_nonneg st.ret out.np)
        refine ⟨_, hnonneg, iff_of_false hzero (by simp), ?_⟩
        rw [hk, hk', hk'']
        abel
      · refine (copySpecifier_noRefs _ _ _).bind fun args => (ofNodePut_refs _).bind fun _ k' hk' => ?_
        cases hnew : st.new with
        | none =>
          obtain ⟨hnonneg, hzero⟩ := hlost (le_refl 0)
          refine .pure ⟨_, hnonneg, iff_of_false hzero (by simp), ?_⟩
          simp [hk, hk', hnew, sub_eq_add_neg]
        | some node =>
          refine (ih rfl).mono fun r k'' hk'' => ?_
          obtain ⟨lost, hlost', -, rfl⟩ := hk''
          obtain ⟨hnonneg, hzero⟩ := hlost hlost'
          refine ⟨_, hnonneg, iff_of_false hzero (by simp), ?_⟩
          rw [hk, hk', hnew]
          abel

/-- The references of the first level are kept under this condition on its map. -/
def KeepsRefs (v : TreeView) (names : NexusNames) (np listSize : ℕ) (spec : ℕ → ℕ) : Prop :=
  ∀ lines ∈ nodeLines v (names.rules v) np listSize,
    match acceptingLine v (names.rules v) np spec lines.1 with
    | some l => v.ofGetProperty l.node names.map = none
    | none => (∃ e, lines.2 = .noCells e) ∨ lines.1 = [] ∧ (lines.2 = .short ∨ lines.2 = .unknown)

/-- The error of a map is 0 unless no line was read or the reading stops where it has an error of its own. -/
theorem mapError_ne_zero {lines : List MapLine} {stop : MapStop} (hstop : ∀ e, stop = .noCells e → e ≠ 0) :
    (names.rules v).mapError lines stop (-EINVAL) ≠ 0 ↔
      (∃ e, stop = .noCells e) ∨ lines = [] ∧ (stop = .short ∨ stop = .unknown) := by
  have herror : -EINVAL ≠ 0 := by decide
  have hread : lines.foldl (fun ret _ => (names.rules v).retLine ret) (-EINVAL) = if lines = [] then -EINVAL else 0 := by
    cases lines with
    | nil => rfl
    | cons l lines => rw [List.foldl_cons, List.foldl_fixed' fun _ => rfl, if_neg (List.cons_ne_nil l lines)]; rfl
  rw [MapRules.mapError, hread]
  cases stop with
  | noCells e => simpa [MapRules.stopError, NexusNames.rules] using hstop e rfl
  | tooLong => simp [MapRules.stopError, NexusNames.rules]
  | short => simp [MapRules.stopError, herror]
  | unknown => simp [MapRules.stopError, NexusNames.rules, herror]

theorem ofPropertyReadU32_error {np : ℕ} {name : String} {e : ℤ} (h : v.ofPropertyReadU32 np name = .error e) : e < 0 := by
  unfold TreeView.ofPropertyReadU32 at h
  cases hprop : v.ofGetProperty np name with
  | none =>
    simp only [hprop] at h
    exact Except.error.inj h ▸ by decide
  | some p =>
    simp only [hprop] at h
    split_ifs at h
    exact Except.error.inj h ▸ by decide

theorem nodeLines_error {lines : List MapLine × MapStop} (hlines : nodeLines v (names.rules v) cur listSize = some lines) :
    ∀ e, lines.2 = .noCells e → e ≠ 0 := by
  obtain ⟨p, -, rfl⟩ := Option.map_eq_some_iff.mp hlines
  intro e he
  obtain ⟨node, hnode⟩ := mapLines_noCells_error _ _ e he
  exact (ofPropertyReadU32_error hnode).ne

theorem mapLevels_refs_first (hout : out.np = some cur) :
    EndsRefs (fun r k => held (some cur) + k = (if r.1 = 0 then held r.2.np else 0) ↔ KeepsRefs v names cur listSize initial)
      (mapLevels fuel v stray names initial rounds cur none listSize .initialMatchArray (-EINVAL) out) := by
  cases rounds with
  | zero => exact .unfinished
  | succ rounds =>
    rw [mapLevels]
    cases hmap : v.ofGetProperty cur names.map with
    | none => exact .pure (iff_of_true (by simp [hout]) (by simp [KeepsRefs, nodeLines, NexusNames.rules, hmap]))
    | some p =>
      obtain ⟨map, mapLen⟩ := p
      obtain ⟨lines, hlines⟩ := nodeLines_of_property (names.rules v) hmap listSize
      refine (scanMap_refs rfl).with_result.bind fun r k hk => ?_
      obtain ⟨hresult, hk⟩ := hk
      have hscanned := (scanMap_spec hlines hmap none (-EINVAL)).1 r hresult
      obtain ⟨st, failed⟩ := r
      simp only [held_none, sub_zero] at hk ⊢
      subst hk
      simp only [KeepsRefs, hlines, Option.mem_some_iff, forall_eq']
      cases haccept : acceptingLine v (names.rules v) cur initial lines.1 with
      | none =>
        obtain ⟨hleft, hret⟩ := hscanned.missed haccept
        simp only at hleft hret
        rw [if_pos hleft]
        refine (ofNodePut_refs _).bind fun _ k' hk' => (ofNodePut_refs _).bind fun _ k'' hk'' => .pure ?_
        have hzero : held (some cur) + (held st.new + (k' + (k'' + 0))) = 0 := by
          rw [hk', hk'']
          abel
        rw [hzero, ← mapError_ne_zero (nodeLines_error hlines), hret, hout]
        have hcur : held (some cur) ≠ 0 := by
          have hlost : held (some cur) + 0 ≠ 0 := held_add_ne_zero (le_refl 0)
          simpa using hlost
        split_ifs with herror
        · exact iff_of_false hcur.symm (not_not.mpr herror)
        · exact iff_of_true rfl herror
      | some l =>
        obtain ⟨rfl, hmatched, hnew, -, -⟩ := hscanned.found l haccept
        simp only at hmatched hnew
        rw [if_neg (by simp [hmatched])]
        refine (copySpecifier_noRefs _ _ _).bind fun args => (ofNodePut_refs _).bind fun _ k' hk' => ?_
        rw [hnew]
        refine (mapLevels_refs_shared rfl).mono fun r k'' hk'' => ?_
        obtain ⟨lost, -, hlost, rfl⟩ := hk''
        simp only
        rw [← hlost, hk']
        have hsum : held (some cur) + (held (some l.node) +
            (-held (some cur) + ((if r.1 = 0 then held r.2.np else 0) - held (some l.node) - lost))) =
            (if r.1 = 0 then held r.2.np else 0) - lost := by abel
        rw [hsum, sub_eq_self]

/-! ### The whole call -/

theorem keepsRefs_congr {spec spec' : ℕ → ℕ} (h : ∀ i < listSize, spec i = spec' i) :
    KeepsRefs v names cur listSize spec ↔ KeepsRefs v names cur listSize spec' :=
  forall₂_congr fun lines hlines => by rw [acceptingLine_congr hlines h]

/-- The maps that a call comes to first keep the references: if the node of the entry has a map, then either
its first line for the specifier leads to a node without a map, or no line is for it, and the reading of the
map stops at a node whose number of cells cannot be read, or before the first line. -/
def ListKeepsRefs (v : TreeView) (names : NexusNames) (np : ℕ) (listName : String) (index : ℤ) (out : PhandleArgs) : Prop :=
  ∀ e ∈ (referenceList v np listName (some names.cells)).1[index.toNat]?, e.phandle ≠ 0 →
    ∀ c ∈ e.node, KeepsRefs v names c e.args.length (e.fill out).args

theorem ofParsePhandleWithArgsMap_refs (alloc : Fin 4 → Bool) (np : ℕ) (listName stemName : String) :
    EndsRefs (fun r k => k = (if r.1 = 0 then held r.2.np else 0) ↔
        (0 ≤ index → (∀ k, alloc k = true) → ListKeepsRefs v (nexusNames stemName) np listName index out))
      (ofParsePhandleWithArgsMap fuel v stray alloc np listName stemName index out) := by
  unfold ofParsePhandleWithArgsMap
  have hinval : ¬ -EINVAL = 0 := by decide
  have hnomem : ¬ -ENOMEM = 0 := by decide
  split_ifs with hindex halloc
  · exact .pure (iff_of_true (by rw [if_neg hinval]) fun h => absurd h (not_le.mpr hindex))
  · obtain ⟨k, hk⟩ := halloc
    exact .pure (iff_of_true (by rw [if_neg hnomem]) fun _ h => absurd (h k) (by simp [hk]))
  obtain ⟨i, rfl⟩ := Int.eq_ofNat_of_zero_le (not_lt.mp hindex)
  have hcond : (0 ≤ (i : ℤ) → (∀ k, alloc k = true) → ListKeepsRefs v (nexusNames stemName) np listName i out) ↔
      ListKeepsRefs v (nexusNames stemName) np listName i out :=
    ⟨fun h => h (Int.natCast_nonneg i) fun k => by simpa using not_exists.mp halloc k, fun h _ _ => h⟩
  refine (ofParsePhandleWithArgs_refs np listName (-1)).with_result.bind fun r k hr => ?_
  obtain ⟨hresult, rfl⟩ := hr
  obtain rfl := ofParsePhandleWithArgs_named hresult
  have hnodes : ∀ e ∈ (referenceList v np listName (some (nexusNames stemName).cells)).1, e.phandle ≠ 0 → _ := referenceList_node
  simp only [hcond]
  simp only [ListKeepsRefs, Int.toNat_natCast]
  unfold parsedEntry
  cases hentry : (referenceList v np listName (some (nexusNames stemName).cells)).1[i]? with
  | none =>
    have herror : (referenceList v np listName (some (nexusNames stemName).cells)).2.getD (-ENOENT) ≠ 0 := by
      cases hlast : (referenceList v np listName (some (nexusNames stemName).cells)).2 with
      | none => decide
      | some e => exact (referenceList_error v np listName _ e hlast).ne
    simp only [if_pos herror]
    exact .pure (iff_of_true (by simp [herror]) (by simp))
  | some e =>
    simp only [Option.mem_some_iff, forall_eq']
    by_cases hzero : e.phandle = 0
    · have hnoent : -ENOENT ≠ 0 := by decide
      simp only [if_pos hzero, if_pos hnoent]
      exact .pure (iff_of_true (by simp [hnoent]) fun h => absurd hzero h)
    · obtain ⟨c, hc, -, hsize⟩ := hnodes e (List.mem_of_getElem? hentry) hzero
      have hfill : (e.fill out).np = some c := hc
      simp only [Option.map_some, Option.getD_some, Option.bind_some, hfill, hsize, hc, Option.mem_some_iff,
        forall_eq', if_true, ne_eq, not_true_eq_false, if_false, hzero, not_false_eq_true, forall_const]
      refine (fillMatchArray_noRefs _ _ _).with_result.bind fun initial k hinitial => ?_
      obtain ⟨hinitial, rfl⟩ := hinitial
      rw [fillMatchArray_eq] at hinitial
      obtain rfl := Option.some.inj hinitial
      refine (mapLevels_refs_first hfill).mono fun r k hk => ?_
      rw [zero_add, hk]
      exact keepsRefs_congr fun j hj => if_pos hj

/-- A call that ends with `(ret, out')` leaves one reference more on the node that it returns, if there is no
error, and no other change, exactly if the maps keep the references. -/
theorem ofParsePhandleWithArgsMap_refs_iff (fuel : ℕ) (v : TreeView) (stray : ℕ → ℤ → ℕ) (alloc : Fin 4 → Bool) (np : ℕ)
    (listName stemName : String) (index ret : ℤ) (out out' : PhandleArgs)
    (h : (ofParsePhandleWithArgsMap fuel v stray alloc np listName stemName index out).result = some (ret, out')) :
    refs (ofParsePhandleWithArgsMap fuel v stray alloc np listName stemName index out).trace =
        (if ret = 0 then held out'.np else 0) ↔
      (0 ≤ index → (∀ k, alloc k = true) → ListKeepsRefs v (nexusNames stemName) np listName index out) :=
  ofParsePhandleWithArgsMap_refs alloc np listName stemName (ret, out') h

/-- The lists of the nodes 0 and 4 have an entry each, for the nodes 1 and 2. The map of the node 1 leads to the
node 2, and its map to the node 3. -/
def chainedMaps : TreeView where
  ofGetProperty np name :=
    if name = "#list-cells" then some (cellBytes [1], 4)
    else if np = 0 ∧ name = "list" then some (cellBytes [1, 7], 8)
    else if np = 1 ∧ name = "list-map" then some (cellBytes [7, 2, 8], 12)
    else if np = 2 ∧ name = "list-map" then some (cellBytes [8, 3, 9], 12)
    else if np = 4 ∧ name = "list" then some (cellBytes [2, 8], 8)
    else none
  fullName _ := ""
  ofGetParent _ := none
  ofFindNodeByPhandle handle := if handle = 0 then none else some handle
  find_zero := rfl

/-- Reading the entry of a list of `chainedMaps`. -/
def readChained (np : ℕ) : Traced ParseEvent (ℤ × PhandleArgs) :=
  ofParsePhandleWithArgsMap 5 chainedMaps (fun _ _ => 0) (fun _ => true) np "list" "list" 0 ⟨none, 0, fun _ => 0⟩

theorem readChained_one_map : ListKeepsRefs chainedMaps (nexusNames "list") 4 "list" 0 ⟨none, 0, fun _ => 0⟩ := by
  have hresult : (readChained 4).result.map (fun r => (r.1, r.2.np)) = some (0, some 3) := by decide
  obtain ⟨⟨ret, out'⟩, hrun, heq⟩ := Option.map_eq_some_iff.mp hresult
  obtain ⟨rfl, hnp⟩ := Prod.mk.inj heq
  have htrace : (readChained 4).trace =
      [.get 2, .access .args 0, .access .args 0, .access .initialMatchArray 0, .access .initialMatchArray 0,
        .access (.map 2 "list-map") 0, .access (.map 2 "list-map") 1, .get 3, .access (.map 2 "list-map") 2,
        .access .args 0, .access .args 0, .put 2] := by
    decide +kernel
  refine (ofParsePhandleWithArgsMap_refs_iff 5 chainedMaps (fun _ _ => 0) (fun _ => true) 4 "list" "list" 0 0
    ⟨none, 0, fun _ => 0⟩ out' hrun).mp ?_ le_rfl fun _ => rfl
  have hrefs : refs (readChained 4).trace = held (some 3) := by
    rw [htrace]
    simp [refs, ParseEvent.refs, held]
  rw [if_pos rfl, show out'.np = some 3 from hnp]
  exact hrefs

/-- With two maps the node in the middle has lost a reference. -/
theorem readChained_two_maps :
    (readChained 0).result.map (fun r => (r.1, r.2.np)) = some (0, some 3) ∧ refs (readChained 0).trace 2 = -1 := by
  decide +kernel

end GfpDrivers.Of
