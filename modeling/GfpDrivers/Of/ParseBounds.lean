import GfpDrivers.Of.WalkRounds

/-!
Which cells the parsers of references touch: whether the accesses of a run lie in the arrays with
`maxPhandleArgs` cells and in the maps (`InBounds`). The loops over the lines of a map never read past its
end. What can go wrong are the sizes of specifiers, which are taken from the tree and added in 32 bits.
-/

namespace GfpDrivers.Of

open Lib Relation Traced

/-- The access is to a cell of the array or of the map. -/
def ParseEvent.InBounds (v : TreeView) : ParseEvent → Prop
  | .get _ | .put _ => True
  | .access (.map np name) i =>
      0 ≤ i ∧ ∃ value length, v.ofGetProperty np name = some (value, length) ∧ i < (length / 4 : ℕ)
  | .access _ i => 0 ≤ i ∧ i < maxPhandleArgs

/-- All accesses are. -/
def Stays {α : Type} (v : TreeView) (x : Traced ParseEvent α) : Prop := AllEvents (ParseEvent.InBounds v) x

variable {v : TreeView} {stray : ℕ → ℤ → ℕ} {names : NexusNames} {initial : ℕ → ℕ} {addr : Option Bytes}
  {np p child fuel rounds addrsize cur listSize : ℕ} {l : IrqLevel} {out : PhandleArgs} {lines : List MapLine × MapStop}
  {line : MapLine} {matchArray : CellPtr} {rules : MapRules} {st : MapScan} {map : Bytes} {mapLen : ℕ} {it : PhandleIterator}

section Rules

variable {α β : Type} {x : Traced ParseEvent α} {f : α → Traced ParseEvent β}

theorem Stays.pure (a : α) : Stays v (Pure.pure a) := AllEvents.pure

theorem Stays.unfinished : Stays v (Traced.unfinished : Traced ParseEvent α) := AllEvents.unfinished

theorem Stays.bind (hx : Stays v x) (hf : ∀ a, x.result = some a → Stays v (f a)) : Stays v (x >>= f) :=
  AllEvents.bind hx hf

theorem stays_bind_iff : Stays v (x >>= f) ↔ Stays v x ∧ ∀ a, x.result = some a → Stays v (f a) := allEvents_bind_iff

theorem stays_emit_iff {e : ParseEvent} : Stays v (emit e) ↔ e.InBounds v :=
  ⟨fun h => h e (List.mem_singleton.mpr rfl), AllEvents.emit⟩

theorem args_inBounds_iff {i : ℕ} : (ParseEvent.access .args i).InBounds v ↔ i < maxPhandleArgs := by
  simp [ParseEvent.InBounds]

theorem initial_inBounds_iff {i : ℕ} : (ParseEvent.access .initialMatchArray i).InBounds v ↔ i < maxPhandleArgs := by
  simp [ParseEvent.InBounds]

theorem map_inBounds_iff {name : String} {i : ℤ} (hprop : v.ofGetProperty np name = some (map, mapLen)) :
    (ParseEvent.access (.map np name) i).InBounds v ↔ 0 ≤ i ∧ i < (mapLen / 4 : ℕ) := by
  simp [ParseEvent.InBounds, hprop]

end Rules

/-! ### References are no accesses -/

theorem ofNodePut_stays (np : Option ℕ) : Stays v (ofNodePut np) := by
  cases np with
  | none => exact .pure ()
  | some np => exact stays_emit_iff.mpr trivial

theorem ofNodeGet_stays (np : Option ℕ) : Stays v (ofNodeGet np) := by
  cases np with
  | none => exact .pure ()
  | some np => exact stays_emit_iff.mpr trivial

theorem dropOld_stays (dropsOld : Bool) (new : Option ℕ) : Stays v (dropOld dropsOld new) := by
  cases dropsOld with
  | false => exact .pure ()
  | true => exact ofNodePut_stays new

theorem getNodeByPhandle_stays (handle : ℕ) : Stays v (getNodeByPhandle v handle) :=
  (ofNodeGet_stays _).bind fun _ _ => .pure _

theorem getParent_stays (np : ℕ) : Stays v (getParent v np) := (ofNodeGet_stays _).bind fun _ _ => .pure _

theorem findParentLoop_stays : Stays v (findParentLoop v rounds child) := by
  induction rounds generalizing child with
  | zero => exact .unfinished
  | succ rounds ih =>
    have hparent : Stays v (interruptParent v child) := by
      unfold interruptParent
      cases v.ofPropertyReadU32 child "interrupt-parent" with
      | error e => exact getParent_stays child
      | ok parent => exact getNodeByPhandle_stays parent
    refine hparent.bind fun p _ => (ofNodePut_stays _).bind fun _ _ => ?_
    cases p with
    | none => exact .pure _
    | some p =>
      simp only
      split_ifs
      · exact ih
      · exact .pure _

theorem ofIrqFindParent_stays (child : ℕ) : Stays v (ofIrqFindParent fuel v (some child)) :=
  (ofNodeGet_stays _).bind fun _ _ => findParentLoop_stays

theorem seekLoop_stays : Stays v (seekLoop fuel v rounds np) := by
  induction rounds generalizing np with
  | zero => exact .unfinished
  | succ rounds ih =>
    rw [seekLoop]
    cases v.ofPropertyReadU32 np "#interrupt-cells" with
    | ok intsize => exact .pure _
    | error e =>
      refine (ofIrqFindParent_stays np).bind fun p _ => (ofNodePut_stays _).bind fun _ _ => ?_
      cases p with
      | none => exact .pure _
      | some p => exact ih

theorem addressCellsLoop_stays : Stays v (addressCellsLoop v rounds np) := by
  induction rounds generalizing np with
  | zero => exact .unfinished
  | succ rounds ih =>
    refine (getParent_stays np).bind fun tnode _ => (ofNodePut_stays _).bind fun _ _ => ?_
    cases tnode with
    | none => exact (ofNodePut_stays _).bind fun _ _ => .pure _
    | some old =>
      cases v.ofGetProperty np "#address-cells" with
      | none => exact ih
      | some p => exact (ofNodePut_stays _).bind fun _ _ => .pure _

/-! ### Lists -/

theorem copyArgs_stays {cells : ℕ} (n i : ℕ) (args : ℕ → ℕ) (h : i + n ≤ maxPhandleArgs) :
    Stays v (copyArgs it cells args n i) := by
  induction n generalizing i args with
  | zero => exact .pure _
  | succ n ih =>
    exact (stays_emit_iff.mpr (args_inBounds_iff.mpr (by omega))).bind fun _ _ => ih (i + 1) _ (by omega)

theorem ofPhandleIteratorNext_stays : Stays v (ofPhandleIteratorNext v it) := by
  refine (ofNodePut_stays _).bind fun _ _ => ?_
  simp only
  split_ifs
  · exact .pure _
  · exact .pure _
  · refine (getNodeByPhandle_stays _).bind fun node _ => ?_
    generalize argumentCount v _ = count
    cases count with
    | none => exact (ofNodePut_stays _).bind fun _ _ => .pure _
    | some count =>
      simp only
      split_ifs
      · exact (ofNodePut_stays _).bind fun _ _ => .pure _
      · exact .pure _

/-- Reading an entry of a list touches the first cells of the arguments only. -/
theorem ofParsePhandleWithArgs_stays {listName : String} {cellsName : Option String} {cellCount index : ℤ}
    {outArgs : Option PhandleArgs} :
    Stays v (ofParsePhandleWithArgs fuel v np listName cellsName cellCount index outArgs) := by
  have hloop : ∀ rounds it curIndex, Stays v (parseLoop v index outArgs rounds it curIndex) := by
    intro rounds
    induction rounds with
    | zero => exact fun _ _ => .unfinished
    | succ rounds ih =>
      intro it curIndex
      refine ofPhandleIteratorNext_stays.bind fun r _ => ?_
      obtain ⟨it', rc⟩ := r
      simp only
      split_ifs
      · exact (ofNodePut_stays _).bind fun _ _ => .pure _
      · exact (ofNodePut_stays _).bind fun _ _ => .pure _
      · cases outArgs with
        | none => exact (ofNodePut_stays _).bind fun _ _ => .pure _
        | some out =>
          have hargs : Stays v (ofPhandleIteratorArgs it' out.args maxPhandleArgs) := by
            refine (copyArgs_stays _ _ _ ?_).bind fun _ _ => .pure _
            split_ifs <;> omega
          exact hargs.bind fun _ _ => .pure _
      · exact ih it' (curIndex + 1)
  unfold ofParsePhandleWithArgs
  split_ifs
  · exact .pure _
  · exact hloop _ _ _

/-! ### Maps -/

/-- The access to `match_array[i]`. -/
def CellPtr.event (p : CellPtr) (i : ℕ) : ParseEvent :=
  match p with
  | .initialMatchArray => .access .initialMatchArray i
  | .map np name off => .access (.map np name) (off + i)

theorem readMap_stays_iff {name : String} {j : ℤ} :
    Stays v (readMap v stray np name j) ↔ (ParseEvent.access (.map np name) j).InBounds v := by
  rw [readMap, stays_bind_iff, stays_emit_iff]
  exact and_iff_left fun _ _ => .pure _

theorem readMatchArray_stays_iff {i : ℕ} :
    Stays v (readMatchArray v stray initial matchArray i) ↔ (matchArray.event i).InBounds v := by
  cases matchArray with
  | initialMatchArray =>
    rw [readMatchArray, stays_bind_iff, stays_emit_iff]
    exact and_iff_left fun _ _ => .pure _
  | map np name off => exact readMap_stays_iff

/-- The comparison reads all cells of both specifiers. -/
theorem compareCells_stays_iff {readMatch readEntry : ℕ → Traced ParseEvent ℕ} {a b mask : ℕ → ℕ}
    (ha : ∀ i, (readMatch i).result = some (a i)) (hb : ∀ i, (readEntry i).result = some (b i)) (n i : ℕ) (matched : Bool) :
    Stays v (compareCells readMatch readEntry mask n i matched) ↔
      ∀ j < n, Stays v (readMatch (i + j)) ∧ Stays v (readEntry (i + j)) := by
  induction n generalizing i matched with
  | zero => exact iff_of_true (.pure _) fun j hj => absurd hj (Nat.not_lt_zero j)
  | succ n ih =>
    simp only [compareCells, stays_bind_iff, ha, hb, Option.some.injEq, forall_eq', ih, ← and_assoc]
    exact (forall_lt_succ_shift (P := fun j => Stays v (readMatch j) ∧ Stays v (readEntry j))).symm

/-- The cells of the specifier that is compared can be read. -/
def CellPtr.Within (v : TreeView) (p : CellPtr) (n : ℕ) : Prop := ∀ i < n, (p.event i).InBounds v

theorem scanMap_stays (hprop : v.ofGetProperty cur rules.map = some (map, mapLen)) (hst : st.pos + st.mapLen = mapLen / 4)
    (hwithin : st.mapLen > listSize + 1 → matchArray.Within v listSize) :
    Stays v (scanMap v stray rules initial cur listSize matchArray rounds st) := by
  induction rounds generalizing st with
  | zero => exact .unfinished
  | succ rounds ih =>
    rw [scanMap]
    split_ifs with hgo
    · have hmap {j : ℕ} (hj : j ≤ listSize) : Stays v (readMap v stray cur rules.map (st.pos + j)) := by
        rw [readMap_stays_iff, map_inBounds_iff hprop]
        omega
      have hcompare : Stays v (compareCells (readMatchArray v stray initial matchArray)
          (fun i => readMap v stray cur rules.map (st.pos + i)) (optionalCells v cur rules.mask 0xffffffff) listSize 0 true) := by
        refine (compareCells_stays_iff (fun i => readMatchArray_result i) (fun i => readMap_result _ _ _) _ _ _).mpr fun j hj => ?_
        rw [Nat.zero_add]
        exact ⟨readMatchArray_stays_iff.mpr (hwithin hgo.1 j hj), hmap hj.le⟩
      refine hcompare.bind fun matched _ => (dropOld_stays _ _).bind fun _ _ => (hmap le_rfl).bind fun handle _ => ?_
      refine (getNodeByPhandle_stays _).bind fun new _ => ?_
      cases new with
      | none => exact .pure _
      | some node =>
        simp only
        generalize rules.size node = size
        cases size with
        | error ret => exact .pure _
        | ok newSize =>
          simp only
          split_ifs with hlong
          · exact .pure _
          · have hgo := hgo.1
            refine ih ?_ fun hmore => hwithin hgo
            simp only
            omega
    · exact .pure _

theorem within_of_scanMap (hgo : st.mapLen > listSize + 1 ∧ st.matched = false)
    (h : Stays v (scanMap v stray rules initial cur listSize matchArray (rounds + 1) st)) : matchArray.Within v listSize := by
  rw [scanMap, if_pos hgo] at h
  have hcompare := (compareCells_stays_iff (fun i => readMatchArray_result i) (fun i => readMap_result _ _ _) _ _ _).mp
    (stays_bind_iff.mp h).1
  intro i hi
  have hread := (hcompare i hi).1
  rwa [Nat.zero_add, readMatchArray_stays_iff] at hread

/-! ### `of_parse_phandle_with_args_map` -/

theorem copySpecifier_stays {start : ℕ} {pass : ℕ → ℕ} (hprop : v.ofGetProperty cur names.map = some (map, mapLen)) (n i : ℕ)
    (args : ℕ → ℕ) (hend : start + (i + n) ≤ mapLen / 4) (hargs : i + n ≤ maxPhandleArgs) :
    Stays v (copySpecifier v stray names cur listSize start pass n i args) := by
  induction n generalizing i args with
  | zero => exact .pure _
  | succ n ih =>
    have hi : Stays v (emit (.access .args i)) := stays_emit_iff.mpr (args_inBounds_iff.mpr (by omega))
    have hread : Stays v (readMap v stray cur names.map (start + i)) := by
      rw [readMap_stays_iff, map_inBounds_iff hprop]
      omega
    refine hread.bind fun val _ => ?_
    split_ifs
    · exact hi.bind fun _ _ => hi.bind fun _ _ => ih (i + 1) _ (by omega) (by omega)
    · exact hi.bind fun _ _ => ih (i + 1) _ (by omega) (by omega)

/-- The line that is taken leads to a specifier inside of the map. -/
theorem MapLine.InMap.within {size : ℕ → Except ℤ ℕ} {name : String} (h : line.InMap v size listSize map (mapLen / 4))
    (hprop : v.ofGetProperty np name = some (map, mapLen)) : (CellPtr.map np name line.start).Within v line.newSpec.length := by
  intro i hi
  have hend := h.le_end
  refine (map_inBounds_iff hprop).mpr ?_
  omega

theorem levels_stay {l : NexusLevel} (hwithin : l.matchArray.Within v l.listSize) (new : Option ℕ) (ret : ℤ) (out : PhandleArgs) :
    Stays v (l.levels fuel v stray names initial rounds new ret out) := by
  induction rounds generalizing l new ret out with
  | zero => exact .unfinished
  | succ rounds ih =>
    rw [NexusLevel.levels, mapLevels]
    cases hprop : v.ofGetProperty l.cur names.map with
    | none => exact .pure _
    | some p =>
      obtain ⟨map, mapLen⟩ := p
      have hmap : v.ofGetProperty l.cur (names.rules v).map = some (map, mapLen) := hprop
      have hscan : Stays v (scanMap v stray (names.rules v) initial l.cur l.listSize l.matchArray fuel
          ⟨new, 0, mapLen / 4, false, 0, ret⟩) := scanMap_stays hmap (Nat.zero_add _) fun _ => hwithin
      refine hscan.bind fun r hr => ?_
      obtain ⟨lines, hlines⟩ := nodeLines_of_property (names.rules v) hprop l.listSize
      have hsearched := (scanMap_spec hlines hprop new ret).1 r hr
      obtain ⟨st, failed⟩ := r
      simp only
      split_ifs with hleft
      · exact (ofNodePut_stays _).bind fun _ _ => (ofNodePut_stays _).bind fun _ _ => .pure _
      · cases haccept : acceptingLine v (names.rules v) l.cur (l.matchArray.value v stray initial) lines.1 with
        | none => exact absurd (hsearched.missed haccept).1 hleft
        | some line =>
          obtain ⟨-, -, hnew, hsize, hpos⟩ := hsearched.found line haccept
          simp only at hnew hsize hpos
          obtain ⟨map', mapLen', hprop', hin⟩ := nodeLines_inMap hlines
          obtain ⟨rfl, rfl⟩ := Prod.mk.inj (Option.some.inj (hprop.symm.trans hprop'))
          have hline := hin line (acceptingLine_mem haccept)
          have hend := hline.le_end
          have hle := hline.newSpec_le
          have hstart : st.pos - st.newSize = line.start := by omega
          refine (copySpecifier_stays hprop _ _ _ (by omega) (by omega)).bind fun args _ => (ofNodePut_stays _).bind fun _ _ => ?_
          rw [hnew, hstart, hsize]
          exact ih (l := ⟨line.node, line.newSpec.length, .map l.cur names.map line.start⟩) (hline.within hprop) _ _ _

theorem fillMatchArray_stays_iff {args : ℕ → ℕ} (n i : ℕ) (initial : ℕ → ℕ) :
    Stays v (fillMatchArray args n i initial) ↔ ∀ j < n, i + j < maxPhandleArgs := by
  induction n generalizing i initial with
  | zero => exact iff_of_true (.pure _) fun j hj => absurd hj (Nat.not_lt_zero j)
  | succ n ih =>
    simp only [fillMatchArray, stays_bind_iff, stays_emit_iff, args_inBounds_iff, initial_inBounds_iff, ih, result_emit,
      forall_const, and_self_left]
    exact (forall_lt_succ_shift (P := fun j => j < maxPhandleArgs)).symm

/-- The calls stay in the arrays and maps exactly if the node of the entry does not ask for too many arguments. -/
theorem argsMap_stays_iff (v : TreeView) (stray : ℕ → ℤ → ℕ) (alloc : Fin 4 → Bool) (np : ℕ) (listName stemName : String)
    (index : ℤ) (out : PhandleArgs) :
    (∀ fuel, Stays v (ofParsePhandleWithArgsMap fuel v stray alloc np listName stemName index out)) ↔
      (0 ≤ index → (∀ k, alloc k = true) →
        ∀ e ∈ calledEntry v np listName stemName index.toNat, e.phandle ≠ 0 → e.args.length ≤ maxPhandleArgs) := by
  by_cases hindex : index < 0
  · refine iff_of_true (fun fuel => ?_) fun h => absurd h (not_le.mpr hindex)
    rw [ofParsePhandleWithArgsMap, if_pos hindex]
    exact .pure _
  obtain ⟨i, rfl⟩ := Int.eq_ofNat_of_zero_le (not_lt.mp hindex)
  rw [Int.toNat_natCast]
  by_cases hall : ∃ k, alloc k = false
  · refine iff_of_true (fun fuel => ?_) fun _ h => ?_
    · rw [ofParsePhandleWithArgsMap, if_neg hindex, if_pos hall]
      exact .pure _
    · obtain ⟨k, hk⟩ := hall
      exact absurd (h k) (by simp [hk])
  have halloc : ∀ k, alloc k = true := by simpa using hall
  constructor
  · intro h _ _ e hentry hph
    obtain ⟨k, hk⟩ := ofParsePhandleWithArgs_eq v np listName (some (nexusNames stemName).cells) (some out) i
    obtain ⟨c, hc, -, hsize⟩ := referenceList_node e (List.mem_of_getElem? hentry) hph
    have hnode : (e.fill out).np = some c := hc
    have hcall := h k
    rw [ofParsePhandleWithArgsMap, if_neg hindex, if_neg hall, stays_bind_iff] at hcall
    have hrest := hcall.2 _ ((hk k le_rfl).trans (congrArg some (parsedEntry_called hentry hph)))
    simp only [ne_eq, not_true_eq_false, if_false, Option.getD_some, hnode, hsize, stays_bind_iff, fillMatchArray_stays_iff,
      Nat.zero_add] at hrest
    by_contra hlong
    exact absurd (hrest.1 maxPhandleArgs (Nat.lt_of_not_le hlong)) (Nat.lt_irrefl _)
  · intro h fuel
    rw [ofParsePhandleWithArgsMap, if_neg hindex, if_neg hall]
    refine ofParsePhandleWithArgs_stays.bind fun r hr => ?_
    obtain rfl := ofParsePhandleWithArgs_named hr
    by_cases hcalled : ∃ e, calledEntry v np listName stemName i = some e ∧ e.phandle ≠ 0
    · obtain ⟨e, hentry, hph⟩ := hcalled
      obtain ⟨c, hc, -, hsize⟩ := referenceList_node e (List.mem_of_getElem? hentry) hph
      have hnode : (e.fill out).np = some c := hc
      have hle := h (Int.natCast_nonneg i) halloc e hentry hph
      rw [parsedEntry_called hentry hph]
      simp only [ne_eq, not_true_eq_false, if_false, Option.getD_some, hnode, hsize]
      refine ((fillMatchArray_stays_iff _ _ _).mpr fun j hj => by omega).bind fun initial _ => ?_
      refine levels_stay (l := ⟨c, e.args.length, .initialMatchArray⟩) (fun j hj => ?_) none (-EINVAL) _
      have hj : j < e.args.length := hj
      exact initial_inBounds_iff.mpr (by omega)
    · have hnone : ∀ e, calledEntry v np listName stemName i = some e → e.phandle = 0 := fun e he => by
        by_contra hph
        exact hcalled ⟨e, he, hph⟩
      have hother := parsedEntry_not_called out hnone
      generalize parsedEntry _ i (some out) = found at hother
      obtain ⟨ret, found⟩ := found
      simp only
      rw [if_pos hother]
      exact .pure _

/-! ### The levels of `of_irq_parse_raw` -/

/-- The cells in front of an end `e` that are not in front of the array. -/
def CellPtr.Fits (p : CellPtr) (n : ℕ) : Prop :=
  match p with
  | .initialMatchArray => True
  | .map _ _ off => 0 ≤ off ∨ n = 0

/-- What the walk of `of_irq_parse_raw` keeps: a specifier is not too long, and does not go past its end. -/
structure IrqLevel.Inv (v : TreeView) (l : IrqLevel) : Prop where
  cells_le : l.cells ≤ maxPhandleArgs
  before_end : ∀ np name off, l.matchArray = .map np name off →
    ∃ map mapLen, v.ofGetProperty np name = some (map, mapLen) ∧ off + l.cells ≤ (mapLen / 4 : ℕ)

/-- The level touches cells of the arrays and its map only: if there is a line to compare with, the specifier is
not in front of a map, and the line that is taken has an interrupt specifier that is not too long and is not in front of
the map. -/
structure IrqLevel.Fits (v : TreeView) (stray : ℕ → ℤ → ℕ) (initial : ℕ → ℕ) (l : IrqLevel) (map : Bytes) (imaplen : ℕ) : Prop where
  compare : imaplen / 4 > l.cells + 1 → l.matchArray.Fits l.cells
  taken : ∀ lines line newintsize newaddrsize, nodeLines v (interruptRules v) l.ipar l.cells = some lines →
    acceptingLine v (interruptRules v) l.ipar (l.matchArray.value v stray initial) lines.1 = some line →
    interruptCells v line.node = .ok (newintsize, newaddrsize) →
      newintsize ≤ maxPhandleArgs ∧ newintsize ≤ line.start + line.newSpec.length

theorem IrqLevel.Inv.within_iff (h : l.Inv v) : l.matchArray.Within v l.cells ↔ l.matchArray.Fits l.cells := by
  have hle := h.cells_le
  have hend := h.before_end
  unfold CellPtr.Within CellPtr.Fits CellPtr.event
  cases hptr : l.matchArray with
  | initialMatchArray => exact iff_of_true (fun i hi => initial_inBounds_iff.mpr (by omega)) trivial
  | map np name off =>
    obtain ⟨map, mapLen, hprop, hoff⟩ := hend np name off hptr
    simp only [map_inBounds_iff hprop]
    constructor
    · intro hall
      by_contra hnot
      have hfirst := hall 0 (by omega)
      omega
    · intro hfits i hi
      omega

/-- The level of a place. -/
def IrqPlace.at : IrqPlace → IrqLevel
  | .level l => l
  | .climb l => l

theorem IrqLevel.Inv.along {newintsize newaddrsize : ℕ} (hprop : v.ofGetProperty l.ipar "interrupt-map" = some (map, mapLen))
    (hline : line.InMap v (interruptRules v).size l.cells map (mapLen / 4))
    (hcells : interruptCells v line.node = .ok (newintsize, newaddrsize)) :
    (l.along line newintsize newaddrsize).cells = line.newSpec.length ∧ (l.along line newintsize newaddrsize).Inv v := by
  obtain ⟨ni, na, hcells', hlength⟩ := interruptCells_of_size hline.size_eq
  obtain ⟨rfl, rfl⟩ := Prod.mk.inj (Except.ok.inj (hcells.symm.trans hcells'))
  have heq : (l.along line newintsize newaddrsize).cells = line.newSpec.length := hlength.symm
  refine ⟨heq, heq ▸ hline.newSpec_le, fun np name off hptr => ?_⟩
  obtain ⟨rfl, rfl, rfl⟩ := CellPtr.map.inj hptr
  have hend := hline.le_end
  refine ⟨map, mapLen, hprop, ?_⟩
  rw [heq]
  have hle : line.newSpec.length ≤ newaddrsize + newintsize := hlength ▸ Nat.mod_le _ _
  omega

theorem irqStep_inv {place place' : IrqPlace} (h : place.at.Inv v) (hstep : IrqStep v stray initial addr place place') :
    place'.at.Inv v := by
  cases hstep with
  | up => exact h
  | further => exact ⟨h.cells_le, h.before_end⟩
  | arrive => exact ⟨h.cells_le, h.before_end⟩
  | map _ hlines haccept hcells =>
    obtain ⟨map, mapLen, hprop, hin⟩ := nodeLines_inMap hlines
    exact (IrqLevel.Inv.along hprop (hin _ (acceptingLine_mem haccept)) hcells).2

/-- Copying an interrupt specifier reads its cells and writes the arguments. -/
theorem copyIntspec_stays_iff {ipar : ℕ} {start : ℤ} (n i : ℕ) (args : ℕ → ℕ) :
    Stays v (copyIntspec v stray ipar start n i args) ↔
      ∀ j < n, (ParseEvent.access (.map ipar "interrupt-map") (start + (i + j : ℕ))).InBounds v ∧ i + j < maxPhandleArgs := by
  induction n generalizing i args with
  | zero => exact iff_of_true (.pure _) fun j hj => absurd hj (Nat.not_lt_zero j)
  | succ n ih =>
    simp only [copyIntspec, stays_bind_iff, readMap_stays_iff, stays_emit_iff, args_inBounds_iff, ih, readMap_result,
      result_emit, Option.some.injEq, forall_eq', forall_const, ← and_assoc]
    exact (forall_lt_succ_shift (P := fun j =>
      (ParseEvent.access (.map ipar "interrupt-map") (start + (j : ℕ))).InBounds v ∧ j < maxPhandleArgs)).symm

/-- The copy of the interrupt specifier of the line that is taken. -/
theorem copyIntspec_stays_iff_of_line {newintsize : ℕ} {args : ℕ → ℕ}
    (hprop : v.ofGetProperty l.ipar "interrupt-map" = some (map, mapLen))
    (hline : line.InMap v (interruptRules v).size l.cells map (mapLen / 4)) :
    Stays v (copyIntspec v stray l.ipar ((line.start + line.newSpec.length : ℕ) - (newintsize : ℤ)) newintsize 0 args) ↔
      newintsize ≤ maxPhandleArgs ∧ newintsize ≤ line.start + line.newSpec.length := by
  have hend := hline.le_end
  rw [copyIntspec_stays_iff]
  simp only [Nat.zero_add, map_inBounds_iff hprop]
  constructor
  · intro h
    cases newintsize with
    | zero => omega
    | succ n =>
      have hfirst := h 0 (by omega)
      have hlast := h n (by omega)
      omega
  · intro h j hj
    omega

theorem climb_of_findParentLoop (h : (findParentLoop v rounds l.ipar).result = some (some p)) :
    ReflTransGen (IrqStep v stray initial addr) (.climb l) (.level { l with ipar := p }) := by
  induction rounds generalizing l with
  | zero => cases h
  | succ rounds ih =>
    rw [findParentLoop_result] at h
    cases hirq : irqParent v l.ipar with
    | none => simp [hirq] at h
    | some p' =>
      simp only [hirq] at h
      split_ifs at h with hcells
      · obtain rfl := Option.some.inj (Option.some.inj h)
        exact .single (.arrive hirq hcells)
      · exact .head (.further hirq hcells) (ih (l := { l with ipar := p' }) h)

/-- The level fits, if its map is looked at. -/
def IrqLevel.FitsAt (v : TreeView) (stray : ℕ → ℤ → ℕ) (initial : ℕ → ℕ) (addr : Option Bytes) (l : IrqLevel) : Prop :=
  l.GoesOn v addr → ∀ map imaplen, v.ofGetProperty l.ipar "interrupt-map" = some (map, imaplen) →
    l.Fits v stray initial map imaplen

theorem irqLevels_map (hgo : l.GoesOn v addr) (hprop : v.ofGetProperty l.ipar "interrupt-map" = some (map, mapLen))
    (hlines : nodeLines v (interruptRules v) l.ipar l.cells = some lines) (out : PhandleArgs) :
    Stays v (irqLevels fuel v stray initial addr (rounds + 1) l out) ↔
      Stays v (l.scan fuel v stray initial mapLen) ∧ ∀ r, (l.scan fuel v stray initial mapLen).result = some r →
        ∀ line newintsize newaddrsize,
          acceptingLine v (interruptRules v) l.ipar (l.matchArray.value v stray initial) lines.1 = some line →
          interruptCells v line.node = .ok (newintsize, newaddrsize) →
          (newintsize ≤ maxPhandleArgs ∧ newintsize ≤ line.start + line.newSpec.length) ∧
          (l.ipar ≠ line.node → ∀ args,
            (copyIntspec v stray l.ipar ((line.start + line.newSpec.length : ℕ) - (newintsize : ℤ)) newintsize 0 out.args).result =
                some args →
            Stays v (irqLevels fuel v stray initial addr rounds (l.along line newintsize newaddrsize)
              ⟨some line.node, newintsize, args⟩)) := by
  have hctl : ¬ l.isController v = true := by simp [hgo.1]
  rw [irqLevels, if_neg hctl, if_neg hgo.2, hprop]
  simp only [stays_bind_iff]
  refine and_congr_right fun _ => forall₂_congr fun r hr => ?_
  have hsearched := (scanMap_spec hlines hprop none (-EINVAL)).1 r hr
  obtain ⟨map', mapLen', hprop', hin⟩ := nodeLines_inMap hlines
  obtain ⟨rfl, rfl⟩ := Prod.mk.inj (Option.some.inj (hprop.symm.trans hprop'))
  obtain ⟨st, failed⟩ := r
  cases haccept : acceptingLine v (interruptRules v) l.ipar (l.matchArray.value v stray initial) lines.1 with
  | none =>
    refine iff_of_true ?_ fun line _ _ hline => absurd hline (by simp)
    have hleft : failed = true ∨ st.matched = false := (hsearched.missed haccept).1
    have hfail : Stays v (do
        ofNodePut (some l.ipar)
        ofNodePut st.new
        Pure.pure (st.ret, out)) :=
      (ofNodePut_stays _).bind fun _ _ => (ofNodePut_stays _).bind fun _ _ => .pure _
    simp only
    split_ifs with hfailed hmatched
    · exact hfail
    · exact .pure _
    · exact hfail
    · exact absurd hleft (not_or.mpr ⟨hfailed, hmatched⟩)
  | some line =>
    obtain ⟨hfailed, hmatched, hnew, -, hpos⟩ := hsearched.found line haccept
    simp only at hfailed hmatched hnew hpos
    have hline := hin line (acceptingLine_mem haccept)
    obtain ⟨newintsize, newaddrsize, hcells, -⟩ := interruptCells_of_size hline.size_eq
    simp only [hfailed, hmatched, hnew, hpos, hcells, Bool.false_eq_true, if_false, Bool.true_eq_false, Option.some.injEq,
      stays_bind_iff, copyIntspec_stays_iff_of_line hprop hline]
    constructor
    · rintro ⟨hcopy, hrest⟩ line' ni na rfl hcells'
      obtain ⟨rfl, rfl⟩ := Prod.mk.inj (Except.ok.inj (hcells.symm.trans hcells'))
      refine ⟨hcopy, fun hne args hargs => ?_⟩
      have hgoes := hrest args hargs
      rw [if_neg hne, stays_bind_iff] at hgoes
      exact hgoes.2 () (ofNodePut_result _)
    · intro h
      obtain ⟨hcopy, hrest⟩ := h line newintsize newaddrsize rfl hcells
      refine ⟨hcopy, fun args hargs => ?_⟩
      split_ifs with hself
      · exact .pure _
      · exact (ofNodePut_stays _).bind fun _ _ => hrest hself args hargs

theorem irqLevels_up_stays (hgo : l.GoesOn v addr) (hprop : v.ofGetProperty l.ipar "interrupt-map" = none) (out : PhandleArgs) :
    Stays v (irqLevels fuel v stray initial addr (rounds + 1) l out) ↔
      ∀ p, (findParentLoop v fuel l.ipar).result = some (some p) →
        Stays v (irqLevels fuel v stray initial addr rounds { l with ipar := p } { out with np := some p }) := by
  have hctl : ¬ l.isController v = true := by simp [hgo.1]
  rw [irqLevels, if_neg hctl, if_neg hgo.2, hprop]
  simp only [stays_bind_iff, ofIrqFindParent_result, ofNodePut_result, forall_const]
  constructor
  · intro h p hp
    exact (h.2 (some p) hp).2
  · intro h
    refine ⟨ofIrqFindParent_stays _, fun q hq => ⟨ofNodePut_stays _, ?_⟩⟩
    cases q with
    | none => exact .pure _
    | some p => exact h p hq

theorem irqLevels_stop_stays (h : ¬ l.GoesOn v addr) (out : PhandleArgs) :
    Stays v (irqLevels fuel v stray initial addr (rounds + 1) l out) := by
  by_cases hctl : l.isController v = true
  · rw [irqLevels, if_pos hctl]
    exact .pure _
  · have haddr : l.addrsize ≠ 0 ∧ addr.isNone := by
      by_contra hne
      exact h ⟨by simpa using hctl, hne⟩
    rw [irqLevels, if_neg hctl, if_pos haddr]
    exact (ofNodePut_stays _).bind fun _ _ => .pure _

/-- If all levels of the walk fit, the accesses stay in the arrays and maps. -/
theorem irqLevels_stays (hinv : l.Inv v)
    (hfits : ∀ l', ReflTransGen (IrqStep v stray initial addr) (.level l) (.level l') → l'.FitsAt v stray initial addr)
    (out : PhandleArgs) : Stays v (irqLevels fuel v stray initial addr rounds l out) := by
  induction rounds generalizing l out with
  | zero => exact .unfinished
  | succ rounds ih =>
    by_cases hgo : l.GoesOn v addr
    · cases hprop : v.ofGetProperty l.ipar "interrupt-map" with
      | none =>
        refine (irqLevels_up_stays hgo hprop out).mpr fun p hp => ?_
        have hup : ReflTransGen (IrqStep v stray initial addr) (.level l) (.level { l with ipar := p }) :=
          .head (.up hgo hprop) (climb_of_findParentLoop hp)
        have hinv' : IrqLevel.Inv v { l with ipar := p } := ⟨hinv.cells_le, hinv.before_end⟩
        exact ih hinv' (fun l' hl' => hfits l' (hup.trans hl')) _
      | some p =>
        obtain ⟨map, imaplen⟩ := p
        have hfit := hfits l .refl hgo map imaplen hprop
        obtain ⟨lines, hlines⟩ := nodeLines_of_property (interruptRules v) hprop l.cells
        refine (irqLevels_map hgo hprop hlines out).mpr ⟨?_, fun r _ line newintsize newaddrsize haccept hcells => ?_⟩
        · have hmap : v.ofGetProperty l.ipar (interruptRules v).map = some (map, imaplen) := hprop
          exact scanMap_stays hmap (Nat.zero_add _) fun hmore => hinv.within_iff.mpr (hfit.compare hmore)
        · refine ⟨hfit.taken lines line newintsize newaddrsize hlines haccept hcells, fun hne args _ => ?_⟩
          have hstep : IrqStep v stray initial addr (.level l) (.level (l.along line newintsize newaddrsize)) :=
            .map hgo hlines haccept hcells hne
          have hinv' : (l.along line newintsize newaddrsize).Inv v := irqStep_inv (show (IrqPlace.level l).at.Inv v from hinv) hstep
          exact ih hinv' (fun l' hl' => hfits l' (.head hstep hl')) _
    · exact irqLevels_stop_stays hgo out

/-- The accesses from a place on stay in the arrays and maps, where the outer loop has `d` rounds less than the inner ones. -/
def IrqPlace.Stay (v : TreeView) (stray : ℕ → ℤ → ℕ) (initial : ℕ → ℕ) (addr : Option Bytes) : IrqPlace → Prop
  | .level l => ∃ out k d, ∀ fuel ≥ k, Stays v (irqLevels fuel v stray initial addr (fuel - d) l out)
  | .climb l => ∀ p k, (∀ fuel ≥ k, (findParentLoop v fuel l.ipar).result = some (some p)) →
      ∃ out k d, ∀ fuel ≥ k, Stays v (irqLevels fuel v stray initial addr (fuel - d) { l with ipar := p } out)

theorem irqStep_stay {place place' : IrqPlace} (h : place.Stay v stray initial addr)
    (hstep : IrqStep v stray initial addr place place') : place'.Stay v stray initial addr := by
  cases hstep with
  | @up l hgo hprop =>
    obtain ⟨out, k, d, hk⟩ := h
    intro p k' hk'
    refine ⟨{ out with np := some p }, max k k' + d + 1, d + 1, fun fuel hfuel => ?_⟩
    have hround := hk fuel (by omega)
    rw [show fuel - d = fuel - (d + 1) + 1 by omega] at hround
    exact (irqLevels_up_stays hgo hprop out).mp hround p (hk' fuel (by omega))
  | @further l p hirq hcells =>
    intro p' k hk
    refine h p' (k + 1) fun fuel hfuel => ?_
    obtain ⟨fuel, rfl⟩ := Nat.exists_eq_add_of_le' (Nat.one_le_of_lt hfuel)
    simp only [findParentLoop_result, hirq, if_neg hcells]
    exact hk fuel (by omega)
  | @arrive l p hirq hcells =>
    refine h p 1 fun fuel hfuel => ?_
    obtain ⟨fuel, rfl⟩ := Nat.exists_eq_add_of_le' hfuel
    simp only [findParentLoop_result, hirq, if_pos hcells]
  | @map l lines line newintsize newaddrsize hgo hlines haccept hcells hne =>
    obtain ⟨out, k, d, hk⟩ := h
    obtain ⟨map, imaplen, hprop, -⟩ := nodeLines_inMap hlines
    obtain ⟨args, hargs⟩ := copyIntspec_ends v stray l.ipar (((line.start + line.newSpec.length : ℕ) : ℤ) - newintsize) newintsize 0
      out.args
    refine ⟨⟨some line.node, newintsize, args⟩, max k (lines.1.length + 1) + d + 1, d + 1, fun fuel hfuel => ?_⟩
    obtain ⟨r, hr⟩ : ∃ r, (l.scan fuel v stray initial imaplen).result = some r :=
      (scanMap_spec hlines hprop none (-EINVAL)).2 (by omega)
    have hround := hk fuel (by omega)
    rw [show fuel - d = fuel - (d + 1) + 1 by omega, irqLevels_map hgo hprop hlines out] at hround
    exact (hround.2 r hr line newintsize newaddrsize haccept hcells).2 hne args hargs

theorem fitsAt_of_stay (hinv : l.Inv v) (h : IrqPlace.Stay v stray initial addr (.level l)) : l.FitsAt v stray initial addr := by
  intro hgo map imaplen hprop
  obtain ⟨out, k, d, hk⟩ := h
  obtain ⟨lines, hlines⟩ := nodeLines_of_property (interruptRules v) hprop l.cells
  have hround := hk (max k (lines.1.length + 1) + d + 1) (by omega)
  rw [show max k (lines.1.length + 1) + d + 1 - d = max k (lines.1.length + 1) + 1 by omega,
    irqLevels_map hgo hprop hlines out] at hround
  refine ⟨fun hmore => hinv.within_iff.mp ?_, fun lines' line newintsize newaddrsize hlines' haccept hcells => ?_⟩
  · exact within_of_scanMap ⟨hmore, rfl⟩ hround.1
  · obtain rfl := Option.some.inj (hlines.symm.trans hlines')
    obtain ⟨r, hr⟩ : ∃ r, (l.scan (max k (lines.1.length + 1) + d + 1) v stray initial imaplen).result = some r :=
      (scanMap_spec hlines hprop none (-EINVAL)).2 (by omega)
    exact (hround.2 r hr line newintsize newaddrsize haccept hcells).1

/-- The accesses from a level on stay in the arrays and maps exactly if all levels of the walk fit. -/
theorem irqLevels_stays_iff (hinv : l.Inv v) (out : PhandleArgs) (k : ℕ) :
    (∀ fuel ≥ k, Stays v (irqLevels fuel v stray initial addr fuel l out)) ↔
      ∀ l', ReflTransGen (IrqStep v stray initial addr) (.level l) (.level l') → l'.FitsAt v stray initial addr := by
  refine ⟨fun h l' hl' => ?_, fun h fuel _ => irqLevels_stays hinv h out⟩
  have hkeep : ∀ place, ReflTransGen (IrqStep v stray initial addr) (.level l) place →
      place.at.Inv v ∧ place.Stay v stray initial addr := fun place hplace => by
    induction hplace with
    | refl => exact ⟨hinv, out, k, 0, h⟩
    | tail _ hstep ih => exact ⟨irqStep_inv ih.1 hstep, irqStep_stay ih.2 hstep⟩
  exact fitsAt_of_stay (hkeep _ hl').1 (hkeep _ hl').2

end GfpDrivers.Of
