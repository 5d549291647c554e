import GfpDrivers.Of.MapScan

/-!
What a map says. It is a list of lines, each with the specifier that it is for, the node that it leads
to and the specifier for that node (`mapLines`). The loop over a map finds the first line that accepts
a specifier (`scanMap_spec`).
-/

namespace GfpDrivers.Of

open Lib

/-- One line of a map. The specifier for the node stands at `start` in the map. -/
structure MapLine where
  spec : List ℕ
  node : ℕ
  start : ℕ
  newSpec : List ℕ

/-- The lines of a map from `pos` on, where the cells `ws` are left. -/
def mapLines (v : TreeView) (size : ℕ → Except ℤ ℕ) (listSize pos : ℕ) (ws : List ℕ) : List MapLine × MapStop :=
  if ws.length ≤ listSize + 1 then ([], .short)
  else
    match v.ofFindNodeByPhandle (ws.getD listSize 0) with
    | none => ([], .unknown)
    | some node =>
        match size node with
        | .error ret => ([], .noCells ret)
        | .ok newSize =>
            if newSize > maxPhandleArgs ∨ (ws.drop (listSize + 1)).length < newSize then ([], .tooLong)
            else
              let rest := mapLines v size listSize (pos + (listSize + 1) + newSize) ((ws.drop (listSize + 1)).drop newSize)
              (⟨ws.take listSize, node, pos + (listSize + 1), (ws.drop (listSize + 1)).take newSize⟩ :: rest.1, rest.2)
termination_by ws.length
decreasing_by
  simp only [List.length_drop]
  omega

/-- The line is for the specifier, where the mask looks, and its node is available. -/
def MapLine.Accepts (v : TreeView) (mask spec : ℕ → ℕ) (l : MapLine) : Prop :=
  v.ofDeviceIsAvailable l.node ∧ ∀ i < l.spec.length, (spec i ^^^ l.spec.getD i 0) &&& mask i = 0

instance (v : TreeView) (mask spec : ℕ → ℕ) : DecidablePred (MapLine.Accepts v mask spec) :=
  fun _ => inferInstanceAs (Decidable (_ ∧ _))

/-- The lines of the map of a node, if it has one. -/
def nodeLines (v : TreeView) (rules : MapRules) (np listSize : ℕ) : Option (List MapLine × MapStop) :=
  (v.ofGetProperty np rules.map).map fun p => mapLines v rules.size listSize 0 (wordsFrom p.1 0 (p.2 / 4))

/-- The line that translates a specifier. -/
def acceptingLine (v : TreeView) (rules : MapRules) (np : ℕ) (spec : ℕ → ℕ) (lines : List MapLine) : Option MapLine :=
  lines.find? fun l => l.Accepts v (optionalCells v np rules.mask 0xffffffff) spec

variable {v : TreeView} {stray : ℕ → ℤ → ℕ} {rules : MapRules} {initial mask : ℕ → ℕ} {cur listSize rounds : ℕ}
  {matchArray : CellPtr} {st : MapScan} {map : Bytes} {mapLen : ℕ}

/-! ### The lines, one by one -/

section Lines

variable {size : ℕ → Except ℤ ℕ} {pos : ℕ} {ws : List ℕ} {node newSize : ℕ} {ret : ℤ}

theorem mapLines_short (h : ws.length ≤ listSize + 1) : mapLines v size listSize pos ws = ([], .short) := by
  rw [mapLines, if_pos h]

theorem mapLines_unknown (h : ¬ ws.length ≤ listSize + 1) (hnone : v.ofFindNodeByPhandle (ws.getD listSize 0) = none) :
    mapLines v size listSize pos ws = ([], .unknown) := by
  rw [mapLines, if_neg h, hnone]

theorem mapLines_noCells (h : ¬ ws.length ≤ listSize + 1) (hnode : v.ofFindNodeByPhandle (ws.getD listSize 0) = some node)
    (hret : size node = .error ret) :
    mapLines v size listSize pos ws = ([], .noCells ret) := by
  rw [mapLines, if_neg h, hnode]
  simp only [hret]

theorem mapLines_tooLong (h : ¬ ws.length ≤ listSize + 1) (hnode : v.ofFindNodeByPhandle (ws.getD listSize 0) = some node)
    (hsize : size node = .ok newSize)
    (hlong : newSize > maxPhandleArgs ∨ (ws.drop (listSize + 1)).length < newSize) :
    mapLines v size listSize pos ws = ([], .tooLong) := by
  rw [mapLines, if_neg h, hnode]
  simp only [hsize, if_pos hlong]

theorem mapLines_line (h : ¬ ws.length ≤ listSize + 1) (hnode : v.ofFindNodeByPhandle (ws.getD listSize 0) = some node)
    (hsize : size node = .ok newSize)
    (hlong : ¬ (newSize > maxPhandleArgs ∨ (ws.drop (listSize + 1)).length < newSize)) :
    mapLines v size listSize pos ws =
      (⟨ws.take listSize, node, pos + (listSize + 1), (ws.drop (listSize + 1)).take newSize⟩ ::
          (mapLines v size listSize (pos + (listSize + 1) + newSize) ((ws.drop (listSize + 1)).drop newSize)).1,
        (mapLines v size listSize (pos + (listSize + 1) + newSize) ((ws.drop (listSize + 1)).drop newSize)).2) := by
  rw [mapLines, if_neg h, hnode]
  simp only [hsize, if_neg hlong]

/-- What is true of a line of a map with the cells up to `listEnd`. -/
structure MapLine.InMap (v : TreeView) (size : ℕ → Except ℤ ℕ) (listSize : ℕ) (map : Bytes) (listEnd : ℕ) (l : MapLine) : Prop where
  spec_length : l.spec.length = listSize
  found : ∃ handle, v.ofFindNodeByPhandle handle = some l.node
  size_eq : size l.node = .ok l.newSpec.length
  newSpec_le : l.newSpec.length ≤ maxPhandleArgs
  le_end : l.start + l.newSpec.length ≤ listEnd
  cell : ∀ i < l.newSpec.length, cells map (l.start + i) = l.newSpec.getD i 0

theorem mapLines_inMap {listEnd : ℕ} (hws : ws = wordsFrom map pos listEnd) :
    ∀ l ∈ (mapLines v size listSize pos ws).1, l.InMap v size listSize map listEnd := by
  have hlength : ws.length = listEnd - pos := by rw [hws, length_wordsFrom]
  induction pos, ws using mapLines.induct v size listSize with
  | case1 pos ws hshort => simp [mapLines_short hshort]
  | case2 pos ws hshort hnone => simp [mapLines_unknown hshort hnone]
  | case3 pos ws hshort node hnode ret hret => simp [mapLines_noCells hshort hnode hret]
  | case4 pos ws hshort node hnode newSize hsize hlong => simp [mapLines_tooLong hshort hnode hsize hlong]
  | case5 pos ws hshort node hnode newSize hsize hlong ih =>
    rw [mapLines_line hshort hnode hsize hlong]
    subst hws
    rw [length_wordsFrom] at hshort
    simp only [drop_wordsFrom, length_wordsFrom] at hlong ih ⊢
    have hnew : ((wordsFrom map (pos + (listSize + 1)) listEnd).take newSize).length = newSize := by
      rw [List.length_take, length_wordsFrom]
      omega
    refine List.forall_mem_cons.mpr ⟨⟨?_, ⟨_, hnode⟩, ?_, ?_, ?_, ?_⟩, ?_⟩
    · rw [List.length_take, length_wordsFrom]
      omega
    · simpa only [hnew] using hsize
    · simp only [hnew]
      omega
    · simp only [hnew]
      omega
    · intro i hi
      simp only [hnew] at hi ⊢
      rw [getD_take_wordsFrom hi (by omega)]
    · exact ih trivial trivial

theorem mapLines_noCells_error (pos : ℕ) (ws : List ℕ) :
    ∀ e, (mapLines v size listSize pos ws).2 = .noCells e → ∃ node, size node = .error e := by
  induction pos, ws using mapLines.induct v size listSize with
  | case1 pos ws hshort => simp [mapLines_short hshort]
  | case2 pos ws hshort hnone => simp [mapLines_unknown hshort hnone]
  | case3 pos ws hshort node hnode ret hret =>
    rw [mapLines_noCells hshort hnode hret]
    intro e he
    exact ⟨node, MapStop.noCells.inj he ▸ hret⟩
  | case4 pos ws hshort node hnode newSize hsize hlong => simp [mapLines_tooLong hshort hnode hsize hlong]
  | case5 pos ws hshort node hnode newSize hsize hlong ih =>
    rw [mapLines_line hshort hnode hsize hlong]
    exact ih

theorem nodeLines_inMap {np : ℕ} {lines : List MapLine × MapStop} (hlines : nodeLines v rules np listSize = some lines) :
    ∃ map mapLen, v.ofGetProperty np rules.map = some (map, mapLen) ∧
      ∀ l ∈ lines.1, l.InMap v rules.size listSize map (mapLen / 4) := by
  obtain ⟨p, hp, rfl⟩ := Option.map_eq_some_iff.mp hlines
  exact ⟨p.1, p.2, hp, mapLines_inMap rfl⟩

theorem acceptingLine_congr {np : ℕ} {spec spec' : ℕ → ℕ} {lines : List MapLine × MapStop}
    (hlines : nodeLines v rules np listSize = some lines) (h : ∀ i < listSize, spec i = spec' i) :
    acceptingLine v rules np spec lines.1 = acceptingLine v rules np spec' lines.1 := by
  obtain ⟨map, mapLen, -, hof⟩ := nodeLines_inMap hlines
  refine List.find?_congr fun l hl => decide_eq_decide.mpr (and_congr_right fun _ => forall₂_congr fun i hi => ?_)
  rw [h i ((hof l hl).spec_length ▸ hi)]

end Lines

/-! ### Reading and comparing -/

/-- The value of `match_array[i]`. -/
def CellPtr.value (v : TreeView) (stray : ℕ → ℤ → ℕ) (initial : ℕ → ℕ) (p : CellPtr) (i : ℕ) : ℕ :=
  match p with
  | .initialMatchArray => initial i
  | .map np name off => propertyCell v stray np name (off + i)

@[simp] theorem readMap_result (np : ℕ) (name : String) (j : ℤ) :
    (readMap v stray np name j).result = some (propertyCell v stray np name j) := by
  simp [readMap]

@[simp] theorem readMatchArray_result (i : ℕ) :
    (readMatchArray v stray initial matchArray i).result = some (matchArray.value v stray initial i) := by
  cases matchArray <;> simp [readMatchArray, CellPtr.value]

theorem compareCells_result {readMatch readEntry : ℕ → Traced ParseEvent ℕ} {a b : ℕ → ℕ}
    (ha : ∀ i, (readMatch i).result = some (a i)) (hb : ∀ i, (readEntry i).result = some (b i)) (n i : ℕ) (matched : Bool) :
    (compareCells readMatch readEntry mask n i matched).result =
      some (matched && decide (∀ j < n, (a (i + j) ^^^ b (i + j)) &&& mask (i + j) = 0)) := by
  induction n generalizing i matched with
  | zero => simp [compareCells]
  | succ n ih =>
    rw [compareCells, Traced.result_bind, ha, Option.bind_some, Traced.result_bind, hb, Option.bind_some, ih, Bool.and_assoc]
    congr 2
    rw [← Bool.decide_and, decide_eq_decide]
    exact (forall_lt_succ_shift (P := fun j => (a j ^^^ b j) &&& mask j = 0)).symm

theorem propertyCell_eq {np : ℕ} {name : String} (hprop : v.ofGetProperty np name = some (map, mapLen)) (j : ℕ) :
    propertyCell v stray np name j = cells map j := by
  simp [propertyCell, hprop]

/-! ### The loop over a map -/

/-- The error where the reading of a map stops. The size of a specifier that is too long has been read. -/
def MapRules.stopError (rules : MapRules) : MapStop → ℤ → ℤ
  | .short, ret => ret
  | .tooLong, ret => rules.retStop .tooLong (rules.retLine ret)
  | stop, ret => rules.retStop stop ret

/-- The error for a map that has no line for a specifier. -/
def MapRules.mapError (rules : MapRules) (lines : List MapLine) (stop : MapStop) (ret : ℤ) : ℤ :=
  rules.stopError stop (lines.foldl (fun ret _ => rules.retLine ret) ret)

/-- The loop has found the line: it stands behind the new specifier. -/
structure Found (l : MapLine) (r : MapScan × Bool) : Prop where
  not_failed : r.2 = false
  matched : r.1.matched = true
  new : r.1.new = some l.node
  newSize : r.1.newSize = l.newSpec.length
  pos : r.1.pos = l.start + l.newSpec.length

/-- How the loop over a map is left. -/
structure MapSearched (v : TreeView) (rules : MapRules) (cur : ℕ) (spec : ℕ → ℕ) (ret : ℤ) (lines : List MapLine × MapStop)
    (r : MapScan × Bool) : Prop where
  found : ∀ l ∈ acceptingLine v rules cur spec lines.1, Found l r
  missed : acceptingLine v rules cur spec lines.1 = none →
    (r.2 = true ∨ r.1.matched = false) ∧ r.1.ret = rules.mapError lines.1 lines.2 ret

theorem scanMap_stop (h : ¬ (st.mapLen > listSize + 1 ∧ st.matched = false)) :
    scanMap v stray rules initial cur listSize matchArray (rounds + 1) st = pure (st, false) :=
  if_neg h

/-- The specifier of the line at `pos` is the one that is looked for. -/
def sameSpecifier (mask spec : ℕ → ℕ) (map : Bytes) (pos listSize : ℕ) : Bool :=
  decide (∀ j < listSize, (spec j ^^^ cells map (pos + j)) &&& mask j = 0)

/-- The state behind a line with a specifier of `newSize` cells. -/
def MapScan.behind (v : TreeView) (rules : MapRules) (st : MapScan) (same : Bool) (node listSize newSize : ℕ) : MapScan where
  new := some node
  pos := st.pos + (listSize + 1) + newSize
  mapLen := st.mapLen - (listSize + 1) - newSize
  matched := same && v.ofDeviceIsAvailable node
  newSize := newSize
  ret := rules.retLine st.ret

theorem dropOld_result (dropsOld : Bool) (new : Option ℕ) : (dropOld dropsOld new).result = some () := by
  cases dropsOld with
  | false => rfl
  | true => exact ofNodePut_result new

theorem scanMap_result {same : Bool} (hprop : v.ofGetProperty cur rules.map = some (map, mapLen))
    (h : st.mapLen > listSize + 1 ∧ st.matched = false)
    (hsame : same = sameSpecifier (optionalCells v cur rules.mask 0xffffffff) (matchArray.value v stray initial) map st.pos
      listSize) :
    (scanMap v stray rules initial cur listSize matchArray (rounds + 1) st).result =
      match v.ofFindNodeByPhandle (cells map (st.pos + listSize)) with
      | none => some ({ st with new := none, matched := same, ret := rules.retStop .unknown st.ret }, true)
      | some node =>
        match rules.size node with
        | .error ret =>
          some ({ st with
            new := some node
            matched := same && v.ofDeviceIsAvailable node
            ret := rules.retStop (.noCells ret) st.ret }, true)
        | .ok newSize =>
          if newSize > maxPhandleArgs ∨ st.mapLen - (listSize + 1) < newSize then
            some (⟨some node, st.pos + (listSize + 1), st.mapLen - (listSize + 1), same && v.ofDeviceIsAvailable node,
              newSize, rules.retStop .tooLong (rules.retLine st.ret)⟩, true)
          else
            (scanMap v stray rules initial cur listSize matchArray rounds
              (st.behind v rules same node listSize newSize)).result := by
  have hcell : ∀ j : ℕ, propertyCell v stray cur rules.map (st.pos + j) = cells map (st.pos + j) := fun j => by
    have hnat : propertyCell v stray cur rules.map ((st.pos + j : ℕ) : ℤ) = cells map (st.pos + j) := propertyCell_eq hprop _
    exact_mod_cast hnat
  have hcompare : (compareCells (readMatchArray v stray initial matchArray) (fun i => readMap v stray cur rules.map (st.pos + i))
      (optionalCells v cur rules.mask 0xffffffff) listSize 0 true).result = some same := by
    rw [compareCells_result (fun i => readMatchArray_result i) (fun i => readMap_result cur rules.map (st.pos + i)), hsame,
      sameSpecifier]
    simp only [Nat.zero_add, Bool.true_and, hcell]
  have hhandle : (readMap v stray cur rules.map (st.pos + listSize)).result = some (cells map (st.pos + listSize)) := by
    rw [readMap_result, hcell]
  refine (congrArg Traced.result (if_pos h)).trans ?_
  simp only [Traced.result_bind, hcompare, dropOld_result, hhandle, getNodeByPhandle_result, Option.bind_some]
  cases v.ofFindNodeByPhandle (cells map (st.pos + listSize)) with
  | none => rfl
  | some node =>
    simp only
    cases rules.size node with
    | error ret => rfl
    | ok newSize =>
      simp only
      split_ifs <;> rfl

theorem scanMap_mono {rounds' : ℕ} {r : MapScan × Bool} (hle : rounds ≤ rounds')
    (h : (scanMap v stray rules initial cur listSize matchArray rounds st).result = some r) :
    (scanMap v stray rules initial cur listSize matchArray rounds' st).result = some r := by
  induction rounds generalizing st rounds' with
  | zero => cases h
  | succ rounds ih =>
    obtain ⟨rounds', rfl⟩ := Nat.exists_eq_add_of_le' (Nat.one_le_of_lt hle)
    rw [scanMap] at h ⊢
    split_ifs at h ⊢ with hgo
    · simp only [Traced.result_bind, dropOld_result, readMap_result, getNodeByPhandle_result, Option.bind_some] at h ⊢
      obtain ⟨matched, hmatched, h⟩ := Option.bind_eq_some_iff.mp h
      rw [hmatched, Option.bind_some]
      cases hnode : v.ofFindNodeByPhandle (propertyCell v stray cur rules.map (st.pos + listSize)) with
      | none => simpa [hnode] using h
      | some node =>
        simp only [hnode] at h ⊢
        cases hsize : rules.size node with
        | error ret => simpa [hsize] using h
        | ok newSize =>
          simp only [hsize] at h ⊢
          split_ifs at h ⊢
          · exact h
          · exact ih (Nat.le_of_succ_le_succ hle) h
    · exact h

/-- A line accepts the specifier if its own is the same and its node is available. -/
theorem accepts_take {spec : ℕ → ℕ} {pos listEnd node start : ℕ} {newSpec : List ℕ} (h : pos + listSize ≤ listEnd) :
    MapLine.Accepts v mask spec ⟨(wordsFrom map pos listEnd).take listSize, node, start, newSpec⟩ ↔
      (sameSpecifier mask spec map pos listSize && v.ofDeviceIsAvailable node) = true := by
  have hlength : ((wordsFrom map pos listEnd).take listSize).length = listSize := by
    rw [List.length_take, length_wordsFrom]
    omega
  rw [Bool.and_eq_true, MapLine.Accepts, and_comm, sameSpecifier, decide_eq_true_iff, hlength]
  refine and_congr_left fun _ => forall₂_congr fun j hj => ?_
  rw [getD_take_wordsFrom hj h]

theorem MapSearched.cons {spec : ℕ → ℕ} {ret : ℤ} {l : MapLine} {lines : List MapLine} {stop : MapStop} {r : MapScan × Bool}
    (h : MapSearched v rules cur spec (rules.retLine ret) (lines, stop) r)
    (hl : ¬ l.Accepts v (optionalCells v cur rules.mask 0xffffffff) spec) :
    MapSearched v rules cur spec ret (l :: lines, stop) r := by
  have hfind : acceptingLine v rules cur spec (l :: lines) = acceptingLine v rules cur spec lines :=
    List.find?_cons_of_neg (by simpa using hl)
  exact ⟨fun l' hl' => h.found l' (hfind ▸ hl'), fun hnone => h.missed (hfind ▸ hnone)⟩

theorem MapSearched.head {spec : ℕ → ℕ} {ret : ℤ} {l : MapLine} {lines : List MapLine} {stop : MapStop} {r : MapScan × Bool}
    (h : Found l r) (hl : l.Accepts v (optionalCells v cur rules.mask 0xffffffff) spec) :
    MapSearched v rules cur spec ret (l :: lines, stop) r := by
  have hfind : acceptingLine v rules cur spec (l :: lines) = some l := List.find?_cons_of_pos (by simpa using hl)
  refine ⟨fun l' hl' => ?_, fun hnone => absurd (hfind.symm.trans hnone) (Option.some_ne_none l)⟩
  obtain rfl := Option.some.inj (hfind.symm.trans hl')
  exact h

theorem MapSearched.nil {spec : ℕ → ℕ} {ret : ℤ} {stop : MapStop} {r : MapScan × Bool} (hleft : r.2 = true ∨ r.1.matched = false)
    (hret : r.1.ret = rules.stopError stop ret) : MapSearched v rules cur spec ret ([], stop) r :=
  ⟨fun _ hl => absurd hl (by simp [acceptingLine]), fun _ => ⟨hleft, hret⟩⟩

theorem getD_wordsFrom {pos listEnd i : ℕ} (h : i < listEnd - pos) :
    (wordsFrom map pos listEnd).getD i 0 = cells map (pos + i) := by
  simp [wordsFrom, List.getD_eq_getElem?_getD, h]

/-- A loop with some rounds finds the line that accepts the specifier. -/
theorem scanMap_succ_spec (hprop : v.ofGetProperty cur rules.map = some (map, mapLen)) {ws : List ℕ} {pos listEnd : ℕ}
    (hws : ws = wordsFrom map pos listEnd) (hpos : st.pos = pos) (hleft : st.mapLen = listEnd - pos) (hmatched : st.matched = false) :
    (∀ r ∈ (scanMap v stray rules initial cur listSize matchArray (rounds + 1) st).result,
      MapSearched v rules cur (matchArray.value v stray initial) st.ret (mapLines v rules.size listSize pos ws) r) ∧
    ((mapLines v rules.size listSize pos ws).1.length < rounds + 1 →
      (scanMap v stray rules initial cur listSize matchArray (rounds + 1) st).result ≠ none) := by
  have hlength : ws.length = st.mapLen := by rw [hws, length_wordsFrom, hleft]
  induction pos, ws using mapLines.induct v rules.size listSize generalizing rounds st with
  | case1 pos ws hshort =>
    rw [mapLines_short hshort, scanMap_stop (by omega)]
    refine ⟨fun r hr => ?_, fun _ => by simp⟩
    obtain rfl := Option.some.inj hr
    exact .nil (Or.inr hmatched) rfl
  | case2 pos ws hshort hnone =>
    rw [mapLines_unknown hshort hnone, scanMap_result hprop ⟨by omega, hmatched⟩ rfl]
    rw [hws, getD_wordsFrom (by omega), ← hpos] at hnone
    rw [hnone]
    refine ⟨fun r hr => ?_, fun _ => by simp⟩
    obtain rfl := Option.some.inj hr
    exact .nil (Or.inl rfl) rfl
  | case3 pos ws hshort node hnode ret hret =>
    rw [mapLines_noCells hshort hnode hret, scanMap_result hprop ⟨by omega, hmatched⟩ rfl]
    rw [hws, getD_wordsFrom (by omega), ← hpos] at hnode
    simp only [hnode, hret]
    refine ⟨fun r hr => ?_, fun _ => by simp⟩
    obtain rfl := Option.some.inj hr
    exact .nil (Or.inl rfl) rfl
  | case4 pos ws hshort node hnode newSize hsize hlong =>
    rw [mapLines_tooLong hshort hnode hsize hlong, scanMap_result hprop ⟨by omega, hmatched⟩ rfl]
    rw [hws, getD_wordsFrom (by omega), ← hpos] at hnode
    rw [List.length_drop, hlength] at hlong
    simp only [hnode, hsize, if_pos hlong]
    refine ⟨fun r hr => ?_, fun _ => by simp⟩
    obtain rfl := Option.some.inj hr
    exact .nil (Or.inl rfl) rfl
  | case5 pos ws hshort node hnode newSize hsize hlong ih =>
    rw [mapLines_line hshort hnode hsize hlong, scanMap_result hprop ⟨by omega, hmatched⟩ rfl]
    rw [hws, getD_wordsFrom (by omega), ← hpos] at hnode
    have hlong' := hlong
    rw [List.length_drop, hlength] at hlong'
    simp only [hnode, hsize, if_neg hlong']
    subst hws hpos
    rw [length_wordsFrom] at hlength hshort
    simp only [drop_wordsFrom, length_wordsFrom] at hlong ih ⊢
    have haccepts : MapLine.Accepts v (optionalCells v cur rules.mask 0xffffffff) (matchArray.value v stray initial)
        ⟨(wordsFrom map st.pos listEnd).take listSize, node, st.pos + (listSize + 1),
          (wordsFrom map (st.pos + (listSize + 1)) listEnd).take newSize⟩ ↔
        (sameSpecifier (optionalCells v cur rules.mask 0xffffffff) (matchArray.value v stray initial) map st.pos listSize &&
          v.ofDeviceIsAvailable node) = true := accepts_take (by omega)
    have hnew : ((wordsFrom map (st.pos + (listSize + 1)) listEnd).take newSize).length = newSize := by
      rw [List.length_take, length_wordsFrom]
      omega
    generalize hsame : sameSpecifier _ _ map st.pos listSize = same at haccepts ⊢
    cases rounds with
    | zero =>
      refine ⟨fun r hr => (by cases hr), fun hlt => absurd hlt ?_⟩
      rw [List.length_cons]
      omega
    | succ rounds =>
      by_cases hmatch : (same && v.ofDeviceIsAvailable node) = true
      · -- the next round sees that the line matched
        have hdone : (st.behind v rules same node listSize newSize).matched = true := hmatch
        rw [scanMap_stop (by simp [hdone])]
        refine ⟨fun r hr => ?_, fun _ => by simp⟩
        obtain rfl := Option.some.inj hr
        exact MapSearched.head ⟨rfl, hmatch, rfl, hnew.symm, by simp only [hnew, MapScan.behind]⟩ (haccepts.mpr hmatch)
      · have hgo := @ih rounds (st.behind v rules same node listSize newSize) trivial rfl
          (by simp only [MapScan.behind]; omega) (by simpa [MapScan.behind] using hmatch)
          (by simp only [MapScan.behind]; omega)
        refine ⟨fun r hr => (hgo.1 r hr).cons (mt haccepts.mp hmatch), fun hlt => hgo.2 ?_⟩
        simpa using hlt

/-- The loop over a map finds the line that accepts the specifier. It ends if it has more rounds than
there are lines. -/
theorem scanMap_spec {lines : List MapLine × MapStop} (hlines : nodeLines v rules cur listSize = some lines)
    (hprop : v.ofGetProperty cur rules.map = some (map, mapLen)) (new : Option ℕ) (ret : ℤ) :
    (∀ r ∈ (scanMap v stray rules initial cur listSize matchArray rounds ⟨new, 0, mapLen / 4, false, 0, ret⟩).result,
      MapSearched v rules cur (matchArray.value v stray initial) ret lines r) ∧
    (lines.1.length < rounds →
      ∃ r, (scanMap v stray rules initial cur listSize matchArray rounds ⟨new, 0, mapLen / 4, false, 0, ret⟩).result = some r) := by
  rw [nodeLines, hprop, Option.map_some, Option.some.injEq] at hlines
  subst hlines
  rw [← Option.ne_none_iff_exists']
  cases rounds with
  | zero => exact ⟨fun r hr => (by cases hr), fun hlt => absurd hlt (Nat.not_lt_zero _)⟩
  | succ rounds => exact scanMap_succ_spec hprop rfl rfl rfl rfl

theorem nodeLines_of_property (rules : MapRules) (hprop : v.ofGetProperty cur rules.map = some (map, mapLen)) (listSize : ℕ) :
    ∃ lines, nodeLines v rules cur listSize = some lines := by
  rw [nodeLines, hprop]
  exact ⟨_, rfl⟩

theorem acceptingLine_mem {lines : List MapLine × MapStop} {spec : ℕ → ℕ} {line : MapLine}
    (h : acceptingLine v rules cur spec lines.1 = some line) : line ∈ lines.1 := List.mem_of_find?_eq_some h

end GfpDrivers.Of
