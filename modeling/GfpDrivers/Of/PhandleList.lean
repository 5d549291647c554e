import GfpDrivers.Of.PhandleArgs

/-!
Counting the entries of a list of phandles and reading one of them by its index are compared with
a decoding of the whole list. Both go from entry to entry with the same iterator, and stop at the
first entry that is malformed.

At most `maxPhandleArgs` arguments are handed out, however many an entry has.
-/

namespace GfpDrivers.Of

open Lib Function

/-! ### The entries of a list -/

/-- An entry of a list. The node is that of the phandle. -/
structure ListEntry where
  phandle : ℕ
  node : Option ℕ
  args : List ℕ

/-- The number of arguments behind a phandle, if it is known. -/
def argsNeeded (v : TreeView) (cellsName : Option String) (phandle : ℕ) : Option ℕ :=
  match cellsName with
  | none => some 0
  | some name =>
      (v.ofFindNodeByPhandle phandle).bind fun node =>
        match v.ofPropertyReadU32 node name with
        | .ok count => some count
        | .error _ => none

/-- The entries of a list up to the first one that is malformed, and whether there is one. -/
def listEntries (v : TreeView) (cellsName : Option String) : List ℕ → List ListEntry × Bool
  | [] => ([], false)
  | phandle :: ws =>
      if phandle = 0 then
        let rest := listEntries v cellsName ws
        (⟨0, none, []⟩ :: rest.1, rest.2)
      else
        match argsNeeded v cellsName phandle with
        | none => ([], true)
        | some count =>
            if count > ws.length then ([], true)
            else
              let rest := listEntries v cellsName (ws.drop count)
              (⟨phandle, v.ofFindNodeByPhandle phandle, ws.take count⟩ :: rest.1, rest.2)
termination_by ws => ws.length
decreasing_by
  · simp
  · simp only [List.length_drop, List.length_cons]
    omega

/-- The cells of a list from `pos` on. -/
def wordsFrom (list : Bytes) (pos listEnd : ℕ) : List ℕ := (List.range' pos (listEnd - pos)).map (cells list)

/-- The entries of a property up to the first error, and the error. -/
def referenceList (v : TreeView) (np : ℕ) (listName : String) (cellsName : Option String) :
    List ListEntry × Option ℤ :=
  match v.ofGetProperty np listName with
  | none => ([], some (-ENOENT))
  | some (list, size) =>
      let decoded := listEntries v cellsName (wordsFrom list 0 (size / 4))
      (decoded.1, if decoded.2 then some (-EINVAL) else none)

/-- The entry with its arguments, as far as there is room for them. -/
def ListEntry.fill (e : ListEntry) (out : PhandleArgs) : PhandleArgs where
  np := e.node
  argsCount := min maxPhandleArgs e.args.length
  args := fun j => if j < min maxPhandleArgs e.args.length then e.args.getD j 0 else out.args j

/-- What reading the entry `i` gives. -/
def parsedEntry (reference : List ListEntry × Option ℤ) (i : ℕ) (outArgs : Option PhandleArgs) :
    ℤ × Option PhandleArgs :=
  match reference.1[i]? with
  | some e => if e.phandle = 0 then (-ENOENT, outArgs) else (0, outArgs.map e.fill)
  | none => (reference.2.getD (-ENOENT), outArgs)

/-- The default for the number of arguments: there is one only if no property tells it. -/
def defaultCount : Option String → ℤ
  | none => 0
  | some _ => -1

variable {v : TreeView} {it it' : PhandleIterator} {cellsName : Option String} {list : Bytes}
  {listEnd pos count i fuel : ℕ} {args : ℕ → ℕ} {outArgs : Option PhandleArgs}

theorem wordsFrom_of_lt (h : pos < listEnd) :
    wordsFrom list pos listEnd = cells list pos :: wordsFrom list (pos + 1) listEnd := by
  obtain ⟨n, rfl⟩ := Nat.exists_eq_add_of_lt h
  have hn : pos + n + 1 - pos = n + 1 := by omega
  have hn' : pos + n + 1 - (pos + 1) = n := by omega
  rw [wordsFrom, wordsFrom, hn, hn', List.range'_succ, List.map_cons]

theorem length_wordsFrom : (wordsFrom list pos listEnd).length = listEnd - pos := by simp [wordsFrom]

theorem drop_wordsFrom : (wordsFrom list pos listEnd).drop count = wordsFrom list (pos + count) listEnd := by
  rw [wordsFrom, wordsFrom, ← List.map_drop, List.drop_range', Nat.mul_one, Nat.sub_sub]

theorem getD_take_wordsFrom {j : ℕ} (hj : j < count) (hcount : pos + count ≤ listEnd) :
    ((wordsFrom list pos listEnd).take count).getD j 0 = cells list (pos + j) := by
  have hlt : j < listEnd - pos := by omega
  simp [wordsFrom, List.getD_eq_getElem?_getD, hj, hlt]

/-! ### The iterator -/

/-- The iterator stands before the cell `pos` of a list. -/
structure PhandleIterator.At (it : PhandleIterator) (cellsName : Option String) (list : Bytes) (listEnd pos : ℕ) : Prop where
  name_eq : it.cellsName = cellsName
  count_eq : it.cellCount = defaultCount cellsName
  list_eq : it.list = list
  end_eq : it.listEnd = listEnd
  pos_eq : it.phandleEnd = pos
  cur_ne : it.cur ≠ none

theorem ofNodePut_result (np : Option ℕ) : (ofNodePut np).result = some () := by cases np <;> rfl

theorem ofNodeGet_result (np : Option ℕ) : (ofNodeGet np).result = some () := by cases np <;> rfl

theorem getNodeByPhandle_result (handle : ℕ) :
    (getNodeByPhandle v handle).result = some (v.ofFindNodeByPhandle handle) := by
  simp [getNodeByPhandle, ofNodeGet_result]

/-- What is known about the arguments is what the iterator finds out. -/
theorem argumentCount_eq (hname : it.cellsName = cellsName) (hcount : it.cellCount = defaultCount cellsName)
    {phandle : ℕ} (hnode : it.node = v.ofFindNodeByPhandle phandle) :
    argumentCount v it = argsNeeded v cellsName phandle := by
  unfold argumentCount argsNeeded
  rw [hname, hcount, hnode]
  cases cellsName with
  | none => rfl
  | some name =>
    cases v.ofFindNodeByPhandle phandle with
    | none => rfl
    | some node => cases hread : v.ofPropertyReadU32 node name <;> simp [defaultCount, hread]

theorem next_end (h : it.At cellsName list listEnd pos) (hend : listEnd ≤ pos) :
    (ofPhandleIteratorNext v it).result = some ({ it with node := none }, -ENOENT) := by
  simp [ofPhandleIteratorNext, ofNodePut_result, h.end_eq, h.pos_eq, hend]

theorem next_zero (h : it.At cellsName list listEnd pos) (hlt : pos < listEnd) (hzero : cells list pos = 0) :
    (ofPhandleIteratorNext v it).result =
      some ({ it with node := none, cur := some (pos + 1), phandle := 0, phandleEnd := pos + 1, curCount := 0 }, 0) := by
  simp [ofPhandleIteratorNext, ofNodePut_result, h.end_eq, h.pos_eq, h.list_eq, Nat.not_le.mpr hlt, h.cur_ne, hzero]

/-- The iterator after it has read the phandle of an entry. -/
def PhandleIterator.read (v : TreeView) (it : PhandleIterator) (pos : ℕ) : PhandleIterator :=
  { it with
    node := v.ofFindNodeByPhandle (cells it.list pos)
    cur := some (pos + 1)
    phandle := cells it.list pos
    phandleEnd := pos }

/-- An entry with a phandle, up to the number of its arguments. -/
theorem next_read (h : it.At cellsName list listEnd pos) (hlt : pos < listEnd) (hph : cells list pos ≠ 0) :
    (ofPhandleIteratorNext v it).result =
      some (match argsNeeded v cellsName (cells list pos) with
        | none => ({ it.read v pos with node := none }, -EINVAL)
        | some count =>
          if pos + 1 + count > listEnd then ({ it.read v pos with node := none }, -EINVAL)
          else ({ it.read v pos with phandleEnd := pos + 1 + count, curCount := count }, 0)) := by
  have hcount : argumentCount v (it.read v pos) = argsNeeded v cellsName (cells list pos) :=
    argumentCount_eq (by exact h.name_eq) (by exact h.count_eq) (by rw [PhandleIterator.read, h.list_eq])
  obtain ⟨name, cellCount, list', listEnd', phandleEnd, cur, curCount, phandle, node⟩ := it
  obtain ⟨rfl, -, rfl, rfl, rfl, hcur⟩ := h
  simp only [PhandleIterator.read] at hcount hcur ⊢
  have hnot : ¬ (cur = none ∨ phandleEnd ≥ listEnd') := by simp [hcur, hlt]
  simp only [ofPhandleIteratorNext, Traced.result_bind, ofNodePut_result, Option.bind_some, if_neg hnot, if_neg hph,
    getNodeByPhandle_result, hcount]
  cases argsNeeded v name (cells list' phandleEnd) with
  | none => simp [ofNodePut_result]
  | some count =>
    simp only
    split_ifs <;> simp [ofNodePut_result]

theorem next_malformed (h : it.At cellsName list listEnd pos) (hlt : pos < listEnd) (hph : cells list pos ≠ 0)
    (hbad : ∀ count, argsNeeded v cellsName (cells list pos) = some count → listEnd < pos + 1 + count) :
    ∃ it', (ofPhandleIteratorNext v it).result = some (it', -EINVAL) := by
  rw [next_read h hlt hph]
  cases hneeded : argsNeeded v cellsName (cells list pos) with
  | none => exact ⟨_, rfl⟩
  | some count =>
    have hover : pos + 1 + count > listEnd := hbad count hneeded
    refine ⟨{ it.read v pos with node := none }, ?_⟩
    simp only [if_pos hover]

theorem next_entry (h : it.At cellsName list listEnd pos) (hlt : pos < listEnd) (hph : cells list pos ≠ 0)
    (hneeded : argsNeeded v cellsName (cells list pos) = some count) (hfits : pos + 1 + count ≤ listEnd) :
    (ofPhandleIteratorNext v it).result =
      some ({ it.read v pos with phandleEnd := pos + 1 + count, curCount := count }, 0) := by
  rw [next_read h hlt hph, hneeded]
  simp only [if_neg (Nat.not_lt.mpr hfits)]

/-! ### From entry to entry -/

/-- The states of an iterator at the entries that are left, and how it stops. -/
inductive IteratorRun (v : TreeView) : PhandleIterator → List PhandleIterator → ℤ → Prop
  | stop {it it' : PhandleIterator} {rc : ℤ} :
      (ofPhandleIteratorNext v it).result = some (it', rc) → rc ≠ 0 → IteratorRun v it [] rc
  | step {it it' : PhandleIterator} {its : List PhandleIterator} {rc : ℤ} :
      (ofPhandleIteratorNext v it).result = some (it', 0) → IteratorRun v it' its rc → IteratorRun v it (it' :: its) rc

/-- The iterator has read the entry. -/
structure PhandleIterator.Reads (it : PhandleIterator) (e : ListEntry) : Prop where
  phandle : it.phandle = e.phandle
  node : e.phandle ≠ 0 → it.node = e.node
  count : e.phandle ≠ 0 → it.curCount = e.args.length
  args : e.phandle ≠ 0 → ∀ j < e.args.length, cells it.list (it.cur.getD 0 + j) = e.args.getD j 0

/-- The iterator goes through the entries of the list. -/
theorem iteratorRun {ws : List ℕ} (h : it.At cellsName list listEnd pos) (hws : ws = wordsFrom list pos listEnd) :
    ∃ its, IteratorRun v it its (if (listEntries v cellsName ws).2 then -EINVAL else -ENOENT) ∧
      List.Forall₂ PhandleIterator.Reads its (listEntries v cellsName ws).1 := by
  have hlen : ws.length = listEnd - pos := hws ▸ length_wordsFrom
  induction ws using listEntries.induct v cellsName generalizing it pos with
  | case1 =>
    have hend : listEnd ≤ pos := by
      rw [List.length_nil] at hlen
      omega
    rw [listEntries]
    exact ⟨[], .stop (next_end h hend) (by decide), .nil⟩
  | case2 ws ih =>
    have hlt : pos < listEnd := by
      rw [List.length_cons] at hlen
      omega
    rw [wordsFrom_of_lt hlt] at hws
    obtain ⟨hzero, hws⟩ := List.cons.inj hws
    have hnext := next_zero (v := v) h hlt hzero.symm
    have hat : PhandleIterator.At { it with
        node := none, cur := some (pos + 1), phandle := 0, phandleEnd := pos + 1, curCount := 0 } cellsName list listEnd (pos + 1) :=
      ⟨h.name_eq, h.count_eq, h.list_eq, h.end_eq, rfl, Option.some_ne_none (pos + 1)⟩
    obtain ⟨its, hrun, hreads⟩ := ih hat hws (hws ▸ length_wordsFrom)
    rw [listEntries, if_pos rfl]
    exact ⟨_ :: its, .step hnext hrun, .cons ⟨rfl, by simp, by simp, by simp⟩ hreads⟩
  | case3 phandle ws hph hneeded =>
    have hlt : pos < listEnd := by
      rw [List.length_cons] at hlen
      omega
    rw [wordsFrom_of_lt hlt] at hws
    obtain ⟨rfl, hws⟩ := List.cons.inj hws
    obtain ⟨it', hnext⟩ := next_malformed h hlt hph fun c hc => absurd (hneeded.symm.trans hc) (by simp)
    have hentries : listEntries v cellsName (cells list pos :: ws) = ([], true) := by
      rw [listEntries, if_neg hph, hneeded]
    rw [hentries]
    exact ⟨[], .stop hnext (by decide), .nil⟩
  | case4 phandle ws hph count hneeded hcount =>
    have hlt : pos < listEnd := by
      rw [List.length_cons] at hlen
      omega
    rw [wordsFrom_of_lt hlt] at hws
    obtain ⟨rfl, rfl⟩ := List.cons.inj hws
    rw [length_wordsFrom] at hcount
    obtain ⟨it', hnext⟩ := next_malformed h hlt hph fun c hc => by
      obtain rfl := Option.some.inj (hneeded.symm.trans hc)
      omega
    have hentries : listEntries v cellsName (cells list pos :: wordsFrom list (pos + 1) listEnd) = ([], true) := by
      rw [listEntries, if_neg hph, hneeded]
      simp only [length_wordsFrom, if_pos hcount]
    rw [hentries]
    exact ⟨[], .stop hnext (by decide), .nil⟩
  | case5 phandle ws hph count hneeded hcount ih =>
    have hlt : pos < listEnd := by
      rw [List.length_cons] at hlen
      omega
    rw [wordsFrom_of_lt hlt] at hws
    obtain ⟨rfl, rfl⟩ := List.cons.inj hws
    have hfits : count ≤ listEnd - (pos + 1) := by
      rw [length_wordsFrom] at hcount
      omega
    have hnext := next_entry h hlt hph hneeded (by omega)
    have hat : PhandleIterator.At { it.read v pos with phandleEnd := pos + 1 + count, curCount := count } cellsName list
        listEnd (pos + 1 + count) :=
      ⟨h.name_eq, h.count_eq, h.list_eq, h.end_eq, rfl, Option.some_ne_none (pos + 1)⟩
    obtain ⟨its, hrun, hreads⟩ := ih hat drop_wordsFrom (by rw [drop_wordsFrom, length_wordsFrom])
    rw [listEntries, if_neg hph, hneeded]
    simp only [if_neg hcount]
    have hargs : ((wordsFrom list (pos + 1) listEnd).take count).length = count := by
      rw [List.length_take, length_wordsFrom]
      omega
    refine ⟨_ :: its, .step hnext hrun, .cons ⟨?_, ?_, ?_, ?_⟩ hreads⟩
    · exact congrArg (fun list => cells list pos) h.list_eq
    · exact fun _ => congrArg (fun list => v.ofFindNodeByPhandle (cells list pos)) h.list_eq
    · exact fun _ => hargs.symm
    · intro _ j hj
      rw [hargs] at hj
      rw [getD_take_wordsFrom hj (by omega)]
      exact congrArg (fun list => cells list (pos + 1 + j)) h.list_eq

/-! ### The two loops -/

variable {its : List PhandleIterator} {rounds : ℕ} {rc curIndex : ℤ}

/-- The loop counts the entries that are left, unless the iterator stops at an error. -/
theorem IteratorRun.countLoop (h : IteratorRun v it its rc) (hrounds : its.length < rounds) :
    (countLoop v rounds it curIndex).result = some (if rc = -ENOENT then curIndex + its.length else rc) := by
  induction h generalizing rounds curIndex with
  | @stop it it' rc hnext hrc =>
    obtain ⟨rounds, rfl⟩ := Nat.exists_eq_add_of_le' (Nat.one_le_of_lt hrounds)
    simp only [Of.countLoop, Traced.result_bind, hnext, Option.bind_some, if_neg hrc]
    by_cases heq : rc = -ENOENT
    · simp [heq]
    · simp [heq]
  | @step it it' its rc hnext _ ih =>
    obtain ⟨rounds, rfl⟩ := Nat.exists_eq_add_of_le' (Nat.one_le_of_lt hrounds)
    rw [List.length_cons] at hrounds
    simp only [Of.countLoop, Traced.result_bind, hnext, Option.bind_some, if_true]
    rw [ih (by omega), List.length_cons]
    push_cast
    rw [add_right_comm, add_assoc]

/-- Writing the place `i` and then the places behind it is writing all of them. -/
theorem update_overwrite (f args : ℕ → ℕ) (i count : ℕ) :
    (fun j => if i + 1 ≤ j ∧ j < i + 1 + count then f j else update args i (f i) j) =
      fun j => if i ≤ j ∧ j < i + (count + 1) then f j else args j := by
  funext j
  rcases Nat.lt_trichotomy j i with hlt | rfl | hgt
  · rw [if_neg (by omega), if_neg (by omega), update_of_ne (by omega)]
  · rw [if_neg (by omega), if_pos (by omega), update_self]
  · by_cases hj : j < i + (count + 1)
    · rw [if_pos (by omega), if_pos (by omega)]
    · rw [if_neg (by omega), if_neg (by omega), update_of_ne (by omega)]

theorem copyArgs_result (it : PhandleIterator) (cur count i : ℕ) (args : ℕ → ℕ) :
    (copyArgs it cur args count i).result =
      some fun j => if i ≤ j ∧ j < i + count then cells it.list (cur + j) else args j := by
  induction count generalizing args i with
  | zero =>
    rw [copyArgs, Traced.result_pure]
    congr 1
    funext j
    rw [if_neg (by omega)]
  | succ count ih =>
    rw [copyArgs, Traced.result_bind, Traced.result_emit, Option.bind_some, ih]
    exact congrArg some (update_overwrite (fun j => cells it.list (cur + j)) args i count)

/-- The arguments of the entry that the iterator has read. -/
theorem ofPhandleIteratorArgs_result {e : ListEntry} (h : it.Reads e) (hph : e.phandle ≠ 0) (args : ℕ → ℕ) :
    (ofPhandleIteratorArgs it args maxPhandleArgs).result =
      some (fun j => if j < min maxPhandleArgs e.args.length then e.args.getD j 0 else args j,
        min maxPhandleArgs e.args.length) := by
  have hcount : (if maxPhandleArgs < it.curCount then maxPhandleArgs else it.curCount) =
      min maxPhandleArgs e.args.length := by
    rw [h.count hph]
    split_ifs <;> omega
  simp only [ofPhandleIteratorArgs, hcount, Traced.result_bind, copyArgs_result, Option.bind_some, Traced.result_pure]
  congr 2
  funext j
  by_cases hj : j < min maxPhandleArgs e.args.length
  · rw [if_pos ⟨Nat.zero_le j, by omega⟩, if_pos hj]
    exact h.args hph j (by omega)
  · rw [if_neg (by omega), if_neg hj]

/-- The loop finds the entry with the index, or what the iterator stops at. -/
theorem IteratorRun.parseLoop {es : List ListEntry} {k : ℕ} (h : IteratorRun v it its rc)
    (hreads : List.Forall₂ PhandleIterator.Reads its es) (hrounds : its.length < rounds) :
    (parseLoop v (curIndex + k) outArgs rounds it curIndex).result = some (parsedEntry (es, some rc) k outArgs) := by
  induction h generalizing rounds curIndex k es with
  | @stop it it' rc hnext hrc =>
    obtain ⟨rounds, rfl⟩ := Nat.exists_eq_add_of_le' (Nat.one_le_of_lt hrounds)
    cases hreads
    simp [Of.parseLoop, hnext, hrc, ofNodePut_result, parsedEntry]
  | @step it it' its rc hnext _ ih =>
    obtain ⟨rounds, rfl⟩ := Nat.exists_eq_add_of_le' (Nat.one_le_of_lt hrounds)
    rw [List.length_cons] at hrounds
    cases hreads with
    | @cons _ e _ es hread hreads =>
      rw [Of.parseLoop, Traced.result_bind, hnext]
      simp only [Option.bind_some, ne_eq, not_true_eq_false, if_false]
      cases k with
      | zero =>
        rw [if_pos (by simp), hread.phandle, parsedEntry]
        simp only [List.getElem?_cons_zero]
        by_cases hph : e.phandle = 0
        · simp [hph, ofNodePut_result]
        · rw [if_neg hph, if_neg hph]
          cases outArgs with
          | none => simp [ofNodePut_result]
          | some out => simp [ofPhandleIteratorArgs_result hread hph, ListEntry.fill, hread.node hph]
      | succ k =>
        have hindex : curIndex + ((k + 1 : ℕ) : ℤ) = curIndex + 1 + k := by
          push_cast
          omega
        rw [if_neg (by omega), hindex, ih hreads (by omega)]
        rfl

/-! ### The two functions -/

/-- An iterator that was given a list stands before its first cell. -/
theorem ofPhandleIteratorInit_at {np size : ℕ} {listName : String} (cellsName : Option String)
    (hlist : v.ofGetProperty np listName = some (list, size)) :
    (ofPhandleIteratorInit v np listName cellsName (defaultCount cellsName)).1.At cellsName list (size / 4) 0 ∧
      (ofPhandleIteratorInit v np listName cellsName (defaultCount cellsName)).2 = 0 := by
  have hgiven : ¬ (defaultCount cellsName < 0 ∧ cellsName = none) := by
    cases cellsName <;> simp [defaultCount]
  rw [ofPhandleIteratorInit, if_neg hgiven, hlist]
  exact ⟨⟨rfl, rfl, rfl, rfl, rfl, Option.some_ne_none 0⟩, rfl⟩

theorem listEntries_none (ws : List ℕ) :
    (listEntries v none ws).2 = false ∧ (listEntries v none ws).1.length = ws.length := by
  induction ws with
  | nil => simp [listEntries]
  | cons phandle ws ih =>
    rw [listEntries]
    by_cases hph : phandle = 0
    · simp [hph, ih]
    · simp [hph, argsNeeded, ih]

/-- The entries of a list, as the iterator goes through them. -/
theorem exists_iteratorRun (v : TreeView) (np : ℕ) (listName : String) (cellsName : Option String) :
    ∃ its rc, IteratorRun v (ofPhandleIteratorInit v np listName cellsName (defaultCount cellsName)).1 its rc ∧
      List.Forall₂ PhandleIterator.Reads its (referenceList v np listName cellsName).1 ∧
      rc = (referenceList v np listName cellsName).2.getD (-ENOENT) := by
  unfold referenceList
  cases hlist : v.ofGetProperty np listName with
  | none =>
    refine ⟨[], -ENOENT, ?_, .nil, rfl⟩
    have hgiven : ¬ (defaultCount cellsName < 0 ∧ cellsName = none) := by
      cases cellsName <;> simp [defaultCount]
    rw [ofPhandleIteratorInit, if_neg hgiven, hlist]
    exact .stop rfl (by decide)
  | some p =>
    obtain ⟨list, size⟩ := p
    obtain ⟨its, hrun, hreads⟩ := iteratorRun (v := v) (ofPhandleIteratorInit_at cellsName hlist).1 rfl
    refine ⟨its, _, hrun, hreads, ?_⟩
    simp only
    split_ifs <;> rfl

/-- Reading the entry `i` gives what the decoding of the list says. -/
theorem ofParsePhandleWithArgs_eq (v : TreeView) (np : ℕ) (listName : String) (cellsName : Option String)
    (outArgs : Option PhandleArgs) (i : ℕ) :
    Returns (fun fuel => (ofParsePhandleWithArgs fuel v np listName cellsName (defaultCount cellsName) i outArgs).result)
      (parsedEntry (referenceList v np listName cellsName) i outArgs) := by
  obtain ⟨its, rc, hrun, hreads, hrc⟩ := exists_iteratorRun v np listName cellsName
  refine ⟨its.length + 1, fun fuel hfuel => ?_⟩
  have hparse : (parseLoop v (0 + i) outArgs fuel _ 0).result = _ := hrun.parseLoop hreads (Nat.lt_of_succ_le hfuel)
  rw [Int.zero_add] at hparse
  simp only [ofParsePhandleWithArgs, if_neg (not_lt.mpr (Int.natCast_nonneg i))]
  rw [hparse, parsedEntry, parsedEntry, hrc]
  rfl

theorem parseLoop_mono {rounds' : ℕ} {index : ℤ} {r : ℤ × Option PhandleArgs} (hle : rounds ≤ rounds')
    (h : (parseLoop v index outArgs rounds it curIndex).result = some r) :
    (parseLoop v index outArgs rounds' it curIndex).result = some r := by
  induction rounds generalizing it curIndex rounds' with
  | zero => cases h
  | succ rounds ih =>
    obtain ⟨rounds', rfl⟩ := Nat.exists_eq_add_of_le' (Nat.one_le_of_lt hle)
    rw [parseLoop, Traced.result_bind] at h ⊢
    obtain ⟨⟨it', rc⟩, hnext, h⟩ := Option.bind_eq_some_iff.mp h
    rw [hnext, Option.bind_some]
    simp only at h ⊢
    split_ifs at h ⊢
    · exact h
    · exact h
    · exact h
    · exact ih (Nat.le_of_succ_le_succ hle) h

/-- The result of reading an entry does not depend on the rounds. -/
theorem ofParsePhandleWithArgs_result {np : ℕ} {listName : String} {r : ℤ × Option PhandleArgs}
    (h : (ofParsePhandleWithArgs fuel v np listName cellsName (defaultCount cellsName) i outArgs).result = some r) :
    r = parsedEntry (referenceList v np listName cellsName) i outArgs := by
  obtain ⟨k, hk⟩ := ofParsePhandleWithArgs_eq v np listName cellsName outArgs i
  have hmore := hk (max k fuel) (le_max_left k fuel)
  simp only [ofParsePhandleWithArgs, if_neg (not_lt.mpr (Int.natCast_nonneg i))] at h hmore
  exact Option.some.inj ((parseLoop_mono (le_max_right k fuel) h).symm.trans hmore)

/-- The same for a list whose nodes tell the number of arguments. -/
theorem ofParsePhandleWithArgs_named {np : ℕ} {listName name : String} {r : ℤ × Option PhandleArgs}
    (h : (ofParsePhandleWithArgs fuel v np listName (some name) (-1) i outArgs).result = some r) :
    r = parsedEntry (referenceList v np listName (some name)) i outArgs := ofParsePhandleWithArgs_result h

theorem argsNeeded_some {name : String} {phandle count : ℕ} (h : argsNeeded v (some name) phandle = some count) :
    ∃ c, v.ofFindNodeByPhandle phandle = some c ∧ v.ofPropertyReadU32 c name = .ok count := by
  obtain ⟨c, hc, hread⟩ := Option.bind_eq_some_iff.mp h
  cases hsize : v.ofPropertyReadU32 c name with
  | error e => simp [hsize] at hread
  | ok size =>
    simp only [hsize, Option.some.injEq] at hread
    exact ⟨c, hc, hread ▸ hsize⟩

/-- The arguments of an entry are as many as its node asks for. -/
theorem listEntries_node {name : String} (ws : List ℕ) : ∀ e ∈ (listEntries v (some name) ws).1, e.phandle ≠ 0 →
    ∃ c, e.node = some c ∧ v.ofFindNodeByPhandle e.phandle = some c ∧ v.ofPropertyReadU32 c name = .ok e.args.length := by
  induction ws using listEntries.induct v (some name) with
  | case1 => simp [listEntries]
  | case2 ws ih =>
    rw [listEntries, if_pos rfl]
    exact List.forall_mem_cons.mpr ⟨fun h => absurd rfl h, ih⟩
  | case3 phandle ws hph hneeded =>
    rw [listEntries, if_neg hph, hneeded]
    simp
  | case4 phandle ws hph count hneeded hcount =>
    rw [listEntries, if_neg hph, hneeded]
    simp [hcount]
  | case5 phandle ws hph count hneeded hcount ih =>
    rw [listEntries, if_neg hph, hneeded]
    simp only [if_neg hcount]
    refine List.forall_mem_cons.mpr ⟨fun _ => ?_, ih⟩
    obtain ⟨c, hc, hread⟩ := argsNeeded_some hneeded
    refine ⟨c, hc, hc, ?_⟩
    rw [hread, List.length_take, Nat.min_eq_left (by omega)]

theorem referenceList_node {np : ℕ} {listName name : String} : ∀ e ∈ (referenceList v np listName (some name)).1, e.phandle ≠ 0 →
    ∃ c, e.node = some c ∧ v.ofFindNodeByPhandle e.phandle = some c ∧ v.ofPropertyReadU32 c name = .ok e.args.length := by
  unfold referenceList
  cases v.ofGetProperty np listName with
  | none => simp
  | some p => exact listEntries_node _

theorem ofCountPhandleWithArgs_eq (v : TreeView) (np : ℕ) (listName : String) (cellsName : Option String) :
    Returns (fun fuel => (ofCountPhandleWithArgs fuel v np listName cellsName).result)
      ((referenceList v np listName cellsName).2.getD (referenceList v np listName cellsName).1.length) := by
  cases cellsName with
  | none =>
    refine ⟨0, fun fuel _ => ?_⟩
    unfold ofCountPhandleWithArgs referenceList
    cases hlist : v.ofGetProperty np listName with
    | none => rfl
    | some p =>
      obtain ⟨list, size⟩ := p
      obtain ⟨hfine, hlength⟩ := listEntries_none (v := v) (wordsFrom list 0 (size / 4))
      simp [hfine, hlength, length_wordsFrom]
  | some name =>
    obtain ⟨its, rc, hrun, hreads, hrc⟩ := exists_iteratorRun v np listName (some name)
    refine ⟨its.length + 1, fun fuel hfuel => ?_⟩
    have hcount : (countLoop v fuel _ 0).result = _ := hrun.countLoop (Nat.lt_of_succ_le hfuel)
    have hgiven : ¬ ((-1 : ℤ) < 0 ∧ some name = none) := by simp
    rw [Int.zero_add, hreads.length_eq, hrc] at hcount
    simp only [ofCountPhandleWithArgs]
    cases hlist : v.ofGetProperty np listName with
    | none => simp [ofPhandleIteratorInit, hlist, referenceList, ENOENT]
    | some p =>
      obtain ⟨list, size⟩ := p
      have hinit : (ofPhandleIteratorInit v np listName (some name) (-1)).2 = 0 := (ofPhandleIteratorInit_at (some name) hlist).2
      rw [if_neg (not_not.mpr hinit)]
      refine hcount.trans ?_
      simp only [referenceList, hlist]
      split_ifs with hmalformed heq
      · exact absurd heq (by decide)
      · rfl
      · rfl
      · rename_i hne
        exact absurd rfl hne

theorem referenceList_error (v : TreeView) (np : ℕ) (listName : String) (cellsName : Option String) :
    ∀ e ∈ (referenceList v np listName cellsName).2, e < 0 := by
  unfold referenceList
  cases v.ofGetProperty np listName with
  | none =>
    intro e he
    exact Option.some.inj he ▸ by decide
  | some p =>
    obtain ⟨list, size⟩ := p
    intro e he
    simp only at he
    split_ifs at he
    · exact Option.some.inj he ▸ by decide
    · exact absurd he (by simp)

/-- Counting a list and reading its entries agree. If the count is not an error, it is the number of
the entries of the list; an error is that of the first entry that is malformed, or that there is no
list. Each index gives the entry of that index, with the first `maxPhandleArgs` of its arguments, if
it has a phandle, and `-ENOENT` if it has none; an index behind the entries gives the error, or `-ENOENT`. -/
theorem parse_agrees_with_count (v : TreeView) (np : ℕ) (listName : String) (cellsName : Option String)
    (outArgs : Option PhandleArgs) :
    ∃ rc : ℤ, Returns (fun fuel => (ofCountPhandleWithArgs fuel v np listName cellsName).result) rc ∧
      (0 ≤ rc → rc = (referenceList v np listName cellsName).1.length ∧ (referenceList v np listName cellsName).2 = none) ∧
      (rc < 0 → (referenceList v np listName cellsName).2 = some rc) ∧
      ∀ i : ℕ, Returns (fun fuel =>
          (ofParsePhandleWithArgs fuel v np listName cellsName (defaultCount cellsName) i outArgs).result)
        (match (referenceList v np listName cellsName).1[i]? with
          | some e => if e.phandle = 0 then (-ENOENT, outArgs) else (0, outArgs.map e.fill)
          | none => (if 0 ≤ rc then -ENOENT else rc, outArgs)) := by
  refine ⟨_, ofCountPhandleWithArgs_eq v np listName cellsName, ?_⟩
  have hparse := ofParsePhandleWithArgs_eq v np listName cellsName outArgs
  have herror := referenceList_error v np listName cellsName
  simp only [parsedEntry] at hparse
  generalize referenceList v np listName cellsName = reference at hparse herror ⊢
  obtain ⟨es, error⟩ := reference
  cases error with
  | none =>
    refine ⟨fun _ => ⟨rfl, rfl⟩, fun hneg => absurd hneg (not_lt.mpr (Int.natCast_nonneg _)), fun i => ?_⟩
    have hcount : (0 : ℤ) ≤ es.length := Int.natCast_nonneg _
    simpa [hcount] using hparse i
  | some e =>
    have hneg := herror e rfl
    refine ⟨fun hpos => absurd hpos (not_le.mpr hneg), fun _ => rfl, fun i => ?_⟩
    simpa [not_le.mpr hneg] using hparse i

theorem longEntry_find_zero : (if 0 = 1 then some 1 else none : Option ℕ) = none := rfl

/-- The node 0 has a list with one entry, and the node 1 asks for 17 arguments. -/
def longEntry : TreeView where
  ofGetProperty np name :=
    if np = 0 ∧ name = "list" then some (cellBytes (1 :: List.range 17), 72)
    else if np = 1 ∧ name = "#list-cells" then some (cellBytes [17], 4)
    else none
  fullName _ := ""
  ofGetParent _ := none
  ofFindNodeByPhandle handle := if handle = 1 then some 1 else none
  find_zero := longEntry_find_zero

theorem longEntry_reference : referenceList longEntry 0 "list" (some "#list-cells") = ([⟨1, some 1, List.range 17⟩], none) := by
  have hwords : wordsFrom (cellBytes (1 :: List.range 17)) 0 18 = 1 :: List.range 17 := by decide
  have hneeded : argsNeeded longEntry (some "#list-cells") 1 = some 17 := by decide
  have hentries : listEntries longEntry (some "#list-cells") (1 :: List.range 17) = ([⟨1, some 1, List.range 17⟩], false) := by
    rw [listEntries, hneeded]
    have hdrop : (List.range 17).drop 17 = [] := rfl
    simp only [hdrop, listEntries]
    rfl
  have hlist : longEntry.ofGetProperty 0 "list" = some (cellBytes (1 :: List.range 17), 72) := rfl
  simp only [referenceList, hlist]
  rw [hwords, hentries]
  rfl

/-- Not all arguments of a long entry are handed out. -/
theorem parse_cuts_long_entry :
    (referenceList longEntry 0 "list" (some "#list-cells")).1.map (fun e => e.args.length) = [17] ∧
    Returns (fun fuel => (ofParsePhandleWithArgs fuel longEntry 0 "list" (some "#list-cells") (-1) (0 : ℕ)
      (some ⟨none, 0, fun _ => 0⟩)).result.map fun r => r.2.map fun out => out.argsCount) (some 16) := by
  refine ⟨by rw [longEntry_reference]; rfl, ?_⟩
  obtain ⟨k, hk⟩ := ofParsePhandleWithArgs_eq longEntry 0 "list" (some "#list-cells") (some ⟨none, 0, fun _ => 0⟩) 0
  refine ⟨k, fun fuel hfuel => ?_⟩
  have hrun : (ofParsePhandleWithArgs fuel longEntry 0 "list" (some "#list-cells") (-1) (0 : ℕ)
    (some ⟨none, 0, fun _ => 0⟩)).result = _ := hk fuel hfuel
  simp only [hrun, longEntry_reference]
  rfl

end GfpDrivers.Of
