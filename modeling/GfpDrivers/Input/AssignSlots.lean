import GfpDrivers.Basic
import Mathlib.Data.List.Nodup
import Mathlib.Data.List.Perm.Basic

/-!
Tracking of touch contacts (`input-mt.c`). `input_mt_assign_slots` compares the positions that are touched now
with those of the active slots. The matrix of squared distances is reduced some number of times, and a negative
entry says that a slot claims a position. Positions that nobody claims get inactive slots.
-/

namespace GfpDrivers.Input

open List

/-- A value of type `int`. -/
def int (x : ℤ) : ℤ := x.bmod (2 ^ 32)

/-- The axes of `struct input_mt_slot` that are read. -/
structure MtSlot where
  trackingId : ℤ
  positionX : ℤ
  positionY : ℤ

/-- `input_mt_is_active` -/
def MtSlot.isActive (s : MtSlot) : Bool := 0 ≤ s.trackingId

/-- `struct input_mt_pos` -/
structure MtPos where
  x : ℤ
  y : ℤ

/-- `struct input_mt`, with the matrix in `red` if there is one. -/
structure InputMt where
  red : Option (ℕ → ℤ)
  slots : List MtSlot

/-! ### The reduced matrix -/

/-- The loop of `adjust_dual` that looks for the two least values. -/
def leastTwo (red : ℕ → ℤ) (step : ℕ) : ℕ → ℕ → ℤ → ℤ → ℤ × ℤ
  | 0, _, f, s => (f, s)
  | n + 1, p, f, s =>
      if red p < f then leastTwo red step n (p + step) (red p) f
      else if red p < s then leastTwo red step n (p + step) f (red p)
      else leastTwo red step n (p + step) f s

/-- `for (p = begin; p != end; p += step) *p -= c;` -/
def subtract (step : ℕ) (c : ℤ) : ℕ → ℕ → (ℕ → ℤ) → (ℕ → ℤ)
  | 0, _, red => red
  | n + 1, p, red => subtract step c n (p + step) (Function.update red p (int (red p - c)))

/-- `adjust_dual`, where `end` is `begin + count * step`. -/
def adjustDual (red : ℕ → ℤ) (start step count : ℕ) (eq : Bool) (mu : ℤ) : (ℕ → ℤ) × ℤ :=
  if count = 0 then (red, 0)
  else
    let f := red start
    let s := if count = 1 then int (f + 1) else red (start + step)
    let (f, s) := leastTwo red step (count - 1) (start + step) f s
    let c := (int (int (f + s) + 1)).tdiv 2
    if c = 0 ∨ (c > mu ∧ (!eq ∨ mu > 0)) then (red, 0)
    else
      let c := if s < 0 ∧ mu ≤ 0 then int (c * 2) else c
      (subtract step c count start red, if (c < s ∧ s ≤ 0) ∨ (f ≥ 0 ∧ f < c) then 1 else 0)

/-- Rows or columns are adjusted one after the other, and the results are added. -/
def adjustEach (step count : ℕ) (eq : Bool) (mu : ℤ) : List ℕ → (ℕ → ℤ) → (ℕ → ℤ) × ℤ
  | [], red => (red, 0)
  | start :: rest, red =>
      let (red, changed) := adjustDual red start step count eq mu
      let (red, sum) := adjustEach step count eq mu rest red
      (red, changed + sum)

/-- `find_reduced_matrix`, where `nrc` is `nr * nc`. -/
def findReducedMatrix (nr nc : ℕ) (mu : ℤ) : ℕ → (ℕ → ℤ) → (ℕ → ℤ)
  | 0, red => red
  | k + 1, red =>
      let (red, _) := adjustEach nr nc (nr ≤ nc) mu (List.range nr) red
      let (red, sum) := adjustEach 1 nr (nc ≤ nr) mu ((List.range nc).map (· * nr)) red
      if sum = 0 then red else findReducedMatrix nr nc mu k red

/-- An entry of the matrix. -/
def distance (mu : ℤ) (s : MtSlot) (p : MtPos) : ℤ :=
  let dx := int (s.positionX - p.x)
  let dy := int (s.positionY - p.y)
  int (int (int (dx * dx) + int (dy * dy)) - mu)

/-- The entries that `input_mt_set_matrix` writes: a row for each active slot. -/
def entries (mu : ℤ) (slots : List MtSlot) (pos : List MtPos) : List ℤ :=
  (slots.filter MtSlot.isActive).flatMap fun s => pos.map (distance mu s)

/-- `*w++ = ...` -/
def writeFrom : ℕ → List ℤ → (ℕ → ℤ) → (ℕ → ℤ)
  | _, [], red => red
  | w, v :: rest, red => writeFrom (w + 1) rest (Function.update red w v)

/-! ### The slots -/

/-- The first one of `n` positions from `j` on that passes the test gets the value `v`. -/
def setFirst (test : ℕ → Bool) (v : ℤ) (slots : ℕ → ℤ) : ℕ → ℕ → (ℕ → ℤ)
  | 0, _ => slots
  | n + 1, j => if test j then Function.update slots j v else setFirst test v slots n (j + 1)

/-- The loop of `input_mt_set_slots` over active slots, which come with their indexes. -/
def setActive (red : ℕ → ℤ) (numPos : ℕ) : ℕ → List (MtSlot × ℕ) → (ℕ → ℤ) → (ℕ → ℤ)
  | _, [], slots => slots
  | w, (s, i) :: rest, slots =>
      if s.isActive then setActive red numPos (w + numPos) rest (setFirst (fun j => red (w + j) < 0) i slots numPos 0)
      else setActive red numPos w rest slots

/-- The loop over inactive slots. -/
def setInactive (numPos : ℕ) : List (MtSlot × ℕ) → (ℕ → ℤ) → (ℕ → ℤ)
  | [], slots => slots
  | (s, i) :: rest, slots =>
      if s.isActive then setInactive numPos rest slots
      else setInactive numPos rest (setFirst (fun j => slots j < 0) i slots numPos 0)

/-- `for (j = 0; j != num_pos; j++) slots[j] = -1;` -/
def clearSlots (numPos : ℕ) (slots : ℕ → ℤ) : ℕ → ℤ := fun j => if j < numPos then -1 else slots j

/-- `input_mt_set_slots` -/
def inputMtSetSlots (red : ℕ → ℤ) (mtSlots : List MtSlot) (slots : ℕ → ℤ) (numPos : ℕ) : ℕ → ℤ :=
  setInactive numPos mtSlots.zipIdx (setActive red numPos 0 mtSlots.zipIdx (clearSlots numPos slots))

structure AssignResult where
  mt : Option InputMt
  slots : ℕ → ℤ
  ret : ℤ

/-- The part of `input_mt_assign_slots` behind the checks. -/
def assignMatched (mt : InputMt) (red : ℕ → ℤ) (slots : ℕ → ℤ) (pos : List MtPos) (mu : ℤ) : AssignResult :=
  let w := entries mu mt.slots pos
  let red := findReducedMatrix pos.length (w.length / pos.length) mu w.length (writeFrom 0 w red)
  { mt := some { mt with red := some red }, slots := inputMtSetSlots red mt.slots slots pos.length, ret := 0 }

/-- `input_mt_assign_slots` -/
def inputMtAssignSlots (mt : Option InputMt) (slots : ℕ → ℤ) (pos : List MtPos) (dmax : ℤ) : AssignResult :=
  let mu := int (int (2 * dmax) * dmax)
  match mt with
  | none => ⟨mt, slots, - ENXIO⟩
  | some m =>
    match m.red with
    | none => ⟨mt, slots, - ENXIO⟩
    | some red =>
      if pos.length > m.slots.length then ⟨mt, slots, -EINVAL⟩
      else if pos.length < 1 then ⟨mt, slots, 0⟩
      else assignMatched m red slots pos mu

/-! ### What the loops keep -/

variable {test : ℕ → Bool} {v x : ℤ} {slots : ℕ → ℤ} {n j w : ℕ} {red : ℕ → ℤ} {given : List ℕ}

/-- One position is set at most, and that it is not says that no position passes the test. -/
theorem setFirst_cases (test : ℕ → Bool) (v : ℤ) (slots : ℕ → ℤ) (n j : ℕ) :
    (setFirst test v slots n j = slots ∧ ∀ i, j ≤ i → i < j + n → test i = false) ∨
      ∃ i, j ≤ i ∧ i < j + n ∧ test i = true ∧ setFirst test v slots n j = Function.update slots i v := by
  induction n generalizing j with
  | zero => exact .inl ⟨rfl, fun i hlo hhi => by omega⟩
  | succ n ih =>
    rw [setFirst]
    by_cases htest : test j = true
    · rw [if_pos htest]
      exact .inr ⟨j, le_rfl, by omega, htest, rfl⟩
    rw [if_neg htest]
    rcases ih (j + 1) with ⟨hsame, hnone⟩ | ⟨i, hlo, hhi, hi, hset⟩
    · refine .inl ⟨hsame, fun i hlo hhi => ?_⟩
      rcases Nat.eq_or_lt_of_le hlo with rfl | hlt
      · exact Bool.not_eq_true _ ▸ htest
      · exact hnone i hlt (by omega)
    · exact .inr ⟨i, by omega, by omega, hi, hset⟩

/-- The first `n` positions have slots among those that have been given out, and no two have the same. -/
structure Distinct (n : ℕ) (given : List ℕ) (slots : ℕ → ℤ) : Prop where
  mem : ∀ j < n, slots j = -1 ∨ ∃ i ∈ given, slots j = i
  inj : ∀ i < n, ∀ j < n, slots i = slots j → slots i ≠ -1 → i = j

theorem Distinct.update {i : ℕ} (h : Distinct n given slots) (hi : i ∉ given) (j : ℕ) :
    Distinct n (i :: given) (Function.update slots j i) := by
  have hfresh : ∀ k < n, slots k ≠ i := fun k hk heq => by
    rcases h.mem k hk with hnone | ⟨i', hi', heq'⟩
    · omega
    · obtain rfl : i = i' := Int.natCast_inj.mp (heq.symm.trans heq')
      exact hi hi'
  refine ⟨fun k hk => ?_, fun k hk l hl heq hne => ?_⟩
  · by_cases hkj : k = j
    · subst hkj
      exact .inr ⟨i, mem_cons_self, Function.update_self ..⟩
    · rw [Function.update_of_ne hkj]
      exact (h.mem k hk).imp_right fun ⟨i', hi', h'⟩ => ⟨i', mem_cons_of_mem _ hi', h'⟩
  · by_cases hkj : k = j <;> by_cases hlj : l = j
    · rw [hkj, hlj]
    · subst hkj
      rw [Function.update_self, Function.update_of_ne hlj] at heq
      exact absurd heq.symm (hfresh l hl)
    · subst hlj
      rw [Function.update_self, Function.update_of_ne hkj] at heq
      exact absurd heq (hfresh k hk)
    · rw [Function.update_of_ne hkj, Function.update_of_ne hlj] at heq
      rw [Function.update_of_ne hkj] at hne
      exact h.inj k hk l hl heq hne

theorem Distinct.mono {given' : List ℕ} (h : Distinct n given slots) (hsub : ∀ i ∈ given, i ∈ given') :
    Distinct n given' slots :=
  ⟨fun k hk => (h.mem k hk).imp_right fun ⟨i, hi, heq⟩ => ⟨i, hsub i hi, heq⟩, h.inj⟩

theorem Distinct.cons {i : ℕ} (h : Distinct n given slots) : Distinct n (i :: given) slots :=
  h.mono fun _ => mem_cons_of_mem _

/-- A slot that has not been given out is given to one position at most. -/
theorem Distinct.setFirst {i : ℕ} (h : Distinct n given slots) (hi : i ∉ given) (test : ℕ → Bool) (m : ℕ) :
    Distinct n (i :: given) (setFirst test i slots m 0) := by
  rcases setFirst_cases test i slots m 0 with ⟨hsame, -⟩ | ⟨k, -, -, -, hset⟩
  · rw [hsame]
    exact h.cons
  · rw [hset]
    exact h.update hi k

/-- The indexes of the slots that are active, or of those that are not. -/
def indexes (active : Bool) (l : List (MtSlot × ℕ)) : List ℕ := (l.filter (·.1.isActive = active)).map Prod.snd

variable {s : MtSlot} {i : ℕ} {l : List (MtSlot × ℕ)} {active : Bool} {mtSlots : List MtSlot} {pos : List MtPos}

theorem indexes_cons_of_eq (h : s.isActive = active) : indexes active ((s, i) :: l) = i :: indexes active l := by
  rw [indexes, filter_cons_of_pos (by simpa using h), map_cons, indexes]

theorem indexes_cons_of_ne (h : s.isActive ≠ active) : indexes active ((s, i) :: l) = indexes active l := by
  rw [indexes, filter_cons_of_neg (by simpa using h), indexes]

theorem setActive_distinct (h : Distinct n given slots) (hnodup : (indexes true l).Nodup)
    (hnew : ∀ i ∈ indexes true l, i ∉ given) :
    Distinct n ((indexes true l).reverse ++ given) (setActive red n w l slots) := by
  induction l generalizing given slots w with
  | nil => exact h
  | cons p l ih =>
    obtain ⟨s, i⟩ := p
    rw [setActive]
    by_cases hs : s.isActive = true
    · rw [indexes_cons_of_eq hs] at hnodup hnew ⊢
      obtain ⟨hi, hnew⟩ := forall_mem_cons.mp hnew
      obtain ⟨hil, hnodup⟩ := nodup_cons.mp hnodup
      rw [if_pos hs, reverse_cons, append_assoc, singleton_append]
      refine ih (h.setFirst hi _ n) hnodup fun k hk hmem => ?_
      rcases mem_cons.mp hmem with rfl | hmem
      · exact hil hk
      · exact hnew k hk hmem
    · rw [indexes_cons_of_ne hs] at hnodup hnew ⊢
      rw [if_neg hs]
      exact ih h hnodup hnew

theorem setInactive_distinct (h : Distinct n given slots) (hnodup : (indexes false l).Nodup)
    (hnew : ∀ i ∈ indexes false l, i ∉ given) :
    Distinct n ((indexes false l).reverse ++ given) (setInactive n l slots) := by
  induction l generalizing given slots with
  | nil => exact h
  | cons p l ih =>
    obtain ⟨s, i⟩ := p
    rw [setInactive]
    by_cases hs : s.isActive = false
    · rw [indexes_cons_of_eq hs] at hnodup hnew ⊢
      obtain ⟨hi, hnew⟩ := forall_mem_cons.mp hnew
      obtain ⟨hil, hnodup⟩ := nodup_cons.mp hnodup
      rw [if_neg (by simp [hs]), reverse_cons, append_assoc, singleton_append]
      refine ih (h.setFirst hi _ n) hnodup fun k hk hmem => ?_
      rcases mem_cons.mp hmem with rfl | hmem
      · exact hil hk
      · exact hnew k hk hmem
    · rw [indexes_cons_of_ne hs] at hnodup hnew ⊢
      rw [if_pos (Bool.not_eq_false _ ▸ hs)]
      exact ih h hnodup hnew

/-- All of some slots are among those of the positions, or no position is left without a slot. -/
def Filled (n : ℕ) (done : List ℕ) (slots : ℕ → ℤ) : Prop :=
  (∀ i ∈ done, ∃ j < n, slots j = i) ∨ ∀ j < n, slots j ≠ -1

theorem Filled.setFirst {done : List ℕ} (h : Filled n done slots) (i : ℕ) :
    Filled n (i :: done) (setFirst (fun j => slots j < 0) i slots n 0) := by
  rcases setFirst_cases (fun j => slots j < 0) i slots n 0 with ⟨hsame, hnone⟩ | ⟨k, -, hk, htest, hset⟩
  · rw [hsame]
    refine .inr fun j hj heq => ?_
    have hfalse := hnone j (Nat.zero_le j) (by omega)
    rw [heq] at hfalse
    simp at hfalse
  · rw [hset]
    have hneg : slots k < 0 := of_decide_eq_true htest
    rcases h with hall | hall
    · refine .inl (forall_mem_cons.mpr ⟨⟨k, by omega, Function.update_self ..⟩, fun i' hi' => ?_⟩)
      obtain ⟨j, hj, heq⟩ := hall i' hi'
      exact ⟨j, hj, by rw [Function.update_of_ne (by rintro rfl; omega), heq]⟩
    · refine .inr fun j hj => ?_
      by_cases hjk : j = k
      · subst hjk
        rw [Function.update_self]
        omega
      · rw [Function.update_of_ne hjk]
        exact hall j hj

theorem setInactive_filled {done : List ℕ} (h : Filled n done slots) :
    Filled n ((indexes false l).reverse ++ done) (setInactive n l slots) := by
  induction l generalizing done slots with
  | nil => exact h
  | cons p l ih =>
    obtain ⟨s, i⟩ := p
    rw [setInactive]
    by_cases hs : s.isActive = false
    · rw [indexes_cons_of_eq hs, if_neg (by simp [hs]), reverse_cons, append_assoc, singleton_append]
      exact ih (h.setFirst i)
    · rw [indexes_cons_of_ne hs, if_pos (Bool.not_eq_false _ ▸ hs)]
      exact ih h

/-! ### All slots -/

theorem indexes_perm (mtSlots : List MtSlot) :
    (indexes true mtSlots.zipIdx ++ indexes false mtSlots.zipIdx).Perm (List.range mtSlots.length) := by
  have hperm := (filter_append_perm (fun p : MtSlot × ℕ => p.1.isActive = true) mtSlots.zipIdx).map Prod.snd
  rw [map_append, zipIdx_map_snd] at hperm
  have hnot : (fun p : MtSlot × ℕ => !decide (p.1.isActive = true)) = fun p => decide (p.1.isActive = false) := by
    funext p
    cases p.1.isActive <;> rfl
  rw [hnot] at hperm
  rw [range_eq_range']
  exact hperm

theorem mem_indexes_false {h : i < mtSlots.length} (hi : mtSlots[i].isActive = false) :
    i ∈ indexes false mtSlots.zipIdx := by
  refine mem_map.mpr ⟨(mtSlots[i], i), mem_filter.mpr ⟨?_, by simpa using hi⟩, rfl⟩
  exact mem_zipIdx_iff_getElem?.mpr (List.getElem?_eq_getElem h)

theorem clearSlots_distinct : Distinct n [] (clearSlots n slots) := by
  have hnone : ∀ j < n, clearSlots n slots j = -1 := fun j hj => if_pos hj
  exact ⟨fun j hj => .inl (hnone j hj), fun i hi j _ _ hne => absurd (hnone i hi) hne⟩

/-- Positions have distinct slots, and one without a slot says that all inactive slots have been given out. -/
theorem inputMtSetSlots_spec (red : ℕ → ℤ) (mtSlots : List MtSlot) (slots : ℕ → ℤ) (n : ℕ) :
    Distinct n (List.range mtSlots.length) (inputMtSetSlots red mtSlots slots n) ∧
      Filled n (indexes false mtSlots.zipIdx) (inputMtSetSlots red mtSlots slots n) := by
  have hperm := indexes_perm mtSlots
  have hnodup : (indexes true mtSlots.zipIdx ++ indexes false mtSlots.zipIdx).Nodup :=
    hperm.nodup_iff.mpr nodup_range
  obtain ⟨hactive, hinactive, hdisjoint⟩ := nodup_append.mp hnodup
  have hcleared : Distinct n [] (clearSlots n slots) := clearSlots_distinct
  have hfirst : Distinct n _ (setActive red n 0 mtSlots.zipIdx (clearSlots n slots)) :=
    setActive_distinct hcleared hactive fun _ _ => not_mem_nil
  have hdistinct := setInactive_distinct hfirst hinactive fun i hi hmem => by
    rw [append_nil, mem_reverse] at hmem
    exact hdisjoint i hmem i hi rfl
  have hfilled : Filled n [] (setActive red n 0 mtSlots.zipIdx (clearSlots n slots)) := .inl fun _ h => nomatch h
  refine ⟨hdistinct.mono fun i hi => ?_, (setInactive_filled hfilled).imp_left fun hall i hi => ?_⟩
  · rw [append_nil, mem_append, mem_reverse, mem_reverse] at hi
    exact hperm.mem_iff.mp (mem_append.mpr hi.symm)
  · exact hall i (mem_append_left _ (mem_reverse.mpr hi))

variable {mt : Option InputMt} {dmax : ℤ}

theorem inputMtAssignSlots_some (red : ℕ → ℤ) (mtSlots : List MtSlot) (slots : ℕ → ℤ) (pos : List MtPos) (dmax : ℤ) :
    inputMtAssignSlots (some ⟨some red, mtSlots⟩) slots pos dmax =
      if pos.length > mtSlots.length then ⟨some ⟨some red, mtSlots⟩, slots, -EINVAL⟩
      else if pos.length < 1 then ⟨some ⟨some red, mtSlots⟩, slots, 0⟩
      else assignMatched ⟨some red, mtSlots⟩ red slots pos (int (int (2 * dmax) * dmax)) := rfl

/-- The call succeeds if there are slots and a matrix, and not more positions than slots. -/
theorem inputMtAssignSlots_ret_iff (slots : ℕ → ℤ) (hpos : 1 ≤ pos.length) (dmax : ℤ) :
    (inputMtAssignSlots mt slots pos dmax).ret = 0 ↔ ∃ m, mt = some m ∧ m.red ≠ none ∧ pos.length ≤ m.slots.length := by
  cases mt with
  | none => exact iff_of_false (by decide : - ENXIO ≠ 0) (by simp)
  | some m =>
    obtain ⟨red, mtSlots⟩ := m
    cases red with
    | none => exact iff_of_false (by decide : - ENXIO ≠ 0) (by simp)
    | some red =>
      by_cases hle : pos.length ≤ mtSlots.length
      · refine iff_of_true ?_ ⟨_, rfl, Option.some_ne_none red, hle⟩
        rw [inputMtAssignSlots_some, if_neg (Nat.not_lt.mpr hle), if_neg (Nat.not_lt.mpr hpos)]
        rfl
      · rw [inputMtAssignSlots_some, if_pos (Nat.not_le.mp hle)]
        refine iff_of_false (by decide : -EINVAL ≠ 0) ?_
        rintro ⟨_, ⟨⟩, -, hle'⟩
        exact hle hle'

/-- What a successful call leaves in the slots of the positions. -/
theorem inputMtAssignSlots_slots {m : InputMt} (hpos : 1 ≤ pos.length)
    (h : (inputMtAssignSlots (some m) slots pos dmax).ret = 0) :
    ∃ red, (inputMtAssignSlots (some m) slots pos dmax).slots = inputMtSetSlots red m.slots slots pos.length := by
  obtain ⟨_, ⟨⟩, hred, hle⟩ := (inputMtAssignSlots_ret_iff slots hpos dmax).mp h
  obtain ⟨red, mtSlots⟩ := m
  cases red with
  | none => exact absurd rfl hred
  | some red =>
    rw [inputMtAssignSlots_some, if_neg (Nat.not_lt.mpr hle), if_neg (Nat.not_lt.mpr hpos)]
    exact ⟨_, rfl⟩

/-- Slots of which the first one is active at the origin. -/
def oneContact (others : ℕ) : InputMt := ⟨some fun _ => 0, ⟨0, 0, 0⟩ :: List.replicate others ⟨-1, 0, 0⟩⟩

/-- A position at the contact and one farther away than the limit. -/
def twoPositions : List MtPos := [⟨100, 100⟩, ⟨0, 0⟩]

end GfpDrivers.Input
