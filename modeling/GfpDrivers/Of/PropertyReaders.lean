import GfpDrivers.Of.TreeView
import GfpDrivers.Lib.Traced
import Mathlib.Data.Nat.Find
import Mathlib.Data.Nat.ModEq

/-!
The functions of `property.c` that read the value of a property: an element by its index, arrays of elements, and
the cells and strings one after the other. They leave a trace of the bytes that they read, as places in the value.
What lies behind a value is there, but it must not be read.
-/

namespace GfpDrivers.Of.Reader

open Lib Traced

def ENODATA : ℤ := 61

/-- The fields of `struct property` that are read. The value may be a null pointer. -/
structure PropValue where
  value : Option Bytes
  length : ℕ

/-- The conversion to `u32`. -/
def u32 (x : ℕ) : ℕ := x % 2 ^ 32

/-- The conversion to `size_t`. -/
def sizeT (x : ℕ) : ℕ := x % 2 ^ 64

/-! ### Elements -/

def readByte (val : Bytes) (i : ℕ) : Traced ℕ UInt8 := do
  emit i
  pure (val i)

/-- `be16_to_cpup`, `be32_to_cpup` and `be64_to_cpup` for sizes of two, four and eight. -/
def readBe (val : Bytes) (off : ℕ) : ℕ → Traced ℕ ℕ
  | 0 => pure 0
  | w + 1 => do
      let v ← readBe val off w
      let b ← readByte val (off + w)
      pure (v * 256 + b.toNat)

/-- `of_read_number` -/
def readNumber (val : Bytes) (off : ℕ) : ℕ → Traced ℕ ℕ
  | 0 => pure 0
  | size + 1 => do
      let r ← readNumber val off size
      let c ← readBe val (off + 4 * size) 4
      pure ((r * 2 ^ 32 + c) % 2 ^ 64)

/-- `of_find_property_value_of_size`, which gives the value and its length. -/
def ofFindPropertyValueOfSize (prop : Option PropValue) (min max : ℕ) : Except ℤ (Bytes × ℕ) :=
  match prop with
  | none => .error (-EINVAL)
  | some p =>
    match p.value with
    | none => .error (-ENODATA)
    | some val =>
      if p.length < min then .error (-EOVERFLOW)
      else if max ≠ 0 ∧ p.length > max then .error (-EOVERFLOW)
      else .ok (val, p.length)

/-- The element of a size with an index, and the return value. -/
def readIndex (w : ℕ) (prop : Option PropValue) (index out : ℕ) : Traced ℕ (ℤ × ℕ) :=
  match ofFindPropertyValueOfSize prop (u32 (sizeT (u32 (index + 1) * w))) 0 with
  | .error e => pure (e, out)
  | .ok (val, _) => do
      let v ← readBe val (index * w) w
      pure (0, v)

/-- `of_property_read_u32_index` -/
def ofPropertyReadU32Index (prop : Option PropValue) (index out : ℕ) : Traced ℕ (ℤ × ℕ) := readIndex 4 prop index out

/-- `of_property_read_u64_index` -/
def ofPropertyReadU64Index (prop : Option PropValue) (index out : ℕ) : Traced ℕ (ℤ × ℕ) := readIndex 8 prop index out

/-- `while (count--) *out_values++ = ...`, from the element `k` on. -/
def copyElems (read : ℕ → Traced ℕ ℕ) (w : ℕ) : ℕ → ℕ → (ℕ → ℕ) → Traced ℕ (ℕ → ℕ)
  | 0, _, out => pure out
  | count + 1, k, out => do
      let v ← read (k * w)
      copyElems read w count (k + 1) (Function.update out k v)

/-- The number of elements to read. -/
def elemCount (w szMin szMax len : ℕ) : ℕ := if szMax = 0 then szMin else len / w

/-- An array of elements of a size, with bounds on their number, and the return value. -/
def readVariable (read : Bytes → ℕ → Traced ℕ ℕ) (w : ℕ) (prop : Option PropValue) (out : ℕ → ℕ) (szMin szMax : ℕ) :
    Traced ℕ (ℤ × (ℕ → ℕ)) :=
  match ofFindPropertyValueOfSize prop (u32 (sizeT (szMin * w))) (u32 (sizeT (szMax * w))) with
  | .error e => pure (e, out)
  | .ok (val, len) => do
      let out ← copyElems (read val) w (elemCount w szMin szMax len) 0 out
      pure ((elemCount w szMin szMax len : ℤ).bmod (2 ^ 32), out)

/-- `of_property_read_variable_u8_array` -/
def ofPropertyReadVariableU8Array (prop : Option PropValue) (out : ℕ → ℕ) (szMin szMax : ℕ) :
    Traced ℕ (ℤ × (ℕ → ℕ)) :=
  readVariable (readBe · · 1) 1 prop out szMin szMax

/-- `of_property_read_variable_u16_array` -/
def ofPropertyReadVariableU16Array (prop : Option PropValue) (out : ℕ → ℕ) (szMin szMax : ℕ) :
    Traced ℕ (ℤ × (ℕ → ℕ)) :=
  readVariable (readBe · · 2) 2 prop out szMin szMax

/-- `of_property_read_variable_u32_array` -/
def ofPropertyReadVariableU32Array (prop : Option PropValue) (out : ℕ → ℕ) (szMin szMax : ℕ) :
    Traced ℕ (ℤ × (ℕ → ℕ)) :=
  readVariable (readBe · · 4) 4 prop out szMin szMax

/-- `of_property_read_variable_u64_array` -/
def ofPropertyReadVariableU64Array (prop : Option PropValue) (out : ℕ → ℕ) (szMin szMax : ℕ) :
    Traced ℕ (ℤ × (ℕ → ℕ)) :=
  readVariable (readNumber · · 2) 8 prop out szMin szMax

/-! ### Iterators -/

/-- What is behind the pointer to the value; nothing is known of what is behind a null pointer. -/
def PropValue.bytes (p : PropValue) : Bytes := p.value.getD fun _ => 0

/-- `of_prop_next_u32`, where pointers are places in the value. It gives the cell and its value. -/
def ofPropNextU32 (p : PropValue) : Option ℕ → Traced ℕ (Option (ℕ × ℕ))
  | none => do
      let u ← readBe p.bytes 0 4
      pure (p.value.map fun _ => (0, u))
  | some cur =>
      if cur + 4 ≥ p.length then pure none
      else do
        let u ← readBe p.bytes (cur + 4) 4
        pure (some (cur + 4, u))

/-- The cells that `of_property_for_each_u32` visits. -/
def forEachU32 (p : PropValue) : ℕ → Option ℕ → Traced ℕ (List (ℕ × ℕ))
  | 0, _ => unfinished
  | rounds + 1, cur => do
      let next ← ofPropNextU32 p cur
      next.elim (pure []) fun c => do
        let rest ← forEachU32 p rounds (some c.1)
        pure (c :: rest)

/-- `strlen` from a place on. -/
def strlen (val : Bytes) : ℕ → ℕ → Traced ℕ ℕ
  | 0, _ => unfinished
  | fuel + 1, i => do
      let b ← readByte val i
      if b = 0 then pure 0
      else do
        let n ← strlen val fuel (i + 1)
        pure (n + 1)

/-- `of_prop_next_string` -/
def ofPropNextString (p : PropValue) (fuel : ℕ) : Option ℕ → Traced ℕ (Option ℕ)
  | none => pure (p.value.map fun _ => 0)
  | some cur => do
      let n ← strlen p.bytes fuel cur
      pure (if cur + (n + 1) ≥ p.length then none else some (cur + (n + 1)))

/-- The strings that `of_property_for_each_string` visits. -/
def forEachString (p : PropValue) (fuel : ℕ) : ℕ → Option ℕ → Traced ℕ (List ℕ)
  | 0, _ => unfinished
  | rounds + 1, cur => do
      let next ← ofPropNextString p fuel cur
      next.elim (pure []) fun s => do
        let rest ← forEachString p fuel rounds (some s)
        pure (s :: rest)

/-! ### What the readers promise -/

/-- The number in some bytes, the first of them the highest. -/
def beAt (val : Bytes) (off : ℕ) : ℕ → ℕ
  | 0 => 0
  | w + 1 => beAt val off w * 256 + (val (off + w)).toNat

/-- The byte belongs to the value. -/
def PropValue.Inside (p : PropValue) (i : ℕ) : Prop := p.value ≠ none ∧ i < p.length

/-- The element is returned if it lies inside, else an error and the old output, and no byte outside is read. -/
def IndexInside (w : ℕ) (p : PropValue) (index out : ℕ) (run : Traced ℕ (ℤ × ℕ)) : Prop :=
  AllEvents p.Inside run ∧ ∃ ret out', run.result = some (ret, out') ∧
    if p.value ≠ none ∧ (index + 1) * w ≤ p.length then ret = 0 ∧ out' = beAt p.bytes (index * w) w
    else ret < 0 ∧ out' = out

/-- As many elements as are asked for at least are returned, and all lie inside, or else there is an error and the
old output. No byte outside is read. -/
def ArrayInside (w : ℕ) (p : PropValue) (out : ℕ → ℕ) (szMin szMax : ℕ) (run : Traced ℕ (ℤ × (ℕ → ℕ))) : Prop :=
  AllEvents p.Inside run ∧ ∃ ret out', run.result = some (ret, out') ∧
    ((∃ n : ℕ, ret = n ∧ szMin ≤ n ∧ (szMax = 0 → n = szMin) ∧ n * w ≤ p.length ∧
        out' = fun k => if k < n then beAt p.bytes (k * w) w else out k) ∨
      ret < 0 ∧ out' = out)

/-- The complete cells are visited. -/
def CellsInside (p : PropValue) (run : Traced ℕ (List (ℕ × ℕ))) : Prop :=
  AllEvents p.Inside run ∧
    run.result = some ((List.range' 0 (p.length / 4) 4).map fun o => (o, beAt p.bytes o 4))

/-- The places where strings begin that end with a zero byte in the value. -/
def stringStarts (p : PropValue) : List ℕ :=
  (List.range p.length).filter fun i =>
    (i = 0 ∨ p.bytes (i - 1) = 0) ∧ ∃ j < p.length, i ≤ j ∧ p.bytes j = 0

/-- The strings are visited. -/
def StringsInside (p : PropValue) (run : Traced ℕ (List ℕ)) : Prop :=
  AllEvents p.Inside run ∧ run.result = some (if p.value = none then [] else stringStarts p)

/-! ### Reading elements -/

variable {p : PropValue} {val : Bytes} {off w i n k len index szMin szMax rounds fuel cur : ℕ} {P : ℕ → Prop}
  {out : ℕ → ℕ}

theorem readByte_result : (readByte val i).result = some (val i) := rfl

theorem readByte_trace : (readByte val i).trace = [i] := rfl

theorem readBe_result (val : Bytes) (off w : ℕ) : (readBe val off w).result = some (beAt val off w) := by
  induction w with
  | zero => rfl
  | succ w ih =>
    refine result_bind.trans ?_
    rw [ih, Option.bind_some, result_bind, readByte_result]
    rfl

theorem readByte_allEvents_iff : AllEvents P (readByte val i) ↔ P i := by simp [AllEvents, readByte_trace]

theorem readBe_allEvents_iff : AllEvents P (readBe val off w) ↔ ∀ j < w, P (off + j) := by
  induction w with
  | zero => exact iff_of_true .pure fun j hj => absurd hj (Nat.not_lt_zero j)
  | succ w ih =>
    refine allEvents_bind_iff.trans ?_
    rw [ih, Nat.forall_lt_succ_right]
    simp only [readBe_result, Option.mem_some_iff, forall_eq', allEvents_bind_iff, readByte_allEvents_iff,
      readByte_result, and_iff_left AllEvents.pure]

theorem forall_lt_add {m : ℕ} : (∀ j < m + n, P (off + j)) ↔ (∀ j < m, P (off + j)) ∧ ∀ j < n, P (off + m + j) := by
  refine ⟨fun h => ⟨fun j hj => h j (by omega), fun j hj => Nat.add_assoc off m j ▸ h (m + j) (by omega)⟩, fun h j hj => ?_⟩
  by_cases hm : j < m
  · exact h.1 j hm
  · have hrest := h.2 (j - m) (by omega)
    rwa [Nat.add_assoc, Nat.add_sub_cancel' (Nat.not_lt.mp hm)] at hrest

theorem beAt_add (val : Bytes) (off m n : ℕ) : beAt val off (m + n) = beAt val off m * 256 ^ n + beAt val (off + m) n := by
  induction n with
  | zero => rw [beAt, Nat.pow_zero, Nat.mul_one, Nat.add_zero, Nat.add_zero]
  | succ n ih =>
    rw [← Nat.add_assoc, beAt, beAt, ih, Nat.pow_succ, Nat.add_mul, Nat.mul_assoc, Nat.add_assoc, Nat.add_assoc off]

theorem beAt_lt (val : Bytes) (off w : ℕ) : beAt val off w < 256 ^ w := by
  induction w with
  | zero => exact Nat.one_pos
  | succ w ih =>
    have hb := (val (off + w)).toNat_lt
    rw [beAt, Nat.pow_succ]
    omega

theorem readNumber_result (val : Bytes) (off size : ℕ) :
    (readNumber val off size).result = some (beAt val off (4 * size) % 2 ^ 64) := by
  induction size with
  | zero => rfl
  | succ size ih =>
    refine result_bind.trans ?_
    rw [ih, Option.bind_some, result_bind, readBe_result, Option.bind_some, result_pure,
      Nat.mul_succ, beAt_add]
    exact congrArg some (((Nat.mod_modEq _ _).mul_right _).add_right _)

theorem readNumber_allEvents_iff {size : ℕ} : AllEvents P (readNumber val off size) ↔ ∀ j < 4 * size, P (off + j) := by
  induction size with
  | zero => exact iff_of_true .pure fun j hj => absurd hj (Nat.not_lt_zero j)
  | succ size ih =>
    refine allEvents_bind_iff.trans ?_
    rw [ih, Nat.mul_succ, forall_lt_add]
    simp only [readNumber_result, Option.mem_some_iff, forall_eq', allEvents_bind_iff, readBe_allEvents_iff,
      readBe_result, and_iff_left AllEvents.pure]

/-- The reader reads a number of bytes and gives the number in them. -/
structure ReadsElem (read : Bytes → ℕ → Traced ℕ ℕ) (w : ℕ) : Prop where
  result : ∀ val off, (read val off).result = some (beAt val off w)
  reads : ∀ P val off, AllEvents P (read val off) ↔ ∀ j < w, P (off + j)
  pos : 0 < w

theorem readsElem_readBe (h : 0 < w) : ReadsElem (readBe · · w) w :=
  ⟨fun val off => readBe_result val off w, fun _ _ _ => readBe_allEvents_iff, h⟩

theorem readsElem_readNumber : ReadsElem (readNumber · · 2) 8 where
  result val off := by
    have hlt : beAt val off (4 * 2) < 2 ^ 64 := beAt_lt val off 8
    rw [readNumber_result, Nat.mod_eq_of_lt hlt]
  reads _ _ _ := readNumber_allEvents_iff
  pos := by decide

theorem ofFindPropertyValueOfSize_some (val : Bytes) (len min max : ℕ) :
    ofFindPropertyValueOfSize (some ⟨some val, len⟩) min max =
      if len < min then .error (-EOVERFLOW) else if max ≠ 0 ∧ len > max then .error (-EOVERFLOW)
      else .ok (val, len) := rfl

/-- The size that is asked for goes through `u32`. -/
theorem u32_size (index w : ℕ) (hw : w < 2 ^ 32) : u32 (sizeT (u32 (index + 1) * w)) = u32 ((index + 1) * w) := by
  have hlt : u32 (index + 1) * w < 2 ^ 64 := by
    have hindex : u32 (index + 1) < 2 ^ 32 := Nat.mod_lt _ (by decide)
    calc u32 (index + 1) * w < 2 ^ 32 * 2 ^ 32 := Nat.mul_lt_mul'' hindex hw
      _ = 2 ^ 64 := rfl
  rw [sizeT, Nat.mod_eq_of_lt hlt]
  exact (Nat.mod_modEq _ _).mul_right w

theorem readIndex_inside_iff (hlen : p.length < 2 ^ 31) (hw : w < 2 ^ 32) (index out : ℕ) :
    IndexInside w p index out (readIndex w (some p) index out) ↔
      (p.value ≠ none → (index + 1) * w < 2 ^ 32 ∨ p.length < u32 ((index + 1) * w)) := by
  obtain ⟨value, len⟩ := p
  rw [readIndex, u32_size index w hw]
  cases value with
  | none =>
    refine iff_of_true ⟨.pure, _, _, rfl, ?_⟩ fun h => absurd rfl h
    rw [if_neg fun h => h.1 rfl]
    exact ⟨by decide, rfl⟩
  | some val =>
    have hmin : u32 ((index + 1) * w) ≤ (index + 1) * w := Nat.mod_le _ _
    rw [ofFindPropertyValueOfSize_some]
    dsimp only at hlen ⊢
    by_cases hshort : len < u32 ((index + 1) * w)
    · rw [if_pos hshort]
      refine iff_of_true ⟨.pure, _, _, rfl, ?_⟩ fun _ => .inr hshort
      rw [if_neg fun h => absurd h.2 (by dsimp only; omega)]
      exact ⟨by decide, rfl⟩
    rw [if_neg hshort, if_neg (by simp), or_iff_left hshort]
    dsimp only
    have hresult : (do let v ← readBe val (index * w) w; pure ((0 : ℤ), v)).result =
        some (0, beAt val (index * w) w) := by
      rw [result_bind, readBe_result]
      rfl
    constructor
    · rintro ⟨-, ret, out', hrun, hret⟩ -
      obtain ⟨rfl, -⟩ := Prod.mk.inj (Option.some.inj (hresult.symm.trans hrun))
      split at hret
      · next hin => exact Nat.lt_of_le_of_lt hin.2 (by dsimp only; omega)
      · exact absurd hret.1 (by decide)
    · intro hsmall
      have hin : (index + 1) * w ≤ len := by
        rw [u32, Nat.mod_eq_of_lt (hsmall (Option.some_ne_none val))] at hshort
        exact Nat.not_lt.mp hshort
      refine ⟨(readBe_allEvents_iff.mpr fun j hj => ⟨Option.some_ne_none val, ?_⟩).bind fun _ _ => .pure, _, _, hresult, ?_⟩
      · rw [if_pos ⟨Option.some_ne_none val, hin⟩]
        exact ⟨rfl, rfl⟩
      · rw [Nat.succ_mul] at hin
        exact (by omega : index * w + j < len)

/-! ### Arrays -/

variable {read : Bytes → ℕ → Traced ℕ ℕ} {count : ℕ}

theorem copyElems_result (hread : ReadsElem read w) (val : Bytes) (count k : ℕ) (out : ℕ → ℕ) :
    (copyElems (read val) w count k out).result =
      some fun i => if k ≤ i ∧ i < k + count then beAt val (i * w) w else out i := by
  induction count generalizing k out with
  | zero =>
    rw [copyElems, result_pure]
    refine congrArg some (funext fun i => ?_)
    rw [if_neg (by omega)]
  | succ count ih =>
    rw [copyElems, result_bind, hread.result, Option.bind_some, ih]
    refine congrArg some (funext fun i => ?_)
    rcases Nat.lt_trichotomy i k with hlt | rfl | hgt
    · rw [if_neg (by omega), if_neg (by omega), Function.update_of_ne hlt.ne]
    · rw [if_neg (by omega), if_pos (by omega), Function.update_self]
    · rw [Function.update_of_ne hgt.ne']
      exact if_congr (by omega) rfl rfl

theorem copyElems_allEvents_iff (hread : ReadsElem read w) {k : ℕ} :
    AllEvents P (copyElems (read val) w count k out) ↔ ∀ j < count * w, P (k * w + j) := by
  induction count generalizing k out with
  | zero => exact iff_of_true .pure fun j hj => absurd hj (by omega)
  | succ count ih =>
    rw [copyElems, allEvents_bind_iff, hread.reads, Nat.succ_mul, Nat.add_comm (count * w), forall_lt_add]
    simp only [hread.result, Option.mem_some_iff, forall_eq', ih, Nat.succ_mul]

theorem u32_size_mul (n w : ℕ) : u32 (sizeT (n * w)) = u32 (n * w) := Nat.mod_mod_of_dvd _ (by decide)

/-- The least size does not wrap, or the length is refused. -/
def ArrayChecked (w : ℕ) (p : PropValue) (szMin szMax : ℕ) : Prop :=
  p.value ≠ none → szMin * w < 2 ^ 32 ∨ p.length < u32 (szMin * w) ∨
    u32 (szMax * w) ≠ 0 ∧ u32 (szMax * w) < p.length

/-- When an array is read only if enough of it lies inside. -/
theorem readVariable_inside_iff (hread : ReadsElem read w) (hlen : p.length < 2 ^ 31) (out : ℕ → ℕ) (szMin szMax : ℕ) :
    ArrayInside w p out szMin szMax (readVariable read w (some p) out szMin szMax) ↔ ArrayChecked w p szMin szMax := by
  obtain ⟨value, len⟩ := p
  rw [readVariable, u32_size_mul, u32_size_mul, ArrayChecked]
  cases value with
  | none => exact iff_of_true ⟨.pure, _, _, rfl, .inr ⟨by decide, rfl⟩⟩ fun h => absurd rfl h
  | some val =>
    have hmin : u32 (szMin * w) ≤ szMin * w := Nat.mod_le _ _
    rw [ofFindPropertyValueOfSize_some]
    dsimp only at hlen ⊢
    by_cases hshort : len < u32 (szMin * w)
    · rw [if_pos hshort]
      exact iff_of_true ⟨.pure, _, _, rfl, .inr ⟨by decide, rfl⟩⟩ fun _ => .inr (.inl hshort)
    rw [if_neg hshort]
    by_cases hlong : u32 (szMax * w) ≠ 0 ∧ len > u32 (szMax * w)
    · rw [if_pos hlong]
      exact iff_of_true ⟨.pure, _, _, rfl, .inr ⟨by decide, rfl⟩⟩ fun _ => .inr (.inr hlong)
    rw [if_neg hlong, or_iff_left (not_or.mpr ⟨hshort, hlong⟩), imp_iff_right (Option.some_ne_none val)]
    dsimp only
    generalize hcount : elemCount w szMin szMax len = count
    have hpos := hread.pos
    have hresult : (do let out ← copyElems (read val) w count 0 out; pure ((count : ℤ).bmod (2 ^ 32), out)).result =
        some ((count : ℤ).bmod (2 ^ 32), fun i => if i < count then beAt val (i * w) w else out i) := by
      rw [result_bind, copyElems_result hread]
      simp
    have hret : count * w ≤ len → (count : ℤ).bmod (2 ^ 32) = count := fun h => by
      have hle : count ≤ count * w := Nat.le_mul_of_pos_right count hpos
      exact Int.bmod_eq_of_le (by omega) (by omega)
    constructor
    · rintro ⟨hevents, ret, out', hrun, hpromise⟩
      have hreads := (copyElems_allEvents_iff hread).mp (allEvents_bind_iff.mp hevents).1
      have hin : count * w ≤ len := by
        by_contra hout
        have hlast := (hreads len (Nat.not_le.mp hout)).2
        exact absurd hlast (by dsimp only; omega)
      obtain ⟨rfl, -⟩ := Prod.mk.inj (Option.some.inj (hresult.symm.trans hrun))
      rw [hret hin] at hpromise
      rcases hpromise with ⟨n, hn, hle, -⟩ | ⟨hneg, -⟩
      · obtain rfl : count = n := Int.natCast_inj.mp hn
        have hmul : szMin * w ≤ count * w := Nat.mul_le_mul_right w hle
        omega
      · omega
    · intro hsmall
      rw [u32, Nat.mod_eq_of_lt hsmall, Nat.not_lt] at hshort
      have hcountMin : szMin ≤ count ∧ (szMax = 0 → count = szMin) ∧ count * w ≤ len := by
        rw [← hcount, elemCount]
        split
        · exact ⟨le_rfl, fun _ => rfl, hshort⟩
        · next hmax => exact ⟨(Nat.le_div_iff_mul_le hpos).mpr hshort, fun h => absurd h hmax, Nat.div_mul_le_self len w⟩
      obtain ⟨hle, hzero, hin⟩ := hcountMin
      refine ⟨AllEvents.bind ((copyElems_allEvents_iff hread).mpr fun j hj => ⟨Option.some_ne_none val, ?_⟩)
        fun _ _ => .pure, _, _, hresult, .inl ⟨count, hret hin, hle, hzero, hin, rfl⟩⟩
      exact (by omega : 0 * w + j < len)

/-! ### Cells -/

section

variable {α β : Type} {x : Traced ℕ α} {f : α → β}

theorem allEvents_bind_pure_iff : AllEvents P (x >>= fun a => pure (f a)) ↔ AllEvents P x :=
  allEvents_bind_iff.trans (and_iff_left fun _ _ => .pure)

theorem result_bind_pure : (x >>= fun a => pure (f a)).result = x.result.map f := by
  rw [result_bind]
  cases x.result <;> rfl

end

theorem inside_iff (hval : p.value ≠ none) : p.Inside i ↔ i < p.length := and_iff_right hval

theorem ofPropNextU32_some (p : PropValue) (cur : ℕ) :
    ofPropNextU32 p (some cur) = if cur + 4 ≥ p.length then pure none
      else readBe p.bytes (cur + 4) 4 >>= fun u => pure (some (cur + 4, u)) := rfl

theorem forEachU32_allEvents_iff (hval : p.value ≠ none) (hrounds : p.length ≤ cur + 4 * rounds) :
    AllEvents p.Inside (forEachU32 p rounds (some cur)) ↔ p.length ≤ cur + 4 ∨ 4 ∣ p.length - cur := by
  induction rounds generalizing cur with
  | zero => exact iff_of_true .unfinished (.inl (by omega))
  | succ rounds ih =>
    rw [forEachU32, ofPropNextU32_some]
    by_cases hend : cur + 4 ≥ p.length
    · rw [if_pos hend, pure_bind]
      exact iff_of_true .pure (.inl hend)
    rw [if_neg hend, allEvents_bind_iff, allEvents_bind_pure_iff, readBe_allEvents_iff, result_bind_pure, readBe_result]
    simp only [Option.map_some, Option.mem_some_iff, forall_eq', Option.elim_some, allEvents_bind_pure_iff,
      inside_iff hval]
    rw [ih (by omega)]
    constructor
    · rintro ⟨hcell, hrest⟩
      have hlast := hcell 3 (by decide)
      omega
    · intro h
      exact ⟨fun j hj => by omega, by omega⟩

theorem forEachU32_result (hlen : p.length = cur + 4 * (n + 1)) (hrounds : n < rounds) :
    (forEachU32 p rounds (some cur)).result = some ((List.range' (cur + 4) n 4).map fun o => (o, beAt p.bytes o 4)) := by
  induction n generalizing cur rounds with
  | zero =>
    obtain ⟨rounds, rfl⟩ := Nat.exists_eq_add_of_lt hrounds
    rw [forEachU32, ofPropNextU32_some, if_pos (by omega)]
    rfl
  | succ n ih =>
    obtain ⟨rounds, rfl⟩ := Nat.exists_eq_add_of_lt hrounds
    rw [forEachU32, ofPropNextU32_some, if_neg (by omega), result_bind, result_bind_pure, readBe_result, Option.map_some,
      Option.bind_some, Option.elim_some, result_bind_pure, ih (by omega) (by omega), List.range'_succ]
    rfl

theorem ofPropNextU32_none_allEvents_iff : AllEvents P (ofPropNextU32 p none) ↔ ∀ j < 4, P (0 + j) := by
  rw [ofPropNextU32, allEvents_bind_pure_iff, readBe_allEvents_iff]

theorem ofPropNextU32_none_result {val : Bytes} (hsome : p.value = some val) :
    (ofPropNextU32 p none).result = some (some (0, beAt p.bytes 0 4)) := by
  rw [ofPropNextU32, result_bind_pure, readBe_result, hsome]
  rfl

/-- When the cells of a value are visited and nothing outside is read. -/
theorem forEachU32_inside_iff (hrounds : p.length < rounds) :
    CellsInside p (forEachU32 p rounds none) ↔ p.value ≠ none ∧ 0 < p.length ∧ 4 ∣ p.length := by
  obtain ⟨rounds, rfl⟩ := Nat.exists_eq_add_of_lt hrounds
  constructor
  · rintro ⟨hevents, -⟩
    rw [forEachU32, allEvents_bind_iff, ofPropNextU32_none_allEvents_iff] at hevents
    obtain ⟨hcell, hrest⟩ := hevents
    obtain ⟨hval, hlast⟩ := hcell 3 (by decide)
    obtain ⟨val, hsome⟩ := Option.ne_none_iff_exists'.mp hval
    have hrest := hrest _ (ofPropNextU32_none_result hsome)
    rw [Option.elim_some, allEvents_bind_pure_iff, forEachU32_allEvents_iff hval (by omega)] at hrest
    exact ⟨hval, by omega, by omega⟩
  · rintro ⟨hval, hpos, n, hn⟩
    obtain ⟨val, hsome⟩ := Option.ne_none_iff_exists'.mp hval
    obtain ⟨n, rfl⟩ := Nat.exists_eq_succ_of_ne_zero (by omega : n ≠ 0)
    have hfirst := ofPropNextU32_none_result hsome
    rw [forEachU32]
    refine ⟨AllEvents.bind (ofPropNextU32_none_allEvents_iff.mpr fun j hj => ⟨hval, by omega⟩) fun c hc => ?_, ?_⟩
    · obtain rfl := Option.some.inj (hfirst.symm.trans hc)
      rw [Option.elim_some, allEvents_bind_pure_iff, forEachU32_allEvents_iff hval (by omega)]
      exact .inr ⟨n + 1, by omega⟩
    · have hrest : (forEachU32 p (p.length + rounds) (some 0)).result = _ := forEachU32_result (n := n) (by omega) (by omega)
      have hdiv : p.length / 4 = n + 1 := by omega
      rw [result_bind, hfirst, Option.bind_some, Option.elim_some, result_bind_pure, hrest, hdiv, List.range'_succ]
      rfl

/-! ### Strings -/

theorem strlen_succ_result (val : Bytes) (fuel i : ℕ) :
    (strlen val (fuel + 1) i).result = if val i = 0 then some 0 else (strlen val fuel (i + 1)).result.map (· + 1) := by
  rw [strlen, result_bind, readByte_result, Option.bind_some]
  split
  · rfl
  · rw [result_bind_pure]

theorem strlen_succ_allEvents_iff :
    AllEvents P (strlen val (fuel + 1) i) ↔ P i ∧ (val i ≠ 0 → AllEvents P (strlen val fuel (i + 1))) := by
  rw [strlen, allEvents_bind_iff, readByte_allEvents_iff, readByte_result]
  refine and_congr_right' ⟨fun h hne => ?_, fun h b hb => ?_⟩
  · have hrest := h _ rfl
    rwa [if_neg hne, allEvents_bind_pure_iff] at hrest
  · obtain rfl : val i = b := Option.some.inj hb
    split
    · exact .pure
    · next hne => exact allEvents_bind_pure_iff.mpr (h hne)

theorem strlen_of_nul (hbefore : ∀ j < n, val (i + j) ≠ 0) (hnul : val (i + n) = 0) (hfuel : n < fuel) :
    (strlen val fuel i).result = some n ∧ (AllEvents P (strlen val fuel i) ↔ ∀ j < n + 1, P (i + j)) := by
  induction n generalizing i fuel with
  | zero =>
    obtain ⟨fuel, rfl⟩ := Nat.exists_eq_add_of_lt hfuel
    rw [Nat.add_zero] at hnul
    rw [strlen_succ_result, strlen_succ_allEvents_iff, if_pos hnul]
    refine ⟨rfl, fun h j hj => ?_, fun h => ⟨h 0 Nat.one_pos, fun hne => absurd hnul hne⟩⟩
    obtain rfl := Nat.lt_one_iff.mp hj
    exact h.1
  | succ n ih =>
    obtain ⟨fuel, rfl⟩ := Nat.exists_eq_add_of_lt hfuel
    rw [Nat.forall_lt_succ_left] at hbefore
    obtain ⟨hi, hbefore⟩ := hbefore
    simp only [Nat.add_zero, ← Nat.add_assoc, Nat.add_right_comm i _ 1] at hi hbefore hnul
    obtain ⟨hresult, hevents⟩ := ih hbefore hnul (by omega : n < n + 1 + fuel)
    rw [strlen_succ_result, strlen_succ_allEvents_iff, if_neg hi, hresult, hevents, Nat.forall_lt_succ_left (n := n + 1)]
    simp only [Nat.add_zero, ← Nat.add_assoc, Nat.add_right_comm i _ 1]
    exact ⟨rfl, and_congr_right' (imp_iff_right hi)⟩

/-- Without a zero byte, `strlen` reads on behind the value. -/
theorem strlen_outside (hne : ∀ j, i ≤ j → j < len → val j ≠ 0) (hle : i ≤ len) (hfuel : len - i < fuel)
    (h : AllEvents P (strlen val fuel i)) : P len := by
  induction fuel generalizing i with
  | zero => exact absurd hfuel (Nat.not_lt_zero _)
  | succ fuel ih =>
    obtain ⟨hi, hrest⟩ := strlen_succ_allEvents_iff.mp h
    rcases Nat.eq_or_lt_of_le hle with rfl | hlt
    · exact hi
    · exact ih (fun j hj => hne j (by omega)) hlt (by omega) (hrest (hne i le_rfl hlt))

theorem first_nul (val : Bytes) (i len : ℕ) :
    (∃ n, i + n < len ∧ val (i + n) = 0 ∧ ∀ j < n, val (i + j) ≠ 0) ∨ ∀ j, i ≤ j → j < len → val j ≠ 0 := by
  by_cases h : ∃ n, i + n < len ∧ val (i + n) = 0
  · obtain ⟨hlt, hnul⟩ := Nat.find_spec h
    exact .inl ⟨Nat.find h, hlt, hnul, fun j hj hzero => Nat.find_min h hj ⟨by omega, hzero⟩⟩
  · refine .inr fun j hij hj hzero => h ⟨j - i, ?_⟩
    rw [Nat.add_sub_cancel' hij]
    exact ⟨hj, hzero⟩

/-- The places behind a zero byte, from `i` on. -/
def startsFrom (val : Bytes) (i len : ℕ) : List ℕ := (List.range' i (len - i)).filter fun j => val (j - 1) = 0

theorem startsFrom_of_nul (hlt : i + n < len) (hnul : val (i + n) = 0) (hbefore : ∀ j < n, val (i + j) ≠ 0) :
    startsFrom val (i + 1) len =
      if i + (n + 1) ≥ len then [] else (i + (n + 1)) :: startsFrom val (i + (n + 1) + 1) len := by
  have hnone : (List.range' (i + 1) n).filter (fun j => decide (val (j - 1) = 0)) = [] := by
    refine List.filter_eq_nil_iff.mpr fun j hj => ?_
    obtain ⟨hlo, hhi⟩ := List.mem_range'_1.mp hj
    have hne := hbefore (j - 1 - i) (by omega)
    rw [Nat.add_sub_cancel' (by omega)] at hne
    simpa using hne
  simp only [startsFrom]
  by_cases hend : i + (n + 1) ≥ len
  · rw [if_pos hend, show len - (i + 1) = n by omega, hnone]
  · have hsplit : len - (i + 1) = n + (len - (i + (n + 1) + 1) + 1) := by omega
    have hstart : i + 1 + n = i + (n + 1) := by omega
    rw [if_neg hend, hsplit, ← List.range'_append_1, List.filter_append, hnone, List.nil_append, List.range'_succ, hstart,
      List.filter_cons_of_pos]
    simpa using hnul

theorem ofPropNextString_some (p : PropValue) (fuel cur : ℕ) :
    ofPropNextString p fuel (some cur) =
      strlen p.bytes fuel cur >>= fun n => pure (if cur + (n + 1) ≥ p.length then none else some (cur + (n + 1))) := rfl

/-- The strings behind one stay inside if the value ends with a zero byte. -/
theorem forEachString_allEvents_iff (hval : p.value ≠ none) (hcur : cur < p.length) (hfuel : p.length < fuel)
    (hrounds : p.length ≤ cur + rounds) :
    AllEvents p.Inside (forEachString p fuel rounds (some cur)) ↔ p.bytes (p.length - 1) = 0 := by
  induction rounds generalizing cur with
  | zero => omega
  | succ rounds ih =>
    rw [forEachString, allEvents_bind_iff, ofPropNextString_some, allEvents_bind_pure_iff, result_bind_pure]
    rcases first_nul p.bytes cur p.length with ⟨n, hlt, hnul, hbefore⟩ | hnone
    · obtain ⟨hresult, hevents⟩ := strlen_of_nul (P := p.Inside) hbefore hnul (by omega : n < fuel)
      rw [hevents, hresult, Option.map_some, and_iff_right fun j hj => ⟨hval, by omega⟩]
      simp only [Option.mem_some_iff, forall_eq']
      by_cases hend : cur + (n + 1) ≥ p.length
      · rw [if_pos hend, Option.elim_none, show p.length - 1 = cur + n by omega]
        exact iff_of_true .pure hnul
      · rw [if_neg hend, Option.elim_some, allEvents_bind_pure_iff]
        exact ih (by omega) (by omega)
    · refine iff_of_false (fun h => ?_) (hnone _ (by omega) (by omega))
      exact absurd (strlen_outside hnone hcur.le (by omega) h.1).2 (lt_irrefl _)

/-- The strings behind one, if the value ends with a zero byte. -/
theorem forEachString_result (hlast : p.bytes (p.length - 1) = 0) (hcur : cur < p.length) (hfuel : p.length < fuel)
    (hrounds : p.length ≤ cur + rounds) :
    (forEachString p fuel rounds (some cur)).result = some (startsFrom p.bytes (cur + 1) p.length) := by
  induction rounds generalizing cur with
  | zero => omega
  | succ rounds ih =>
    rcases first_nul p.bytes cur p.length with ⟨n, hlt, hnul, hbefore⟩ | hnone
    · obtain ⟨hresult, -⟩ := strlen_of_nul (P := p.Inside) hbefore hnul (by omega : n < fuel)
      rw [forEachString, result_bind, ofPropNextString_some, result_bind_pure, hresult, Option.map_some, Option.bind_some,
        startsFrom_of_nul hlt hnul hbefore]
      by_cases hend : cur + (n + 1) ≥ p.length
      · rw [if_pos hend, if_pos hend]
        rfl
      · rw [if_neg hend, if_neg hend, Option.elim_some, result_bind_pure, ih (by omega) (by omega)]
        rfl
    · exact absurd hlast (hnone _ (by omega) (by omega))

/-- A value that ends with a zero byte has a string at its begin and one behind each other zero byte. -/
theorem stringStarts_eq (hpos : 0 < p.length) (hlast : p.bytes (p.length - 1) = 0) :
    stringStarts p = 0 :: startsFrom p.bytes 1 p.length := by
  have hnul : ∀ i < p.length, ∃ j < p.length, i ≤ j ∧ p.bytes j = 0 := fun i hi => ⟨_, by omega, by omega, hlast⟩
  have hrange : List.range p.length = 0 :: List.range' 1 (p.length - 1) := by
    rw [List.range_eq_range']
    exact List.range'_eq_cons_iff.mpr ⟨rfl, hpos, rfl⟩
  rw [stringStarts, startsFrom, hrange, List.filter_cons_of_pos (by simpa using hnul 0 hpos)]
  refine congrArg (List.cons 0) (List.filter_congr fun i hi => decide_eq_decide.mpr ?_)
  obtain ⟨hlo, hhi⟩ := List.mem_range'_1.mp hi
  rw [and_iff_left (hnul i (by omega)), or_iff_right (by omega)]

theorem ofPropNextString_none (p : PropValue) (fuel : ℕ) :
    ofPropNextString p fuel none = pure (p.value.map fun _ => 0) := rfl

/-- When the strings of a value are visited and nothing outside is read. -/
theorem forEachString_inside_iff (hfuel : p.length < fuel) (hrounds : p.length + 1 < rounds) :
    StringsInside p (forEachString p fuel rounds none) ↔
      (p.value ≠ none → 0 < p.length ∧ p.bytes (p.length - 1) = 0) := by
  obtain ⟨rounds, rfl⟩ := Nat.exists_eq_add_of_le' (by omega : 2 ≤ rounds)
  rw [forEachString, ofPropNextString_none, pure_bind]
  by_cases hnone : p.value = none
  · rw [StringsInside, hnone, Option.map_none, Option.elim_none, if_pos rfl]
    exact iff_of_true ⟨.pure, rfl⟩ fun h => absurd rfl h
  obtain ⟨val, hsome⟩ := Option.ne_none_iff_exists'.mp hnone
  rw [StringsInside, imp_iff_right hnone, if_neg hnone, hsome, Option.map_some, Option.elim_some, allEvents_bind_pure_iff,
    result_bind_pure]
  rcases Nat.eq_zero_or_pos p.length with hzero | hpos
  · refine iff_of_false (fun h => ?_) fun h => absurd hzero h.1.ne'
    rw [forEachString, ofPropNextString_some] at h
    have hstrlen := (allEvents_bind_iff.mp (allEvents_bind_iff.mp h.1).1).1
    exact absurd (strlen_outside (fun j _ hj => absurd hj (Nat.not_lt_zero j)) le_rfl (by omega) hstrlen).2 (by omega)
  · rw [forEachString_allEvents_iff hnone hpos hfuel (by omega), and_iff_right hpos]
    refine and_iff_left_of_imp fun hlast => ?_
    rw [forEachString_result hlast hpos hfuel (by omega), stringStarts_eq hpos hlast]
    rfl

/-! ### All readers -/

/-- When the readers of a property stay inside its value. -/
theorem propertyReaders_inside_iff (hlen : p.length < 2 ^ 31) (hrounds : p.length + 1 < rounds) :
    (∀ index out, IndexInside 4 p index out (ofPropertyReadU32Index (some p) index out) ↔
        (p.value ≠ none → (index + 1) * 4 < 2 ^ 32 ∨ p.length < u32 ((index + 1) * 4))) ∧
      (∀ index out, IndexInside 8 p index out (ofPropertyReadU64Index (some p) index out) ↔
        (p.value ≠ none → (index + 1) * 8 < 2 ^ 32 ∨ p.length < u32 ((index + 1) * 8))) ∧
      (∀ out szMin szMax, ArrayInside 1 p out szMin szMax (ofPropertyReadVariableU8Array (some p) out szMin szMax) ↔
        ArrayChecked 1 p szMin szMax) ∧
      (∀ out szMin szMax, ArrayInside 2 p out szMin szMax (ofPropertyReadVariableU16Array (some p) out szMin szMax) ↔
        ArrayChecked 2 p szMin szMax) ∧
      (∀ out szMin szMax, ArrayInside 4 p out szMin szMax (ofPropertyReadVariableU32Array (some p) out szMin szMax) ↔
        ArrayChecked 4 p szMin szMax) ∧
      (∀ out szMin szMax, ArrayInside 8 p out szMin szMax (ofPropertyReadVariableU64Array (some p) out szMin szMax) ↔
        ArrayChecked 8 p szMin szMax) ∧
      (CellsInside p (forEachU32 p rounds none) ↔ p.value ≠ none ∧ 0 < p.length ∧ 4 ∣ p.length) ∧
      (StringsInside p (forEachString p rounds rounds none) ↔
        (p.value ≠ none → 0 < p.length ∧ p.bytes (p.length - 1) = 0)) :=
  ⟨readIndex_inside_iff hlen (by decide), readIndex_inside_iff hlen (by decide),
    readVariable_inside_iff (readsElem_readBe (by decide)) hlen, readVariable_inside_iff (readsElem_readBe (by decide)) hlen,
    readVariable_inside_iff (readsElem_readBe (by decide)) hlen, readVariable_inside_iff readsElem_readNumber hlen,
    forEachU32_inside_iff (Nat.lt_of_succ_lt hrounds), forEachString_inside_iff (Nat.lt_of_succ_lt hrounds) hrounds⟩

/-- A cell with the value one. -/
def oneCell : PropValue := ⟨some fun i => if i = 3 then 1 else 0, 4⟩

/-- Its cells are visited. -/
theorem oneCell_visited : CellsInside oneCell (forEachU32 oneCell 6 none) :=
  (propertyReaders_inside_iff (by decide) (by decide)).2.2.2.2.2.2.1.mpr ⟨Option.some_ne_none _, by decide, by decide⟩

/-- The size for the last index wraps to zero, and a cell sixteen gigabytes behind the value is read. -/
theorem oneCell_lastIndex :
    16 * 2 ^ 30 - 4 ∈ (ofPropertyReadU32Index (some oneCell) (2 ^ 32 - 1) 0).trace ∧
      ¬IndexInside 4 oneCell (2 ^ 32 - 1) 0 (ofPropertyReadU32Index (some oneCell) (2 ^ 32 - 1) 0) := by
  have hout : ¬IndexInside 4 oneCell (2 ^ 32 - 1) 0 (ofPropertyReadU32Index (some oneCell) (2 ^ 32 - 1) 0) := fun h =>
    absurd ((readIndex_inside_iff (by decide) (by decide) _ _).mp h (Option.some_ne_none _)) (by decide)
  exact ⟨by decide, hout⟩

end GfpDrivers.Of.Reader
