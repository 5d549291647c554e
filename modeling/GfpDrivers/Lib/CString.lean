import Mathlib.Data.List.DropRight
import Mathlib.Data.List.GetD
import Mathlib.Data.UInt

/-!
C strings as lists of bytes without the zero byte at the end. A pointer into a string is the
part of the string from there on, so that a pointer is before another one if its part is longer.
-/

namespace GfpDrivers.Lib

/-- A string does not contain the zero byte that ends it. -/
def CStr : Type := {cs : List UInt8 // 0 ∉ cs}

instance : DecidableEq CStr := inferInstanceAs (DecidableEq {cs : List UInt8 // 0 ∉ cs})

/-- The bytes before the final zero byte. -/
def CStr.bytes (s : CStr) : List UInt8 := s.1

theorem CStr.zero_notMem (s : CStr) : 0 ∉ s.bytes := s.2

/-- The string `s` is stored at `b`. -/
def StoredAt (b : ℕ → UInt8) (s : List UInt8) : Prop := ∀ i ≤ s.length, b i = s.getD i 0

/-- The bytes of a list of strings, each with its zero byte. -/
def joined (strs : List CStr) : List UInt8 := strs.flatMap fun s => s.bytes ++ [0]

variable {b : ℕ → UInt8} {s t cs : List UInt8} {c x : UInt8} {fuel : ℕ}

theorem StoredAt.tail (h : StoredAt b (c :: s)) : StoredAt (fun i => b (i + 1)) s := fun i hi => by
  simpa using h (i + 1) (by simpa using hi)

theorem StoredAt.head (h : StoredAt b (c :: s)) : b 0 = c := by simpa using h 0 (Nat.zero_le _)

theorem storedAt_nil (h : StoredAt b []) : b 0 = 0 := by simpa using h 0 le_rfl

/-! ### Functions -/

/-- `strlen`. The number bounds the rounds of the loop. -/
def strlen : ℕ → (ℕ → UInt8) → Option ℕ
  | 0, _ => none
  | fuel + 1, b => if b 0 = 0 then some 0 else (strlen fuel fun i => b (i + 1)).map (· + 1)

/-- `isupper` -/
def isupper (c : UInt8) : Bool := (65 ≤ c && c ≤ 90) || (192 ≤ c && c ≤ 222 && c ≠ 215)

/-- `tolower` -/
def tolower (c : UInt8) : UInt8 := if isupper c then c + 32 else c

/-- Whether `strcmp` of a string in memory returns zero. -/
def strcmpEq : (ℕ → UInt8) → List UInt8 → Bool
  | b, [] => b 0 = 0
  | b, c :: cs => b 0 = c && strcmpEq (fun i => b (i + 1)) cs

/-- Whether `strcasecmp` of a string in memory returns zero. -/
def strcasecmpEq : (ℕ → UInt8) → List UInt8 → Bool
  | b, [] => tolower (b 0) = tolower 0
  | b, c :: cs => tolower (b 0) = tolower c && strcasecmpEq (fun i => b (i + 1)) cs

/-- Whether `strncmp` returns zero. -/
def strncmpEq (s t : List UInt8) (n : ℕ) : Bool := s.take n = t.take n

/-- `strchrnul` -/
def strchrnul (s : List UInt8) (c : UInt8) : List UInt8 := s.dropWhile (· ≠ c)

/-- `kbasename` -/
def kbasename (path : List UInt8) : List UInt8 := path.rtakeWhile (· ≠ '/'.toUInt8)

/-- The strings differ in the case of letters at most. -/
def CStr.SameLetters (s t : CStr) : Prop := s.bytes.map tolower = t.bytes.map tolower

instance (s t : CStr) : Decidable (s.SameLetters t) := inferInstanceAs (Decidable (_ = _))

/-! ### What they return -/

theorem joined_cons (s : CStr) (strs : List CStr) : joined (s :: strs) = s.bytes ++ 0 :: joined strs := by
  simp [joined]

/-- The first string of a list. -/
theorem storedAt_joined {s : CStr} {strs : List CStr}
    (h : ∀ i < (joined (s :: strs)).length, b i = (joined (s :: strs)).getD i 0) : StoredAt b s.bytes := by
  intro i hi
  have hlt : i < (joined (s :: strs)).length := by
    rw [joined_cons, List.length_append, List.length_cons]
    omega
  rw [h i hlt, joined_cons]
  rcases Nat.lt_or_eq_of_le hi with hlt | rfl
  · rw [List.getD_append _ _ _ _ hlt]
  · rw [List.getD_append_right _ _ _ _ le_rfl, Nat.sub_self]
    simp

theorem strlen_stored (h : StoredAt b s) (hs : 0 ∉ s) (hfuel : s.length < fuel) : strlen fuel b = some s.length := by
  induction s generalizing b fuel with
  | nil =>
    obtain ⟨fuel, rfl⟩ := Nat.exists_eq_add_of_lt hfuel
    simp [strlen, storedAt_nil h]
  | cons c s ih =>
    obtain ⟨fuel, rfl⟩ := Nat.exists_eq_add_of_le' (Nat.one_le_of_lt hfuel)
    simp only [List.mem_cons, not_or] at hs
    have hc : b 0 ≠ 0 := h.head ▸ Ne.symm hs.1
    rw [strlen, if_neg hc, ih h.tail hs.2 (by simpa using hfuel)]
    rfl

theorem tolower_eq_zero : tolower c = 0 ↔ c = 0 := by
  rw [tolower]
  split
  next hupper =>
    have hrange : 65 ≤ c.toNat ∧ c.toNat ≤ 222 := by
      simp [isupper, UInt8.le_iff_toNat_le] at hupper
      omega
    rw [← UInt8.toNat_inj, ← UInt8.toNat_inj, UInt8.toNat_add]
    change (c.toNat + 32) % 256 = 0 ↔ c.toNat = 0
    omega
  next => rfl

/-- Letters of both cases are the same. -/
theorem strcasecmpEq_stored (h : StoredAt b s) (hs : 0 ∉ s) (ht : 0 ∉ t) :
    strcasecmpEq b t ↔ s.map tolower = t.map tolower := by
  have hzero : tolower 0 = 0 := tolower_eq_zero.mpr rfl
  induction t generalizing b s with
  | nil =>
    cases s with
    | nil => simp [strcasecmpEq, storedAt_nil h]
    | cons c s =>
      simp only [List.mem_cons, not_or] at hs
      simp [strcasecmpEq, h.head, hzero, tolower_eq_zero, Ne.symm hs.1]
  | cons x t ih =>
    simp only [List.mem_cons, not_or] at ht
    cases s with
    | nil =>
      have hx : tolower 0 ≠ tolower x := fun heq => ht.1 (tolower_eq_zero.mp (heq.symm.trans hzero)).symm
      simp [strcasecmpEq, storedAt_nil h, hx]
    | cons c s =>
      simp only [List.mem_cons, not_or] at hs
      have htail := ih h.tail hs.2 ht.2
      simp [strcasecmpEq, h.head, htail]

end GfpDrivers.Lib
