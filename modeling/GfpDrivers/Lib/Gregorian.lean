import Mathlib.Algebra.Order.BigOperators.Group.Finset

/-!
The Gregorian calendar, carried back to the year `0`. The number of a day counts
the days of the years before, of the months before and of the month up to it
(`Date.number`); no two dates have the same number (`Date.number_inj`). The number
of days before a year has a closed form (`yearStart_add`).
-/

namespace GfpDrivers.Lib.Gregorian

open Finset

/-- The `4`/`100`/`400` rule. -/
def IsLeap (year : ℕ) : Prop := year % 4 = 0 ∧ year % 100 ≠ 0 ∨ year % 400 = 0

instance (year : ℕ) : Decidable (IsLeap year) := inferInstanceAs (Decidable (_ ∨ _))

/-- How many days a month has. January is month `0`. -/
def monthLength (leap : Bool) (month : ℕ) : ℕ :=
  if month = 1 then if leap then 29 else 28
  else if month = 3 ∨ month = 5 ∨ month = 8 ∨ month = 10 then 30
  else 31

/-- The days of the months before `month`. -/
def monthStart (leap : Bool) (month : ℕ) : ℕ := ∑ m ∈ range month, monthLength leap m

def yearLength (year : ℕ) : ℕ := if IsLeap year then 366 else 365

/-- The days of the years before `year`. -/
def yearStart (year : ℕ) : ℕ := ∑ y ∈ range year, yearLength y

structure Date where
  year : ℕ
  month : ℕ
  day : ℕ

namespace Date

def Valid (d : Date) : Prop :=
  d.month < 12 ∧ 1 ≤ d.day ∧ d.day ≤ monthLength (IsLeap d.year) d.month

instance (d : Date) : Decidable d.Valid := inferInstanceAs (Decidable (_ ∧ _))

/-- The day of the year; the first of January is day `1`. -/
def dayOfYear (d : Date) : ℕ := monthStart (IsLeap d.year) d.month + d.day

/-- The number of the day; the first of January of the year `0` has number `1`. -/
def number (d : Date) : ℕ := yearStart d.year + d.dayOfYear

end Date

variable {year month : ℕ} {leap : Bool} {d e : Date}

theorem monthStart_succ : monthStart leap (month + 1) = monthStart leap month + monthLength leap month :=
  sum_range_succ _ _

theorem yearStart_succ : yearStart (year + 1) = yearStart year + yearLength year := sum_range_succ _ _

theorem monthStart_mono (leap : Bool) : Monotone (monthStart leap) :=
  monotone_nat_of_le_succ fun month => by rw [monthStart_succ]; exact Nat.le_add_right _ _

theorem yearStart_mono : Monotone yearStart :=
  monotone_nat_of_le_succ fun year => by rw [yearStart_succ]; exact Nat.le_add_right _ _

/-- A year has twelve months. -/
theorem monthStart_twelve : monthStart (IsLeap year) 12 = yearLength year := by
  by_cases hleap : IsLeap year
  · rw [yearLength, if_pos hleap, decide_eq_true hleap]
    decide
  · rw [yearLength, if_neg hleap, decide_eq_false hleap]
    decide

/-- A year has a day more every `4` years, but not every `100`, though every `400`. -/
theorem yearLength_add (year : ℕ) : yearLength year + (if year % 100 = 0 then 1 else 0) =
    365 + (if year % 4 = 0 then 1 else 0) + (if year % 400 = 0 then 1 else 0) := by
  have h4 : year % 100 = 0 → year % 4 = 0 := by omega
  have h100 : year % 400 = 0 → year % 100 = 0 := by omega
  rw [yearLength]
  by_cases hcentury : year % 100 = 0
  · by_cases hfourth : year % 400 = 0 <;> simp [IsLeap, hcentury, hfourth, h4 hcentury]
  · have hfourth : ¬ year % 400 = 0 := fun h => hcentury (h100 h)
    by_cases hleap : year % 4 = 0 <;> simp [IsLeap, hcentury, hfourth, hleap]

/-- The closed form: the years before `year`, and the leap years among them. -/
theorem yearStart_add (year : ℕ) :
    yearStart year + (year + 99) / 100 = 365 * year + (year + 3) / 4 + (year + 399) / 400 := by
  induction year with
  | zero => rfl
  | succ year ih =>
    have h4 : (year + 1 + 3) / 4 = (year + 3) / 4 + if year % 4 = 0 then 1 else 0 := by split_ifs <;> omega
    have h100 : (year + 1 + 99) / 100 = (year + 99) / 100 + if year % 100 = 0 then 1 else 0 := by split_ifs <;> omega
    have h400 : (year + 1 + 399) / 400 = (year + 399) / 400 + if year % 400 = 0 then 1 else 0 := by split_ifs <;> omega
    have hlength := yearLength_add year
    rw [yearStart_succ, h4, h100, h400]
    generalize (if year % 4 = 0 then 1 else 0) = fourth at hlength ⊢
    generalize (if year % 100 = 0 then 1 else 0) = hundredth at hlength ⊢
    omega

/-- The number behind which the steps of a monotone function add up. -/
theorem eq_of_between {S : ℕ → ℕ} (hS : Monotone S) {i j x : ℕ} (hi : S i < x) (hi' : x ≤ S (i + 1))
    (hj : S j < x) (hj' : x ≤ S (j + 1)) : i = j := by
  rcases Nat.lt_trichotomy i j with hlt | heq | hlt
  · have := hS (show i + 1 ≤ j from hlt)
    omega
  · exact heq
  · have := hS (show j + 1 ≤ i from hlt)
    omega

theorem Date.Valid.dayOfYear_pos (hd : d.Valid) : 0 < d.dayOfYear := by
  have := hd.2.1
  rw [Date.dayOfYear]
  omega

theorem Date.Valid.dayOfYear_le (hd : d.Valid) : d.dayOfYear ≤ yearLength d.year := by
  obtain ⟨hmonth, -, hday⟩ := hd
  rw [← monthStart_twelve]
  calc d.dayOfYear ≤ monthStart (IsLeap d.year) (d.month + 1) := by
        rw [Date.dayOfYear, monthStart_succ]
        omega
    _ ≤ monthStart (IsLeap d.year) 12 := monthStart_mono _ hmonth

/-- **No two dates are the same day.** -/
theorem Date.number_inj (hd : d.Valid) (he : e.Valid) (hnumber : d.number = e.number) : d = e := by
  have hbetween : ∀ {d : Date}, d.Valid → yearStart d.year < d.number ∧ d.number ≤ yearStart (d.year + 1) := by
    intro d hd
    have := hd.dayOfYear_pos
    have := hd.dayOfYear_le
    rw [yearStart_succ, Date.number]
    omega
  have hyear : d.year = e.year :=
    eq_of_between yearStart_mono (hbetween hd).1 (hbetween hd).2 (hnumber ▸ (hbetween he).1) (hnumber ▸ (hbetween he).2)
  have hday : d.dayOfYear = e.dayOfYear := by
    simp only [Date.number, hyear] at hnumber
    omega
  obtain ⟨-, hd₁, hd₂⟩ := hd
  obtain ⟨-, he₁, he₂⟩ := he
  simp only [Date.dayOfYear, hyear] at hday hd₂
  have hmonth : d.month = e.month := by
    refine eq_of_between (monthStart_mono (IsLeap e.year)) (x := monthStart (IsLeap e.year) d.month + d.day)
      ?_ ?_ ?_ ?_
    · omega
    · rw [monthStart_succ]
      omega
    · omega
    · rw [monthStart_succ]
      omega
  rw [hmonth] at hday
  cases d
  cases e
  simp only [Date.mk.injEq]
  exact ⟨hyear, hmonth, by simpa using hday⟩

end GfpDrivers.Lib.Gregorian
