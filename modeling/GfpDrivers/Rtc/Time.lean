import GfpDrivers.Basic
import GfpDrivers.Lib.Gregorian
import Mathlib.Tactic.IntervalCases

/-!
Seconds since 1970 as a date and a time of the day (`rtc/lib.c`).

The date is computed on a calendar whose years begin in March, with 32-bit numbers and with
multiplications and shifts in the place of divisions. A century, a year and a month are each
split off the days that are left (`century_split`, `year_split`, `month_split`), and put
together they number the days as the Gregorian calendar does.
-/

namespace GfpDrivers.Rtc

open Lib Lib.Gregorian

/-- `struct rtc_time` -/
structure RtcTime where
  tmSec : ℤ
  tmMin : ℤ
  tmHour : ℤ
  tmMday : ℤ
  tmMon : ℤ
  tmYear : ℤ
  tmWday : ℤ
  tmYday : ℤ
  tmIsdst : ℤ

/-- The conversions to `u32` and to `int`. -/
def u32 (x : ℤ) : ℕ := (x % 2 ^ 32).toNat

def int (x : ℤ) : ℤ := x.bmod (2 ^ 32)

def INT_MAX : ℤ := 2 ^ 31 - 1

def rtcDaysInMonth : List ℕ := [31, 28, 31, 30, 31, 30, 31, 31, 30, 31, 30, 31]

def rtcYdays : List (List ℕ) :=
  [[0, 31, 59, 90, 120, 151, 181, 212, 243, 273, 304, 334, 365],
    [0, 31, 60, 91, 121, 152, 182, 213, 244, 274, 305, 335, 366]]

/-- `is_leap_year` -/
def isLeapYear (year : ℕ) : Bool := (year % 4 == 0 && year % 100 != 0) || year % 400 == 0

/-- `rtc_month_days`, for a month of the year. -/
def rtcMonthDays (month year : ℕ) : ℤ :=
  rtcDaysInMonth.getD month 0 + (isLeapYear year && month == 1).toNat

/-- `rtc_year_days`, for a month of the year. -/
def rtcYearDays (day month year : ℕ) : ℤ :=
  int ((rtcYdays.getD (isLeapYear year).toNat []).getD month 0 + day - 1)

/-- What `rtc_time64_to_tm` has before it converts to the format of `rtc_time`. -/
structure Civil where
  year : ℕ
  month : ℕ
  day : ℕ
  dayOfYear : ℕ

/-- The part of `rtc_time64_to_tm` that turns `udays` into a date. -/
def civil (udays : ℕ) : Civil :=
  let u32tmp := (4 * udays + 3) % 2 ^ 32
  let century := u32tmp / 146097
  let dayOfCentury := u32tmp % 146097 / 4
  let u32tmp := (4 * dayOfCentury + 3) % 2 ^ 32
  let u64tmp := 2939745 * u32tmp % 2 ^ 64
  let yearOfCentury := u64tmp / 2 ^ 32
  let dayOfYear := u64tmp % 2 ^ 32 / 2939745 / 4
  let year := (100 * century + yearOfCentury) % 2 ^ 32
  let isLeapYear : Bool := if yearOfCentury ≠ 0 then yearOfCentury % 4 = 0 else century % 4 = 0
  let u32tmp := (2141 * dayOfYear + 132377) % 2 ^ 32
  let month := u32tmp / 2 ^ 16
  let day := u32tmp % 2 ^ 16 / 2141
  have isJanOrFeb : Bool := 306 ≤ dayOfYear
  { year := (year + isJanOrFeb.toNat) % 2 ^ 32
    month := if isJanOrFeb then (month + (2 ^ 32 - 12)) % 2 ^ 32 else month
    day := (day + 1) % 2 ^ 32
    dayOfYear :=
      if isJanOrFeb then (dayOfYear + (2 ^ 32 - 306)) % 2 ^ 32
      else (dayOfYear + 31 + 28 + isLeapYear.toNat) % 2 ^ 32 }

/-- `rtc_time64_to_tm` -/
def rtcTime64ToTm (time : ℤ) : RtcTime :=
  let days := int (time.tdiv 86400)
  let secs := u32 (time.tmod 86400)
  let date := civil (u32 (days + 719468))
  let tmHour := secs / 3600
  let secs' := u32 (secs - tmHour * 3600)
  let tmMin := secs' / 60
  { tmWday := (days + 4).tmod 7
    tmYear := int (date.year - 1900)
    tmMon := int date.month
    tmMday := int date.day
    tmYday := int (int date.dayOfYear + 1)
    tmHour := tmHour
    tmMin := tmMin
    tmSec := int (secs' - tmMin * 60)
    tmIsdst := 0 }

/-- `rtc_valid_tm` -/
def rtcValidTm (tm : RtcTime) : ℤ :=
  if tm.tmYear < 70 ∨ INT_MAX - 1900 < tm.tmYear ∨ 12 ≤ u32 tm.tmMon ∨ tm.tmMday < 1 ∨
      rtcMonthDays (u32 tm.tmMon) (u32 (tm.tmYear + 1900)) < tm.tmMday ∨
      24 ≤ u32 tm.tmHour ∨ 60 ≤ u32 tm.tmMin ∨ 60 ≤ u32 tm.tmSec then -EINVAL
  else 0

variable {n c k udays doc doy year month : ℕ}

theorem u32_of_lt (h : n < 2 ^ 32) : u32 n = n := by
  simp only [u32]
  omega

theorem int_of_lt {x : ℤ} (hlo : -2 ^ 31 ≤ x) (hhi : x < 2 ^ 31) : int x = x := by
  simp only [int, Int.bmod_def]
  split <;> omega

/-! ### The tables -/

theorem isLeapYear_eq : isLeapYear year = decide (IsLeap year) := by
  rw [Bool.eq_iff_iff, decide_eq_true_eq, IsLeap, isLeapYear, Bool.or_eq_true, Bool.and_eq_true, beq_iff_eq, bne_iff_ne,
    beq_iff_eq]

theorem rtcMonthDays_eq (hmonth : month < 12) : rtcMonthDays month year = monthLength (IsLeap year) month := by
  rw [rtcMonthDays, isLeapYear_eq]
  generalize decide (IsLeap year) = leap
  have htable : ∀ leap : Bool, ∀ month < 12,
      ((rtcDaysInMonth.getD month 0 : ℤ) + (leap && month == 1).toNat) = monthLength leap month := by decide
  exact htable leap month hmonth

/-- `rtc_year_days` counts from `0`. -/
theorem rtcYearDays_eq {d : Date} (hd : d.Valid) : rtcYearDays d.day d.month d.year = d.dayOfYear - 1 := by
  have htable : ∀ leap : Bool, ∀ month < 12, (rtcYdays.getD leap.toNat []).getD month 0 = monthStart leap month := by
    decide
  have hle := hd.dayOfYear_le
  have hlength : yearLength d.year ≤ 366 := by
    rw [yearLength]
    split <;> omega
  rw [rtcYearDays, isLeapYear_eq, htable _ _ hd.1]
  have hsum : ((monthStart (IsLeap d.year) d.month : ℕ) : ℤ) + d.day = d.dayOfYear := by
    rw [Date.dayOfYear, Nat.cast_add]
  rw [hsum, int_of_lt (by omega) (by omega)]

/-! ### The date -/

theorem quarter_split {x length q m d : ℕ} (hsum : 4 * x + 3 = length * q + m) (hlength : length % 4 = 1) (hd : m / 4 = d) :
    m = 4 * d + (3 - q % 4) := by
  obtain ⟨l, rfl⟩ : ∃ l, length = 4 * l + 1 := ⟨length / 4, by omega⟩
  have hmul : (4 * l + 1) * q = 4 * (l * q) + q := by rw [Nat.add_mul, Nat.mul_assoc, Nat.one_mul]
  rw [hmul] at hsum
  have hmod : (q + m) % 4 = 3 := by
    generalize l * q = whole at hsum
    omega
  omega

/-- The centuries: each fourth one, which ends with a leap year, has a day more. -/
theorem century_split (hc : (4 * udays + 3) / 146097 = c) (hdoc : (4 * udays + 3) % 146097 / 4 = doc) :
    udays = 36524 * c + c / 4 + doc ∧ doc ≤ 36524 ∧ (doc = 36524 → c % 4 = 3) := by
  have hmod : (4 * udays + 3) % 146097 = 4 * doc + (3 - c % 4) :=
    quarter_split (hc ▸ (Nat.div_add_mod (4 * udays + 3) 146097).symm) (by decide) hdoc
  have hlt := Nat.mod_lt (4 * udays + 3) (show 146097 > 0 by decide)
  omega

/-- The years of a century: each fourth one has a day more. As `2939745 * 1461 = 2 ^ 32 + 149`, the
upper and the lower half of the product are a division by `1461`. -/
theorem year_split (hdoc : doc ≤ 36524) (hk : 2939745 * (4 * doc + 3) / 2 ^ 32 = k)
    (hdoy : 2939745 * (4 * doc + 3) % 2 ^ 32 / 2939745 / 4 = doy) :
    doc = 365 * k + k / 4 + doy ∧ k ≤ 99 ∧ doy ≤ 365 ∧ (doy = 365 → k % 4 = 3 ∧ (k = 99 → doc = 36524)) := by
  obtain ⟨q, m, hn, hm⟩ : ∃ q m, 4 * doc + 3 = 1461 * q + m ∧ m < 1461 :=
    ⟨(4 * doc + 3) / 1461, (4 * doc + 3) % 1461, by omega, by omega⟩
  have hmul : 2939745 * (4 * doc + 3) = 2 ^ 32 * q + (149 * q + 2939745 * m) := by omega
  have hupper : 2939745 * (4 * doc + 3) / 2 ^ 32 = q := by omega
  have hlower : 2939745 * (4 * doc + 3) % 2 ^ 32 = 149 * q + 2939745 * m := by omega
  have hm' : (149 * q + 2939745 * m) / 2939745 = m := by omega
  rw [hlower, hm'] at hdoy
  rw [hupper] at hk
  clear hmul hupper hlower hm'
  have hmod : m = 4 * doy + (3 - k % 4) := quarter_split (hk ▸ hn) (by decide) hdoy
  rw [hk] at hn
  have hdoc' : doc = 365 * k + k / 4 + doy := by omega
  have hk' : k ≤ 99 := by omega
  have hlast : doy = 365 → k % 4 = 3 := by omega
  refine ⟨hdoc', hk', by omega, fun h => ⟨hlast h, fun h99 => ?_⟩⟩
  subst h h99
  exact hdoc'

theorem isLeap_last (hk : k ≤ 99) (hmod : k % 4 = 3) (hlast : k = 99 → c % 4 = 3) : IsLeap (100 * c + k + 1) := by
  by_cases hk99 : k = 99
  · have := hlast hk99
    exact .inr (by omega)
  · exact .inl ⟨by omega, by omega⟩

/-- From March on, five months in a row have `153` days. -/
theorem monthStart_eq (leap : Bool) (hlo : 2 ≤ month) (hhi : month < 12) :
    monthStart leap month = 59 + leap.toNat + (153 * (month - 2) + 2) / 5 ∧
      monthLength leap month = (153 * (month - 1) + 2) / 5 - (153 * (month - 2) + 2) / 5 := by
  have htable : ∀ leap : Bool, ∀ month < 12, 2 ≤ month →
      monthStart leap month = 59 + leap.toNat + (153 * (month - 2) + 2) / 5 ∧
        monthLength leap month = (153 * (month - 1) + 2) / 5 - (153 * (month - 2) + 2) / 5 := by
    decide
  exact htable leap month hhi hlo

/-- The months from March to December, in a year of either length. -/
theorem month_split (leap : Bool) (hdoy : doy < 306) (hmonth : (2141 * doy + 132377) / 2 ^ 16 = month) :
    month < 12 ∧ (2141 * doy + 132377) % 2 ^ 16 / 2141 + 1 ≤ monthLength leap month ∧
      monthStart leap month + ((2141 * doy + 132377) % 2 ^ 16 / 2141 + 1) = doy + 60 + leap.toNat := by
  have hlo : 2 ≤ month := by omega
  have hhi : month < 12 := by omega
  obtain ⟨hstart, hlength⟩ := monthStart_eq leap hlo hhi
  rw [hstart, hlength]
  interval_cases month <;> omega

theorem month_split_last (leap : Bool) (hhi : doy < 365 + leap.toNat)
    (hmonth : (2141 * doy + 132377) / 2 ^ 16 = month + 12) :
    month < 12 ∧ (2141 * doy + 132377) % 2 ^ 16 / 2141 + 1 ≤ monthLength leap month ∧
      monthStart leap month + ((2141 * doy + 132377) % 2 ^ 16 / 2141 + 1) = doy - 305 := by
  have hleap := Bool.toNat_le leap
  have hfirst : month < 2 := by omega
  have hlength : monthLength leap 0 = 31 ∧ monthLength leap 1 = 28 + leap.toNat := by
    cases leap <;> decide
  have hstart : monthStart leap 0 = 0 ∧ monthStart leap 1 = 31 := by
    cases leap <;> decide
  interval_cases month <;> omega

theorem civil_eq (hudays : udays < 2 ^ 30) (hc : (4 * udays + 3) / 146097 = c)
    (hdoc : (4 * udays + 3) % 146097 / 4 = doc) (hk : 2939745 * (4 * doc + 3) / 2 ^ 32 = k)
    (hdoy : 2939745 * (4 * doc + 3) % 2 ^ 32 / 2939745 / 4 = doy) :
    civil udays =
      if 306 ≤ doy then
        ⟨100 * c + k + 1, (2141 * doy + 132377) / 2 ^ 16 - 12, (2141 * doy + 132377) % 2 ^ 16 / 2141 + 1, doy - 306⟩
      else
        ⟨100 * c + k, (2141 * doy + 132377) / 2 ^ 16, (2141 * doy + 132377) % 2 ^ 16 / 2141 + 1,
          doy + 59 + (decide (IsLeap (100 * c + k))).toNat⟩ := by
  obtain ⟨-, hdoc', -⟩ := century_split hc hdoc
  obtain ⟨-, hk', hdoy', -⟩ := year_split hdoc' hk hdoy
  have hc' : c ≤ 29399 := by omega
  have hleap : (if k ≠ 0 then decide (k % 4 = 0) else decide (c % 4 = 0)) = decide (IsLeap (100 * c + k)) := by
    by_cases hk0 : k = 0
    · rw [if_neg (not_not_intro hk0), decide_eq_decide, IsLeap]
      omega
    · rw [if_pos hk0, decide_eq_decide, IsLeap]
      omega
  have hbool := Bool.toNat_le (decide (IsLeap (100 * c + k)))
  have hu₁ : (4 * udays + 3) % 2 ^ 32 = 4 * udays + 3 := Nat.mod_eq_of_lt (by omega)
  have hu₂ : (4 * doc + 3) % 2 ^ 32 = 4 * doc + 3 := Nat.mod_eq_of_lt (by omega)
  have hu₃ : 2939745 * (4 * doc + 3) % 2 ^ 64 = 2939745 * (4 * doc + 3) := Nat.mod_eq_of_lt (by omega)
  have hu₄ : (2141 * doy + 132377) % 2 ^ 32 = 2141 * doy + 132377 := Nat.mod_eq_of_lt (by omega)
  simp only [civil, hu₁, hc, hdoc, hu₂, hu₃, hk, hdoy, hu₄, hleap]
  clear hc hdoc hk hdoy hu₁ hu₂ hu₃ hu₄
  by_cases hlate : 306 ≤ doy
  · simp only [hlate, decide_true, if_true, Bool.toNat_true, Civil.mk.injEq]
    omega
  · simp only [hlate, decide_false, if_false, Bool.toNat_false, Bool.false_eq_true, Civil.mk.injEq, true_and]
    omega

/-- **The date.** The first of March of the year `0` is day `0` of the algorithm, and day `61` of
the calendar. -/
theorem civil_number (hudays : udays < 2 ^ 30) :
    ∃ d : Date, civil udays = ⟨d.year, d.month, d.day, d.dayOfYear - 1⟩ ∧ d.Valid ∧ d.number = udays + 61 := by
  obtain ⟨c, hc⟩ : ∃ c, (4 * udays + 3) / 146097 = c := ⟨_, rfl⟩
  obtain ⟨doc, hdoc⟩ : ∃ doc, (4 * udays + 3) % 146097 / 4 = doc := ⟨_, rfl⟩
  obtain ⟨k, hk⟩ : ∃ k, 2939745 * (4 * doc + 3) / 2 ^ 32 = k := ⟨_, rfl⟩
  obtain ⟨doy, hdoy⟩ : ∃ doy, 2939745 * (4 * doc + 3) % 2 ^ 32 / 2939745 / 4 = doy := ⟨_, rfl⟩
  obtain ⟨hcentury, hdoc', hlast⟩ := century_split hc hdoc
  obtain ⟨hyear, hk', hdoy', hlast'⟩ := year_split hdoc' hk hdoy
  -- the day before the first of March, and whether it is in a leap year
  have hstart : yearStart (100 * c + k + 1) = 36524 * c + c / 4 + 365 * k + k / 4 + 366 := by
    have hadd := yearStart_add (100 * c + k + 1)
    have h4 : (100 * c + k + 1 + 3) / 4 = 25 * c + k / 4 + 1 := by omega
    have h100 : (100 * c + k + 1 + 99) / 100 = c + 1 := by omega
    have h400 : (100 * c + k + 1 + 399) / 400 = c / 4 + 1 := by omega
    omega
  have hnext : yearStart (100 * c + k + 1) = yearStart (100 * c + k) + 365 + (decide (IsLeap (100 * c + k))).toNat := by
    rw [yearStart_succ, yearLength]
    by_cases hleap : IsLeap (100 * c + k)
    · simp [hleap]
    · simp [hleap]
  rw [civil_eq hudays hc hdoc hk hdoy]
  clear hc hdoc hk hdoy
  by_cases hlate : 306 ≤ doy
  · have hlt : doy < 365 + (decide (IsLeap (100 * c + k + 1))).toNat := by
      by_cases hleap : IsLeap (100 * c + k + 1)
      · rw [decide_eq_true hleap]
        exact Nat.lt_succ_of_le hdoy'
      · rw [decide_eq_false hleap]
        have hne : doy ≠ 365 := fun heq =>
          hleap (isLeap_last hk' (hlast' heq).1 fun hk99 => hlast ((hlast' heq).2 hk99))
        simp only [Bool.toNat_false]
        omega
    have hge : 12 ≤ (2141 * doy + 132377) / 2 ^ 16 := by omega
    obtain ⟨hmonth, hday, hsum⟩ := month_split_last _ hlt (Nat.sub_add_cancel hge).symm
    refine ⟨⟨100 * c + k + 1, (2141 * doy + 132377) / 2 ^ 16 - 12, (2141 * doy + 132377) % 2 ^ 16 / 2141 + 1⟩,
      ?_, ⟨hmonth, Nat.le_add_left _ _, hday⟩, ?_⟩
    · rw [if_pos hlate, Civil.mk.injEq, Date.dayOfYear]
      refine ⟨rfl, rfl, rfl, ?_⟩
      dsimp only
      omega
    · rw [Date.number, Date.dayOfYear]
      dsimp only
      omega
  · obtain ⟨hmonth, hday, hsum⟩ := month_split (decide (IsLeap (100 * c + k))) (not_le.mp hlate) rfl
    refine ⟨⟨100 * c + k, (2141 * doy + 132377) / 2 ^ 16, (2141 * doy + 132377) % 2 ^ 16 / 2141 + 1⟩,
      ?_, ⟨hmonth, Nat.le_add_left _ _, hday⟩, ?_⟩
    · rw [if_neg hlate, Civil.mk.injEq, Date.dayOfYear]
      refine ⟨rfl, rfl, rfl, ?_⟩
      dsimp only
      omega
    · rw [Date.number, Date.dayOfYear]
      dsimp only
      omega

/-! ### The whole -/

def epoch : Date := ⟨1970, 0, 1⟩

theorem epoch_number : epoch.number = 719529 := by
  -- with a variable for the year, which is not to be unfolded
  have hstart : ∀ year, year = 1970 → yearStart year = 719528 := by
    intro year hyear
    have hadd := yearStart_add year
    omega
  have hday : epoch.dayOfYear = 1 := by decide
  rw [Date.number, hstart epoch.year rfl, hday]

/-- The years that come up: from 1970 on, and small enough for an `int`. -/
theorem year_bounds {d : Date} (hd : d.Valid) (hlo : epoch.number ≤ d.number) (hhi : d.number < 2 ^ 30 + 61) :
    1970 ≤ d.year ∧ d.year < 2 ^ 22 := by
  have hstart := yearStart_add d.year
  have hpos := hd.dayOfYear_pos
  have hle := hd.dayOfYear_le
  rw [epoch_number, Date.number] at hlo
  rw [Date.number] at hhi
  refine ⟨?_, by omega⟩
  by_contra hlt
  have hmono := yearStart_mono (show d.year + 1 ≤ 1970 by omega)
  have h1970 := yearStart_add 1970
  rw [yearStart_succ] at hmono
  omega

theorem monthLength_le (leap : Bool) (month : ℕ) : monthLength leap month ≤ 31 := by
  simp only [monthLength]
  split_ifs <;> omega

theorem rtcTime64ToTm_eq {t : ℕ} {d : Date} (ht : t / 86400 + 719468 < 2 ^ 30) (hd : d.Valid)
    (hcivil : civil (t / 86400 + 719468) = ⟨d.year, d.month, d.day, d.dayOfYear - 1⟩) (hyear : 1970 ≤ d.year ∧ d.year < 2 ^ 22) :
    rtcTime64ToTm t =
      { tmWday := (t / 86400 + 4) % 7
        tmYear := d.year - 1900
        tmMon := d.month
        tmMday := d.day
        tmYday := d.dayOfYear
        tmHour := (t % 86400 / 3600 : ℕ)
        tmMin := (t % 86400 % 3600 / 60 : ℕ)
        tmSec := (t % 86400 % 60 : ℕ)
        tmIsdst := 0 } := by
  have hdays : int ((t : ℤ).tdiv 86400) = (t / 86400 : ℕ) := by
    rw [Int.tdiv_eq_ediv_of_nonneg (by omega), int_of_lt (by omega) (by omega)]
    rfl
  have hsecs : u32 ((t : ℤ).tmod 86400) = t % 86400 := by
    rw [Int.tmod_eq_emod_of_nonneg (by omega)]
    exact u32_of_lt (n := t % 86400) (by omega)
  have hudays : u32 (((t / 86400 : ℕ) : ℤ) + 719468) = t / 86400 + 719468 :=
    u32_of_lt (n := t / 86400 + 719468) (by omega)
  have hrest : u32 (((t % 86400 : ℕ) : ℤ) - ((t % 86400 / 3600 : ℕ) : ℤ) * 3600) = t % 86400 % 3600 := by
    rw [show ((t % 86400 : ℕ) : ℤ) - ((t % 86400 / 3600 : ℕ) : ℤ) * 3600 = (t % 86400 % 3600 : ℕ) by omega]
    exact u32_of_lt (by omega)
  obtain ⟨hmonth, hday, hlast⟩ := hd
  have hday31 := monthLength_le (IsLeap d.year) d.month
  have hle := Date.Valid.dayOfYear_le ⟨hmonth, hday, hlast⟩
  have hpos := Date.Valid.dayOfYear_pos ⟨hmonth, hday, hlast⟩
  have hlength : yearLength d.year ≤ 366 := by
    rw [yearLength]
    split <;> omega
  simp only [rtcTime64ToTm, hdays, hsecs, hudays, hrest, hcivil, RtcTime.mk.injEq, and_true, true_and]
  refine ⟨?_, ?_, ?_, ?_, ?_, ?_⟩
  · rw [int_of_lt (by omega) (by omega)]
    omega
  · exact int_of_lt (by omega) (by omega)
  · exact int_of_lt (by omega) (by omega)
  · exact int_of_lt (by omega) (by omega)
  · rw [Int.tmod_eq_emod_of_nonneg (by omega)]
    rfl
  · rw [int_of_lt (x := ((d.dayOfYear - 1 : ℕ) : ℤ)) (by omega) (by omega), int_of_lt (by omega) (by omega)]
    omega

/-- A date from 1970 on and a time of the day are valid for the driver. -/
theorem rtcValidTm_eq {tm : RtcTime} {d : Date} {hour min sec : ℕ} (hd : d.Valid)
    (hyear : 1970 ≤ d.year ∧ d.year < 2 ^ 22) (htmYear : tm.tmYear = d.year - 1900) (htmMon : tm.tmMon = d.month)
    (htmMday : tm.tmMday = d.day) (htmHour : tm.tmHour = hour) (htmMin : tm.tmMin = min) (htmSec : tm.tmSec = sec)
    (hhour : hour < 24) (hmin : min < 60) (hsec : sec < 60) : rtcValidTm tm = 0 := by
  obtain ⟨hmonth, hday, hlast⟩ := hd
  have hmon : u32 tm.tmMon = d.month := by
    rw [htmMon]
    exact u32_of_lt (by omega)
  have hyear' : u32 (tm.tmYear + 1900) = d.year := by
    rw [htmYear, show ((d.year : ℤ) - 1900 + 1900) = d.year by omega]
    exact u32_of_lt (by omega)
  rw [rtcValidTm, hmon, hyear', rtcMonthDays_eq hmonth, htmYear, htmMday, htmHour, htmMin, htmSec,
    u32_of_lt (by omega), u32_of_lt (by omega), u32_of_lt (by omega), if_neg]
  simp only [INT_MAX]
  omega

/-- **`rtc_time64_to_tm` is the Gregorian calendar.** The fields are the time of the day, the day
of the week, and the one date that is so many days after the first of January 1970, with its
day of the year; and `rtc_valid_tm` accepts them. -/
theorem rtcTime64ToTm_gregorian (time : ℤ) (hpos : 0 ≤ time) (hlt : time / 86400 + 719468 < 2 ^ 30) :
    ∃ tm, rtcTime64ToTm time = tm ∧ tm.tmSec + 60 * tm.tmMin + 3600 * tm.tmHour = time % 86400 ∧
      (0 ≤ tm.tmSec ∧ tm.tmSec < 60) ∧ (0 ≤ tm.tmMin ∧ tm.tmMin < 60) ∧ (0 ≤ tm.tmHour ∧ tm.tmHour < 24) ∧
      tm.tmWday = (time / 86400 + 4) % 7 ∧
      (∃ d : Date, (tm.tmYear + 1900 = d.year ∧ tm.tmMon = d.month ∧ tm.tmMday = d.day) ∧
        (∀ e : Date, e.Valid ∧ (e.number : ℤ) = epoch.number + time / 86400 ↔ e = d) ∧ tm.tmYday = d.dayOfYear) ∧
      rtcValidTm tm = 0 := by
  obtain ⟨t, rfl⟩ := Int.eq_ofNat_of_zero_le hpos
  have hudays : t / 86400 + 719468 < 2 ^ 30 := by omega
  obtain ⟨d, hcivil, hd, hnumber⟩ := civil_number hudays
  have hyear : 1970 ≤ d.year ∧ d.year < 2 ^ 22 := by
    refine year_bounds hd ?_ ?_
    · rw [epoch_number]
      omega
    · omega
  have hsec : t % 86400 % 60 < 60 := Nat.mod_lt _ (by decide)
  have hmin : t % 86400 % 3600 / 60 < 60 := by omega
  have hhour : t % 86400 / 3600 < 24 := by omega
  have htm := rtcTime64ToTm_eq hudays hd hcivil hyear
  have hvalid : rtcValidTm (rtcTime64ToTm t) = 0 := by
    refine rtcValidTm_eq hd hyear ?_ ?_ ?_ ?_ ?_ ?_ hhour hmin hsec <;> rw [htm]
  have hdays : ∀ e : Date, e.Valid ∧ (e.number : ℤ) = epoch.number + (t : ℤ) / 86400 ↔ e = d := by
    intro e
    have hepoch := epoch_number
    constructor
    · rintro ⟨he, hnumber'⟩
      exact Date.number_inj he hd (by omega)
    · rintro rfl
      exact ⟨hd, by omega⟩
  rw [htm] at hvalid
  refine ⟨_, htm, ?_⟩
  dsimp only
  refine ⟨by omega, by omega, by omega, by omega, rfl, ⟨d, ⟨by omega, rfl, rfl⟩, hdays, rfl⟩, hvalid⟩

/-- The leap day of the year 2000. -/
theorem leap_day_2000 : (rtcTime64ToTm 951782400).tmYear = 100 ∧ (rtcTime64ToTm 951782400).tmMon = 1 ∧
    (rtcTime64ToTm 951782400).tmMday = 29 ∧ (rtcTime64ToTm 951782400).tmYday = 60 := by
  obtain ⟨tm, rfl, -, -, -, -, -, ⟨d, ⟨hyear, hmon, hmday⟩, hd, hyday⟩, -⟩ :=
    rtcTime64ToTm_gregorian 951782400 (by decide) (by decide)
  have hstart := yearStart_add 2000
  have hday : Date.dayOfYear ⟨2000, 1, 29⟩ = 60 := by decide
  have hnumber : Date.number ⟨2000, 1, 29⟩ = yearStart 2000 + 60 := by rw [Date.number, hday]
  have hepoch := epoch_number
  obtain rfl := (hd ⟨2000, 1, 29⟩).mp ⟨by decide, by omega⟩
  simp only at hyear
  rw [hday] at hyday
  exact ⟨by omega, hmon, hmday, hyday⟩

end GfpDrivers.Rtc
