import Mathlib

/-!
The Gregorian calendar, before and after the epoch: the number of a day and the day with
a number. Years are counted from March, so that a leap day is the last of its year.
-/

namespace Calendar

/-- The month counts from zero, which is January, and the day of the month from one. -/
structure Date where
  year : Int
  mon : Int
  mday : Int
  deriving DecidableEq

def Leap (year : Int) : Prop := year % 4 = 0 ∧ (year % 100 ≠ 0 ∨ year % 400 = 0)

instance (year : Int) : Decidable (Leap year) := inferInstanceAs (Decidable (_ ∧ _))

def monthLength (year mon : Int) : Int :=
  if mon = 1 then (if Leap year then 29 else 28)
  else if mon = 3 ∨ mon = 5 ∨ mon = 8 ∨ mon = 10 then 30
  else 31

/-- A day that is in the calendar. -/
structure Date.Valid (date : Date) : Prop where
  mon_nonneg : 0 ≤ date.mon
  mon_lt : date.mon < 12
  mday_pos : 1 ≤ date.mday
  mday_le : date.mday ≤ monthLength date.year date.mon

/-- Days before a year that begins in March. -/
def yearStart (year : Int) : Int := year * 365 + year / 4 - year / 100 + year / 400

/-- Days before a month, of a year that begins in March. -/
def monthStart (mon : Int) : Int := (153 * mon + 2) / 5

/-- The year of a date and its month, where years begin in March. -/
def Date.fromMarch (date : Date) : Int × Int :=
  if date.mon < 2 then (date.year - 1, date.mon + 10) else (date.year, date.mon - 2)

/-- Days from the first of March of the year zero. -/
def Date.count (date : Date) : Int := yearStart date.fromMarch.1 + monthStart date.fromMarch.2 + (date.mday - 1)

/-- The year that begins in March in which a day is: by its cycle of four centuries, its century
in that, its cycle of four years in that, and its year in that. -/
def yearOf (n : Int) : Int :=
  let day := n % 146097
  let century := min (day / 36524) 3
  let day := day - century * 36524
  let cycle := day / 1461
  let day := day % 1461
  n / 146097 * 400 + century * 100 + cycle * 4 + min (day / 365) 3

def monthOf (day : Int) : Int := (5 * day + 2) / 153

/-- The day that is so many days after the first of March of the year zero. -/
def civil (n : Int) : Date :=
  let year := yearOf n
  let mon := monthOf (n - yearStart year)
  let mday := n - yearStart year - monthStart mon + 1
  if mon < 10 then ⟨year, mon + 2, mday⟩ else ⟨year + 1, mon - 10, mday⟩

theorem yearStart_succ (year : Int) : yearStart (year + 1) = yearStart year + 365 + if Leap (year + 1) then 1 else 0 := by
  by_cases h : Leap (year + 1)
  · rw [if_pos h]
    unfold Leap at h
    unfold yearStart
    omega
  · rw [if_neg h]
    unfold Leap at h
    unfold yearStart
    omega

theorem yearStart_lt (year : Int) : yearStart year < yearStart (year + 1) := by
  have h := yearStart_succ year
  split at h <;> omega

theorem yearStart_strictMono : StrictMono yearStart := strictMono_int_of_lt_succ yearStart_lt

/-- The cycles that a day is in: the last day of a cycle of four years or of four centuries is a
leap day, and belongs to the last year of the cycle. -/
theorem yearOf_cycles (n : Int) : ∃ era century cycle year day, yearOf n = era * 400 + century * 100 + cycle * 4 + year ∧
    n = era * 146097 + century * 36524 + cycle * 1461 + year * 365 + day ∧ (0 ≤ century ∧ century ≤ 3) ∧
    (0 ≤ cycle ∧ cycle ≤ 24) ∧ (0 ≤ year ∧ year ≤ 3) ∧ 0 ≤ day ∧
    (day < 365 ∨ day = 365 ∧ year = 3 ∧ (cycle < 24 ∨ century = 3)) := by
  have hday : 0 ≤ n % 146097 ∧ n % 146097 < 146097 := by omega
  have hn : n = n / 146097 * 146097 + n % 146097 := by omega
  unfold yearOf
  generalize n / 146097 = era at hn ⊢
  generalize n % 146097 = r at hn hday ⊢
  have hcentury : 0 ≤ min (r / 36524) 3 ∧ min (r / 36524) 3 ≤ 3 ∧ 0 ≤ r - min (r / 36524) 3 * 36524 ∧
      (r - min (r / 36524) 3 * 36524 < 36524 ∨ r - min (r / 36524) 3 * 36524 = 36524 ∧ min (r / 36524) 3 = 3) := by
    omega
  refine ⟨era, min (r / 36524) 3, (r - min (r / 36524) 3 * 36524) / 1461,
    min ((r - min (r / 36524) 3 * 36524) % 1461 / 365) 3,
    (r - min (r / 36524) 3 * 36524) % 1461 - min ((r - min (r / 36524) 3 * 36524) % 1461 / 365) 3 * 365, rfl, ?_⟩
  generalize min (r / 36524) 3 = century at hcentury ⊢
  generalize hrest : r - century * 36524 = rest at hcentury ⊢
  have hr : r = century * 36524 + rest := by omega
  have hcycle : 0 ≤ rest / 1461 ∧ rest / 1461 ≤ 24 := by omega
  have hyear : rest % 1461 = min (rest % 1461 / 365) 3 * 365 + (rest % 1461 - min (rest % 1461 / 365) 3 * 365) := by omega
  refine ⟨by omega, by omega, hcycle, by omega, by omega, ?_⟩
  omega

theorem yearStart_yearOf (n : Int) : yearStart (yearOf n) ≤ n ∧ n < yearStart (yearOf n + 1) := by
  obtain ⟨era, century, cycle, year, day, hyear, hn, hcentury, hcycle, hy, hday, hlast⟩ := yearOf_cycles n
  have h4 : yearOf n / 4 = era * 100 + century * 25 + cycle := by omega
  have h100 : yearOf n / 100 = era * 4 + century := by omega
  have h400 : yearOf n / 400 = era := by omega
  have hstart : yearStart (yearOf n) = n - day := by
    unfold yearStart
    omega
  rw [yearStart_succ]
  refine ⟨by omega, ?_⟩
  obtain hday | ⟨rfl, rfl, hc⟩ := hlast
  · split <;> omega
  · -- the day is the leap day of its year
    have hmod : (yearOf n + 1) % 4 = 0 := by omega
    have hleap : Leap (yearOf n + 1) := by
      refine ⟨hmod, ?_⟩
      obtain hcycle' | rfl := hc
      · left
        omega
      · by_cases hc : cycle = 24
        · right
          omega
        · left
          omega
    rw [if_pos hleap]
    omega

/-- A day is in one year only. -/
theorem yearOf_eq {n year : Int} (hle : yearStart year ≤ n) (hlt : n < yearStart (year + 1)) : yearOf n = year := by
  have hbefore : year < yearOf n + 1 := yearStart_strictMono.lt_iff_lt.mp (hle.trans_lt (yearStart_yearOf n).2)
  have hafter : yearOf n < year + 1 := yearStart_strictMono.lt_iff_lt.mp ((yearStart_yearOf n).1.trans_lt hlt)
  omega

theorem monthOf_eq {day mon : Int} (hle : monthStart mon ≤ day) (hlt : day < monthStart (mon + 1)) : monthOf day = mon := by
  unfold monthStart at hle hlt
  unfold monthOf
  omega

theorem monthStart_monthOf (day : Int) : monthStart (monthOf day) ≤ day ∧ day < monthStart (monthOf day + 1) := by
  unfold monthStart monthOf
  omega

/-- The months from March to January are as long as the month starts say; February ends with its year. -/
theorem monthLength_march (year : Int) {mon : Int} (h0 : 0 ≤ mon) (h10 : mon < 10) :
    monthStart mon + monthLength year (mon + 2) = monthStart (mon + 1) := by
  unfold monthLength monthStart
  interval_cases mon <;> simp

theorem monthLength_january (year : Int) : monthStart 10 + monthLength year 0 = monthStart 11 := by
  simp [monthLength, monthStart]

theorem monthLength_february (year : Int) :
    yearStart year + monthStart 11 + monthLength (year + 1) 1 = yearStart (year + 1) := by
  rw [yearStart_succ, monthLength, if_pos rfl, monthStart]
  split <;> omega

theorem yearStart_add_le (year : Int) :
    yearStart year + 365 ≤ yearStart (year + 1) ∧ yearStart (year + 1) ≤ yearStart year + 366 := by
  rw [yearStart_succ]
  split <;> omega

/-- A day in a month of a year that begins in March. -/
structure Within (n year mon : Int) : Prop where
  mon_range : 0 ≤ mon ∧ mon ≤ 11
  month_le : yearStart year + monthStart mon ≤ n
  lt_month : n < yearStart year + monthStart (mon + 1)
  lt_year : n < yearStart (year + 1)

theorem Within.year_le {n year mon : Int} (h : Within n year mon) : yearStart year ≤ n := by
  have hmon := h.mon_range
  have hle := h.month_le
  unfold monthStart at hle
  omega

theorem Date.Valid.within {date : Date} (h : date.Valid) : Within date.count date.fromMarch.1 date.fromMarch.2 := by
  obtain ⟨year, mon, mday⟩ := date
  obtain ⟨hmon, hmon', hmday, hmday'⟩ := h
  dsimp only at hmon hmon' hmday hmday'
  unfold Date.count Date.fromMarch
  by_cases hearly : mon < 2
  · simp only [if_pos hearly]
    obtain ⟨y, rfl⟩ : ∃ y, year = y + 1 := ⟨year - 1, by omega⟩
    have hspan := yearStart_add_le y
    rw [add_sub_cancel_right]
    obtain rfl | rfl : mon = 0 ∨ mon = 1 := by omega
    · have hlength := monthLength_january (y + 1)
      simp only [monthStart] at hlength
      exact ⟨by omega, by omega, by simp only [monthStart]; omega, by simp only [monthStart]; omega⟩
    · have hlength := monthLength_february y
      simp only [monthStart] at hlength
      exact ⟨by omega, by omega, by simp only [monthStart]; omega, by simp only [monthStart]; omega⟩
  · simp only [if_neg hearly]
    have hspan := yearStart_add_le year
    have hlength := monthLength_march year (show 0 ≤ mon - 2 by omega) (by omega)
    rw [sub_add_cancel] at hlength
    exact ⟨by omega, by omega, by omega, by simp only [monthStart] at hlength ⊢; omega⟩

theorem within_civil (n : Int) : Within n (yearOf n) (monthOf (n - yearStart (yearOf n))) := by
  obtain ⟨hle, hlt⟩ := yearStart_yearOf n
  have hspan := yearStart_add_le (yearOf n)
  obtain ⟨hmonth, hmonth'⟩ := monthStart_monthOf (n - yearStart (yearOf n))
  refine ⟨?_, by omega, by omega, hlt⟩
  unfold monthOf
  omega

/-- The number of a day tells its year and its month. -/
theorem Within.eq {n year mon : Int} (h : Within n year mon) : yearOf n = year ∧ monthOf (n - yearStart year) = mon := by
  have hle := h.month_le
  have hlt := h.lt_month
  exact ⟨yearOf_eq h.year_le h.lt_year, monthOf_eq (by omega) (by omega)⟩

theorem civil_fromMarch (n : Int) : (civil n).fromMarch = (yearOf n, monthOf (n - yearStart (yearOf n))) := by
  have hmon := (within_civil n).mon_range
  unfold civil Date.fromMarch
  dsimp only
  by_cases hlate : monthOf (n - yearStart (yearOf n)) < 10
  · rw [if_pos hlate]
    simp only [add_sub_cancel_right]
    rw [if_neg (by omega)]
  · rw [if_neg hlate]
    simp only [add_sub_cancel_right, sub_add_cancel]
    rw [if_pos (by omega)]

theorem civil_mday (n : Int) :
    (civil n).mday = n - yearStart (yearOf n) - monthStart (monthOf (n - yearStart (yearOf n))) + 1 := by
  unfold civil
  dsimp only
  split <;> rfl

/-- The day that has a number has that number. -/
theorem count_civil (n : Int) : (civil n).count = n := by
  rw [Date.count, civil_fromMarch, civil_mday]
  dsimp only
  omega

/-- A day in the calendar is the day that has its number. -/
theorem civil_count {date : Date} (h : date.Valid) : civil date.count = date := by
  obtain ⟨hyear, hmon⟩ := h.within.eq
  have hcount : date.count = yearStart date.fromMarch.1 + monthStart date.fromMarch.2 + (date.mday - 1) := rfl
  have hmday : date.count - yearStart date.fromMarch.1 - monthStart date.fromMarch.2 + 1 = date.mday := by omega
  unfold civil
  dsimp only
  rw [hyear, hmon, hmday]
  unfold Date.fromMarch
  obtain ⟨hmon0, hmon12, -, -⟩ := h
  by_cases hearly : date.mon < 2
  · simp only [if_pos hearly]
    rw [if_neg (by omega)]
    simp
  · simp only [if_neg hearly]
    rw [if_pos (by omega)]
    simp

theorem civil_valid (n : Int) : (civil n).Valid := by
  obtain ⟨hmon, hle, hlt, hyear⟩ := within_civil n
  unfold civil
  dsimp only
  generalize yearOf n = year at hmon hle hlt hyear ⊢
  generalize monthOf (n - yearStart year) = mon at hmon hle hlt ⊢
  by_cases hlate : mon < 10
  · have hlength := monthLength_march year hmon.1 hlate
    rw [if_pos hlate]
    exact ⟨by dsimp only; omega, by dsimp only; omega, by dsimp only; omega, by dsimp only; omega⟩
  · rw [if_neg hlate]
    obtain rfl | rfl : mon = 10 ∨ mon = 11 := by omega
    · have hlength := monthLength_january (year + 1)
      simp only [monthStart] at hle hlt hlength ⊢
      exact ⟨by simp, by simp, by dsimp only; omega, by simp only [sub_self]; omega⟩
    · have hlength := monthLength_february year
      simp only [monthStart] at hle hlt hlength ⊢
      exact ⟨by simp, by simp, by dsimp only; omega, by simp only [show (11 : Int) - 10 = 1 from rfl]; omega⟩

/-- The first of January of a year, which is in the month ten of the year before. -/
theorem le_year_civil {n year : Int} : year ≤ (civil n).year ↔ yearStart (year - 1) + monthStart 10 ≤ n := by
  obtain ⟨hmon, hle, hlt, hyear⟩ := within_civil n
  have hspan := yearStart_add_le (year - 1)
  rw [sub_add_cancel] at hspan
  unfold civil
  dsimp only
  generalize yearOf n = y at hmon hle hlt hyear ⊢
  generalize monthOf (n - yearStart y) = mon at hmon hle hlt ⊢
  unfold monthStart at hle hlt ⊢
  have hmono : ∀ a b, yearStart a ≤ yearStart b ↔ a ≤ b := fun a b => yearStart_strictMono.le_iff_le
  by_cases hlate : mon < 10
  · rw [if_pos hlate]
    constructor
    · intro h
      have hstart := (hmono year y).mpr h
      omega
    · intro h
      by_contra hbefore
      have hstart := (hmono y (year - 1)).mpr (by dsimp only at hbefore; omega)
      omega
  · rw [if_neg hlate]
    constructor
    · intro h
      have hstart := (hmono (year - 1) y).mpr (by dsimp only at h; omega)
      omega
    · intro h
      by_contra hbefore
      have hstart := (hmono (y + 1) (year - 1)).mpr (by dsimp only at hbefore; omega)
      omega

example : civil 0 = ⟨0, 2, 1⟩ ∧ civil 730484 = ⟨2000, 1, 29⟩ ∧ civil (-1) = ⟨0, 1, 29⟩ := by decide

end Calendar
