import Mathlib.Data.List.Lex
import Mathlib.Tactic.Common
import Mathlib.Tactic.IntervalCases

/-!
# The proleptic Gregorian calendar

Dates and times of day, and the second each is, counted from 1970 by the days
before its year and before its month. `Moment.lt_iff`: a later date and time, read
from the year down, is a later second.

`marchDay` counts the same days from March to March, which puts the leap day at
the end of a year; `dayNumber_spring` and `dayNumber_winter` are where the two counts meet.
-/

namespace BtrfsPeek.Calendar

def IsLeap (y : Int) : Prop := y % 4 = 0 ∧ (y % 100 ≠ 0 ∨ y % 400 = 0)

instance (y : Int) : Decidable (IsLeap y) := inferInstanceAs (Decidable (_ ∧ _))

def monthLength (y m : Int) : Int :=
  if m = 2 then if IsLeap y then 29 else 28
  else if m = 4 ∨ m = 6 ∨ m = 9 ∨ m = 11 then 30
  else 31

/-- The days from 0001-01-01 to the start of the year. -/
def daysBeforeYear (y : Int) : Int := 365 * (y - 1) + (y - 1) / 4 - (y - 1) / 100 + (y - 1) / 400

/-- The days of the year before the month. -/
def daysBeforeMonth (y m : Int) : Int :=
  ((List.range (m - 1).toNat).map fun k : Nat => monthLength y (k + 1)).sum

/-- The days since 1970-01-01. -/
def dayNumber (y m d : Int) : Int :=
  daysBeforeYear y + daysBeforeMonth y m + (d - 1) - daysBeforeYear 1970

/-- A date and a time of day. -/
structure Civil where
  year : Int
  month : Int
  day : Int
  hour : Int
  minute : Int
  second : Int
  deriving DecidableEq

structure Civil.Valid (c : Civil) : Prop where
  month : 1 ≤ c.month ∧ c.month ≤ 12
  day : 1 ≤ c.day ∧ c.day ≤ monthLength c.year c.month
  hour : 0 ≤ c.hour ∧ c.hour < 24
  minute : 0 ≤ c.minute ∧ c.minute < 60
  second : 0 ≤ c.second ∧ c.second < 60

abbrev Moment := { c : Civil // c.Valid }

/-- The seconds since 1970. -/
def Civil.seconds (c : Civil) : Int :=
  86400 * dayNumber c.year c.month c.day + 3600 * c.hour + 60 * c.minute + c.second

/-- The tuple, which is ordered from the year down. -/
def Civil.tuple (c : Civil) : List Int := [c.year, c.month, c.day, c.hour, c.minute, c.second]

/-! ## Months and years -/

theorem daysBeforeYear_succ (y : Int) :
    daysBeforeYear (y + 1) = daysBeforeYear y + if IsLeap y then 366 else 365 := by
  by_cases h : IsLeap y
  · rw [if_pos h]
    simp only [IsLeap] at h
    simp only [daysBeforeYear]
    omega
  · rw [if_neg h]
    simp only [IsLeap] at h
    simp only [daysBeforeYear]
    omega

theorem daysBeforeYear_mono {y y' : Int} (h : y < y') : daysBeforeYear (y + 1) ≤ daysBeforeYear y' := by
  simp only [daysBeforeYear]
  omega

theorem daysBeforeMonth_succ {y m : Int} (h : 1 ≤ m) :
    daysBeforeMonth y (m + 1) = daysBeforeMonth y m + monthLength y m := by
  have hn : (m + 1 - 1).toNat = (m - 1).toNat + 1 := by omega
  have hm : ((m - 1).toNat : Int) + 1 = m := by omega
  simp only [daysBeforeMonth, hn, List.range_succ, List.map_append, List.sum_append, List.map_singleton,
    List.sum_singleton, hm]

/-- The days of a year before each of its months, and in all of them. -/
theorem daysBeforeMonth_eq {y m : Int} (h : 1 ≤ m) (h13 : m ≤ 13) : daysBeforeMonth y m =
    (367 * m - 362) / 12 - if m ≤ 2 then 0 else if IsLeap y then 1 else 2 := by
  induction m, h using Int.leInduction with
  | base => rfl
  | succ m h ih =>
    have h12 : m ≤ 12 := by omega
    rw [daysBeforeMonth_succ h, ih (by omega)]
    by_cases hl : IsLeap y <;> simp only [monthLength, hl, if_true, if_false]
    · interval_cases m <;> decide
    · interval_cases m <;> decide

theorem monthLength_le (y m : Int) : monthLength y m ≤ 31 := by
  unfold monthLength
  split_ifs <;> decide

/-! ## The order -/

theorem daysBeforeMonth_mono {y m m' : Int} (h : 1 ≤ m) (hle : m ≤ m') (h' : m' ≤ 13) :
    daysBeforeMonth y m ≤ daysBeforeMonth y m' := by
  rw [daysBeforeMonth_eq h (by omega), daysBeforeMonth_eq (by omega) h']
  split_ifs <;> omega

/-- Every month's end is within the year. -/
theorem daysBeforeMonth_end (y : Int) : daysBeforeYear y + daysBeforeMonth y 13 = daysBeforeYear (y + 1) := by
  rw [daysBeforeYear_succ, daysBeforeMonth_eq (by decide) (by decide)]
  by_cases hl : IsLeap y <;> simp [hl]

theorem Civil.Valid.day_end {c : Civil} (h : c.Valid) :
    daysBeforeMonth c.year c.month + c.day ≤ daysBeforeMonth c.year (c.month + 1) := by
  rw [daysBeforeMonth_succ h.month.1]
  have := h.day.2
  omega

/-- A later date is a later day. -/
theorem dayNumber_lt {c c' : Civil} (h : c.Valid) (h' : c'.Valid)
    (hlt : c.year < c'.year ∨ c.year = c'.year ∧
      (c.month < c'.month ∨ c.month = c'.month ∧ c.day < c'.day)) :
    dayNumber c.year c.month c.day < dayNumber c'.year c'.month c'.day := by
  have hend := h.day_end
  have hday := h'.day.1
  obtain ⟨hm, hm12⟩ := h.month
  obtain ⟨hm', hm12'⟩ := h'.month
  simp only [dayNumber]
  rcases hlt with hy | ⟨hy, hm | ⟨hm, hd⟩⟩
  · have hfirst : 0 ≤ daysBeforeMonth c'.year c'.month :=
      daysBeforeMonth_mono (m := 1) (by decide) hm' (by omega)
    have hlast : daysBeforeMonth c.year (c.month + 1) ≤ daysBeforeMonth c.year 13 :=
      daysBeforeMonth_mono (by omega) (by omega) (by decide)
    have hyear := daysBeforeMonth_end c.year
    have := daysBeforeYear_mono hy
    omega
  · have hmonth : daysBeforeMonth c.year (c.month + 1) ≤ daysBeforeMonth c.year c'.month :=
      daysBeforeMonth_mono (by omega) (by omega) (by omega)
    rw [← hy]
    omega
  · rw [← hy, ← hm]
    omega

theorem seconds_lt {c c' : Civil} (h : c.Valid) (h' : c'.Valid) (hlt : c.tuple < c'.tuple) :
    c.seconds < c'.seconds := by
  have hh := h.hour
  have hh' := h'.hour
  have hmin := h.minute
  have hmin' := h'.minute
  have hs := h.second
  have hs' := h'.second
  simp only [Civil.tuple, List.cons_lt_cons_iff, List.lt_irrefl, and_false, or_false] at hlt
  simp only [Civil.seconds]
  by_cases hdate : c.year < c'.year ∨ c.year = c'.year ∧
      (c.month < c'.month ∨ c.month = c'.month ∧ c.day < c'.day)
  · have := dayNumber_lt h h' hdate
    omega
  · have hy : c.year = c'.year := by omega
    have hm : c.month = c'.month := by omega
    have hd : c.day = c'.day := by omega
    rw [hy, hm, hd]
    omega

/-- Later, read from the year down, is later by the second. -/
theorem Moment.lt_iff (t t' : Moment) : t.1.seconds < t'.1.seconds ↔ t.1.tuple < t'.1.tuple := by
  constructor
  · intro h
    rcases lt_trichotomy t.1.tuple t'.1.tuple with hlt | heq | hgt
    · exact hlt
    · simp only [Civil.tuple, List.cons.injEq] at heq
      obtain ⟨hy, hm, hd, hh, hmin, hs, -⟩ := heq
      simp [Civil.seconds, hy, hm, hd, hh, hmin, hs] at h
    · have := seconds_lt t'.2 t.2 hgt
      omega
  · exact seconds_lt t.2 t'.2

/-! ## Years from March -/

/-- The days from March 1 of the year 0 to March 1 of the year. -/
def marchDay (y : Int) : Int := 365 * y + y / 4 - y / 100 + y / 400

/-- The calendar repeats after 400 years. -/
theorem marchDay_era (y era : Int) : marchDay (y + era * 400) = marchDay y + era * 146097 := by
  have h4 : (y + era * 400) / 4 = y / 4 + era * 100 := by omega
  have h100 : (y + era * 400) / 100 = y / 100 + era * 4 := by omega
  have h400 : (y + era * 400) / 400 = y / 400 + era := by omega
  simp only [marchDay, h4, h100, h400]
  omega

theorem isLeap_era (y era : Int) : IsLeap (y + era * 400) ↔ IsLeap y := by
  simp only [IsLeap]
  omega

/-- From March on, a day is counted from the March of its year. -/
theorem dayNumber_spring {y m : Int} (hm : 3 ≤ m) (hm' : m ≤ 12) (d : Int) :
    dayNumber y m d = marchDay y + (153 * (m - 3) + 2) / 5 + (d - 1) - 719468 := by
  have h1970 : daysBeforeYear 1970 = 719162 := by decide
  have hnext := daysBeforeYear_succ y
  rw [dayNumber, h1970, daysBeforeMonth_eq (by omega) (by omega), if_neg (by omega)]
  have hy : daysBeforeYear (y + 1) = marchDay y := by
    simp only [daysBeforeYear, marchDay]
    omega
  split_ifs at hnext ⊢ <;> omega

/-- Before March, it is counted from that of the year before. -/
theorem dayNumber_winter {y m : Int} (hm : 1 ≤ m) (hm' : m ≤ 2) (d : Int) :
    dayNumber y m d = marchDay (y - 1) + (153 * (m + 9) + 2) / 5 + (d - 1) - 719468 := by
  have h1970 : daysBeforeYear 1970 = 719162 := by decide
  have hy : daysBeforeYear y = marchDay (y - 1) := rfl
  rw [dayNumber, h1970, daysBeforeMonth_eq (by omega) (by omega), if_pos hm', hy]
  omega

end BtrfsPeek.Calendar
