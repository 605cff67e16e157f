import Mathlib

/-!
# The Gregorian calendar

Days are numbered from 1 January of the year 1 on.  A year starts after all days
of the years before it, and a month after all days of the months before it, so a
date comes before another exactly when its number is smaller.
-/

namespace LeooRexx.Gregorian

def IsLeap (year : Int) : Prop := year % 4 = 0 ∧ (year % 100 ≠ 0 ∨ year % 400 = 0)

instance (year : Int) : Decidable (IsLeap year) := by unfold IsLeap; infer_instance

def yearLength (year : Int) : Int := if IsLeap year then 366 else 365

def daysBeforeYear (year : Int) : Int :=
  (year - 1) * 365 + (year - 1) / 4 - (year - 1) / 100 + (year - 1) / 400

theorem daysBeforeYear_succ (year : Int) :
    daysBeforeYear (year + 1) = daysBeforeYear year + yearLength year := by
  have hyear : year + 1 - 1 = year := by omega
  by_cases hleap : IsLeap year
  · simp only [daysBeforeYear, yearLength, hleap, if_true, hyear]
    simp only [IsLeap] at hleap
    omega
  · simp only [daysBeforeYear, yearLength, hleap, if_false, hyear]
    simp only [IsLeap] at hleap
    omega

theorem daysBeforeYear_strictMono {year year' : Int} (h : year < year') :
    daysBeforeYear year + yearLength year ≤ daysBeforeYear year' := by
  rw [← daysBeforeYear_succ]
  simp only [daysBeforeYear]
  omega

theorem year_days_le (year : Int) : daysBeforeYear year + 365 ≤ daysBeforeYear (year + 1) := by
  rw [daysBeforeYear_succ, yearLength]
  split <;> omega

theorem leap_year_days_le {year : Int} (h : IsLeap year) :
    daysBeforeYear year + 366 ≤ daysBeforeYear (year + 1) := by
  have hlength : yearLength year = 366 := by rw [yearLength, if_pos h]
  have hsucc := daysBeforeYear_succ year
  omega

theorem daysBeforeYear_cycles {a b c d : Int} (hb : 0 ≤ b) (hb' : b < 4) (hc : 0 ≤ c)
    (hc' : c < 25) (hd : 0 ≤ d) (hd' : d < 4) :
    daysBeforeYear (400 * a + 100 * b + 4 * c + d + 1)
      = 146097 * a + 36524 * b + 1461 * c + 365 * d := by
  have hyear : 400 * a + 100 * b + 4 * c + d + 1 - 1 = 400 * a + 100 * b + 4 * c + d := by omega
  have h4 : (400 * a + 100 * b + 4 * c + d) / 4 = 100 * a + 25 * b + c := by omega
  have h100 : (400 * a + 100 * b + 4 * c + d) / 100 = 4 * a + b := by omega
  have h400 : (400 * a + 100 * b + 4 * c + d) / 400 = a := by omega
  rw [daysBeforeYear, hyear, h4, h100, h400]
  omega

/-! ## Months -/

def monthLengths (leap : Bool) : List Int :=
  [31, if leap then 29 else 28, 31, 30, 31, 30, 31, 31, 30, 31, 30, 31]

def monthLength (leap : Bool) (month : Nat) : Int := (monthLengths leap).getD (month - 1) 0

def daysBeforeMonth (leap : Bool) (month : Nat) : Int := ((monthLengths leap).take (month - 1)).sum

theorem daysBeforeMonth_strictMono (leap : Bool) : ∀ month' ≤ 12, ∀ month < month', 1 ≤ month →
    daysBeforeMonth leap month + monthLength leap month ≤ daysBeforeMonth leap month' := by
  cases leap <;> decide +kernel

theorem daysBeforeMonth_nonneg (leap : Bool) : ∀ month ≤ 12, 0 ≤ daysBeforeMonth leap month := by
  cases leap <;> decide +kernel

theorem daysBeforeMonth_add_length_le (leap : Bool) : ∀ month ≤ 12, 1 ≤ month →
    daysBeforeMonth leap month + monthLength leap month ≤ if leap then 366 else 365 := by
  cases leap <;> decide +kernel

/-! ## Dates -/

structure Date where
  year : Int
  month : Nat
  day : Int
  month_pos : 1 ≤ month
  month_le : month ≤ 12
  day_pos : 1 ≤ day
  day_le : day ≤ monthLength (IsLeap year) month

namespace Date

def yearDay (d : Date) : Int := daysBeforeMonth (IsLeap d.year) d.month + d.day

def ordinal (d : Date) : Int := daysBeforeYear d.year + (d.yearDay - 1)

theorem yearDay_pos (d : Date) : 1 ≤ d.yearDay := by
  have hmonth := daysBeforeMonth_nonneg (IsLeap d.year) d.month d.month_le
  have hday := d.day_pos
  simp only [yearDay]
  omega

theorem yearDay_le (d : Date) : d.yearDay ≤ yearLength d.year := by
  have hmonth := daysBeforeMonth_add_length_le (IsLeap d.year) d.month d.month_le d.month_pos
  have hday := d.day_le
  have hyear : yearLength d.year = if decide (IsLeap d.year) then 366 else 365 := by
    simp only [yearLength, decide_eq_true_eq]
  simp only [yearDay, hyear]
  omega

def Before (d d' : Date) : Prop :=
  d.year < d'.year ∨ d.year = d'.year ∧ (d.month < d'.month ∨ d.month = d'.month ∧ d.day < d'.day)

theorem ordinal_lt_of_before {d d' : Date} (h : d.Before d') : d.ordinal < d'.ordinal := by
  obtain hyear | ⟨hyear, hmonth | ⟨hmonth, hday⟩⟩ := h
  · have hlen := daysBeforeYear_strictMono hyear
    have hle := d.yearDay_le
    have hpos := d'.yearDay_pos
    simp only [ordinal]
    omega
  · have hstart := daysBeforeMonth_strictMono (IsLeap d.year) d'.month d'.month_le d.month
      hmonth d.month_pos
    have hle := d.day_le
    have hpos := d'.day_pos
    simp only [ordinal, yearDay, ← hyear]
    omega
  · simp only [ordinal, yearDay, ← hyear, ← hmonth]
    omega

end Date

end LeooRexx.Gregorian
