import LeooRexx.Foundation.Gregorian

/-!
# Time stamps

`RexxDateTime`: the fields of a date and a time, the number of microseconds since
1 January of the year 1, and the number of seconds since 1 January 1970.
Divisions are those of C, which truncate.
-/

namespace LeooRexx

structure RexxDateTime where
  year : Int
  month : Int
  day : Int
  hours : Int
  minutes : Int
  seconds : Int
  microseconds : Int
  deriving DecidableEq

namespace RexxDateTime

def secondsInMinute : Int := 60
def minutesInHour : Int := 60
def hoursInDay : Int := 24
def secondsInHour : Int := secondsInMinute * minutesInHour
def secondsInDay : Int := secondsInHour * hoursInDay
/-- `MICROSECONDS`, those in a second. -/
def microsecondsInSecond : Int := 1000000
def microsecondsInDay : Int := secondsInDay * microsecondsInSecond

def baseDays (year : Int) : Int := year * 365 + year.tdiv 4 - year.tdiv 100 + year.tdiv 400

def leapCycle : Int := 4
def century : Int := 100
def olympiad : Int := 400
def olympiadDays : Int := baseDays 400
def centuryDays : Int := baseDays 100
def leapDays : Int := baseDays 4
def yearDays : Int := 365

/-- The macro `LeapYear`, which `isLeapYear` repeats. -/
def leapYear (year : Int) : Bool :=
  year.tmod leapCycle == 0 && (year.tmod century != 0 || year.tmod olympiad == 0)

def monthStarts : List Int := [0, 31, 59, 90, 120, 151, 181, 212, 243, 273, 304, 334, 365]

def leapMonthStarts : List Int := [0, 31, 60, 91, 121, 152, 182, 213, 244, 274, 305, 335, 366]

/-! ## From the fields to a number -/

def getYearDay (t : RexxDateTime) : Int :=
  let yearday := monthStarts.getD (t.month - 1).toNat 0 + t.day
  if t.month > 2 ∧ leapYear t.year then yearday + 1 else yearday

def getBaseDate (t : RexxDateTime) : Int :=
  let tempYear := t.year - 1
  let basedate := tempYear * 365 + tempYear.tdiv 4 - tempYear.tdiv 100 + tempYear.tdiv 400
  basedate + (t.getYearDay - 1)

def getTimeSeconds (t : RexxDateTime) : Int :=
  (t.hours * minutesInHour + t.minutes) * secondsInMinute + t.seconds

def getBaseTime (t : RexxDateTime) : Int :=
  let time := t.getBaseDate * secondsInDay
  let time := (time + t.getTimeSeconds) * microsecondsInSecond
  time + t.microseconds

def unixBaseTime : RexxDateTime := ⟨1970, 1, 1, 0, 0, 0, 0⟩

def maxBaseTime : RexxDateTime := ⟨9999, 12, 31, 23, 59, 59, 999999⟩

def getUnixTime (t : RexxDateTime) : Int :=
  (t.getBaseTime - unixBaseTime.getBaseTime).tdiv microsecondsInSecond

/-! ## From a number to the fields -/

def clear : RexxDateTime := ⟨0, 0, 0, 0, 0, 0, 0⟩

/-- `setBaseDate` within a four year cycle that starts after `year`: the year and
the number of the day in it.  A remainder of zero is the last day of a year. -/
def splitLeapCycle (year basedays : Int) : Int × Int :=
  let year := year + basedays.tdiv yearDays
  let basedays := basedays.tmod yearDays
  if basedays = 0 then (year, yearDays) else (year + 1, basedays)

def splitCentury (year basedays : Int) : Int × Int :=
  let year := year + basedays.tdiv leapDays * leapCycle
  let basedays := basedays.tmod leapDays
  if basedays = 0 then (year, yearDays + 1) else splitLeapCycle year basedays

/-- Within 400 years: a remainder of zero is the last day of a year that is not a
leap year. -/
def splitOlympiad (year basedays : Int) : Int × Int :=
  let year := year + basedays.tdiv centuryDays * century
  let basedays := basedays.tmod centuryDays
  if basedays = 0 then (year, yearDays) else splitCentury year basedays

def splitYear (basedays : Int) : Int × Int :=
  let year := basedays.tdiv olympiadDays * olympiad
  let basedays := basedays - baseDays year
  if basedays = 0 then (year, yearDays + 1) else splitOlympiad year basedays

def setDay (t : RexxDateTime) (basedays : Int) : RexxDateTime :=
  let monthTable := if leapYear t.year then leapMonthStarts else monthStarts
  let i := monthTable.findIdx fun start => decide (start ≥ basedays)
  { t with month := i, day := basedays - monthTable.getD (i - 1) 0 }

def setBaseDate (t : RexxDateTime) (basedays : Int) : Bool × RexxDateTime :=
  if basedays < 0 ∨ basedays > maxBaseTime.getBaseDate then (false, t)
  else
    let (year, basedays) := splitYear (basedays + 1)
    (true, setDay { clear with year := year } basedays)

def setBaseTime (t : RexxDateTime) (basetime : Int) : Bool × RexxDateTime :=
  if basetime < 0 ∨ basetime > maxBaseTime.getBaseTime then (false, t)
  else
    let basedays := basetime.tdiv microsecondsInDay
    let basetime := basetime - basedays * microsecondsInDay
    let t := (t.setBaseDate basedays).2
    let microseconds := basetime.tmod microsecondsInSecond
    let basetime := basetime.tdiv microsecondsInSecond
    let hours := basetime.tdiv secondsInHour
    let basetime := basetime.tmod secondsInHour
    let minutes := basetime.tdiv secondsInMinute
    let seconds := basetime.tmod secondsInMinute
    (true, { t with
      hours := hours
      minutes := minutes
      seconds := seconds
      microseconds := microseconds })

def setUnixTime (t : RexxDateTime) (basetime : Int) : Bool × RexxDateTime :=
  let adjustedTime := basetime * microsecondsInSecond + unixBaseTime.getBaseTime
  t.setBaseTime adjustedTime

/-! ## Valid time stamps -/

open Gregorian

structure Valid (t : RexxDateTime) : Prop where
  year_pos : 1 ≤ t.year
  year_le : t.year ≤ 9999
  month_pos : 1 ≤ t.month
  month_le : t.month ≤ 12
  day_pos : 1 ≤ t.day
  day_le : t.day ≤ monthLength (leapYear t.year) t.month.toNat
  hours_nonneg : 0 ≤ t.hours
  hours_lt : t.hours < 24
  minutes_nonneg : 0 ≤ t.minutes
  minutes_lt : t.minutes < 60
  seconds_nonneg : 0 ≤ t.seconds
  seconds_lt : t.seconds < 60
  microseconds_nonneg : 0 ≤ t.microseconds
  microseconds_lt : t.microseconds < 1000000

def fields (t : RexxDateTime) : List Int :=
  [t.year, t.month, t.day, t.hours, t.minutes, t.seconds, t.microseconds]

theorem leapYear_eq {year : Int} (h : 0 ≤ year) : leapYear year = decide (IsLeap year) := by
  rw [Bool.eq_iff_iff, decide_eq_true_iff]
  simp [leapYear, leapCycle, century, olympiad, Int.tmod_eq_emod_of_nonneg h, IsLeap]

/-! ### The year -/

structure IsDay (year day n : Int) : Prop where
  number : daysBeforeYear year + day = n
  year_pos : 1 ≤ year
  day_pos : 1 ≤ day
  day_le : daysBeforeYear year + day ≤ daysBeforeYear (year + 1)

section Cycles

variable {a b c n : Int} (ha : 0 ≤ a) (hb : 0 ≤ b) (hb' : b < 4) (hc : 0 ≤ c) (hc' : c < 25)
include ha hb hb' hc hc'

theorem splitLeapCycle_spec (hn : 1 ≤ n) (hlt : n < 1461) :
    IsDay (splitLeapCycle (400 * a + 100 * b + 4 * c) n).1
      (splitLeapCycle (400 * a + 100 * b + 4 * c) n).2
      (146097 * a + 36524 * b + 1461 * c + n) := by
  have hdiv : n.tdiv 365 = n / 365 := Int.tdiv_eq_ediv_of_nonneg (by omega)
  have hmod : n.tmod 365 = n % 365 := Int.tmod_eq_emod_of_nonneg (by omega)
  obtain ⟨d, hd⟩ : ∃ d, d = n / 365 := ⟨_, rfl⟩
  simp only [splitLeapCycle, yearDays, hdiv, hmod, ← hd]
  split
  · -- the last day of the year before
    have hyear : 400 * a + 100 * b + 4 * c + d = 400 * a + 100 * b + 4 * c + (d - 1) + 1 := by
      omega
    have hdays := daysBeforeYear_cycles (a := a) hb hb' hc hc' (d := d - 1) (by omega) (by omega)
    have hle := year_days_le (400 * a + 100 * b + 4 * c + d)
    rw [← hyear] at hdays
    exact ⟨by simp only; omega, by simp only; omega, by simp only; omega, hle⟩
  · have hdays := daysBeforeYear_cycles (a := a) hb hb' hc hc' (d := d) (by omega) (by omega)
    have hle := year_days_le (400 * a + 100 * b + 4 * c + d + 1)
    exact ⟨by simp only; omega, by simp only; omega, by simp only; omega,
      by simp only; omega⟩

omit hc hc'

theorem splitCentury_spec (hn : 1 ≤ n) (hlt : n < 36524) :
    IsDay (splitCentury (400 * a + 100 * b) n).1 (splitCentury (400 * a + 100 * b) n).2
      (146097 * a + 36524 * b + n) := by
  have hdiv : n.tdiv 1461 = n / 1461 := Int.tdiv_eq_ediv_of_nonneg (by omega)
  have hmod : n.tmod 1461 = n % 1461 := Int.tmod_eq_emod_of_nonneg (by omega)
  have hdays : leapDays = 1461 := by decide
  obtain ⟨c, hc⟩ : ∃ c, c = n / 1461 := ⟨_, rfl⟩
  have hcycle : c * 4 = 4 * c := by omega
  simp only [splitCentury, yearDays, leapCycle, hdays, hdiv, hmod, ← hc, hcycle]
  split
  · have hyear : 400 * a + 100 * b + 4 * c = 400 * a + 100 * b + 4 * (c - 1) + 3 + 1 := by omega
    have hdays := daysBeforeYear_cycles (a := a) hb hb' (c := c - 1) (d := 3) (by omega) (by omega)
      (by omega) (by omega)
    have hleap : IsLeap (400 * a + 100 * b + 4 * c) := by
      constructor <;> omega
    have hle := leap_year_days_le hleap
    rw [← hyear] at hdays
    exact ⟨by simp only; omega, by simp only; omega, by simp only; omega, hle⟩
  · have hspec := splitLeapCycle_spec ha hb hb' (c := c) (n := n % 1461) (by omega) (by omega)
      (by omega) (by omega)
    have hnumber : 146097 * a + 36524 * b + 1461 * c + n % 1461
        = 146097 * a + 36524 * b + n := by omega
    rwa [hnumber] at hspec

omit hb hb'

theorem splitOlympiad_spec (hn : 1 ≤ n) (hlt : n < 146097) :
    IsDay (splitOlympiad (400 * a) n).1 (splitOlympiad (400 * a) n).2 (146097 * a + n) := by
  have hdiv : n.tdiv 36524 = n / 36524 := Int.tdiv_eq_ediv_of_nonneg (by omega)
  have hmod : n.tmod 36524 = n % 36524 := Int.tmod_eq_emod_of_nonneg (by omega)
  have hdays : centuryDays = 36524 := by decide
  obtain ⟨b, hb⟩ : ∃ b, b = n / 36524 := ⟨_, rfl⟩
  have hcentury : b * 100 = 100 * b := by omega
  simp only [splitOlympiad, yearDays, century, hdays, hdiv, hmod, ← hb, hcentury]
  split
  · -- after four centuries this is the last but one day of the leap year
    have hyear : 400 * a + 100 * b = 400 * a + 100 * (b - 1) + 4 * 24 + 3 + 1 := by omega
    have hdays := daysBeforeYear_cycles (a := a) (b := b - 1) (c := 24) (d := 3) (by omega)
      (by omega) (by omega) (by omega) (by omega) (by omega)
    have hle := year_days_le (400 * a + 100 * b)
    rw [← hyear] at hdays
    exact ⟨by simp only; omega, by simp only; omega, by simp only; omega, hle⟩
  · have hspec := splitCentury_spec ha (b := b) (n := n % 36524) (by omega) (by omega)
      (by omega) (by omega)
    have hnumber : 146097 * a + 36524 * b + n % 36524 = 146097 * a + n := by omega
    rwa [hnumber] at hspec

end Cycles

theorem splitYear_spec {n : Int} (hn : 1 ≤ n) : IsDay (splitYear n).1 (splitYear n).2 n := by
  have hdiv : n.tdiv 146097 = n / 146097 := Int.tdiv_eq_ediv_of_nonneg (by omega)
  have hdays : olympiadDays = 146097 := by decide
  obtain ⟨a, ha⟩ : ∃ a, a = n / 146097 := ⟨_, rfl⟩
  have holympiad : a * 400 = 400 * a := by omega
  have hbase : baseDays (400 * a) = 146097 * a := by
    have hnonneg : 0 ≤ 400 * a := by omega
    simp only [baseDays, Int.tdiv_eq_ediv_of_nonneg hnonneg]
    omega
  simp only [splitYear, yearDays, olympiad, hdays, hdiv, ← ha, holympiad, hbase]
  split
  · have hyear : 400 * a = 400 * (a - 1) + 100 * 3 + 4 * 24 + 3 + 1 := by omega
    have hdays := daysBeforeYear_cycles (a := a - 1) (b := 3) (c := 24) (d := 3) (by omega)
      (by omega) (by omega) (by omega) (by omega) (by omega)
    have hleap : IsLeap (400 * a) := by
      constructor <;> omega
    have hle := leap_year_days_le hleap
    rw [← hyear] at hdays
    exact ⟨by simp only; omega, by simp only; omega, by simp only; omega, hle⟩
  · have hspec := splitOlympiad_spec (a := a) (n := n - 146097 * a) (by omega) (by omega)
      (by omega)
    have hnumber : 146097 * a + (n - 146097 * a) = n := by omega
    rwa [hnumber] at hspec

end RexxDateTime

end LeooRexx
