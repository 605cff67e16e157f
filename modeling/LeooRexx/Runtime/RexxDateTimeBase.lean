import LeooRexx.Runtime.RexxDateTime

/-!
# Base times

Each valid time stamp has its own number of microseconds, smaller for the earlier
of two, and `setBaseTime` finds the time stamp of every number in its range.  So
going over to the number and back is the identity in both directions.
-/

namespace LeooRexx.RexxDateTime

open Gregorian

/-! ## The date of a time stamp -/

structure ValidDate (t : RexxDateTime) : Prop where
  year_pos : 1 ≤ t.year
  month_pos : 1 ≤ t.month
  month_le : t.month ≤ 12
  day_pos : 1 ≤ t.day
  day_le : t.day ≤ monthLength (leapYear t.year) t.month.toNat

theorem Valid.validDate {t : RexxDateTime} (h : t.Valid) : t.ValidDate :=
  ⟨h.year_pos, h.month_pos, h.month_le, h.day_pos, h.day_le⟩

namespace ValidDate

variable {t t' : RexxDateTime}

def date (h : t.ValidDate) : Date where
  year := t.year
  month := t.month.toNat
  day := t.day
  month_pos := by
    have hpos := h.month_pos
    omega
  month_le := by
    have hle := h.month_le
    omega
  day_pos := h.day_pos
  day_le := by
    have hpos := h.year_pos
    rw [← leapYear_eq (by omega)]
    exact h.day_le

theorem yearDay_date (h : t.ValidDate) :
    h.date.yearDay = daysBeforeMonth (leapYear t.year) t.month.toNat + t.day := by
  have hpos := h.year_pos
  rw [leapYear_eq (by omega)]
  rfl

end ValidDate

theorem monthStarts_eq (leap : Bool) : ∀ month ≤ 12, 1 ≤ month →
    (monthStarts.getD (month - 1) 0 + if month > 2 ∧ leap then 1 else 0)
      = daysBeforeMonth leap month := by
  cases leap <;> decide +kernel

theorem getYearDay_eq {t : RexxDateTime} (h : t.ValidDate) : t.getYearDay = h.date.yearDay := by
  have hyear := h.year_pos
  have hpos := h.month_pos
  have hle := h.month_le
  have hstart := monthStarts_eq (leapYear t.year) t.month.toNat (by omega) (by omega)
  have hindex : (t.month - 1).toNat = t.month.toNat - 1 := by omega
  have hafter : t.month > 2 ↔ t.month.toNat > 2 := by omega
  simp only [getYearDay, h.yearDay_date, hindex, hafter, ← hstart]
  split <;> omega

theorem getBaseDate_eq {t : RexxDateTime} (h : t.ValidDate) : t.getBaseDate = h.date.ordinal := by
  have hyear : 0 ≤ t.year - 1 := by
    have hpos := h.year_pos
    omega
  simp only [getBaseDate, getYearDay_eq h, Int.tdiv_eq_ediv_of_nonneg hyear]
  rfl

/-! ## The date of a day -/

theorem setDay_table (leap : Bool) : ∀ k < 366, (k < 365 ∨ leap) →
    let table := if leap then leapMonthStarts else monthStarts
    let i := table.findIdx fun start => decide (start ≥ Int.ofNat k + 1)
    (1 ≤ i ∧ i ≤ 12) ∧ 1 ≤ Int.ofNat k + 1 - table.getD (i - 1) 0 ∧
      Int.ofNat k + 1 - table.getD (i - 1) 0 ≤ monthLength leap i ∧
      daysBeforeMonth leap i = table.getD (i - 1) 0 := by
  cases leap <;> decide +kernel

theorem setDay_spec {t : RexxDateTime} {basedays : Int} (hyear : 1 ≤ t.year)
    (hlow : 1 ≤ basedays) (hhigh : basedays ≤ yearLength t.year) :
    ∃ h : (t.setDay basedays).ValidDate, h.date.yearDay = basedays := by
  have hleap := leapYear_eq (by omega : 0 ≤ t.year)
  have hlength : basedays ≤ 365 ∨ basedays = 366 ∧ leapYear t.year = true := by
    simp only [yearLength] at hhigh
    simp only [hleap, decide_eq_true_eq]
    split at hhigh
    · rename_i h
      exact (by omega : basedays ≤ 365 ∨ basedays = 366).imp_right fun hlast => ⟨hlast, h⟩
    · exact .inl hhigh
  have hk : basedays = Int.ofNat (basedays - 1).toNat + 1 := by
    simp only [Int.ofNat_eq_natCast]
    omega
  have htable := setDay_table (leapYear t.year) (basedays - 1).toNat (by omega)
    (hlength.imp (fun h => by omega) And.right)
  rw [← hk] at htable
  obtain ⟨hmonth, hday, hday', hstart⟩ := htable
  have hvalid : (t.setDay basedays).ValidDate := by
    constructor
    · exact hyear
    · simp only [setDay]
      omega
    · simp only [setDay]
      omega
    · exact hday
    · simpa only [setDay, Int.toNat_natCast] using hday'
  refine ⟨hvalid, ?_⟩
  rw [hvalid.yearDay_date]
  simp only [setDay, Int.toNat_natCast, hstart]
  omega

theorem maxBaseDate_eq : maxBaseTime.getBaseDate = 3652058 := by decide

theorem setBaseDate_spec (t : RexxDateTime) {basedays : Int} (hlow : 0 ≤ basedays)
    (hhigh : basedays ≤ maxBaseTime.getBaseDate) :
    ∃ h : (t.setBaseDate basedays).2.ValidDate, h.date.ordinal = basedays ∧
      (t.setBaseDate basedays).2.year ≤ 9999 := by
  have hday := splitYear_spec (by omega : 1 ≤ basedays + 1)
  obtain ⟨hnumber, hyear, hpos, hle⟩ := hday
  rw [daysBeforeYear_succ, Int.add_le_add_iff_left] at hle
  have hrange : ¬ (basedays < 0 ∨ basedays > maxBaseTime.getBaseDate) := by omega
  obtain ⟨hvalid, hyearday⟩ := setDay_spec
    (t := { clear with year := (splitYear (basedays + 1)).1 }) hyear hpos hle
  simp only [setBaseDate, hrange, if_false]
  refine ⟨hvalid, ?_, ?_⟩
  · rw [Date.ordinal, hyearday]
    change daysBeforeYear (splitYear (basedays + 1)).1 + _ = _
    omega
  · change (splitYear (basedays + 1)).1 ≤ 9999
    by_contra hyear'
    have hlate : 9999 < (splitYear (basedays + 1)).1 := by omega
    have hmono := daysBeforeYear_strictMono hlate
    have hmax : daysBeforeYear 9999 + yearLength 9999 = 3652059 := by decide
    rw [maxBaseDate_eq] at hhigh
    omega

/-! ## The time of the day -/

def timeOfDay (t : RexxDateTime) : Int :=
  ((t.hours * 60 + t.minutes) * 60 + t.seconds) * 1000000 + t.microseconds

theorem timeOfDay_nonneg {t : RexxDateTime} (h : t.Valid) : 0 ≤ t.timeOfDay := by
  obtain ⟨-, -, -, -, -, -, hhours, -, hminutes, -, hseconds, -, hmicro, -⟩ := h
  simp only [timeOfDay]
  omega

theorem timeOfDay_lt {t : RexxDateTime} (h : t.Valid) : t.timeOfDay < 86400000000 := by
  obtain ⟨-, -, -, -, -, -, -, hhours, -, hminutes, -, hseconds, -, hmicro⟩ := h
  simp only [timeOfDay]
  omega

theorem getBaseTime_eq {t : RexxDateTime} (h : t.ValidDate) :
    t.getBaseTime = h.date.ordinal * 86400000000 + t.timeOfDay := by
  simp only [getBaseTime, getBaseDate_eq h, getTimeSeconds, timeOfDay, secondsInDay,
    secondsInHour, secondsInMinute, minutesInHour, hoursInDay, microsecondsInSecond]
  omega

theorem maxBaseTime_eq : maxBaseTime.getBaseTime = 3652058 * 86400000000 + 86399999999 := by
  decide

theorem getBaseTime_nonneg {t : RexxDateTime} (h : t.Valid) : 0 ≤ t.getBaseTime := by
  have htime := timeOfDay_nonneg h
  have hday := h.validDate.date.yearDay_pos
  have hyear := h.year_pos
  have hbefore : 0 ≤ daysBeforeYear t.year := by
    simp only [daysBeforeYear]
    omega
  have hordinal : 0 ≤ h.validDate.date.ordinal := by
    change 0 ≤ daysBeforeYear t.year + _
    omega
  rw [getBaseTime_eq h.validDate]
  omega

theorem getBaseTime_le {t : RexxDateTime} (h : t.Valid) :
    t.getBaseTime ≤ maxBaseTime.getBaseTime := by
  have htime := timeOfDay_lt h
  have hday : h.validDate.date.yearDay ≤ yearLength t.year := h.validDate.date.yearDay_le
  have hyear := h.year_le
  have hmono := daysBeforeYear_strictMono (by omega : t.year < 10000)
  have hmax : daysBeforeYear 10000 = 3652059 := by decide
  have hordinal : h.validDate.date.ordinal ≤ 3652058 := by
    change daysBeforeYear t.year + _ ≤ _
    omega
  rw [getBaseTime_eq h.validDate, maxBaseTime_eq]
  omega

/-! ## The order of the fields -/

theorem getBaseTime_lt_of_fields_lt {t t' : RexxDateTime} (h : t.Valid) (h' : t'.Valid)
    (hlt : t.fields < t'.fields) : t.getBaseTime < t'.getBaseTime := by
  rw [getBaseTime_eq h.validDate, getBaseTime_eq h'.validDate]
  have hmonth := h.month_pos
  have hmonth' := h'.month_pos
  have hnonneg := timeOfDay_nonneg h'
  have hbound := timeOfDay_lt h
  by_cases hdate : h.validDate.date.Before h'.validDate.date
  · have hordinal := Date.ordinal_lt_of_before hdate
    omega
  · -- on the same day, the times decide
    simp only [fields, List.cons_lt_cons_iff, List.not_lt_nil, and_false, or_false] at hlt
    simp only [Date.Before, ValidDate.date] at hdate
    have hsame : t.year = t'.year ∧ t.month = t'.month ∧ t.day = t'.day := by omega
    have hordinal : h.validDate.date.ordinal = h'.validDate.date.ordinal := by
      rw [← getBaseDate_eq, ← getBaseDate_eq]
      simp only [getBaseDate, getYearDay, hsame]
    have htime : t.timeOfDay < t'.timeOfDay := by
      obtain ⟨-, -, -, -, -, -, -, -, -, hminutes, -, hseconds, -, hmicro⟩ := h
      obtain ⟨-, -, -, -, -, -, -, -, hminutes', -, hseconds', -, hmicro', -⟩ := h'
      simp only [timeOfDay]
      omega
    omega

theorem fields_trichotomy (t t' : RexxDateTime) :
    t.fields < t'.fields ∨ t = t' ∨ t'.fields < t.fields := by
  cases t
  cases t'
  simp only [fields, List.cons_lt_cons_iff, List.not_lt_nil, and_false, or_false, mk.injEq]
  omega

theorem getBaseTime_injective {t t' : RexxDateTime} (h : t.Valid) (h' : t'.Valid)
    (heq : t.getBaseTime = t'.getBaseTime) : t = t' := by
  obtain hlt | hsame | hgt := fields_trichotomy t t'
  · have hbase := getBaseTime_lt_of_fields_lt h h' hlt
    omega
  · exact hsame
  · have hbase := getBaseTime_lt_of_fields_lt h' h hgt
    omega

/-! ## Base times -/

theorem setBaseTime_spec (t : RexxDateTime) {x : Int} (hlow : 0 ≤ x)
    (hhigh : x ≤ maxBaseTime.getBaseTime) :
    (t.setBaseTime x).1 = true ∧ (t.setBaseTime x).2.Valid ∧
      (t.setBaseTime x).2.getBaseTime = x := by
  have hrange : ¬ (x < 0 ∨ x > maxBaseTime.getBaseTime) := by omega
  obtain ⟨d, hd⟩ : ∃ d, d = x / 86400000000 := ⟨_, rfl⟩
  obtain ⟨r, hr⟩ : ∃ r, r = x - d * 86400000000 := ⟨_, rfl⟩
  have hr₀ : 0 ≤ r := by omega
  have hr₁ : 0 ≤ r / 1000000 := by omega
  have hr₂ : 0 ≤ r / 1000000 % 3600 := by omega
  rw [maxBaseTime_eq] at hhigh
  have hday₀ : 0 ≤ d := by omega
  obtain ⟨hvalid, hordinal, hyear⟩ := t.setBaseDate_spec hday₀
    (by rw [maxBaseDate_eq]; omega)
  have hset : t.setBaseTime x = (true, { (t.setBaseDate d).2 with
      hours := r / 1000000 / 3600
      minutes := r / 1000000 % 3600 / 60
      seconds := r / 1000000 % 3600 % 60
      microseconds := r % 1000000 }) := by
    have hday : microsecondsInDay = 86400000000 := by decide
    have hhour : secondsInHour = 3600 := by decide
    simp only [setBaseTime, hrange, if_false, hday, hhour, secondsInMinute, microsecondsInSecond,
      Int.tdiv_eq_ediv_of_nonneg hlow, ← hd, ← hr, Int.tdiv_eq_ediv_of_nonneg hr₀,
      Int.tmod_eq_emod_of_nonneg hr₀, Int.tdiv_eq_ediv_of_nonneg hr₁,
      Int.tmod_eq_emod_of_nonneg hr₁, Int.tdiv_eq_ediv_of_nonneg hr₂,
      Int.tmod_eq_emod_of_nonneg hr₂]
  obtain ⟨hyear', hmonth, hmonth', hday, hday'⟩ := id hvalid
  have hall : (t.setBaseTime x).2.Valid := by
    rw [hset]
    exact ⟨hyear', hyear, hmonth, hmonth', hday, hday', by simp only; omega, by simp only; omega,
      by simp only; omega, by simp only; omega, by simp only; omega, by simp only; omega,
      by simp only; omega, by simp only; omega⟩
  refine ⟨by rw [hset], hall, ?_⟩
  have hdate : hall.validDate.date.ordinal = d := by
    rw [← hordinal, ← getBaseDate_eq, ← getBaseDate_eq, hset]
    rfl
  rw [getBaseTime_eq hall.validDate, hdate, hset]
  simp only [timeOfDay]
  omega

theorem setBaseTime_getBaseTime {t : RexxDateTime} (h : t.Valid) (t₀ : RexxDateTime) :
    t₀.setBaseTime t.getBaseTime = (true, t) := by
  obtain ⟨hset, hvalid, hbase⟩ := t₀.setBaseTime_spec (getBaseTime_nonneg h) (getBaseTime_le h)
  exact Prod.ext hset (getBaseTime_injective hvalid h hbase)

/-! ## Unix times -/

theorem unixBaseTime_eq : unixBaseTime.getBaseTime = 62135596800000000 := by decide

theorem getBaseTime_mod {t : RexxDateTime} (h : t.Valid) :
    t.getBaseTime % 1000000 = t.microseconds := by
  have hlow := h.microseconds_nonneg
  have hhigh := h.microseconds_lt
  simp only [getBaseTime_eq h.validDate, timeOfDay]
  omega

theorem getUnixTime_of_seconds {t : RexxDateTime} (h : t.Valid) (hmicro : t.microseconds = 0) :
    t.getUnixTime * 1000000 + 62135596800000000 = t.getBaseTime := by
  have hmod := getBaseTime_mod h
  have hdvd : (1000000 : Int) ∣ t.getBaseTime - 62135596800000000 := by omega
  rw [getUnixTime, unixBaseTime_eq, microsecondsInSecond, Int.tdiv_mul_cancel hdvd]
  omega

theorem getUnixTime_of_base {t : RexxDateTime} {x : Int}
    (h : t.getBaseTime = x * 1000000 + 62135596800000000) : t.getUnixTime = x := by
  have hsub : x * 1000000 + 62135596800000000 - 62135596800000000 = x * 1000000 := by omega
  rw [getUnixTime, unixBaseTime_eq, microsecondsInSecond, h, hsub]
  exact Int.mul_tdiv_cancel x (by decide)

theorem setUnixTime_eq (t : RexxDateTime) (x : Int) :
    t.setUnixTime x = t.setBaseTime (x * 1000000 + 62135596800000000) := by
  rw [setUnixTime, unixBaseTime_eq, microsecondsInSecond]

def wholeSecond (t : RexxDateTime) : RexxDateTime := { t with microseconds := 0 }

theorem wholeSecond_valid {t : RexxDateTime} (h : t.Valid) : t.wholeSecond.Valid :=
  { h with
    microseconds_nonneg := Int.le_refl 0
    microseconds_lt := by simp only [wholeSecond]; omega }

theorem getBaseTime_wholeSecond (t : RexxDateTime) :
    t.wholeSecond.getBaseTime + t.microseconds = t.getBaseTime := by
  change (t.getBaseDate * secondsInDay + t.getTimeSeconds) * microsecondsInSecond + 0 + _
    = (t.getBaseDate * secondsInDay + t.getTimeSeconds) * microsecondsInSecond + _
  rw [Int.add_zero]

theorem getUnixTime_wholeSecond {t : RexxDateTime} (h : t.Valid)
    (hafter : unixBaseTime.getBaseTime ≤ t.getBaseTime) :
    t.getUnixTime = t.wholeSecond.getUnixTime := by
  have hbase := getBaseTime_wholeSecond t
  have hlow := h.microseconds_nonneg
  have hhigh := h.microseconds_lt
  have hmod := getBaseTime_mod h
  rw [unixBaseTime_eq] at hafter
  rw [getUnixTime, getUnixTime, unixBaseTime_eq, microsecondsInSecond,
    Int.tdiv_eq_ediv_of_nonneg (by omega), Int.tdiv_eq_ediv_of_nonneg (by omega)]
  omega

/-! ## The numberings -/

/-- `get` numbers the time stamps that satisfy `p` from `low` to `high`, in the
order of their fields, and `set` finds them again whatever it starts from. -/
structure Numbering (p : RexxDateTime → Prop) (get : RexxDateTime → Int)
    (set : RexxDateTime → Int → Bool × RexxDateTime) (low high : Int) : Prop where
  set_get : ∀ t t₀, p t → set t₀ (get t) = (true, t)
  set_range : ∀ x t₀, low ≤ x → x ≤ high → (set t₀ x).1 = true ∧ p (set t₀ x).2
  get_set : ∀ x t₀, low ≤ x → x ≤ high → get (set t₀ x).2 = x
  get_range : ∀ t, p t → low ≤ get t ∧ get t ≤ high
  get_lt : ∀ t t', p t → p t' → t.fields < t'.fields → get t < get t'

theorem baseTime_numbering :
    Numbering Valid getBaseTime setBaseTime 0 maxBaseTime.getBaseTime where
  set_get _ t₀ h := setBaseTime_getBaseTime h t₀
  set_range _ t₀ hlow hhigh :=
    have hspec := t₀.setBaseTime_spec hlow hhigh
    ⟨hspec.1, hspec.2.1⟩
  get_set _ t₀ hlow hhigh := (t₀.setBaseTime_spec hlow hhigh).2.2
  get_range _ h := ⟨getBaseTime_nonneg h, getBaseTime_le h⟩
  get_lt _ _ h h' hlt := getBaseTime_lt_of_fields_lt h h' hlt

theorem unixTime_numbering :
    Numbering (fun t => t.Valid ∧ t.microseconds = 0) getUnixTime setUnixTime
      (-62135596800) 253402300799 where
  set_get t t₀ h := by
    rw [setUnixTime_eq, getUnixTime_of_seconds h.1 h.2]
    exact setBaseTime_getBaseTime h.1 t₀
  set_range x t₀ hlow hhigh := by
    rw [setUnixTime_eq]
    obtain ⟨hset, hvalid, hbase⟩ := t₀.setBaseTime_spec
      (x := x * 1000000 + 62135596800000000) (by omega) (by rw [maxBaseTime_eq]; omega)
    have hmod := getBaseTime_mod hvalid
    exact ⟨hset, hvalid, by omega⟩
  get_set x t₀ hlow hhigh := by
    rw [setUnixTime_eq]
    obtain ⟨-, -, hbase⟩ := t₀.setBaseTime_spec
      (x := x * 1000000 + 62135596800000000) (by omega) (by rw [maxBaseTime_eq]; omega)
    exact getUnixTime_of_base hbase
  get_range t h := by
    have hseconds := getUnixTime_of_seconds h.1 h.2
    have hlow := getBaseTime_nonneg h.1
    have hhigh := getBaseTime_le h.1
    rw [maxBaseTime_eq] at hhigh
    omega
  get_lt t t' h h' hlt := by
    have hseconds := getUnixTime_of_seconds h.1 h.2
    have hseconds' := getUnixTime_of_seconds h'.1 h'.2
    have hbase := getBaseTime_lt_of_fields_lt h.1 h'.1 hlt
    omega

/-- Base times number the valid time stamps, and Unix times those on a whole
second; from 1970 on a Unix time gives back the second of any time stamp. -/
theorem baseTime_unixTime :
    Numbering Valid getBaseTime setBaseTime 0 maxBaseTime.getBaseTime ∧
    Numbering (fun t => t.Valid ∧ t.microseconds = 0) getUnixTime setUnixTime
      (-62135596800) 253402300799 ∧
    ∀ t t₀ : RexxDateTime, t.Valid → unixBaseTime.getBaseTime ≤ t.getBaseTime →
      t₀.setUnixTime t.getUnixTime = (true, { t with microseconds := 0 }) := by
  refine ⟨baseTime_numbering, unixTime_numbering, ?_⟩
  intro t t₀ h hafter
  rw [getUnixTime_wholeSecond h hafter]
  exact unixTime_numbering.set_get t.wholeSecond t₀ ⟨wholeSecond_valid h, rfl⟩

/-- The last second of a leap year, and half a second in it. -/
theorem baseTime_unixTime_leap_day :
    let t : RexxDateTime := ⟨2020, 12, 31, 23, 59, 59, 500000⟩
    t.Valid ∧ clear.setBaseTime t.getBaseTime = (true, t) ∧
      clear.setUnixTime t.getUnixTime = (true, ⟨2020, 12, 31, 23, 59, 59, 0⟩) := by
  intro t
  have hvalid : t.Valid := by constructor <;> decide
  exact ⟨hvalid, baseTime_unixTime.1.set_get t clear hvalid,
    baseTime_unixTime.2.2 t clear hvalid (by decide)⟩

/-- One microsecond after the start of 1970, which no Unix time names. -/
theorem setUnixTime_loses_microsecond :
    let t : RexxDateTime := ⟨1970, 1, 1, 0, 0, 0, 1⟩
    t.Valid ∧ clear.setUnixTime t.getUnixTime ≠ (true, t) := by
  intro t
  have hvalid : t.Valid := by constructor <;> decide
  exact ⟨hvalid, by decide⟩

end LeooRexx.RexxDateTime
