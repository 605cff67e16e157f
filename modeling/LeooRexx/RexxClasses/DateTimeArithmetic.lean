import LeooRexx.NumberString.LongDifference
import LeooRexx.RexxClasses.DateTimeText

/-!
# Arithmetic of DateTime and TimeSpan objects

The methods add and subtract counts with at least 18 digits.  A number that needs more is out of
the range of a count, so that nothing is lost where `init` accepts the result; only `duration`
computes with the digits that are in effect by default.
-/

namespace LeooRexx

open NumberString Positional RexxDateTime DecimalRounding Gregorian

/-- `ABS` for the number of a count. -/
def absMethod (digits : Nat) (timestamp : Int) : Option Int :=
  let s : Settings := ⟨digits, 0, .scientific⟩
  match (countNumber s timestamp).setupNumber s with
  | .ok n => some (value 10 n.number * 10 ^ n.exp.toNat)
  | .error _ => none

/-! ## The methods -/

namespace TimeSpan

def ofCount (timestamp : Int) : Option TimeSpan :=
  if h : |timestamp| ≤ maxBaseTime.getBaseTime then some ⟨timestamp, h⟩ else none

def new (timestamp : Int) : Option TimeSpan := do ofCount (← init timestamp)

/-- `new` with all components. -/
def newComponents (days hours minutes seconds microseconds : Int) : Option TimeSpan := do
  let count ← whole 20 (days * 24)
  let days ← whole 20 (count * 3600)
  let hours ← whole 20 (hours * 3600)
  let minutes ← whole 20 (minutes * 60)
  let count ← whole 20 (days + hours)
  let count ← whole 20 (count + minutes)
  let count ← whole 20 (count + seconds)
  let count ← whole 20 (count * 1000000)
  new (← whole 20 (count + microseconds))

def fromDays (days : Int) : Option TimeSpan := newComponents days 0 0 0 0

def fromHours (hours : Int) : Option TimeSpan := newComponents 0 hours 0 0 0

def fromMinutes (minutes : Int) : Option TimeSpan := newComponents 0 0 minutes 0 0

def fromSeconds (seconds : Int) : Option TimeSpan := newComponents 0 0 0 seconds 0

def duration (self : TimeSpan) : Option TimeSpan := do new (← absMethod 9 self.timestamp)

def negate (self : TimeSpan) : Option TimeSpan := do new (← whole 18 (-self.timestamp))

def minus (self other : TimeSpan) : Option TimeSpan := do
  new (← whole 18 (self.timestamp - other.timestamp))

def plus (self other : TimeSpan) : Option TimeSpan := do
  new (← whole 18 (self.timestamp + other.timestamp))

/-- A whole number of units is added; `TRUNC` leaves a whole number as it is. -/
def addUnits (unit : Int) (self : TimeSpan) (number : Int) : Option TimeSpan := do
  let interval ← whole 18 (number * unit)
  new (← whole 18 (self.timestamp + interval))

def addDays (self : TimeSpan) (days : Int) : Option TimeSpan :=
  self.addUnits (24 * 3600 * 1000000) days

def addHours (self : TimeSpan) (hours : Int) : Option TimeSpan :=
  self.addUnits (3600 * 1000000) hours

def addMinutes (self : TimeSpan) (minutes : Int) : Option TimeSpan :=
  self.addUnits (60 * 1000000) minutes

def addSeconds (self : TimeSpan) (seconds : Int) : Option TimeSpan :=
  self.addUnits 1000000 seconds

end TimeSpan

namespace DateTime

def ofCount (timestamp : Int) : Option DateTime :=
  if h : 0 ≤ timestamp ∧ timestamp ≤ maxBaseTime.getBaseTime then some ⟨timestamp, h.1, h.2⟩
  else none

def new (timestamp : Int) : Option DateTime := do ofCount (← dateFull timestamp)

/-- `date('F', date, 'S')`. -/
def dateFromStandard (date : List UInt8) : Option Int := do
  let t ← RexxDateTime.clear.parseStandardDate date none
  some t.getBaseTime

def convertDate (year month day : Int) : Option Int :=
  if year < 1 ∨ year > 9999 ∨ month < 1 ∨ month > 12 ∨ day < 1 ∨ day > 31 then none
  else
    dateFromStandard (right 4 chZero (ltoa year) ++ right 2 chZero (ltoa month) ++
      right 2 chZero (ltoa day))

/-- `new` with a date. -/
def newDate (year month day : Int) : Option DateTime := do ofCount (← convertDate year month day)

def standardDate (self : DateTime) : Option (List UInt8) :=
  let (valid, t) := RexxDateTime.clear.setBaseTime self.timestamp
  if valid then some (t.formatStandardDate none) else none

def longTime (self : DateTime) : Option (List UInt8) :=
  let (valid, t) := RexxDateTime.clear.setBaseTime self.timestamp
  if valid then some t.formatLongTime else none

def date (self : DateTime) : Option DateTime := do
  new (← dateFromStandard (← self.standardDate))

/-- `time('F', self~longTime, 'L')`. -/
def timeOfDay (self : DateTime) : Option TimeSpan := do
  let t ← RexxDateTime.clear.parseLongTime (← self.longTime)
  TimeSpan.new t.getBaseTime

def year (self : DateTime) : Option Int := do
  wholeNumber 9 ((← self.standardDate).take 4)

def month (self : DateTime) : Option Int := do
  wholeNumber 9 (((← self.standardDate).drop 4).take 2)

def day (self : DateTime) : Option Int := do
  wholeNumber 9 (((← self.standardDate).drop 6).take 2)

def minusSpan (self : DateTime) (other : TimeSpan) : Option DateTime := do
  new (← whole 18 (self.timestamp - other.timestamp))

def minus (self other : DateTime) : Option TimeSpan := do
  TimeSpan.new (← whole 18 (self.timestamp - other.timestamp))

def plus (self : DateTime) (other : TimeSpan) : Option DateTime := do
  new (← whole 18 (self.timestamp + other.timestamp))

def addUnits (unit : Int) (self : DateTime) (number : Int) : Option DateTime := do
  let interval ← whole 18 (number * unit)
  new (← whole 18 (self.timestamp + interval))

def addDays (self : DateTime) (days : Int) : Option DateTime :=
  self.addUnits (24 * 3600 * 1000000) days

def addHours (self : DateTime) (hours : Int) : Option DateTime :=
  self.addUnits (3600 * 1000000) hours

def addMinutes (self : DateTime) (minutes : Int) : Option DateTime :=
  self.addUnits (60 * 1000000) minutes

def addSeconds (self : DateTime) (seconds : Int) : Option DateTime :=
  self.addUnits 1000000 seconds

/-- The test of `addYears` and `isLeapYear`. -/
def isLeapYear (year : Int) : Bool :=
  year.tmod 4 == 0 && (year.tmod 100 != 0 || year.tmod 400 == 0)

def addYears (self : DateTime) (years : Int) : Option DateTime := do
  let basedate ← self.date
  let dayoffset ← self.timeOfDay
  let year ← basedate.year
  let month ← basedate.month
  let day ← basedate.day
  let year ← whole 9 (year + years)
  let day := if month = 2 ∧ day = 29 ∧ ¬ isLeapYear year then day - 1 else day
  let newDate ← newDate year month day
  newDate.plus dayoffset

end DateTime

/-- `TimeSpan::+` with a DateTime object. -/
def TimeSpan.plusDateTime (self : TimeSpan) (other : DateTime) : Option DateTime := do
  DateTime.new (← whole 18 (self.timestamp + other.timestamp))

/-! ## Counts -/

theorem whole_eq_some {digits : Nat} {v w : Int} :
    whole digits v = some w ↔ v.natAbs < 10 ^ digits ∧ w = v := by
  rw [whole]
  split
  · simp [*, eq_comm]
  · simp [*]

theorem dateFull_eq_some {v w : Int} :
    dateFull v = some w ↔ 0 ≤ v ∧ v ≤ maxBaseTime.getBaseTime ∧ w = v := by
  constructor
  · intro h
    by_cases hrange : v < 0 ∨ v > maxBaseTime.getBaseTime
    · simp [dateFull, setBaseTime, hrange] at h
    · rw [not_or, not_lt, not_lt] at hrange
      rw [dateFull_eq hrange.1 hrange.2] at h
      exact ⟨hrange.1, hrange.2, (Option.some.inj h).symm⟩
  · rintro ⟨hlow, hhigh, rfl⟩
    exact dateFull_eq hlow hhigh

namespace TimeSpan

theorem new_eq_some {v : Int} {t : TimeSpan} : new v = some t ↔ v = t.timestamp := by
  have hmax := maxBaseTime_lt
  constructor
  · intro h
    simp only [new, init, ofCount, Option.bind_eq_bind, Option.bind_eq_some_iff, whole_eq_some,
      dateFull_eq_some] at h
    obtain ⟨count, ⟨_, ⟨-, rfl⟩, full, ⟨-, -, rfl⟩, -, rfl⟩, hcount⟩ := h
    rw [mul_comm, Int.sign_mul_abs] at hcount
    split at hcount
    · exact congrArg TimeSpan.timestamp (Option.some.inj hcount)
    · contradiction
  · rintro rfl
    rw [new, init_eq t.abs_le_max, Option.bind_eq_bind, Option.bind_some, ofCount,
      dif_pos t.abs_le_max]

theorem whole_new {digits : Nat} {v : Int} {t : TimeSpan} (hdigits : 18 ≤ digits) :
    (do new (← whole digits v) : Option TimeSpan) = some t ↔ t.timestamp = v := by
  constructor
  · intro h
    obtain ⟨w, hw, hnew⟩ := Option.bind_eq_some_iff.mp h
    rw [(whole_eq_some.mp hw).2] at hnew
    exact (new_eq_some.mp hnew).symm
  · intro h
    have hlt := t.natAbs_lt
    have hpow := Nat.pow_le_pow_right (n := 10) (by norm_num) hdigits
    rw [whole_of_lt (by omega), Option.bind_eq_bind, Option.bind_some]
    exact new_eq_some.mpr h.symm

theorem addUnits_eq_some {unit number : Int} {self t : TimeSpan}
    (h : self.addUnits unit number = some t) : t.timestamp = self.timestamp + number * unit := by
  obtain ⟨interval, hinterval, hnew⟩ := Option.bind_eq_some_iff.mp h
  rw [(whole_eq_some.mp hinterval).2] at hnew
  exact (whole_new (Nat.le_refl 18)).mp hnew

theorem newComponents_eq_some {days hours minutes seconds microseconds : Int} {t : TimeSpan}
    (h : newComponents days hours minutes seconds microseconds = some t) :
    t.timestamp = (days * 24 * 3600 + hours * 3600 + minutes * 60 + seconds) * 1000000 +
      microseconds := by
  simp only [newComponents, Option.bind_eq_bind, Option.bind_eq_some_iff, whole_eq_some,
    new_eq_some] at h
  obtain ⟨_, ⟨-, rfl⟩, _, ⟨-, rfl⟩, _, ⟨-, rfl⟩, _, ⟨-, rfl⟩, _, ⟨-, rfl⟩, _, ⟨-, rfl⟩, _, ⟨-, rfl⟩,
    _, ⟨-, rfl⟩, _, ⟨-, rfl⟩, hcount⟩ := h
  exact hcount.symm

end TimeSpan

namespace DateTime

theorem new_eq_some {v : Int} {d : DateTime} : new v = some d ↔ v = d.timestamp := by
  constructor
  · intro h
    obtain ⟨count, hcount, hnew⟩ := Option.bind_eq_some_iff.mp h
    obtain ⟨-, -, rfl⟩ := dateFull_eq_some.mp hcount
    rw [ofCount] at hnew
    split at hnew
    · exact congrArg DateTime.timestamp (Option.some.inj hnew)
    · contradiction
  · rintro rfl
    rw [new, dateFull_eq d.nonneg d.le_max, Option.bind_eq_bind, Option.bind_some, ofCount,
      dif_pos ⟨d.nonneg, d.le_max⟩]

theorem whole_new {v : Int} {d : DateTime} :
    (do new (← whole 18 v) : Option DateTime) = some d ↔ d.timestamp = v := by
  constructor
  · intro h
    obtain ⟨w, hw, hnew⟩ := Option.bind_eq_some_iff.mp h
    rw [(whole_eq_some.mp hw).2] at hnew
    exact (new_eq_some.mp hnew).symm
  · intro h
    have hlt := d.natAbs_lt
    rw [whole_of_lt (by omega), Option.bind_eq_bind, Option.bind_some]
    exact new_eq_some.mpr h.symm

theorem addUnits_eq_some {unit number : Int} {self d : DateTime}
    (h : self.addUnits unit number = some d) : d.timestamp = self.timestamp + number * unit := by
  obtain ⟨interval, hinterval, hnew⟩ := Option.bind_eq_some_iff.mp h
  rw [(whole_eq_some.mp hinterval).2] at hnew
  exact whole_new.mp hnew

/-! ## Fields -/

/-- The fields that `DATE` and `TIME` get from the count. -/
def fields (d : DateTime) : RexxDateTime := (RexxDateTime.clear.setBaseTime d.timestamp).2

theorem fields_spec (d : DateTime) :
    RexxDateTime.clear.setBaseTime d.timestamp = (true, d.fields) ∧ d.fields.Valid ∧
      d.fields.getBaseTime = d.timestamp := by
  obtain ⟨hset, hvalid, hbase⟩ := RexxDateTime.clear.setBaseTime_spec d.nonneg d.le_max
  exact ⟨Prod.ext hset rfl, hvalid, hbase⟩

theorem fields_of_timestamp {d : DateTime} {t : RexxDateTime} (ht : t.Valid)
    (h : d.timestamp = t.getBaseTime) : d.fields = t := by
  rw [fields, h, setBaseTime_getBaseTime ht]

theorem standardDate_eq (d : DateTime) :
    d.standardDate = some (d.fields.formatStandardDate none) := by
  simp only [standardDate, d.fields_spec.1, if_true]

theorem longTime_eq (d : DateTime) : d.longTime = some d.fields.formatLongTime := by
  simp only [longTime, d.fields_spec.1, if_true]

theorem admittedSep_none : AdmittedSep none := nofun

theorem dateFromStandard_format {t : RexxDateTime} (ht : t.Valid) :
    dateFromStandard (t.formatStandardDate none) =
      some (RexxDateTime.clear.withDate t t.year).getBaseTime := by
  rw [dateFromStandard, standard_undone ht _ admittedSep_none]
  rfl

theorem valid_withDate {t : RexxDateTime} (ht : t.Valid) :
    (RexxDateTime.clear.withDate t t.year).Valid where
  year_pos := ht.year_pos
  year_le := ht.year_le
  month_pos := ht.month_pos
  month_le := ht.month_le
  day_pos := ht.day_pos
  day_le := ht.day_le
  hours_nonneg := Int.le_refl 0
  hours_lt := (by decide : (0 : Int) < 24)
  minutes_nonneg := Int.le_refl 0
  minutes_lt := (by decide : (0 : Int) < 60)
  seconds_nonneg := Int.le_refl 0
  seconds_lt := (by decide : (0 : Int) < 60)
  microseconds_nonneg := Int.le_refl 0
  microseconds_lt := (by decide : (0 : Int) < 1000000)

theorem length_padded {width v : Nat} (hwidth : 1 ≤ width) (hv : v < 10 ^ width) :
    (padded width v).length = width := by
  obtain ⟨ds, htext, -, -, hlength⟩ := padded_eq_digitText hwidth hv
  rw [htext, length_digitText, hlength]

theorem sprintfD_of_nonneg {width : Nat} {v : Int} (hv : 0 ≤ v) :
    sprintfD width v = padded width v.natAbs := if_neg (by omega)

theorem formatStandardDate_eq {t : RexxDateTime} (ht : t.Valid) :
    t.formatStandardDate none =
      padded 4 t.year.natAbs ++ (padded 2 t.month.natAbs ++ padded 2 t.day.natAbs) := by
  have hyear := ht.year_pos
  have hmonth := ht.month_pos
  have hday := ht.day_pos
  simp only [formatStandardDate, Option.getD_none, List.append_nil, List.append_assoc]
  rw [sprintfD_of_nonneg (by omega), sprintfD_of_nonneg (by omega),
    sprintfD_of_nonneg (by omega)]

theorem wholeNumber_field {width : Nat} {v : Int} (hv : 0 ≤ v) (hlt : v < 10 ^ 9) :
    wholeNumber 9 (padded width v.natAbs) = some v := by
  have hspells := spells_padded width v.natAbs
  rw [Int.natAbs_of_nonneg hv] at hspells
  exact wholeNumber_spells hspells (by decide) (by omega)

theorem components_eq (d : DateTime) : d.year = some d.fields.year ∧
    d.month = some d.fields.month ∧ d.day = some d.fields.day := by
  obtain ⟨-, hvalid, -⟩ := d.fields_spec
  have hyear := hvalid.year_pos
  have hyearLe := hvalid.year_le
  have hmonth := hvalid.month_pos
  have hmonthLe := hvalid.month_le
  have hday := hvalid.day_pos
  have hdayLe := Valid.day_le_31 hvalid
  have hyearLength : (padded 4 d.fields.year.natAbs).length = 4 :=
    length_padded (by decide) (by omega)
  have hmonthLength : (padded 2 d.fields.month.natAbs).length = 2 :=
    length_padded (by decide) (by omega)
  have hdayLength : (padded 2 d.fields.day.natAbs).length = 2 :=
    length_padded (by decide) (by omega)
  refine ⟨?_, ?_, ?_⟩
  · rw [year, standardDate_eq, Option.bind_eq_bind, Option.bind_some, formatStandardDate_eq hvalid,
      List.take_left' hyearLength]
    exact wholeNumber_field (by omega) (by omega)
  · rw [month, standardDate_eq, Option.bind_eq_bind, Option.bind_some,
      formatStandardDate_eq hvalid, List.drop_left' hyearLength, List.take_left' hmonthLength]
    exact wholeNumber_field (by omega) (by omega)
  · have hfront : (padded 4 d.fields.year.natAbs ++ padded 2 d.fields.month.natAbs).length = 6 := by
      rw [List.length_append, hyearLength, hmonthLength]
    rw [day, standardDate_eq, Option.bind_eq_bind, Option.bind_some, formatStandardDate_eq hvalid,
      ← List.append_assoc, List.drop_left' hfront, List.take_of_length_le (by omega)]
    exact wholeNumber_field (by omega) (by omega)

/-! ## The day and the time of the day -/

def dayTime (t : RexxDateTime) : Int :=
  RexxDateTime.getBaseTime { RexxDateTime.clear.start with
    hours := t.hours
    minutes := t.minutes
    seconds := t.seconds
    microseconds := t.microseconds }

theorem date_eq_some {d x : DateTime} (h : d.date = some x) :
    x.fields = RexxDateTime.clear.withDate d.fields d.fields.year := by
  obtain ⟨-, hvalid, -⟩ := d.fields_spec
  simp only [date, standardDate_eq, dateFromStandard_format hvalid, Option.bind_eq_bind,
    Option.bind_some, new_eq_some] at h
  exact fields_of_timestamp (valid_withDate hvalid) h.symm

theorem timeOfDay_eq_some {d : DateTime} {y : TimeSpan} (h : d.timeOfDay = some y) :
    y.timestamp = dayTime d.fields := by
  obtain ⟨-, hvalid, -⟩ := d.fields_spec
  rw [timeOfDay, longTime_eq, Option.bind_eq_bind, Option.bind_some, longTime_undone hvalid,
    Option.bind_eq_bind, Option.bind_some, TimeSpan.new_eq_some] at h
  exact h.symm

theorem date_plus_timeOfDay {d x : DateTime} {y : TimeSpan} (hx : d.date = some x)
    (hy : d.timeOfDay = some y) : x.plus y = some d := by
  have hparts := getBaseTime_parts d.fields
  rw [← date_eq_some hx, x.fields_spec.2.2, d.fields_spec.2.2] at hparts
  rw [plus, whole_new, timeOfDay_eq_some hy]
  exact hparts.symm

/-! ## Years -/

theorem right_field {width : Nat} {v : Int} (hwidth : 1 ≤ width) (hv : 0 ≤ v)
    (hlt : v < 10 ^ width) : right width chZero (ltoa v) = padded width v.natAbs := by
  have hnat : v.natAbs < 10 ^ width := by
    zify
    rwa [abs_of_nonneg hv]
  have hright := right_ltoa hwidth hnat
  rwa [Int.natAbs_of_nonneg hv] at hright

theorem newDate_eq_some {t : RexxDateTime} (ht : t.Valid) {x : DateTime}
    (h : newDate t.year t.month t.day = some x) :
    x.timestamp = (RexxDateTime.clear.withDate t t.year).getBaseTime := by
  have hyear := ht.year_pos
  have hyearLe := ht.year_le
  have hmonth := ht.month_pos
  have hmonthLe := ht.month_le
  have hday := ht.day_pos
  have hdayLe := Valid.day_le_31 ht
  rw [newDate, convertDate, if_neg (by omega), right_field (by decide) (by omega) (by omega),
    right_field (by decide) (by omega) (by omega), right_field (by decide) (by omega) (by omega),
    List.append_assoc, ← formatStandardDate_eq ht, dateFromStandard_format ht, Option.bind_eq_bind,
    Option.bind_some, ofCount] at h
  split at h
  · exact congrArg DateTime.timestamp (Option.some.inj h).symm
  · contradiction

theorem year_of_newDate {year month day : Int} {x : DateTime}
    (h : newDate year month day = some x) : 1 ≤ year ∧ year ≤ 9999 := by
  obtain ⟨count, hcount, -⟩ := Option.bind_eq_some_iff.mp h
  rw [convertDate] at hcount
  split at hcount
  · contradiction
  · omega

def inYear (t : RexxDateTime) (year : Int) : RexxDateTime :=
  { t with
    year := year
    day := if t.month = 2 ∧ t.day = 29 ∧ ¬ leapYear year then 28 else t.day }

theorem monthLength_of_ne_two : ∀ leap leap', ∀ month ≤ 12, month ≠ 2 →
    monthLength leap month = monthLength leap' month := by decide

theorem valid_inYear {t : RexxDateTime} (ht : t.Valid) {year : Int} (hlow : 1 ≤ year)
    (hhigh : year ≤ 9999) : (inYear t year).Valid := by
  have hmonth := ht.month_pos
  have hmonthLe := ht.month_le
  have hday := ht.day_pos
  have hdayLe := ht.day_le
  have hfebruary : monthLength true 2 = 29 ∧ monthLength false 2 = 28 := by decide
  refine { ht with
    year_pos := hlow
    year_le := hhigh
    day_pos := ?_
    day_le := ?_ }
  · change 1 ≤ if t.month = 2 ∧ t.day = 29 ∧ ¬ leapYear year then 28 else t.day
    split <;> omega
  · change (if t.month = 2 ∧ t.day = 29 ∧ ¬ leapYear year then 28 else t.day) ≤
      monthLength (leapYear year) t.month.toNat
    by_cases htwo : t.month = 2
    · have htoNat : t.month.toNat = 2 := by omega
      rw [htoNat] at hdayLe ⊢
      cases hleap : leapYear year with
      | true =>
          rw [if_neg (by simp), hfebruary.1]
          cases hold : leapYear t.year <;> rw [hold] at hdayLe <;> omega
      | false =>
          rw [hfebruary.2]
          have hbound : t.day ≤ 29 := by
            cases hold : leapYear t.year <;> rw [hold] at hdayLe <;> omega
          by_cases hlast : t.day = 29
          · rw [if_pos ⟨htwo, hlast, Bool.false_ne_true⟩]
          · rw [if_neg fun h => hlast h.2.1]
            omega
    · rw [if_neg (by tauto),
        monthLength_of_ne_two (leapYear year) (leapYear t.year) _ (by omega) (by omega)]
      exact hdayLe

theorem addYears_eq_some {d x : DateTime} {years : Int} (h : d.addYears years = some x) :
    x.fields = inYear d.fields (d.fields.year + years) := by
  obtain ⟨-, hvalid, -⟩ := d.fields_spec
  simp only [addYears, Option.bind_eq_bind, Option.bind_eq_some_iff] at h
  obtain ⟨basedate, hbase, dayoffset, hoffset, hrest⟩ := h
  have hfields := date_eq_some hbase
  obtain ⟨hyear, hmonth, hday⟩ := basedate.components_eq
  rw [hfields] at hyear hmonth hday
  simp only [hyear, hmonth, hday, Option.some.injEq, exists_eq_left', whole_eq_some] at hrest
  obtain ⟨year, ⟨-, rfl⟩, newDay, hnew, hplus⟩ := hrest
  obtain ⟨t, ht⟩ : ∃ t, t = inYear d.fields (d.fields.year + years) := ⟨_, rfl⟩
  change newDate (d.fields.year + years) d.fields.month _ = some newDay at hnew
  obtain ⟨hlow, hhigh⟩ := year_of_newDate hnew
  have htValid : t.Valid := ht ▸ valid_inYear hvalid hlow hhigh
  have hday : (if d.fields.month = 2 ∧ d.fields.day = 29 ∧
      ¬ isLeapYear (d.fields.year + years) then d.fields.day - 1 else d.fields.day) = t.day := by
    rw [ht]
    change _ = if d.fields.month = 2 ∧ d.fields.day = 29 ∧
      ¬ isLeapYear (d.fields.year + years) then 28 else d.fields.day
    split
    · omega
    · rfl
  change newDate (d.fields.year + years) d.fields.month (if d.fields.month = 2 ∧ d.fields.day = 29 ∧
      ¬ isLeapYear (d.fields.year + years) then d.fields.day - 1 else d.fields.day) =
    some newDay at hnew
  have hyear : t.year = d.fields.year + years := by rw [ht, inYear]
  have hmonth : t.month = d.fields.month := by rw [ht, inYear]
  have htime : dayTime d.fields = dayTime t := by
    rw [ht]
    rfl
  rw [hday, ← hyear, ← hmonth] at hnew
  have hcount := newDate_eq_some htValid hnew
  have hsum := getBaseTime_parts t
  rw [plus, whole_new, hcount, timeOfDay_eq_some hoffset, htime] at hplus
  rw [← ht]
  exact fields_of_timestamp htValid (hplus.trans hsum)

end DateTime

/-! ## The duration -/

def rounded (n : Nat) : Nat :=
  if n < 10 ^ 9 then n
  else (n / 10 ^ (Nat.log 10 n - 9) + 5) / 10 * 10 ^ (Nat.log 10 n - 8)

theorem absMethod_eq {v : Int} (hv : v.natAbs < 10 ^ 18) :
    absMethod 9 v = some ↑(rounded v.natAbs) := by
  obtain ⟨s, hs⟩ : ∃ s : Settings, s = ⟨9, 0, .scientific⟩ := ⟨_, rfl⟩
  have hlen := length_whole s (k := 18) (by decide) hv
  by_cases hshort : v.natAbs < 10 ^ 9
  · have hfits : (countNumber s v).length ≤ s.digits := by
      rw [hs]
      exact length_whole _ (by decide) hshort
    have hnumber : value 10 (countNumber s v).number = v.natAbs := value_newWholenumber s v
    have hexp : (countNumber s v).exp = 0 := newWholenumber_exp s v
    simp only [absMethod, ← hs, setupNumber_of_le hfits, rounded, if_pos hshort]
    change some ((value 10 (countNumber s v).number : Int) * 10 ^ (countNumber s v).exp.toNat) = _
    rw [hnumber, hexp]
    simp
  · have hv0 : v ≠ 0 := by
      rintro rfl
      exact hshort (by decide)
    have hnumber : (countNumber s v).number = numeral 10 v.natAbs := by
      rw [countNumber, newWholenumber_eq, if_neg hv0]
      rfl
    have hexp : (countNumber s v).exp = 0 := newWholenumber_exp s v
    have hlog : 9 ≤ Nat.log 10 v.natAbs := Nat.le_log_of_pow_le (by norm_num) (not_lt.mp hshort)
    have hlength : (countNumber s v).length = Nat.log 10 v.natAbs + 1 := by
      rw [NumberString.length, hnumber, length_numeral (by norm_num) (by omega)]
    have hlong : (countNumber s v).length > s.digits := by
      rw [hlength, hs]
      exact Nat.lt_succ_of_le hlog
    have hle : (countNumber s v).length ≤ 18 := hlen
    have hsetup := setupNumber_long (s := s) (by rw [hs]; decide) hnumber (by omega)
      (by rw [hexp]; decide) (by rw [hexp]; unfold maxNum; omega) hlong rfl
    simp only [absMethod, ← hs, hsetup]
    rw [value_numeral, hexp, hs, Option.some.injEq]
    simp only [Decimal.round, if_neg hshort, rounded]
    split
    · have hshift : (0 + ((Nat.log 10 v.natAbs - 9 : ℕ) : Int) + 2).toNat =
          Nat.log 10 v.natAbs - 8 + 1 := by omega
      rename_i hcarry
      rw [hcarry]
      change ((10 ^ (9 - 1) : ℕ) : Int) * 10 ^ (0 + _ + 2 : Int).toNat = _
      rw [hshift, pow_succ]
      push_cast
      ring
    · have hshift : (0 + ((Nat.log 10 v.natAbs - 9 : ℕ) : Int) + 1).toNat =
          Nat.log 10 v.natAbs - 8 := by omega
      change _ * 10 ^ (0 + _ + 1 : Int).toNat = _
      rw [hshift]
      push_cast
      rfl

theorem rounded_eq_iff (n : Nat) : rounded n = n ↔ 10 ^ (Nat.log 10 n - 8) ∣ n := by
  rw [rounded]
  by_cases hshort : n < 10 ^ 9
  · have hlog : Nat.log 10 n - 8 = 0 := by
      have hlt := Nat.log_lt_of_lt_pow' (b := 10) (by norm_num) hshort
      omega
    rw [if_pos hshort, hlog]
    simp
  · have hlog : 9 ≤ Nat.log 10 n := Nat.le_log_of_pow_le (by norm_num) (not_lt.mp hshort)
    have hunit : 10 ^ (Nat.log 10 n - 8) = 10 ^ (Nat.log 10 n - 9) * 10 := by
      rw [← pow_succ]
      congr 1
      omega
    rw [if_neg hshort, hunit]
    constructor
    · intro h
      exact ⟨_, (mul_comm _ _).trans h |>.symm⟩
    · rintro ⟨k, hk⟩
      obtain ⟨q, hq⟩ : ∃ q, q = 10 ^ (Nat.log 10 n - 9) := ⟨_, rfl⟩
      have hpos : 0 < q := hq ▸ pow_pos (by norm_num) _
      rw [← hq] at hk ⊢
      have hdiv : n / q = 10 * k := by
        rw [hk, mul_assoc, Nat.mul_div_cancel_left _ hpos]
      have hround : (n / q + 5) / 10 = k := by omega
      rw [hround, hk]
      ring

theorem pow_log_le {n : Nat} (h : ¬ n < 10 ^ 9) :
    n < 10 ^ (Nat.log 10 n - 9) * 10 ^ 10 ∧
      10 ^ (Nat.log 10 n - 8) = 10 ^ (Nat.log 10 n - 9) * 10 := by
  have hlog : 9 ≤ Nat.log 10 n := Nat.le_log_of_pow_le (by norm_num) (not_lt.mp h)
  have hlt := Nat.lt_pow_succ_log_self (b := 10) (by norm_num) n
  constructor
  · rw [← pow_add]
    have hexp : Nat.log 10 n - 9 + 10 = (Nat.log 10 n).succ := by omega
    rwa [hexp]
  · rw [← pow_succ]
    congr 1
    omega

theorem rounded_le_iff {n : Nat} (hn : (n : Int) ≤ maxBaseTime.getBaseTime) :
    (rounded n : Int) ≤ maxBaseTime.getBaseTime ↔ n < 315537897500000000 := by
  rw [maxBaseTime_eq] at hn ⊢
  rw [rounded]
  by_cases hshort : n < 10 ^ 9
  · rw [if_pos hshort]
    exact ⟨fun _ => by omega, fun _ => hn⟩
  · obtain ⟨hlt, hunit⟩ := pow_log_le hshort
    have hlogLt : Nat.log 10 n < 18 := Nat.log_lt_of_lt_pow' (by norm_num) (by omega)
    rw [if_neg hshort, hunit]
    by_cases hlast : Nat.log 10 n = 17
    · rw [hlast]
      norm_num
      omega
    · have hpow : 10 ^ (Nat.log 10 n - 9) ≤ 10 ^ 7 := Nat.pow_le_pow_right (by norm_num) (by omega)
      obtain ⟨q, hq⟩ : ∃ q, q = 10 ^ (Nat.log 10 n - 9) := ⟨_, rfl⟩
      rw [← hq] at hlt hpow ⊢
      have hdiv : n / q < 10 ^ 10 := Nat.div_lt_of_lt_mul hlt
      have hround : (n / q + 5) / 10 ≤ 10 ^ 9 := by omega
      have hproduct : (n / q + 5) / 10 * (q * 10) ≤ 10 ^ 9 * (10 ^ 7 * 10) :=
        Nat.mul_le_mul hround (Nat.mul_le_mul_right 10 hpow)
      exact ⟨fun _ => by omega, fun _ => by omega⟩

namespace TimeSpan

theorem duration_eq_some {t x : TimeSpan} :
    t.duration = some x ↔ x.timestamp = rounded t.timestamp.natAbs := by
  rw [duration, absMethod_eq t.natAbs_lt, Option.bind_eq_bind, Option.bind_some, new_eq_some,
    eq_comm]

def DurationLaw (t : TimeSpan) : Prop :=
  ∀ x, t.duration = some x →
    (x.timestamp = t.timestamp ∨ x.timestamp = -t.timestamp) ∧ 0 ≤ x.timestamp

/-- Only the first nine digits differ from zero, or the rounded count is out of range. -/
def NineDigits (t : TimeSpan) : Prop :=
  10 ^ (Nat.log 10 t.timestamp.natAbs - 8) ∣ t.timestamp.natAbs ∨
    315537897500000000 ≤ t.timestamp.natAbs

theorem durationLaw_iff (t : TimeSpan) : t.DurationLaw ↔ t.NineDigits := by
  have habs := t.abs_le_max
  rw [Int.abs_eq_natAbs] at habs
  rw [NineDigits, ← rounded_eq_iff]
  constructor
  · intro h
    by_contra hnot
    obtain ⟨hne, hlt⟩ := not_or.mp hnot
    have hle := (rounded_le_iff habs).mpr (by omega)
    obtain ⟨x, hx⟩ : ∃ x : TimeSpan, x.timestamp = rounded t.timestamp.natAbs :=
      ⟨⟨_, (abs_of_nonneg (Int.natCast_nonneg _)).trans_le hle⟩, rfl⟩
    obtain ⟨hsame, hnonneg⟩ := h x (duration_eq_some.mpr hx)
    omega
  · intro h x hx
    rw [duration_eq_some] at hx
    rcases h with heq | hge
    · rw [hx, heq]
      omega
    · have hle := x.abs_le_max
      rw [hx, abs_of_nonneg (Int.natCast_nonneg _), rounded_le_iff habs] at hle
      omega

def Recombines (t : TimeSpan) : Prop :=
  ∃ days hours minutes seconds microseconds, t.days = some days ∧ t.hours = some hours ∧
    t.minutes = some minutes ∧ t.seconds = some seconds ∧ t.microseconds = some microseconds ∧
    (((days * 24 + hours) * 60 + minutes) * 60 + seconds) * 1000000 + microseconds = |t.timestamp|

theorem recombines (t : TimeSpan) : t.Recombines := by
  have hhours : t.hours = _ := t.component_eq 86400000000 3600000000
  have hminutes : t.minutes = _ := t.component_eq 3600000000 60000000
  have hseconds : t.seconds = _ := t.component_eq 60000000 1000000
  have hmicro : t.microseconds = _ := t.component_eq 1000000 1
  refine ⟨_, _, _, _, _, t.days_eq, hhours, hminutes, hseconds, hmicro, ?_⟩
  rw [Int.abs_eq_natAbs]
  omega

end TimeSpan

/-! ## The laws -/

def DateTime.Adds (d : DateTime) (sum : Option DateTime) (interval : Option TimeSpan) : Prop :=
  ∀ x i, sum = some x → interval = some i → d.plus i = some x

def TimeSpan.Adds (t : TimeSpan) (sum interval : Option TimeSpan) : Prop :=
  ∀ x i, sum = some x → interval = some i → t.plus i = some x

structure ArithmeticLaws (d e : DateTime) (s t : TimeSpan) (number years : Int) : Prop where
  minus_plus : ∀ x, d.minus e = some x → x.plusDateTime e = some d ∧ e.plus x = some d
  plus_minus : ∀ x, d.plus t = some x → x.minus d = some t
  plus_minusSpan : ∀ x, d.plus t = some x → x.minusSpan t = some d
  date_timeOfDay : ∀ x y, d.date = some x → d.timeOfDay = some y → x.plus y = some d
  spanPlus_minus : ∀ x, s.plus t = some x → x.minus t = some s
  negate_negate : ∀ x, t.negate = some x → x.negate = some t
  duration : t.DurationLaw
  recombines : t.Recombines
  dateAdds : d.Adds (d.addDays number) (TimeSpan.fromDays number) ∧
    d.Adds (d.addHours number) (TimeSpan.fromHours number) ∧
    d.Adds (d.addMinutes number) (TimeSpan.fromMinutes number) ∧
    d.Adds (d.addSeconds number) (TimeSpan.fromSeconds number)
  spanAdds : t.Adds (t.addDays number) (TimeSpan.fromDays number) ∧
    t.Adds (t.addHours number) (TimeSpan.fromHours number) ∧
    t.Adds (t.addMinutes number) (TimeSpan.fromMinutes number) ∧
    t.Adds (t.addSeconds number) (TimeSpan.fromSeconds number)
  addYears : ∀ x, d.addYears years = some x →
    x.fields = DateTime.inYear d.fields (d.fields.year + years)

theorem DateTime.adds_units {d : DateTime} {unit number : Int} {interval : Option TimeSpan}
    (h : ∀ i, interval = some i → i.timestamp = number * unit) :
    d.Adds (d.addUnits unit number) interval := by
  intro x i hx hi
  rw [plus, whole_new, h i hi]
  exact addUnits_eq_some hx

theorem TimeSpan.adds_units {t : TimeSpan} {unit number : Int} {interval : Option TimeSpan}
    (h : ∀ i, interval = some i → i.timestamp = number * unit) :
    t.Adds (t.addUnits unit number) interval := by
  intro x i hx hi
  rw [plus, whole_new (Nat.le_refl 18), h i hi]
  exact addUnits_eq_some hx

theorem TimeSpan.intervals (number : Int) :
    (∀ i, fromDays number = some i → i.timestamp = number * (24 * 3600 * 1000000)) ∧
      (∀ i, fromHours number = some i → i.timestamp = number * (3600 * 1000000)) ∧
      (∀ i, fromMinutes number = some i → i.timestamp = number * (60 * 1000000)) ∧
      ∀ i, fromSeconds number = some i → i.timestamp = number * 1000000 := by
  refine ⟨fun i hi => ?_, fun i hi => ?_, fun i hi => ?_, fun i hi => ?_⟩
  · rw [newComponents_eq_some hi]
    ring
  · rw [newComponents_eq_some hi]
    ring
  · rw [newComponents_eq_some hi]
    ring
  · rw [newComponents_eq_some hi]
    ring

/-- All laws hold but the one about the duration, which is computed with nine digits. -/
theorem arithmeticLaws_iff (d e : DateTime) (s t : TimeSpan) (number years : Int) :
    ArithmeticLaws d e s t number years ↔ t.NineDigits := by
  rw [← t.durationLaw_iff]
  refine ⟨fun h => h.duration, fun h => ?_⟩
  obtain ⟨hdays, hhours, hminutes, hseconds⟩ := TimeSpan.intervals number
  constructor
  · intro x hx
    have hcount : x.timestamp = d.timestamp - e.timestamp :=
      (TimeSpan.whole_new (Nat.le_refl 18)).mp hx
    constructor
    · exact DateTime.whole_new.mpr (by omega)
    · exact DateTime.whole_new.mpr (by omega)
  · intro x hx
    have hcount : x.timestamp = d.timestamp + t.timestamp := DateTime.whole_new.mp hx
    exact (TimeSpan.whole_new (Nat.le_refl 18)).mpr (by omega)
  · intro x hx
    have hcount : x.timestamp = d.timestamp + t.timestamp := DateTime.whole_new.mp hx
    exact DateTime.whole_new.mpr (by omega)
  · exact fun x y => DateTime.date_plus_timeOfDay
  · intro x hx
    have hcount : x.timestamp = s.timestamp + t.timestamp :=
      (TimeSpan.whole_new (Nat.le_refl 18)).mp hx
    exact (TimeSpan.whole_new (Nat.le_refl 18)).mpr (by omega)
  · intro x hx
    have hcount : x.timestamp = -t.timestamp := (TimeSpan.whole_new (Nat.le_refl 18)).mp hx
    exact (TimeSpan.whole_new (Nat.le_refl 18)).mpr (by omega)
  · exact h
  · exact t.recombines
  · exact ⟨DateTime.adds_units hdays, DateTime.adds_units hhours, DateTime.adds_units hminutes,
      DateTime.adds_units hseconds⟩
  · exact ⟨TimeSpan.adds_units hdays, TimeSpan.adds_units hhours, TimeSpan.adds_units hminutes,
      TimeSpan.adds_units hseconds⟩
  · exact fun x => DateTime.addYears_eq_some

def overThousandSeconds : TimeSpan := ⟨1000000001, by decide⟩

theorem overThousandSeconds_duration :
    ¬ overThousandSeconds.DurationLaw ∧
      ∃ x, overThousandSeconds.duration = some x ∧ x.timestamp = 1000000000 := by
  have hrounded : rounded overThousandSeconds.timestamp.natAbs = 1000000000 := by
    norm_num [rounded, overThousandSeconds]
  constructor
  · rw [TimeSpan.durationLaw_iff, TimeSpan.NineDigits]
    norm_num [overThousandSeconds]
  · refine ⟨⟨1000000000, by decide⟩, ?_, rfl⟩
    rw [TimeSpan.duration_eq_some, hrounded]
    rfl

end LeooRexx
