import LeooRexx.Instructions.ParseTarget
import LeooRexx.RexxClasses.DateTimeOrder
import LeooRexx.Runtime.RexxDateTimeParse

/-!
# Texts of DateTime and TimeSpan objects

Both classes print their count of microseconds and read it back with `PARSE` templates and the
`DATE` and `TIME` functions.  The methods raise the digits so that their whole numbers are exact;
a number that needs more digits has no value here.
-/

namespace LeooRexx

open NumberString Positional RexxDateTime

/-! ## Whole numbers and texts -/

/-- A whole number that is not rounded under `numeric digits`. -/
def whole (digits : Nat) (v : Int) : Option Int := if v.natAbs < 10 ^ digits then some v else none

/-- The whole number that a text is converted to, for texts without a point or an exponent. -/
def wholeNumber (digits : Nat) (text : List UInt8) : Option Int := do
  let n ← newInstance ⟨digits, 0, .scientific⟩ text
  if n.exp = 0 ∧ n.length ≤ digits then some (n.sign * value 10 n.number) else none

/-- The `RIGHT` method. -/
def right (length : Nat) (pad : UInt8) (text : List UInt8) : List UInt8 :=
  if length ≤ text.length then text.drop (text.length - length)
  else List.replicate (length - text.length) pad ++ text

def parseVar : List UInt8 → List UInt8 → List (List UInt8)
  | [], text => [text]
  | pattern :: patterns, text =>
      text.takeWhile (· ≠ pattern) ::
        parseVar patterns ((text.dropWhile (· ≠ pattern)).drop 1)

/-- `date('f', timestamp, 'f')`, which validates the count. -/
def dateFull (timestamp : Int) : Option Int :=
  let (valid, t) := RexxDateTime.clear.setBaseTime timestamp
  if valid then some t.getBaseTime else none

theorem whole_of_lt {digits : Nat} {v : Int} (h : v.natAbs < 10 ^ digits) :
    whole digits v = some v := if_pos h

theorem wholeNumber_spells {digits : Nat} {v : Int} {text : List UInt8} (h : Spells v text)
    (hdigits : 1 ≤ digits) (hv : v.natAbs < 10 ^ digits) : wholeNumber digits text = some v := by
  have hlength := length_whole ⟨digits, 0, .scientific⟩ hdigits hv
  rw [wholeNumber, newInstance_spells _ h, Option.bind_eq_bind, Option.bind_some,
    if_pos ⟨newWholenumber_exp _ v, hlength⟩, newWholenumber_sign, value_newWholenumber,
    Int.sign_mul_natAbs]

theorem padded_eq_zeros (width v : Nat) : ∃ zeros, zeros + (numeral 10 v).length ≠ 0 ∧
    padded width v = List.replicate zeros chZero ++ digitText (numeral 10 v) := by
  obtain ⟨zeros, hne, htext⟩ := spells_ltoa v
  rw [Int.natAbs_natCast] at hne
  refine ⟨width - (ltoa v).length + zeros, by omega, ?_⟩
  rw [padded, htext, spelling, if_neg (by omega), List.nil_append, Int.natAbs_natCast,
    ← List.append_assoc, List.replicate_append_replicate]

theorem spells_padded (width v : Nat) : Spells v (padded width v) := by
  obtain ⟨zeros, hne, htext⟩ := padded_eq_zeros width v
  refine ⟨zeros, by rwa [Int.natAbs_natCast], ?_⟩
  rw [spelling, if_neg (by omega), List.nil_append, Int.natAbs_natCast, htext]

theorem spells_minus_padded (width : Nat) {v : Nat} (hv : 0 < v) :
    Spells (-v) (chMinus :: padded width v) := by
  obtain ⟨zeros, hne, htext⟩ := padded_eq_zeros width v
  refine ⟨zeros, by rwa [Int.natAbs_neg, Int.natAbs_natCast], ?_⟩
  rw [spelling, if_pos (by omega), Int.natAbs_neg, Int.natAbs_natCast, htext,
    List.singleton_append]

theorem right_ltoa {width v : Nat} (hwidth : 1 ≤ width) (hv : v < 10 ^ width) :
    right width chZero (ltoa v) = padded width v := by
  obtain ⟨ds, htext, -, -, -, hlength⟩ := ltoa_eq_digitText v
  have hle := hlength width hwidth hv
  rw [right, padded, htext, length_digitText]
  split
  · have heq : ds.length = width := by omega
    simp [heq]
  · rfl

theorem isDigit_padded (width v : Nat) : ∀ c ∈ padded width v, isDigit c := by
  intro c hc
  obtain ⟨zeros, -, htext⟩ := padded_eq_zeros width v
  rw [htext] at hc
  rcases List.mem_append.mp hc with hc | hc
  · exact isDigit_zeros zeros c hc
  · exact isDigit_digitText (isDigits_numeral (by norm_num) v) c hc

theorem not_mem_padded {pattern : UInt8} (h : isDigit pattern = false) (width v : Nat) :
    pattern ∉ padded width v := by
  intro hmem
  have hdigit := isDigit_padded width v pattern hmem
  simp [h] at hdigit

/-! ### Templates -/

theorem parseVar_found {pattern : UInt8} {front : List UInt8} (h : pattern ∉ front)
    (patterns back : List UInt8) :
    parseVar (pattern :: patterns) (front ++ pattern :: back) =
      front :: parseVar patterns back := by
  have hfront : ∀ c ∈ front, decide (c ≠ pattern) = true := by
    intro c hc
    exact decide_eq_true (ne_of_mem_of_not_mem hc h)
  rw [parseVar, List.takeWhile_append_of_pos hfront, List.dropWhile_append_of_pos hfront]
  simp

theorem parseVar_absent {pattern : UInt8} {text : List UInt8} (h : pattern ∉ text)
    (patterns : List UInt8) :
    parseVar (pattern :: patterns) text = text :: parseVar patterns [] := by
  have htext : ∀ c ∈ text, decide (c ≠ pattern) = true := by
    intro c hc
    exact decide_eq_true (ne_of_mem_of_not_mem hc h)
  rw [parseVar, List.takeWhile_eq_self_iff.mpr htext, List.dropWhile_eq_nil_iff.mpr htext]
  rfl

theorem dateFull_eq {v : Int} (hlow : 0 ≤ v) (hhigh : v ≤ maxBaseTime.getBaseTime) :
    dateFull v = some v := by
  obtain ⟨hvalid, -, hbase⟩ := RexxDateTime.clear.setBaseTime_spec hlow hhigh
  rw [dateFull]
  simp only [hvalid, if_true, hbase]

/-! ## TimeSpan -/

namespace TimeSpan

/-- `init` with a count. -/
def init (timestamp : Int) : Option Int := do
  let full ← dateFull (← whole 20 |timestamp|)
  whole 20 (full * timestamp.sign)

def days (self : TimeSpan) : Option Int := do
  let count ← whole 18 |self.timestamp|
  whole 18 (count.tdiv (24 * 3600 * 1000000))

/-- What is left of the higher component `outer`, in units. -/
def component (self : TimeSpan) (outer unit : Int) : Option Int := do
  let count ← whole 18 |self.timestamp|
  let remainder ← whole 18 (count.tmod outer)
  whole 18 (remainder.tdiv unit)

def hours (self : TimeSpan) : Option Int := self.component (24 * 3600 * 1000000) (3600 * 1000000)

def minutes (self : TimeSpan) : Option Int := self.component (3600 * 1000000) (60 * 1000000)

def seconds (self : TimeSpan) : Option Int := self.component (60 * 1000000) 1000000

def microseconds (self : TimeSpan) : Option Int := self.component 1000000 1

def string (self : TimeSpan) : Option (List UInt8) := do
  let days ← self.days
  let hours ← self.hours
  let minutes ← self.minutes
  let seconds ← self.seconds
  let microseconds ← self.microseconds
  let sign := if self.timestamp < 0 then [chMinus] else []
  let time := right 2 chZero (ltoa hours) ++ bytes ":" ++ right 2 chZero (ltoa minutes) ++
    bytes ":" ++ right 2 chZero (ltoa seconds) ++ bytes "." ++
    right 6 chZero (ltoa microseconds)
  if days > 0 then some (sign ++ ltoa days ++ bytes "." ++ time) else some (sign ++ time)

/-- The count of a time that comes after `start` seconds. -/
def timestampOf (start hours minutes seconds microseconds : Int) : Option Int := do
  let hours ← whole 18 (hours * 3600)
  let minutes ← whole 18 (minutes * 60)
  let count ← whole 18 (start + hours)
  let count ← whole 18 (count + minutes)
  let count ← whole 18 (count + seconds)
  let count ← whole 18 (count * 1000000)
  whole 18 (count + microseconds)

def isNull (text : List UInt8) : Bool := text.all RexxTarget.isBlank

def splitSign (first : Int) : Int × Int := if first < 0 then (-1, -first) else (1, first)

/-- `fromStringFormat`; where it has no value the method raises a condition or computes with numbers
that are not whole. -/
def fromStringFormat (time : List UInt8) : Option Int :=
  match parseVar [46, 58, 58, 46] time with
  | [days, hours, minutes, seconds, microseconds] =>
      if isNull minutes then
        match parseVar [58, 58, 46] time with
        | [hours, minutes, seconds, microseconds] => do
            let (sign, hours) := splitSign (← wholeNumber 18 hours)
            let timestamp ← timestampOf 0 hours (← wholeNumber 18 minutes)
              (← wholeNumber 18 seconds) (← wholeNumber 18 microseconds)
            init (← whole 18 (sign * timestamp))
        | _ => none
      else do
        let (sign, days) := splitSign (← wholeNumber 18 days)
        let days ← whole 18 (days * 24)
        let days ← whole 18 (days * 3600)
        let timestamp ← timestampOf days (← wholeNumber 18 hours) (← wholeNumber 18 minutes)
          (← wholeNumber 18 seconds) (← wholeNumber 18 microseconds)
        init (← whole 18 (sign * timestamp))
  | _ => none

/-! ### The components -/

theorem component_eq (t : TimeSpan) (outer unit : Nat) :
    t.component outer unit = some ((t.timestamp.natAbs % outer / unit : Nat) : Int) := by
  have hcount := t.natAbs_lt
  have hremainder := (Nat.mod_le t.timestamp.natAbs outer).trans_lt hcount
  have hresult := (Nat.div_le_self (t.timestamp.natAbs % outer) unit).trans_lt hremainder
  have hwhole (n : Nat) (h : n < 10 ^ 18) : whole 18 n = some (n : Int) := whole_of_lt h
  rw [component, Int.abs_eq_natAbs, hwhole _ hcount]
  simp only [Option.bind_eq_bind, Option.bind_some, ← Int.ofNat_tmod]
  rw [hwhole _ hremainder, Option.bind_some, ← Int.ofNat_tdiv, hwhole _ hresult]

theorem days_eq (t : TimeSpan) :
    t.days = some ((t.timestamp.natAbs / 86400000000 : Nat) : Int) := by
  have hlt := t.natAbs_lt
  rw [days, Int.abs_eq_natAbs, whole_of_lt (by omega), Option.bind_eq_bind, Option.bind_some]
  change whole 18 ((t.timestamp.natAbs : Int).tdiv ((86400000000 : Nat) : Int)) = _
  rw [← Int.ofNat_tdiv, whole_of_lt (by omega)]

def timeText (n : Nat) : List UInt8 :=
  padded 2 (n % 86400000000 / 3600000000) ++ 58 :: (padded 2 (n % 3600000000 / 60000000) ++
    58 :: (padded 2 (n % 60000000 / 1000000) ++ 46 :: padded 6 (n % 1000000)))

def signText (t : TimeSpan) : List UInt8 := if t.timestamp < 0 then [chMinus] else []

theorem string_eq (t : TimeSpan) :
    t.string = some (t.signText ++
      if 0 < t.timestamp.natAbs / 86400000000 then
        padded 0 (t.timestamp.natAbs / 86400000000) ++ 46 :: timeText t.timestamp.natAbs
      else timeText t.timestamp.natAbs) := by
  have hhours : t.hours = some ((t.timestamp.natAbs % 86400000000 / 3600000000 : Nat) : Int) :=
    t.component_eq 86400000000 3600000000
  have hminutes : t.minutes = some ((t.timestamp.natAbs % 3600000000 / 60000000 : Nat) : Int) :=
    t.component_eq 3600000000 60000000
  have hseconds : t.seconds = some ((t.timestamp.natAbs % 60000000 / 1000000 : Nat) : Int) :=
    t.component_eq 60000000 1000000
  have hmicro : t.microseconds = some ((t.timestamp.natAbs % 1000000 / 1 : Nat) : Int) :=
    t.component_eq 1000000 1
  have hdays : padded 0 (t.timestamp.natAbs / 86400000000) =
      ltoa ((t.timestamp.natAbs / 86400000000 : Nat) : Int) := by
    simp [padded]
  have hpos : ((t.timestamp.natAbs / 86400000000 : Nat) : Int) > 0 ↔
      0 < t.timestamp.natAbs / 86400000000 := by omega
  rw [Nat.div_one] at hmicro
  rw [string, days_eq, hhours, hminutes, hseconds, hmicro]
  simp only [Option.bind_eq_bind, Option.bind_some]
  rw [right_ltoa (by decide) (by omega), right_ltoa (by decide) (by omega),
    right_ltoa (by decide) (by omega), right_ltoa (by decide) (by omega), hdays, signText, timeText]
  have hcolon : bytes ":" = [58] := rfl
  have hperiod : bytes "." = [46] := rfl
  simp only [hpos, hcolon, hperiod]
  split <;> simp

/-! ### Reading -/

theorem init_eq {v : Int} (h : |v| ≤ maxBaseTime.getBaseTime) : init v = some v := by
  have hmax := maxBaseTime_lt
  have habs : (|v|).natAbs < 10 ^ 20 := by
    have hnonneg := abs_nonneg v
    omega
  have hsigned : |v| * v.sign = v := by rw [mul_comm, Int.sign_mul_abs]
  have hv : v.natAbs < 10 ^ 20 := by
    rw [Int.natAbs_abs] at habs
    exact habs
  rw [init, whole_of_lt habs, Option.bind_eq_bind, Option.bind_some,
    dateFull_eq (abs_nonneg v) h, Option.bind_some, hsigned, whole_of_lt hv]

theorem timestampOf_eq {start hours minutes seconds microseconds : Nat}
    (hstart : start ≤ 400000000000) (hhours : hours < 24) (hminutes : minutes < 60)
    (hseconds : seconds < 60) (hmicro : microseconds < 1000000) :
    timestampOf start hours minutes seconds microseconds =
      some (((start + hours * 3600 + minutes * 60 + seconds) * 1000000 + microseconds : Nat) :
        Int) := by
  simp only [timestampOf, Option.bind_eq_bind]
  rw [whole_of_lt (by omega), Option.bind_some, whole_of_lt (by omega), Option.bind_some,
    whole_of_lt (by omega), Option.bind_some, whole_of_lt (by omega), Option.bind_some,
    whole_of_lt (by omega), Option.bind_some, whole_of_lt (by omega), Option.bind_some,
    whole_of_lt (by omega)]
  push_cast
  rfl

theorem timestampOf_components {n : Nat} (hn : n ≤ 400000000000000000) :
    timestampOf (n / 86400000000 * 24 * 3600 : Nat) (n % 86400000000 / 3600000000 : Nat)
      (n % 3600000000 / 60000000 : Nat) (n % 60000000 / 1000000 : Nat) (n % 1000000 : Nat) =
        some (n : Int) := by
  rw [timestampOf_eq (by omega) (by omega) (by omega) (by omega) (by omega)]
  congr 2
  omega

theorem isNull_padded (v : Nat) : isNull (padded 2 v) = false := by
  have hdigit := isDigit_padded 2 v
  have hne : padded 2 v ≠ [] := by
    obtain ⟨zeros, hzeros, htext⟩ := padded_eq_zeros 2 v
    rw [htext, ← List.length_pos_iff]
    simp only [List.length_append, List.length_replicate, length_digitText]
    omega
  obtain ⟨c, cs, hcons⟩ := List.exists_cons_of_ne_nil hne
  rw [hcons] at hdigit ⊢
  have hblank : RexxTarget.isBlank c = false := by
    have hc := hdigit c List.mem_cons_self
    refine decide_eq_false ?_
    rintro (rfl | rfl)
    · exact absurd hc (by decide)
    · exact absurd hc (by decide)
  simp [isNull, hblank]

def restored (t : TimeSpan) : Int :=
  if -3600000000 < t.timestamp ∧ t.timestamp < 0 then -t.timestamp else t.timestamp

theorem abs_restored (t : TimeSpan) : |t.restored| ≤ maxBaseTime.getBaseTime := by
  rw [restored]
  split
  · rw [abs_neg]
    exact t.abs_le_max
  · exact t.abs_le_max

theorem sign_mul_abs (t : TimeSpan) :
    (if t.timestamp < 0 then -1 else 1) * |t.timestamp| = t.timestamp := by
  rw [Int.abs_eq_natAbs]
  split <;> omega

theorem splitSign_first (t : TimeSpan) (width : Nat) {v : Nat} (hv : 0 < v) (hlt : v < 10 ^ 18) :
    ∃ first, wholeNumber 18 (t.signText ++ padded width v) = some first ∧
      splitSign first = (if t.timestamp < 0 then -1 else 1, (v : Int)) := by
  by_cases hneg : t.timestamp < 0
  · refine ⟨-v, ?_, ?_⟩
    · rw [signText, if_pos hneg, List.singleton_append]
      exact wholeNumber_spells (spells_minus_padded width hv) (by decide)
        (by rwa [Int.natAbs_neg, Int.natAbs_natCast])
    · rw [splitSign, if_pos (by omega), if_pos hneg, neg_neg]
  · refine ⟨v, ?_, ?_⟩
    · rw [signText, if_neg hneg, List.nil_append]
      exact wholeNumber_spells (spells_padded width v) (by decide) hlt
    · rw [splitSign, if_neg (by omega), if_neg hneg]

theorem not_mem_sign {t : TimeSpan} {pattern : UInt8} (h : isDigit pattern = false)
    (hminus : pattern ≠ chMinus) (width v : Nat) : pattern ∉ t.signText ++ padded width v := by
  rw [List.mem_append, not_or, signText]
  refine ⟨?_, not_mem_padded h width v⟩
  split
  · simpa using hminus
  · exact List.not_mem_nil

theorem wholeNumber_padded (width : Nat) {v : Nat} (h : v < 10 ^ 18) :
    wholeNumber 18 (padded width v) = some (v : Int) :=
  wholeNumber_spells (spells_padded width v) (by decide) h

theorem natAbs_le (t : TimeSpan) : t.timestamp.natAbs ≤ 400000000000000000 := by
  have hmax := abs_le.mp t.abs_le_max
  rw [maxBaseTime_eq] at hmax
  omega

theorem fromStringFormat_days (t : TimeSpan) (hdays : 0 < t.timestamp.natAbs / 86400000000) :
    fromStringFormat (t.signText ++ (padded 0 (t.timestamp.natAbs / 86400000000) ++
      46 :: timeText t.timestamp.natAbs)) = some t.timestamp := by
  have hle := t.natAbs_le
  have htotal := timestampOf_components hle
  obtain ⟨first, hfirst, hsplit⟩ := t.splitSign_first 0 hdays (by omega)
  push_cast at htotal
  rw [fromStringFormat, ← List.append_assoc, timeText,
    parseVar_found (not_mem_sign (by decide) (by decide) _ _),
    parseVar_found (not_mem_padded (by decide) _ _),
    parseVar_found (not_mem_padded (by decide) _ _),
    parseVar_found (not_mem_padded (by decide) _ _)]
  simp only [parseVar, isNull_padded, Bool.false_eq_true, if_false, hfirst, Option.bind_eq_bind,
    Option.bind_some, hsplit]
  rw [whole_of_lt (by omega), Option.bind_some, whole_of_lt (by omega), Option.bind_some,
    wholeNumber_padded 2 (by omega), Option.bind_some, wholeNumber_padded 2 (by omega),
    Option.bind_some, wholeNumber_padded 2 (by omega), Option.bind_some,
    wholeNumber_padded 6 (by omega), Option.bind_some]
  push_cast
  rw [htotal, Option.bind_some, sign_mul_abs, whole_of_lt t.natAbs_lt, Option.bind_some,
    init_eq t.abs_le_max]

theorem splitSign_hours (t : TimeSpan) (hdays : t.timestamp.natAbs / 86400000000 = 0) :
    ∃ first sign, wholeNumber 18 (t.signText ++
        padded 2 (t.timestamp.natAbs % 86400000000 / 3600000000)) = some first ∧
      splitSign first = (sign, ((t.timestamp.natAbs % 86400000000 / 3600000000 : Nat) : Int)) ∧
      sign * |t.timestamp| = t.restored := by
  rcases Nat.eq_zero_or_pos (t.timestamp.natAbs % 86400000000 / 3600000000) with hzero | hpos
  · rw [hzero]
    refine ⟨0, 1, ?_, rfl, ?_⟩
    · rw [signText]
      split <;> decide
    · rw [one_mul, restored, Int.abs_eq_natAbs]
      split <;> omega
  · obtain ⟨first, hfirst, hsplit⟩ := t.splitSign_first 2 hpos (by omega)
    refine ⟨first, _, hfirst, hsplit, ?_⟩
    rw [sign_mul_abs, restored, if_neg (by omega)]

theorem fromStringFormat_time (t : TimeSpan) (hdays : t.timestamp.natAbs / 86400000000 = 0) :
    fromStringFormat (t.signText ++ timeText t.timestamp.natAbs) = some t.restored := by
  have hle := t.natAbs_le
  have htotal := timestampOf_components hle
  rw [hdays] at htotal
  obtain ⟨first, sign, hfirst, hsplit, hrestored⟩ := t.splitSign_hours hdays
  have hresult := t.abs_restored
  have hmax := maxBaseTime_lt
  have hbound : t.restored.natAbs < 10 ^ 18 := by
    rw [Int.abs_eq_natAbs] at hresult
    omega
  push_cast at htotal
  have hperiod : (46 : UInt8) ∉ (t.signText ++
      padded 2 (t.timestamp.natAbs % 86400000000 / 3600000000)) ++
      58 :: (padded 2 (t.timestamp.natAbs % 3600000000 / 60000000) ++
        58 :: padded 2 (t.timestamp.natAbs % 60000000 / 1000000)) := by
    simp only [List.mem_append (s := t.signText ++ _), List.mem_cons,
      List.mem_append (s := padded _ _), not_or]
    exact ⟨not_mem_sign (by decide) (by decide) _ _, by decide, not_mem_padded (by decide) _ _,
      by decide, not_mem_padded (by decide) _ _⟩
  have hregroup : t.signText ++ timeText t.timestamp.natAbs = ((t.signText ++
      padded 2 (t.timestamp.natAbs % 86400000000 / 3600000000)) ++
      58 :: (padded 2 (t.timestamp.natAbs % 3600000000 / 60000000) ++
        58 :: padded 2 (t.timestamp.natAbs % 60000000 / 1000000))) ++
      46 :: padded 6 (t.timestamp.natAbs % 1000000) := by
    simp [timeText]
  have hdaysForm := parseVar_found hperiod [58, 58, 46] (padded 6 (t.timestamp.natAbs % 1000000))
  have hrest : parseVar [58, 46] [] = [[], [], []] := rfl
  rw [← hregroup, parseVar_absent (not_mem_padded (by decide) _ _), hrest] at hdaysForm
  have htimeForm : parseVar [58, 58, 46] (t.signText ++ timeText t.timestamp.natAbs) =
      [t.signText ++ padded 2 (t.timestamp.natAbs % 86400000000 / 3600000000),
        padded 2 (t.timestamp.natAbs % 3600000000 / 60000000),
        padded 2 (t.timestamp.natAbs % 60000000 / 1000000),
        padded 6 (t.timestamp.natAbs % 1000000)] := by
    rw [timeText, ← List.append_assoc, parseVar_found (not_mem_sign (by decide) (by decide) _ _),
      parseVar_found (not_mem_padded (by decide) _ _),
      parseVar_found (not_mem_padded (by decide) _ _)]
    rfl
  rw [fromStringFormat, hdaysForm]
  simp only [isNull, List.all_nil, if_true, htimeForm, hfirst, Option.bind_eq_bind,
    Option.bind_some, hsplit]
  rw [wholeNumber_padded 2 (by omega), Option.bind_some, wholeNumber_padded 2 (by omega),
    Option.bind_some, wholeNumber_padded 6 (by omega), Option.bind_some]
  push_cast
  rw [htotal, Option.bind_some, hrestored, whole_of_lt hbound, Option.bind_some,
    init_eq hresult]

theorem fromStringFormat_string (t : TimeSpan) :
    ∃ text, t.string = some text ∧ fromStringFormat text = some t.restored := by
  refine ⟨_, t.string_eq, ?_⟩
  split
  · rename_i hdays
    rw [t.fromStringFormat_days hdays, restored, if_neg (by omega)]
  · rename_i hdays
    exact t.fromStringFormat_time (by omega)

def RoundTrip (t : TimeSpan) : Prop :=
  ∃ text, t.string = some text ∧ fromStringFormat text = some t.timestamp

theorem roundTrip_iff_restored (t : TimeSpan) : t.RoundTrip ↔ t.restored = t.timestamp := by
  obtain ⟨text, hstring, hread⟩ := t.fromStringFormat_string
  constructor
  · rintro ⟨text', hstring', hread'⟩
    obtain rfl := Option.some.inj (hstring.symm.trans hstring')
    exact Option.some.inj (hread.symm.trans hread')
  · intro heq
    exact ⟨text, hstring, heq ▸ hread⟩

end TimeSpan

/-! ## DateTime -/

namespace DateTime

/-- The `DATE` and `TIME` functions convert the count to the fields that they print. -/
def isoDate (self : DateTime) : Option (List UInt8) :=
  let (valid, t) := RexxDateTime.clear.setBaseTime self.timestamp
  if valid then some (t.formatStandardDate (some (bytes "-")) ++ bytes "T" ++ t.formatLongTime)
  else none

def fromIsoDate (time : List UInt8) : Option Int :=
  match parseVar [84] time with
  | [date, time] => do
      let date ← RexxDateTime.clear.parseStandardDate date (some (bytes "-"))
      let time ← RexxDateTime.clear.parseLongTime time
      dateFull (← whole 18 (date.getBaseTime + time.getBaseTime))
  | _ => none

def RoundTrip (d : DateTime) : Prop :=
  ∃ text, d.isoDate = some text ∧ fromIsoDate text = some d.timestamp

theorem admittedSep_minus : AdmittedSep (some (bytes "-")) := by
  intro sep hsep
  exact .inr ⟨45, (Option.mem_some_iff.mp hsep).symm, by decide, by decide⟩

theorem not_mem_sprintfD {pattern : UInt8} (h : isDigit pattern = false) {width : Nat} {v : Int}
    (hv : 0 ≤ v) : pattern ∉ sprintfD width v := by
  rw [sprintfD, if_neg (by omega)]
  exact not_mem_padded h width v.natAbs

theorem not_mem_formatStandardDate {t : RexxDateTime} (ht : t.Valid) :
    (84 : UInt8) ∉ t.formatStandardDate (some (bytes "-")) := by
  have hyear := ht.year_pos
  have hmonth := ht.month_pos
  have hday := ht.day_pos
  have hminus : bytes "-" = [45] := rfl
  simp only [formatStandardDate, Option.getD_some, hminus, List.mem_append, List.mem_singleton,
    not_or]
  exact ⟨⟨⟨⟨not_mem_sprintfD (by decide) (by omega), by decide⟩,
    not_mem_sprintfD (by decide) (by omega)⟩, by decide⟩, not_mem_sprintfD (by decide) (by omega)⟩

theorem getBaseTime_parts (t : RexxDateTime) :
    (RexxDateTime.clear.withDate t t.year).getBaseTime +
      RexxDateTime.getBaseTime { RexxDateTime.clear.start with
        hours := t.hours
        minutes := t.minutes
        seconds := t.seconds
        microseconds := t.microseconds } = t.getBaseTime := by
  change (t.getBaseDate * secondsInDay + 0) * microsecondsInSecond + 0 +
    ((0 * secondsInDay + t.getTimeSeconds) * microsecondsInSecond + t.microseconds) =
      (t.getBaseDate * secondsInDay + t.getTimeSeconds) * microsecondsInSecond + t.microseconds
  ring

theorem roundTrip (d : DateTime) : d.RoundTrip := by
  obtain ⟨hset, hvalid, hbase⟩ := RexxDateTime.clear.setBaseTime_spec d.nonneg d.le_max
  have hlt := d.natAbs_lt
  refine ⟨_, by rw [isoDate]; simp only [hset, if_true]; rfl, ?_⟩
  have hT : bytes "T" = [84] := rfl
  rw [fromIsoDate, hT, List.append_assoc, List.singleton_append,
    parseVar_found (not_mem_formatStandardDate hvalid)]
  simp only [parseVar, standard_undone hvalid _ admittedSep_minus, longTime_undone hvalid,
    Option.bind_eq_bind, Option.bind_some, getBaseTime_parts, hbase]
  rw [whole_of_lt hlt, Option.bind_some, dateFull_eq d.nonneg d.le_max]

end DateTime

/--
The text of a TimeSpan gives the same count, but for negative spans of less than an hour, and the
text of a DateTime always does.
-/
theorem roundTrip_iff (t : TimeSpan) (d : DateTime) :
    (t.RoundTrip ↔ 0 ≤ t.timestamp ∨ t.timestamp ≤ -3600000000) ∧ d.RoundTrip := by
  refine ⟨?_, d.roundTrip⟩
  rw [t.roundTrip_iff_restored, TimeSpan.restored]
  split <;> omega

/-- Five seconds back, which are printed as `-00:00:05.000000`. -/
def fiveSecondsBack : TimeSpan := ⟨-5000000, by decide⟩

theorem fiveSecondsBack_restored :
    ¬ fiveSecondsBack.RoundTrip ∧ ∃ text, fiveSecondsBack.string = some text ∧
      TimeSpan.fromStringFormat text = some 5000000 := by
  obtain ⟨text, hstring, hread⟩ := fiveSecondsBack.fromStringFormat_string
  have hrestored : fiveSecondsBack.restored = 5000000 := by decide
  rw [TimeSpan.roundTrip_iff_restored, hrestored]
  rw [hrestored] at hread
  exact ⟨by decide, text, hstring, hread⟩

end LeooRexx
