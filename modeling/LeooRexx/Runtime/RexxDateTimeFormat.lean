import LeooRexx.NumberString.StringValue
import LeooRexx.Runtime.RexxDateTime

/-!
# Formatting and parsing dates and times

The `sprintf` templates of the format routines, and the scanner that reads a
date or a time by a format template.  A text is the bytes of a C string, without
the zero at its end.  Where the scanner fails, the fields it has set by then are
left out: the callers report an error and drop the time stamp.
-/

namespace LeooRexx

namespace RexxDateTime

open NumberString

/-! ## sprintf -/

def bytes (s : String) : List UInt8 := s.toList.map Char.toUInt8

def padded (width value : Nat) : List UInt8 :=
  List.replicate (width - (ltoa value).length) chZero ++ ltoa value

/-- `%02d` and its like: a sign counts as one of the places. -/
def sprintfD (width : Nat) (value : Int) : List UInt8 :=
  if value < 0 then chMinus :: padded (width - 1) value.natAbs else padded width value.natAbs

/-- `%2.2u` and its like, for an `int` of 32 bits. -/
def sprintfU (precision : Nat) (value : Int) : List UInt8 :=
  padded precision (value % 2 ^ 32).toNat

/-! ## The format routines -/

def monthNames : List String :=
  ["January", "February", "March", "April", "May", "June", "July", "August", "September",
    "October", "November", "December"]

def charMonth : Nat := 3

def anteMeridian : List UInt8 := bytes "am"
def postMeridian : List UInt8 := bytes "pm"

def formatEuropeanDate (t : RexxDateTime) (sep : Option (List UInt8)) : List UInt8 :=
  let sep := sep.getD (bytes "/")
  sprintfD 2 t.day ++ sep ++ sprintfD 2 t.month ++ sep ++ sprintfD 2 (t.year.tmod 100)

def formatNormalDate (t : RexxDateTime) (sep : Option (List UInt8)) : List UInt8 :=
  let sep := sep.getD (bytes " ")
  sprintfU 1 t.day ++ sep ++ (bytes (monthNames.getD (t.month - 1).toNat "")).take 3 ++ sep ++
    sprintfU 4 t.year

def formatOrderedDate (t : RexxDateTime) (sep : Option (List UInt8)) : List UInt8 :=
  let sep := sep.getD (bytes "/")
  sprintfD 2 (t.year.tmod 100) ++ sep ++ sprintfD 2 t.month ++ sep ++ sprintfD 2 t.day

def formatStandardDate (t : RexxDateTime) (sep : Option (List UInt8)) : List UInt8 :=
  let sep := sep.getD []
  sprintfD 4 t.year ++ sep ++ sprintfD 2 t.month ++ sep ++ sprintfD 2 t.day

def formatUsaDate (t : RexxDateTime) (sep : Option (List UInt8)) : List UInt8 :=
  let sep := sep.getD (bytes "/")
  sprintfD 2 t.month ++ sep ++ sprintfD 2 t.day ++ sep ++ sprintfD 2 (t.year.tmod 100)

def formatCivilTime (t : RexxDateTime) : List UInt8 :=
  let adjustedHours := if t.hours = 0 then 12 else if t.hours > 12 then t.hours - 12 else t.hours
  sprintfU 1 adjustedHours ++ bytes ":" ++ sprintfU 2 t.minutes ++
    (if t.hours ≥ 12 then postMeridian else anteMeridian)

def formatLongTime (t : RexxDateTime) : List UInt8 :=
  sprintfU 2 t.hours ++ bytes ":" ++ sprintfU 2 t.minutes ++ bytes ":" ++ sprintfU 2 t.seconds ++
    bytes "." ++ sprintfU 6 t.microseconds

def formatNormalTime (t : RexxDateTime) : List UInt8 :=
  sprintfU 2 t.hours ++ bytes ":" ++ sprintfU 2 t.minutes ++ bytes ":" ++ sprintfU 2 t.seconds

/-! ## The scanner -/

def months : Int := 12
def monthSize : Nat := 2
def daySize : Nat := 2
def hoursSize : Nat := 2
def minutesSize : Nat := 2
def secondsSize : Nat := 2
def microSize : Nat := 6
def shortYear : Nat := 2
def longYear : Nat := 4
def maxCivilHours : Int := 12
def maxHours : Int := 23
def maxMinutes : Int := 60
def maxSeconds : Int := 60
def pastThreshold : Int := 50
def futureThreshold : Int := 49
def february : Int := 2
def leapMonth : Int := 29

def monthdays : List Int := [31, 28, 31, 30, 31, 30, 31, 31, 30, 31, 30, 31]

/-- `getNumber`, with the digits read so far in `value`. -/
def getNumberLoop (input : List UInt8) (value : Int) : Nat → Option Int
  | 0 => some value
  | length + 1 =>
      let digit := peek input
      if isDigit digit then getNumberLoop input.tail (value * 10 + digitValue digit) length
      else none

def getNumber (input : List UInt8) (length : Nat) : Option Int := getNumberLoop input 0 length

/-- `getNumber` with a limit. -/
def getNumberMax (input : List UInt8) (length : Nat) (max : Int) : Option Int := do
  let value ← getNumber input length
  if value ≤ max then some value else none

structure Scan where
  time : RexxDateTime
  inputscan : List UInt8
  formatscan : List Char

def Scan.advance (s : Scan) (time : RexxDateTime) (input format : Nat) : Scan :=
  ⟨time, s.inputscan.drop input, s.formatscan.drop format⟩

def slideYear (year currentYear : Int) : Int :=
  let year := year + currentYear.tdiv 100 * 100
  if year < currentYear then
    if currentYear - year > pastThreshold then year + century else year
  else
    if year - currentYear > futureThreshold then year - century else year

def numberLength (inputscan : List UInt8) : Nat :=
  if isDigit (inputscan.getD 1 0) then 2 else 1

def scanStep (sep : List UInt8) (currentYear : Int) (s : Scan) : Option Scan :=
  match s.formatscan.headD '\x00' with
  | 'm' => do
      let month ← getNumberMax s.inputscan monthSize months
      if month > months then none
      else some (s.advance { s.time with month := month } monthSize monthSize)
  | 'd' => do
      let day ← getNumber s.inputscan daySize
      some (s.advance { s.time with day := day } daySize daySize)
  | 'D' => do
      let day ← getNumber s.inputscan (numberLength s.inputscan)
      some (s.advance { s.time with day := day } (numberLength s.inputscan) daySize)
  | 'h' => do
      let hours ← getNumberMax s.inputscan hoursSize maxCivilHours
      some (s.advance { s.time with hours := hours } hoursSize hoursSize)
  | 'H' => do
      let hours ← getNumberMax s.inputscan hoursSize maxHours
      some (s.advance { s.time with hours := hours } hoursSize hoursSize)
  | 'i' => do
      let minutes ← getNumberMax s.inputscan minutesSize maxMinutes
      some (s.advance { s.time with minutes := minutes } minutesSize minutesSize)
  | 's' => do
      let seconds ← getNumberMax s.inputscan secondsSize maxSeconds
      some (s.advance { s.time with seconds := seconds } secondsSize secondsSize)
  | 'u' => do
      let microseconds ← getNumber s.inputscan microSize
      some (s.advance { s.time with microseconds := microseconds } microSize microSize)
  | 'y' => do
      let year ← getNumber s.inputscan shortYear
      some (s.advance { s.time with year := slideYear year currentYear } shortYear shortYear)
  | 'Y' => do
      let year ← getNumber s.inputscan longYear
      some (s.advance { s.time with year := year } longYear longYear)
  | 'M' =>
      let i := monthNames.findIdx fun name =>
        (bytes name).take charMonth = s.inputscan.take charMonth
      if i < monthNames.length then
        some (s.advance { s.time with month := i + 1 } charMonth charMonth)
      else none
  | 'C' =>
      if s.inputscan.take anteMeridian.length = anteMeridian then
        let hours := if s.time.hours = 12 then 0 else s.time.hours
        some (s.advance { s.time with hours := hours } anteMeridian.length anteMeridian.length)
      else if s.inputscan.take postMeridian.length = postMeridian then
        let hours := if s.time.hours ≠ 12 then s.time.hours + 12 else s.time.hours
        some (s.advance { s.time with hours := hours } anteMeridian.length anteMeridian.length)
      else none
  | 'c' => do
      let hours ← getNumberMax s.inputscan (numberLength s.inputscan) maxHours
      some (s.advance { s.time with hours := hours } (numberLength s.inputscan) hoursSize)
  | '/' =>
      if peek sep = 0 then some (s.advance s.time 0 1)
      else if peek s.inputscan ≠ peek sep then none
      else some (s.advance s.time 1 1)
  | ':' => if peek s.inputscan ≠ Char.toUInt8 ':' then none else some (s.advance s.time 1 1)
  | '.' => if peek s.inputscan ≠ Char.toUInt8 '.' then none else some (s.advance s.time 1 1)
  | _ => none

def scanLoop (sep : List UInt8) (currentYear : Int) : Nat → Scan → Option Scan
  | 0, s => if s.formatscan = [] then some s else none
  | fuel + 1, s =>
      if s.formatscan = [] then some s
      else do
        let s ← scanStep sep currentYear s
        scanLoop sep currentYear fuel s

def validDate (t : RexxDateTime) : Bool :=
  if t.day = 0 ∨ t.month = 0 ∨ t.year = 0 then false
  else if t.month = february ∧ leapYear t.year then decide (t.day ≤ leapMonth)
  else decide (t.day ≤ monthdays.getD (t.month - 1).toNat 0)

def parseDateTimeFormat (t : RexxDateTime) (date : List UInt8) (format : String)
    (sep : List UInt8) (currentYear : Int) : Option RexxDateTime :=
  let formatscan := format.toList
  if date.length > formatscan.length then none
  else do
    let start := { t with day := 1, month := 1, year := 1 }
    let s ← scanLoop sep currentYear formatscan.length ⟨start, date, formatscan⟩
    if s.time.validDate then some s.time else none

/-! ## The parse routines -/

def parseNormalDate (t : RexxDateTime) (date : List UInt8) (sep : Option (List UInt8)) :
    Option RexxDateTime :=
  t.parseDateTimeFormat date "DD/MMM/YYYY" (sep.getD (bytes " ")) 0

def parseStandardDate (t : RexxDateTime) (date : List UInt8) (sep : Option (List UInt8)) :
    Option RexxDateTime :=
  t.parseDateTimeFormat date "YYYY/mm/dd" (sep.getD []) 0

def parseEuropeanDate (t : RexxDateTime) (date : List UInt8) (sep : Option (List UInt8))
    (currentYear : Int) : Option RexxDateTime :=
  t.parseDateTimeFormat date "dd/mm/yy" (sep.getD (bytes "/")) currentYear

def parseUsaDate (t : RexxDateTime) (date : List UInt8) (sep : Option (List UInt8))
    (currentYear : Int) : Option RexxDateTime :=
  t.parseDateTimeFormat date "mm/dd/yy" (sep.getD (bytes "/")) currentYear

def parseOrderedDate (t : RexxDateTime) (date : List UInt8) (sep : Option (List UInt8))
    (currentYear : Int) : Option RexxDateTime :=
  t.parseDateTimeFormat date "yy/mm/dd" (sep.getD (bytes "/")) currentYear

def parseNormalTime (t : RexxDateTime) (time : List UInt8) : Option RexxDateTime :=
  t.parseDateTimeFormat time "HH:ii:ss" [] 0

def parseCivilTime (t : RexxDateTime) (time : List UInt8) : Option RexxDateTime :=
  t.parseDateTimeFormat time "cc:iiCC" [] 0

def parseLongTime (t : RexxDateTime) (time : List UInt8) : Option RexxDateTime :=
  t.parseDateTimeFormat time "HH:ii:ss.uuuuuu" [] 0

end RexxDateTime

end LeooRexx
