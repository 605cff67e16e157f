import LeooRexx.Classes.StringConversion

/-!
# Parse targets

`RexxTarget`: the string that a template is matched against.  A trigger moves the
cursors, and the piece between `start` and `end` is then handed out word by word.
The string of one byte characters is followed by a terminating NUL.
-/

namespace LeooRexx

/-- `translate`: `parse_upper` or `parse_lower`. -/
inductive ParseTranslate where
  | keep
  | upper
  | lower
  deriving DecidableEq

structure RexxTarget where
  string : List UInt8
  arglist : Option (List (Option (List UInt8)))
  nextArgument : Nat
  translate : ParseTranslate
  start : Nat
  endAt : Nat
  stringLength : Nat
  patternEnd : Nat
  patternStart : Nat
  subcurrent : Nat

namespace RexxTarget

open StringConversion (toupper)

def tolower (c : UInt8) : UInt8 := if 65 ≤ c ∧ c ≤ 90 then c + 32 else c

/-- `next` leaves `end` as it is; the trigger that follows sets it. -/
def next (t : RexxTarget) : RexxTarget :=
  let string := match t.arglist with
    | some arglist =>
        if t.nextArgument > arglist.length then []
        else (arglist.getD (t.nextArgument - 1) none).getD []
    | none => if t.nextArgument ≠ 1 then [] else t.string
  let string := match t.translate with
    | .keep => string
    | .upper => string.map toupper
    | .lower => string.map tolower
  { t with
    string := string
    nextArgument := t.nextArgument + 1
    start := 0
    patternEnd := 0
    patternStart := 0
    stringLength := string.length
    subcurrent := 0 }

/-- `init` on a target whose `end` holds anything. -/
def init (endAt : Nat) (string : List UInt8) (arglist : Option (List (Option (List UInt8))))
    (translate : ParseTranslate) : RexxTarget :=
  next ⟨string, arglist, 1, translate, 0, endAt, 0, 0, 0, 0⟩

/-! ## Triggers -/

def moveToEnd (t : RexxTarget) : RexxTarget :=
  let t := { t with start := t.patternEnd }
  let t := { t with patternEnd := t.stringLength }
  let t := { t with patternStart := t.stringLength }
  let t := { t with endAt := t.stringLength }
  { t with subcurrent := t.start }

def forward (t : RexxTarget) (offset : Nat) : RexxTarget :=
  let t := { t with start := t.patternStart }
  let t := { t with endAt := t.start + offset }
  let t := if t.endAt ≥ t.stringLength then { t with endAt := t.stringLength } else t
  let t :=
    if t.endAt ≤ t.start then { t with endAt := t.stringLength, patternStart := t.start }
    else { t with patternStart := t.endAt }
  let t := { t with patternEnd := t.patternStart }
  { t with subcurrent := t.start }

def forwardLength (t : RexxTarget) (offset : Nat) : RexxTarget :=
  let t := { t with start := t.patternStart }
  let t := { t with endAt := t.start + offset }
  let t := if t.endAt ≥ t.stringLength then { t with endAt := t.stringLength } else t
  let t := { t with patternStart := t.endAt }
  let t := { t with patternEnd := t.patternStart }
  { t with subcurrent := t.start }

def absolute (t : RexxTarget) (offset : Nat) : RexxTarget :=
  let offset := if offset > 0 then offset - 1 else offset
  let t := { t with start := t.patternEnd }
  let t :=
    if offset ≤ t.start then { t with endAt := t.stringLength, patternStart := offset }
    else
      let t := { t with endAt := offset }
      let t := if t.endAt ≥ t.stringLength then { t with endAt := t.stringLength } else t
      { t with patternStart := t.endAt }
  let t := { t with patternEnd := t.patternStart }
  { t with subcurrent := t.start }

def backward (t : RexxTarget) (offset : Nat) : RexxTarget :=
  let t := { t with start := t.patternStart }
  let t := { t with endAt := t.stringLength }
  let t :=
    if offset > t.patternStart then { t with patternStart := 0 }
    else { t with patternStart := t.patternStart - offset }
  let t := { t with patternEnd := t.patternStart }
  { t with subcurrent := t.start }

def backwardLength (t : RexxTarget) (offset : Nat) : RexxTarget :=
  let t := { t with start := t.patternStart }
  let t := { t with endAt := t.stringLength }
  let t :=
    if offset > t.patternStart then { t with start := 0 }
    else { t with start := t.patternStart - offset }
  let t := { t with endAt := t.patternStart }
  let t := { t with patternEnd := t.patternStart }
  { t with subcurrent := t.start }

/-! ### Searches -/

/-- The loop of `pos`: `count` probes from `haypointer` on. -/
def posLoop (hit : List UInt8 → Bool) : List UInt8 → Nat → Nat → Nat
  | _, _, 0 => 0
  | haypointer, location, count + 1 =>
      if hit haypointer then location
      else posLoop hit (haypointer.drop 1) (location + 1) count

/-- `pos` and `caselessPos`, which compare the needle with what starts at a place. -/
def posBy (compare : List UInt8 → List UInt8 → Bool) (haystack needle : List UInt8)
    (start : Nat) : Nat :=
  if needle.length > haystack.length + start ∨ needle.length = 0 ∨
      start + needle.length > haystack.length then 0
  else
    let count := (haystack.length - start) - needle.length + 1
    posLoop (fun haypointer => compare (haypointer.take needle.length) needle)
      (haystack.drop start) (start + 1) count

/-- The comparison by `memcmp`. -/
def pos : List UInt8 → List UInt8 → Nat → Nat := posBy fun a b => a = b

/-- The comparison by `CaselessCompare`. -/
def caselessPos : List UInt8 → List UInt8 → Nat → Nat :=
  posBy fun a b => a.map toupper = b.map toupper

/-- `search` and `caselessSearch`. -/
def searchBy (pos : List UInt8 → List UInt8 → Nat → Nat) (t : RexxTarget)
    (string : List UInt8) : RexxTarget :=
  let t := { t with start := t.patternEnd }
  let t := { t with endAt := pos t.string string t.start }
  let t :=
    if t.endAt = 0 then
      { t with
        endAt := t.stringLength
        patternStart := t.stringLength
        patternEnd := t.stringLength }
    else
      let t := { t with endAt := t.endAt - 1 }
      let t := { t with patternStart := t.endAt }
      { t with patternEnd := t.patternStart + string.length }
  { t with subcurrent := t.start }

def search : RexxTarget → List UInt8 → RexxTarget := searchBy pos

def caselessSearch : RexxTarget → List UInt8 → RexxTarget := searchBy caselessPos

inductive Trigger where
  | moveToEnd
  | forward (offset : Nat)
  | forwardLength (offset : Nat)
  | absolute (offset : Nat)
  | backward (offset : Nat)
  | backwardLength (offset : Nat)
  | search (string : List UInt8)
  | caselessSearch (string : List UInt8)

/-- The `switch` of `RexxTrigger::parse`. -/
def trigger (t : RexxTarget) : Trigger → RexxTarget
  | .moveToEnd => t.moveToEnd
  | .forward offset => t.forward offset
  | .forwardLength offset => t.forwardLength offset
  | .absolute offset => t.absolute offset
  | .backward offset => t.backward offset
  | .backwardLength offset => t.backwardLength offset
  | .search string => t.search string
  | .caselessSearch string => t.caselessSearch string

/-! ## Pieces -/

inductive Piece where
  | null
  | part (offset length : Nat)
  deriving DecidableEq

def isBlank (c : UInt8) : Bool := c = 32 ∨ c = 9

def skipBlanks : List UInt8 → Nat
  | [] => 0
  | c :: scan => if isBlank c then skipBlanks scan + 1 else 0

def findBlank : List UInt8 → Nat → Option Nat
  | c :: scanner, count + 1 =>
      if isBlank c then some 0 else (findBlank scanner count).map (· + 1)
  | _, _ => none

def getWord (t : RexxTarget) : Piece × RexxTarget :=
  if t.subcurrent ≥ t.endAt then (.null, t)
  else
    let scan := t.subcurrent + skipBlanks (t.string.drop t.subcurrent)
    let t := { t with subcurrent := scan }
    if t.subcurrent ≥ t.endAt then (.null, t)
    else
      match findBlank (t.string.drop scan) (t.endAt - scan) with
      | none =>
          let length := t.endAt - t.subcurrent
          -- past the end, where the test at the start catches it
          (.part scan length, { t with subcurrent := t.endAt + 1 })
      | some length => (.part scan length, { t with subcurrent := scan + length + 1 })

def skipWord (t : RexxTarget) : RexxTarget :=
  if t.subcurrent < t.endAt then
    let scan := t.subcurrent + skipBlanks (t.string.drop t.subcurrent)
    let t := { t with subcurrent := scan }
    if t.subcurrent < t.endAt then
      let t := match findBlank (t.string.drop scan) (t.endAt - scan) with
        | none => { t with subcurrent := t.endAt }
        | some length => { t with subcurrent := scan + length }
      { t with subcurrent := t.subcurrent + 1 }
    else t
  else t

def remainder (t : RexxTarget) : Piece × RexxTarget :=
  if t.subcurrent ≥ t.endAt then (.null, t)
  else
    let length := t.endAt - t.subcurrent
    (.part t.subcurrent length, { t with subcurrent := t.endAt })

def skipRemainder (t : RexxTarget) : RexxTarget := { t with subcurrent := t.endAt }

inductive Fetch where
  | getWord
  | skipWord
  | remainder
  | skipRemainder
  deriving DecidableEq

def fetch (t : RexxTarget) : Fetch → Option Piece × RexxTarget
  | .getWord => (some t.getWord.1, t.getWord.2)
  | .skipWord => (none, t.skipWord)
  | .remainder => (some t.remainder.1, t.remainder.2)
  | .skipRemainder => (none, t.skipRemainder)

end RexxTarget

end LeooRexx
