import LeooRexx.NumberString.Whole

/-!
# Integer objects

The operators and methods of `RexxInteger` that have a fast path, beside the
methods of `RexxNumberString` they forward to.  A `long` has 32 bits.  An
operand is an integer or a number string; the unary operators are left out.
-/

namespace LeooRexx

open DecimalRounding

def defaultDigits : Nat := 9

/--
An integer object.  The string value is only kept once it has been made, or
when the object comes from a constant in a program, which may have leading
zeros.
-/
structure RexxInteger where
  value : Int
  stringrep : Option (List UInt8)
  spells : ∀ text ∈ stringrep, NumberString.Spells value text

inductive RexxObject where
  | integer (i : RexxInteger)
  | numberString (n : NumberString)

/-- `OT_MAX` and `OT_MIN`. -/
inductive Extreme where
  | max
  | min
  deriving DecidableEq, Repr

/-- `CHAR_MAX` and `CHAR_MIN`. -/
def Extreme.name : Extreme → String
  | .max => "MAX"
  | .min => "MIN"

namespace RexxInteger

/-- `new_integer`. -/
def new (value : Int) : RexxInteger := ⟨value, none, by simp⟩

def stringValue (this : RexxInteger) : List UInt8 :=
  match this.stringrep with
  | some stringrep => stringrep
  | none => NumberString.ltoa this.value

def numberString (s : Settings) (this : RexxInteger) : Option NumberString :=
  match this.stringrep with
  | some stringrep => NumberString.newInstance s stringrep
  | none => some (NumberString.newWholenumber s this.value)

end RexxInteger

namespace RexxObject

def number (s : Settings) (failed : List UInt8 → Exception) : RexxObject → Outcome NumberString
  | integer i =>
      match i.numberString s with
      | some n => .ok n
      | none => .error (.raised (failed i.stringValue))
  | numberString n => .ok n

def toRat : RexxObject → ℚ
  | integer i => i.value
  | numberString n => n.toRat

end RexxObject

/-! ## The methods of RexxNumberString -/

namespace NumberString

def plus (s : Settings) (this : NumberString) (right : RexxObject) : Outcome NumberString := do
  let rightNumber ← right.number s .conversionOperatorText
  addSub s this rightNumber .plus s.digits

def minus (s : Settings) (this : NumberString) (right : RexxObject) : Outcome NumberString := do
  let rightNumber ← right.number s .conversionOperatorText
  addSub s this rightNumber .minus s.digits

/-- The method `multiply`; what it calls is `Multiply`. -/
def times (s : Settings) (this : NumberString) (right : RexxObject) : Outcome NumberString := do
  let rightNumber ← right.number s .conversionOperatorText
  multiply s this rightNumber

def integerDivide (s : Settings) (this : NumberString) (right : RexxObject) :
    Outcome NumberString := do
  let rightNumber ← right.number s .conversionOperatorText
  division s this rightNumber .intDivide

def remainder (s : Settings) (this : NumberString) (right : RexxObject) :
    Outcome NumberString := do
  let rightNumber ← right.number s .conversionOperatorText
  division s this rightNumber .remainder

/-- `isGreaterThan` for `OT_MAX`, `isLessThan` for `OT_MIN`. -/
def exceeds (s : Settings) (operation : Extreme) (compobj maxminobj : NumberString) :
    Outcome Bool := do
  let rc ← comp s compobj maxminobj
  match operation with
  | .max => return rc > 0
  | .min => return rc < 0

/-- The loop over the arguments, from position `arg` on. -/
def maxMinLoop (s : Settings) (operation : Extreme) (maxminobj : NumberString) (arg : Nat) :
    List (Option RexxObject) → Outcome NumberString
  | [] => .ok maxminobj
  | none :: _ => .error (.raised (.incorrectCallNoarg operation.name (arg + 1)))
  | some nextObject :: args => do
      let compobj ← nextObject.number s (.incorrectMethodNumber (arg + 1))
      let compobj ← compobj.prepareNumber s s.digits true
      let found ← exceeds s operation compobj maxminobj
      maxMinLoop s operation (if found then compobj else maxminobj) (arg + 1) args

def maxMin (s : Settings) (this : NumberString) (args : List (Option RexxObject))
    (operation : Extreme) : Outcome NumberString :=
  if args = [] then .ok this
  else do
    let s := { s with fuzz := 0 }
    let maxminobj ← this.prepareNumber s s.digits true
    maxMinLoop s operation maxminobj 0 args

protected def max (s : Settings) (this : NumberString) (args : List (Option RexxObject)) :
    Outcome NumberString := this.maxMin s args .max

protected def min (s : Settings) (this : NumberString) (args : List (Option RexxObject)) :
    Outcome NumberString := this.maxMin s args .min

end NumberString

/-! ## The methods of RexxInteger -/

namespace RexxInteger

/-- `integer_forward`: the method of the number string. -/
def forward (s : Settings) (this : RexxInteger)
    (method : NumberString → Outcome NumberString) : Outcome RexxObject :=
  match this.numberString s with
  | some n => do return .numberString (← method n)
  | none => .error .outOfBounds

def plus (s : Settings) (this : RexxInteger) (other : RexxObject) : Outcome RexxObject :=
  if s.digits ≠ defaultDigits then this.forward s (·.plus s other)
  else
    match other with
    | .integer i =>
        let tempVal := NumberString.wrap32 (this.value + i.value)
        if tempVal ≤ 999999999 ∧ tempVal ≥ -999999999 then .ok (.integer (new tempVal))
        else this.forward s (·.plus s other)
    | .numberString _ => this.forward s (·.plus s other)

def minus (s : Settings) (this : RexxInteger) (other : RexxObject) : Outcome RexxObject :=
  if s.digits ≠ defaultDigits then this.forward s (·.minus s other)
  else
    match other with
    | .integer i =>
        let tempVal := NumberString.wrap32 (this.value - i.value)
        if tempVal ≤ 999999999 ∧ tempVal ≥ -999999999 then .ok (.integer (new tempVal))
        else this.forward s (·.minus s other)
    | .numberString _ => this.forward s (·.minus s other)

def multiply (s : Settings) (this : RexxInteger) (other : RexxObject) : Outcome RexxObject :=
  if s.digits ≠ defaultDigits then this.forward s (·.times s other)
  else
    match other with
    | .integer i =>
        if NumberString.labs this.value ≤ 99999 ∧ NumberString.labs i.value ≤ 9999 then
          .ok (.integer (new (NumberString.wrap32 (this.value * i.value))))
        else this.forward s (·.times s other)
    | .numberString _ => this.forward s (·.times s other)

def integerDivide (s : Settings) (this : RexxInteger) (other : RexxObject) :
    Outcome RexxObject :=
  if s.digits ≠ defaultDigits then this.forward s (·.integerDivide s other)
  else
    match other with
    | .integer i =>
        if i.value ≠ 0 then
          .ok (.integer (new (NumberString.wrap32 (this.value.tdiv i.value))))
        else .error (.raised .overflowZero)
    | .numberString _ => this.forward s (·.integerDivide s other)

def remainder (s : Settings) (this : RexxInteger) (other : RexxObject) :
    Outcome RexxObject :=
  if s.digits ≠ defaultDigits then this.forward s (·.remainder s other)
  else
    match other with
    | .integer i =>
        if i.value ≠ 0 then
          .ok (.integer (new (NumberString.wrap32 (this.value.tmod i.value))))
        else .error (.raised .overflowZero)
    | .numberString _ => this.forward s (·.remainder s other)

def exceeds (operation : Extreme) (value found : Int) : Bool :=
  match operation with
  | .max => value > found
  | .min => value < found

/-- The loop of `Max` and `Min`; there is no result when an argument is no integer. -/
def maxMinLoop (operation : Extreme) (found : Int) (arg : Nat) :
    List (Option RexxObject) → Outcome (Option Int)
  | [] => .ok (some found)
  | none :: _ => .error (.raised (.incorrectMethodNoarg arg))
  | some (.integer i) :: args =>
      maxMinLoop operation (if exceeds operation i.value found then i.value else found)
        (arg + 1) args
  | some (.numberString _) :: _ => .ok none

/-- What `Max` and `Min` have in common. -/
def maxMin (s : Settings) (this : RexxInteger) (args : List (Option RexxObject))
    (operation : Extreme) : Outcome RexxObject :=
  if s.digits ≠ defaultDigits then this.forward s (·.maxMin s args operation)
  else if args.length < 1 then .ok (.integer this)
  else do
    match ← maxMinLoop operation this.value 0 args with
    | some found => return .integer (new found)
    | none => this.forward s (·.maxMin s args operation)

protected def max (s : Settings) (this : RexxInteger) (args : List (Option RexxObject)) :
    Outcome RexxObject := this.maxMin s args .max

protected def min (s : Settings) (this : RexxInteger) (args : List (Option RexxObject)) :
    Outcome RexxObject := this.maxMin s args .min

end RexxInteger

end LeooRexx
