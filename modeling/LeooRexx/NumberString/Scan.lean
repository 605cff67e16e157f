import LeooRexx.NumberString.Precision

/-!
# Number recognition

`newInstance` reads a character string twice: `numberStringScan` accepts it and
`format` converts it.  A pointer into the string is the list of the characters
from it to the end, and reading at the end gives the guard character 0.  The
types `int` and `long` have 32 bits.
-/

namespace LeooRexx

open Positional DecimalRounding

namespace NumberString

/-! ## Characters -/

def chBlank : UInt8 := 32
def chTab : UInt8 := 9
def chPlus : UInt8 := 43
def chMinus : UInt8 := 45
def chPeriod : UInt8 := 46
def chZero : UInt8 := 48
def chFive : UInt8 := 53
def chNine : UInt8 := 57

def isBlank (c : UInt8) : Bool := c == chBlank || c == chTab

def isSign (c : UInt8) : Bool := c == chMinus || c == chPlus

def isDigit (c : UInt8) : Bool := chZero ≤ c && c ≤ chNine

def isZero (c : UInt8) : Bool := c == chZero

/-- `toupper(c) == 'E'`. -/
def isExponentMark (c : UInt8) : Bool := c == 69 || c == 101

def digitValue (c : UInt8) : Nat := c.toNat - 48

def peek (inPtr : List UInt8) : UInt8 := inPtr.headD 0

def wrap32 (i : Int) : Int := Int.bmod i (2 ^ 32)

def labs (i : Int) : Int := wrap32 |i|

/-! ## The acceptance scan -/

def scanTrailing (inPtr : List UInt8) : Bool := inPtr.dropWhile isBlank ≠ []

def scanExponent (inPtr : List UInt8) : Bool :=
  if isExponentMark (peek inPtr) then
    let inPtr := inPtr.tail
    if inPtr = [] then true
    else
      let inPtr := if isSign (peek inPtr) then inPtr.tail else inPtr
      if inPtr = [] then true
      else if ¬ isDigit (peek inPtr) then true
      else scanTrailing (inPtr.dropWhile isDigit)
  else scanTrailing inPtr

def scanDigits (hadPeriod : Bool) (inPtr : List UInt8) : Bool :=
  if ¬ isDigit (peek inPtr) then true
  else
    let inPtr := inPtr.dropWhile isZero
    if inPtr = [] then false
    else
      let inPtr := inPtr.dropWhile isDigit
      if inPtr = [] then false
      else if peek inPtr = chPeriod then
        if hadPeriod then true
        else
          let inPtr := inPtr.tail.dropWhile isDigit
          if inPtr = [] then false else scanExponent inPtr
      else scanExponent inPtr

def numberStringScan (number : List UInt8) : Bool :=
  if number = [] then true
  else
    let inPtr := number.dropWhile isBlank
    let inPtr :=
      if isSign (peek inPtr) then inPtr.tail.dropWhile isBlank else inPtr
    if peek inPtr = chPeriod then scanDigits true inPtr.tail
    else scanDigits false inPtr

/-! ## The conversion -/

structure Copied where
  out : List Nat
  maxDigits : Nat
  msDigit : UInt8
  expValue : Int
  deriving DecidableEq, Repr

/--
The two digit loops.  A stored digit adds `stored` to the exponent, a digit
without room adds `dropped`.
-/
def copyDigits (stored dropped : Int) (v : Copied) :
    List UInt8 → List UInt8 × Copied
  | [] => ([], v)
  | c :: inPtr =>
      if isDigit c then
        if v.maxDigits ≠ 0 then
          copyDigits stored dropped
            { v with
              out := v.out ++ [digitValue c]
              maxDigits := v.maxDigits - 1
              expValue := wrap32 (v.expValue + stored) } inPtr
        else
          copyDigits stored dropped
            { v with
              msDigit := if v.msDigit = 0 then c else v.msDigit
              expValue := wrap32 (v.expValue + dropped) } inPtr
      else (c :: inPtr, v)

def skipDecimalZeros (expValue : Int) : List UInt8 → List UInt8 × Int
  | [] => ([], expValue)
  | c :: inPtr =>
      if isZero c then skipDecimalZeros (wrap32 (expValue - 1)) inPtr
      else (c :: inPtr, expValue)

def roundUp (n : NumberString) (msDigit : UInt8) : NumberString :=
  if chFive ≤ msDigit ∧ msDigit ≤ chNine then
    let (digits, exp) := roundUpAt n.number 5 n.exp
    { n with number := digits, exp := exp }
  else n

def store (n : NumberString) (v : Copied) : NumberString :=
  { n with number := v.out, exp := v.expValue }

def exponentDigits (expValue : Int) : List UInt8 → Option Int
  | [] => some expValue
  | c :: inPtr =>
      if isDigit c then
        let expValue := wrap32 (expValue * 10 + digitValue c)
        if expValue > maxNum then none else exponentDigits expValue inPtr
      else some expValue

/-- The end of `format`, after the exponent was added. -/
def formatEnd (this : NumberString) (wasZero : Bool) (msDigit : UInt8) :
    Option NumberString :=
  let this := if this.sign = 0 ∨ wasZero then this.setZero else this
  let this := this.roundUp msDigit
  if wrap32 (this.exp + this.length - 1) > maxNum then none else some this

/-- The part of `format` behind the digits. -/
def formatExponent (this : NumberString) (wasZero : Bool) (v : Copied)
    (inPtr : List UInt8) : Option NumberString :=
  if v.out = [] ∧ inPtr = [] then some this.setZero
  else
    let this := this.store v
    if isExponentMark (peek inPtr) then do
      let inPtr := inPtr.tail
      let expSign : Int := if peek inPtr = chMinus then -1 else 1
      let inPtr := if isSign (peek inPtr) then inPtr.tail else inPtr
      let expValue ← exponentDigits 0 inPtr
      let exp := wrap32 (this.exp + wrap32 (expValue * expSign))
      if labs exp > maxNum then none
      else formatEnd { this with exp := exp } wasZero v.msDigit
    else formatEnd this wasZero v.msDigit

/-- The part of `format` behind the decimal point. -/
def formatDecimals (this : NumberString) (wasZero : Bool) (numDigits : Nat)
    (v : Copied) (inPtr : List UInt8) : Option NumberString :=
  if inPtr = [] then
    if v.maxDigits = numDigits ∨ wasZero then some this.setZero
    else some ((this.store v).roundUp v.msDigit)
  else
    let (inPtr, expValue) :=
      if v.maxDigits = numDigits then skipDecimalZeros v.expValue inPtr
      else (inPtr, v.expValue)
    if inPtr = [] then some this.setZero
    else
      let wasZero := wasZero && !(isDigit (peek inPtr) && !isZero (peek inPtr))
      let (inPtr, v) := copyDigits (-1) 0 { v with expValue := expValue } inPtr
      if inPtr = [] then some ((this.store v).roundUp v.msDigit)
      else formatExponent this wasZero v inPtr

def format (this : NumberString) (number : List UInt8) : Option NumberString :=
  let inPtr := number.dropWhile isBlank
  let this := if peek inPtr = chMinus then { this with sign := -1 } else this
  let inPtr := if isSign (peek inPtr) then inPtr.tail else inPtr
  let inPtr := (inPtr.dropWhile isBlank).dropWhile isZero
  if inPtr = [] then some this.setZero
  else
    let wasZero := !(isDigit (peek inPtr) && !isZero (peek inPtr))
    let (inPtr, v) := copyDigits 0 1 ⟨[], number.length, 0, 0⟩ inPtr
    if inPtr = [] then
      some (((this.store v).roundUp v.msDigit).roundUp v.msDigit)
    else if peek inPtr = chPeriod then
      formatDecimals this wasZero number.length v inPtr.tail
    else formatExponent this wasZero v inPtr

def newInstance (s : Settings) (number : List UInt8) : Option NumberString :=
  if numberStringScan number then none
  else (new s 1 0 []).format number

end NumberString

end LeooRexx
