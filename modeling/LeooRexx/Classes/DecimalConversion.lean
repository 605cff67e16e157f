import LeooRexx.NumberString.HexConversion
import LeooRexx.NumberString.StringValue

/-!
# Hexadecimal and character strings as numbers

`RexxString::x2dC2d`: the bytes that a length leaves of a string, negated in place when
their sign bit is on, are accumulated in base ten a nibble at a time.
-/

namespace LeooRexx.DecimalConversion

open Positional StringConversion NumberString

/-- What is converted: the bytes at `StringPtr`, whether they are to be negated, and
whether the highest nibble is not part of them. -/
structure Window where
  bytes : List UInt8
  negative : Bool
  oddNibbles : Bool

def first (bytes : List UInt8) : UInt8 := bytes.headD 0

def c2dWindow (string : List UInt8) (length : Option Nat) : Window :=
  match length with
  | none => ⟨string, false, false⟩
  | some resultSize =>
      if resultSize > string.length then ⟨string, false, false⟩
      else
        let bytes := string.drop (string.length - resultSize)
        ⟨bytes, first bytes &&& 0x80 ≠ 0, false⟩

def x2dWindow (string : List UInt8) (length : Option Nat) : Window :=
  match length with
  | none => ⟨string, false, false⟩
  | some resultSize =>
      let bytePosition := resultSize / 2
      let nibblePosition := resultSize % 2
      let resultSize := bytePosition + nibblePosition
      if resultSize > string.length then ⟨string, false, false⟩
      else
        let bytes := string.drop (string.length - resultSize)
        ⟨bytes, nibblePosition ≠ 0 ∧ first bytes &&& 0x08 ≠ 0 ∨
          nibblePosition = 0 ∧ first bytes &&& 0x80 ≠ 0, nibblePosition ≠ 0⟩

def increment : List UInt8 → List UInt8
  | [] => []
  | c :: scan =>
      let ch := c.toNat + 1
      if ch ≤ 0xff then UInt8.ofNat ch :: scan else 0 :: increment scan

def negate (bytes : List UInt8) : List UInt8 :=
  (increment (bytes.map (· ^^^ 0xff)).reverse).reverse

/-- `*StringPtr &= 0x0f`. -/
def clearHighNibble : List UInt8 → List UInt8
  | [] => []
  | c :: bytes => (c &&& 0x0f) :: bytes

def windowBytes (w : Window) : List UInt8 :=
  let bytes := if w.negative then negate w.bytes else w.bytes
  if w.oddNibbles then clearHighNibble bytes else bytes

/-- `Error_Incorrect_method_c2dbig` or `Error_Incorrect_method_x2dbig`. -/
def tooBigError (type : Bool) (currentDigits : Nat) : RadixFault :=
  if type then .c2dbig currentDigits else .x2dbig currentDigits

def checkLength (type : Bool) (currentDigits : Nat) (accumulator : RadixNumber) :
    RadixOutcome Unit :=
  if accumulator.high > currentDigits then .error (tooBigError type currentDigits) else .ok ()

def multiplyUnlessLast (scan : List UInt8) (accumulator : RadixNumber) :
    RadixOutcome RadixNumber :=
  if scan.length ≠ 0 then accumulator.multiplyBaseTen else .ok accumulator

def accumulateBytes (type : Bool) (currentDigits : Nat) :
    RadixNumber → List UInt8 → RadixOutcome RadixNumber
  | accumulator, [] => .ok accumulator
  | accumulator, ch :: scan => do
      let accumulator ← accumulator.addToBaseTen ((ch.toNat &&& 0xf0) >>> 4)
      let accumulator ← accumulator.multiplyBaseTen
      checkLength type currentDigits accumulator
      let accumulator ← accumulator.addToBaseTen (ch.toNat &&& 0x0f)
      let accumulator ← multiplyUnlessLast scan accumulator
      checkLength type currentDigits accumulator
      accumulateBytes type currentDigits accumulator scan

def decimalText (negative : Bool) (accumulator : RadixNumber) : List UInt8 :=
  let digits := (accumulator.cells.take accumulator.high).reverse.map digitChar
  if negative then chMinus :: digits else digits

def convertWindow (s : Settings) (type : Bool) (w : Window) : RadixOutcome (List UInt8) := do
  let accumulator ← accumulateBytes type s.digits (.cleared (s.digits + overflowSpace + 1))
    (windowBytes w)
  return decimalText w.negative accumulator

def x2dC2d (s : Settings) (string : List UInt8) (length : Option Nat) (type : Bool) :
    RadixOutcome (List UInt8) :=
  if length = some 0 then .ok [chZero]
  else if type then convertWindow s type (c2dWindow string length)
  else do
    let string ← packed string
    convertWindow s type (x2dWindow string length)

end LeooRexx.DecimalConversion
