import Mathlib.Data.Int.Notation
import Mathlib.Data.Nat.Notation

/-!
# Arguments of string methods

The conversions that a string method applies to its whole number arguments.  An
argument has been through `REQUIRED_LONG`; `none` is an omitted one.
-/

namespace LeooRexx

/-- The `Error_Incorrect_method` conditions, with the value at fault. -/
inductive StringArgumentError where
  | length (value : ℤ)
  | position (value : ℤ)
  | positive (argument : ℕ) (value : ℤ)
  | pad (value : List UInt8)
  deriving DecidableEq

namespace StringArguments

/-- `MAX_WHOLE_NUMBER` and `MAXNUM`. -/
def maxWholeNumber : ℕ := 999999999

def getLength (value : ℤ) : Except StringArgumentError ℕ :=
  if value < 0 then .error (.length value) else .ok value.toNat

def getPosition (value : ℤ) : Except StringArgumentError ℕ :=
  if value ≤ 0 then .error (.position value) else .ok value.toNat

def requiredPositive (argument : ℕ) (value : ℤ) : Except StringArgumentError ℕ :=
  if value ≤ 0 then .error (.positive argument value) else .ok value.toNat

def getPadCharacter : List UInt8 → Except StringArgumentError UInt8
  | [c] => .ok c
  | parameter => .error (.pad parameter)

def getPad (pad : Option (List UInt8)) (default : UInt8) : Except StringArgumentError UInt8 :=
  pad.elim (.ok default) getPadCharacter

def optionalLength (value : Option ℤ) (default : ℕ) : Except StringArgumentError ℕ :=
  value.elim (.ok default) getLength

def optionalPosition (value : Option ℤ) (default : ℕ) : Except StringArgumentError ℕ :=
  value.elim (.ok default) getPosition

def optionalPositive (argument : ℕ) (value : Option ℤ) (default : ℕ) :
    Except StringArgumentError ℕ :=
  value.elim (.ok default) (requiredPositive argument)

def positive (n : ℕ) : ℤ := n + 1

theorem getPosition_positive (n : ℕ) : getPosition (positive n) = .ok (n + 1) := by
  have hpositive : ¬ (n : ℤ) + 1 ≤ 0 := by omega
  simp [getPosition, positive, hpositive]

theorem optionalPosition_positive (start : Option ℕ) (default : ℕ) :
    optionalPosition (start.map positive) default = .ok (start.elim default (· + 1)) := by
  cases start with
  | none => rfl
  | some start => exact getPosition_positive start

theorem optionalPositive_positive (count : Option ℕ) :
    optionalPositive 3 (count.map positive) maxWholeNumber =
      .ok (count.elim maxWholeNumber (· + 1)) := by
  cases count with
  | none => rfl
  | some count =>
      have hpositive : ¬ (count : ℤ) + 1 ≤ 0 := by omega
      simp [optionalPositive, requiredPositive, positive, hpositive]

theorem optionalLength_cast (length : Option ℕ) (default : ℕ) :
    optionalLength (length.map Nat.cast) default = .ok (length.getD default) := by
  cases length with
  | none => rfl
  | some length =>
      have hnonnegative : ¬ (length : ℤ) < 0 := by omega
      simp [optionalLength, getLength, hnonnegative]

theorem getPad_char (pad : Option UInt8) (default : UInt8) :
    getPad (pad.map fun c => [c]) default = .ok (pad.getD default) := by
  cases pad <;> rfl

end StringArguments

end LeooRexx
