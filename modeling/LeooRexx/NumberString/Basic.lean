import LeooRexx.Foundation.Positional
import LeooRexx.Foundation.Rounding

/-!
# Number strings

The data model of `RexxNumberString` and the precision routines every
arithmetic operation ends in.  A number is a sign, an exponent and the list of
its decimal digits, most significant first; `length` is the length of that
list.  A pointer into a digit array is the list of the cells from the pointer
to the end of the array, and a read past that end is the fault `outOfBounds`.

The object header, the cached string and the LOSTDIGITS condition (which is
only raised when a program traps it) are left out.
-/

namespace LeooRexx

open Positional DecimalRounding

/-- `MAXNUM`: exponents have at most nine digits. -/
def maxNum : Int := 999999999

inductive Form where
  | scientific
  | engineering
  deriving DecidableEq, Repr

/-- The numeric part of `ACTIVATION_SETTINGS`. -/
structure Settings where
  digits : Nat
  fuzz : Nat
  form : Form
  deriving DecidableEq, Repr

structure NumberString where
  sign : Int
  exp : Int
  number : List Nat
  numDigits : Nat
  numFormScientific : Bool
  deriving DecidableEq, Repr

inductive Exception where
  | overflowExpoverflow (value digits : Int)
  | overflowExpunderflow (value digits : Int)
  | overflowZero
  | invalidWholeNumberIntdiv
  | invalidWholeNumberRem
  | conversionOperator (number : NumberString)
  | incorrectMethodNoarg (position : Nat)
  | incorrectCallNoarg (function : String) (position : Nat)
  | incorrectMethodNumber (position : Nat) (argument : List UInt8)
  | conversionOperatorText (operand : List UInt8)
  | invalidWholeNumberPower (powerObj : List UInt8)
  | overflowPower
  | overflowOverflow (number : NumberString) (powerObj : List UInt8)
  deriving DecidableEq, Repr

inductive Fault where
  | raised (exception : Exception)
  | outOfBounds
  | outOfFuel
  deriving DecidableEq, Repr

abbrev Outcome := Except Fault

namespace Outcome

@[simp] theorem ok_bind {α β : Type} (a : α) (f : α → Outcome β) :
    (Except.ok a : Outcome α) >>= f = f a := rfl

@[simp] theorem error_bind {α β : Type} (e : Fault) (f : α → Outcome β) :
    (Except.error e : Outcome α) >>= f = .error e := rfl

end Outcome

namespace NumberString

def length (n : NumberString) : Nat := n.number.length

/-! ## Meaning -/

def decimal (n : NumberString) : Decimal := ⟨value 10 n.number, n.exp⟩

def toRat (n : NumberString) : ℚ := n.sign * n.decimal.toRat

structure Normalized (n : NumberString) : Prop where
  sign_cases : n.sign = -1 ∨ n.sign = 0 ∨ n.sign = 1
  digits : IsDigits 10 n.number
  zero : n.sign = 0 → n.number = [0] ∧ n.exp = 0
  leading : n.sign ≠ 0 → ∃ d ds, n.number = d :: ds ∧ 0 < d
  exp_lower : -maxNum ≤ n.exp
  exp_upper : n.exp + n.length - 1 ≤ maxNum

theorem normalized_iff {n : NumberString} :
    n.Normalized ↔ (n.sign = -1 ∨ n.sign = 0 ∨ n.sign = 1) ∧
      (∀ d ∈ n.number, d < 10) ∧ (n.sign = 0 → n.number = [0] ∧ n.exp = 0) ∧
      (n.sign ≠ 0 → 0 < n.number.headD 0) ∧ -maxNum ≤ n.exp ∧
      n.exp + n.length - 1 ≤ maxNum := by
  have hlead : (∃ d ds, n.number = d :: ds ∧ 0 < d) ↔ 0 < n.number.headD 0 := by
    cases n.number <;> simp
  rw [← hlead]
  exact ⟨fun h => ⟨h.1, h.2, h.3, h.4, h.5, h.6⟩,
    fun ⟨h1, h2, h3, h4, h5, h6⟩ => ⟨h1, h2, h3, h4, h5, h6⟩⟩

instance (n : NumberString) : Decidable n.Normalized :=
  decidable_of_iff' _ normalized_iff

theorem Normalized.length_pos {n : NumberString} (h : n.Normalized) : 1 ≤ n.length := by
  by_cases h0 : n.sign = 0
  · simp [length, (h.zero h0).1]
  · obtain ⟨d, ds, hds, -⟩ := h.leading h0
    simp [length, hds]

theorem Normalized.sign_eq {n : NumberString} (h : n.Normalized) (h0 : n.sign ≠ 0) :
    n.sign = -1 ∨ n.sign = 1 := by
  have hcases := h.sign_cases
  omega

theorem Normalized.congr {n n' : NumberString} (h : n.Normalized)
    (hsign : n'.sign = n.sign ∨ n'.sign = -n.sign) (hexp : n'.exp = n.exp)
    (hnum : n'.number = n.number) : n'.Normalized where
  sign_cases := by have := h.sign_cases; omega
  digits := hnum ▸ h.digits
  zero := fun h0 => by rw [hnum, hexp]; exact h.zero (by omega)
  leading := fun h0 => by rw [hnum]; exact h.leading (by omega)
  exp_lower := hexp ▸ h.exp_lower
  exp_upper := by rw [length, hnum, hexp]; exact h.exp_upper

theorem Normalized.value_ne_zero {n : NumberString} (h : n.Normalized)
    (h0 : n.sign ≠ 0) : value 10 n.number ≠ 0 := by
  obtain ⟨d, ds, hds, hd⟩ := h.leading h0
  have hle := le_value_cons (b := 10) hd ds
  have hpos : 0 < 10 ^ ds.length := by positivity
  rw [hds]
  omega

theorem Normalized.decimal_pos {n : NumberString} (h : n.Normalized) (h0 : n.sign ≠ 0) :
    0 < n.decimal.toRat := by
  have hvalue := Nat.pos_of_ne_zero (h.value_ne_zero h0)
  unfold decimal Decimal.toRat
  positivity

theorem toRat_eq_zero_iff {n : NumberString} (h : n.Normalized) :
    n.toRat = 0 ↔ n.sign = 0 := by
  constructor
  · intro hn
    by_contra h0
    exact h.value_ne_zero h0 (by simpa [toRat, decimal, h0] using hn)
  · intro h0
    simp [toRat, h0]

theorem abs_toRat {n : NumberString} (h : n.Normalized) (h0 : n.sign ≠ 0) :
    |n.toRat| = n.decimal.toRat := by
  have hsign : |(n.sign : ℚ)| = 1 := by
    rcases h.sign_eq h0 with hs | hs <;> simp [hs]
  rw [toRat, abs_mul, hsign, one_mul, abs_of_pos (h.decimal_pos h0)]

theorem fitsDigits_toRat {D : Nat} {n : NumberString} (h : n.Normalized)
    (hlen : n.length ≤ D) : FitsDigits D n.toRat := by
  by_cases h0 : n.sign = 0
  · exact ⟨0, 0, by positivity, by simp [toRat, h0]⟩
  · refine ⟨value 10 n.number, n.exp, ?_, ?_⟩
    · exact lt_of_lt_of_le (value_lt (by norm_num) h.digits)
        (Nat.pow_le_pow_right (by norm_num) hlen)
    · rw [abs_toRat h h0]
      rfl

theorem sign_mul_sign {a b : NumberString} (ha : a.Normalized) (hb : b.Normalized)
    (ha0 : a.sign ≠ 0) (hb0 : b.sign ≠ 0) :
    a.sign * b.sign = -1 ∨ a.sign * b.sign = 1 := by
  rcases ha.sign_cases with h | h | h <;> rcases hb.sign_cases with h' | h' | h' <;>
    simp_all

/-! ## Settings and zero -/

def new (s : Settings) (sign exp : Int) (number : List Nat) : NumberString :=
  ⟨sign, exp, number, s.digits, s.form = .scientific⟩

def setZero (n : NumberString) : NumberString :=
  { n with number := [0], sign := 0, exp := 0 }

/-- `new_numberstring("0", 1)`, and the number that `IntegerZero` stands for. -/
def zero (s : Settings) : NumberString := new s 0 0 [0]

theorem normalized_zero (s : Settings) : (zero s).Normalized := by
  constructor <;> simp [zero, new, length, maxNum]

def setNumericSettings (n : NumberString) (digits : Nat) (form : Form) :
    NumberString :=
  { n with numDigits := digits, numFormScientific := form = .scientific }

/-! ## Work buffers -/

def readAt (buffer : List Nat) (ptr : Int) : Outcome Nat :=
  if ptr < 0 then .error .outOfBounds
  else match buffer[ptr.toNat]? with
    | some digit => .ok digit
    | none => .error .outOfBounds

def writeAt (buffer : List Nat) (ptr : Int) (digit : Nat) :
    Outcome (List Nat) :=
  if 0 ≤ ptr ∧ ptr < buffer.length then .ok (buffer.set ptr.toNat digit)
  else .error .outOfBounds

theorem readAt_natCast {buffer : List Nat} {i : Nat} (h : i < buffer.length) :
    readAt buffer i = .ok buffer[i] := by
  simp [readAt, h]

theorem writeAt_natCast {buffer : List Nat} {i : Nat} (digit : Nat)
    (h : i < buffer.length) :
    writeAt buffer i digit = .ok (buffer.set i digit) := by
  simp [writeAt, h]

def memcmp : List Nat → List Nat → Nat → Int
  | _, _, 0 => 0
  | l :: left, r :: right, count + 1 =>
      if l < r then -1 else if l > r then 1 else memcmp left right count
  | _, _, _ + 1 => 0

theorem memcmp_spec {xs ys : List Nat} {count : Nat} (hx : IsDigits 10 xs)
    (hy : IsDigits 10 ys) (hxc : count ≤ xs.length) (hyc : count ≤ ys.length) :
    (0 < memcmp xs ys count ↔
        value 10 (ys.take count) < value 10 (xs.take count)) ∧
      (memcmp xs ys count < 0 ↔
        value 10 (xs.take count) < value 10 (ys.take count)) ∧
      (memcmp xs ys count = 0 ↔ xs.take count = ys.take count) := by
  induction count generalizing xs ys with
  | zero => simp [memcmp]
  | succ count ih =>
      match xs, ys, hxc, hyc with
      | x :: xs, y :: ys, hxc, hyc =>
          simp only [isDigits_cons, List.length_cons, Nat.add_le_add_iff_right]
            at hx hy hxc hyc
          have hlx : (xs.take count).length = count := by simpa using hxc
          have hly : (ys.take count).length = count := by simpa using hyc
          rw [memcmp, List.take_succ_cons, List.take_succ_cons]
          rcases lt_trichotomy x y with hlt | rfl | hgt
          · have hv := value_lt_of_head_lt (by norm_num)
              (hlx.trans hly.symm) (hx.2.take count) hlt
            rw [if_pos hlt]
            simp [hv, hv.le, hlt.ne]
          · simpa [value_cons, hlx, hly] using ih hx.2 hy.2 hxc hyc
          · have hv := value_lt_of_head_lt (by norm_num)
              (hly.trans hlx.symm) (hy.2.take count) hgt
            rw [if_neg hgt.not_gt, if_pos hgt]
            simp [hv, hv.le, hgt.ne']

/-! ## Rounding to a precision -/

def checkExponent (exp : Int) (length : Nat) : Outcome Unit :=
  if exp + length - 1 > maxNum then
    .error (.raised (.overflowExpoverflow (exp + length - 1) 9))
  else if exp < -maxNum then
    .error (.raised (.overflowExpunderflow exp 9))
  else .ok ()

def roundCarry : List Nat → List Nat × Bool
  | [] => ([], true)
  | d :: rest =>
      if d = 9 then
        let (rounded, carry) := roundCarry rest
        (0 :: rounded, carry)
      else ((d + 1) :: rest, false)

/-- The digits and exponent `mathRound` leaves, given the first dropped digit. -/
def roundUpAt (digits : List Nat) (next : Nat) (exp : Int) : List Nat × Int :=
  if next ≥ 5 then
    match roundCarry digits.reverse with
    | (rounded, false) => (rounded.reverse, exp)
    | (rounded, true) => (rounded.reverse.set 0 1, exp + 1)
  else (digits, exp)

def mathRound (numPtr : List Nat) (length : Nat) (exp : Int) :
    Outcome (List Nat × Int) :=
  match numPtr[length]? with
  | none => .error .outOfBounds
  | some next => do
      let (digits, exp) := roundUpAt (numPtr.take length) next exp
      checkExponent exp length
      return (digits, exp)

def stripLeadingZeros : List Nat → List Nat
  | 0 :: d :: ds => stripLeadingZeros (d :: ds)
  | ds => ds

/-- `adjustPrecision()`: round the number to its own digits setting. -/
def adjustPrecision (n : NumberString) : Outcome NumberString := do
  let (digits, exp) ←
    if n.length > n.numDigits then
      mathRound n.number n.numDigits (n.exp + (n.length - n.numDigits))
    else pure (n.number, n.exp)
  let n := { n with number := digits, exp := exp }
  if digits = [0] then return n.setZero
  checkExponent exp n.length
  return n

/--
`adjustPrecision(resultPtr, NumberDigits)`: take over `length` digits computed
in a work buffer.  The number is rounded first and stripped of its leading
zeros afterwards.
-/
def adjustPrecisionFrom (s : Settings) (n : NumberString)
    (resultPtr : List Nat) (length numberDigits : Nat) :
    Outcome NumberString := do
  let (digits, exp) ←
    if length > numberDigits then
      mathRound resultPtr numberDigits (n.exp + (length - numberDigits))
    else pure (resultPtr.take length, n.exp)
  let digits := stripLeadingZeros digits
  let n := { n with number := digits, exp := exp }
  let n := n.setNumericSettings numberDigits s.form
  if digits = [0] then return n.setZero
  checkExponent exp digits.length
  return n

def setupNumber (s : Settings) (n : NumberString) : Outcome NumberString :=
  let n := n.setNumericSettings s.digits s.form
  if n.length > n.numDigits then n.adjustPrecision else .ok n

def prepareNumber (s : Settings) (n : NumberString) (numberDigits : Nat)
    (rounding : Bool) : Outcome NumberString := do
  let n ←
    if n.length > numberDigits then do
      let exp := n.exp + (n.length - numberDigits)
      if rounding then
        let (digits, exp) ← mathRound n.number numberDigits exp
        pure { n with number := digits, exp := exp }
      else pure { n with number := n.number.take numberDigits, exp := exp }
    else pure n
  return n.setNumericSettings numberDigits s.form

def checkNumber (s : Settings) (n : NumberString) (digits : Nat)
    (rounding : Bool) : Outcome NumberString :=
  if n.length > digits then n.prepareNumber s digits rounding else .ok n

theorem setupNumber_of_le {s : Settings} {n : NumberString}
    (h : n.length ≤ s.digits) :
    n.setupNumber s = .ok (n.setNumericSettings s.digits s.form) :=
  if_neg (not_lt.mpr h)

end NumberString

end LeooRexx
