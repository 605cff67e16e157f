import LeooRexx.Foundation.RoundedPower
import LeooRexx.Foundation.SquareMultiply
import LeooRexx.NumberString.LongValue
import LeooRexx.NumberString.Multiply
import LeooRexx.NumberString.Quotient

/-!
# Powers

`power` squares and multiplies an accumulator whose products are rounded to a working precision:
the digits setting, one more digit and one for each digit of the exponent.  A negative power is
the reciprocal of the accumulator, by the loops of `Division` with a dividend of one digit.

The exponents are 32-bit integers.  `fit` is what the machine makes of a new exponent, `wrap32`;
with the identity it is the power on unbounded exponents.
-/

namespace LeooRexx

open Positional DecimalRounding SquareMultiply

namespace NumberString

def longBits : Nat := 32

def highBits (number : Nat) : Nat :=
  if number = 0 then 0 else (firstBit longBits longBits number).2

/-- `IntegerOne`. -/
def one (s : Settings) : NumberString := new s 1 0 [1]

def accumLength (numberDigits : Nat) : Nat := 2 * (numberDigits + 1) + 1

def multiplyPower (fit : Int → Int) (left right : NumberString) (numberDigits : Nat) :
    Outcome NumberString := do
  let outLen := accumLength numberDigits
  let (accum, resultPtr, accumPtr) ←
    multiplyLoop left.number right.number.reverse (List.replicate outLen 0) (outLen - 1) 0
  let accumLen := (resultPtr + 1 - accumPtr + right.length).toNat
  let extraDigit := if accumLen > numberDigits then accumLen - numberDigits else 0
  return { left with
    number := (accum.drop accumPtr.toNat).take accumLen
    exp := fit (left.exp + (right.exp + extraDigit))
    sign := left.sign * right.sign }

/-- `adjustNumber`.  The length is cut before the exponent is adjusted by what is cut, which then
is nothing; `MultiplyPower` has already counted it. -/
def adjustNumber (n : NumberString) (numberDigits : Nat) : Outcome NumberString :=
  let numPtr := stripLeadingZeros n.number
  if numPtr.length > numberDigits then do
    let (digits, exp) ← mathRound numPtr numberDigits n.exp
    return { n with number := digits, exp := exp }
  else .ok { n with number := numPtr }

def accumulatePower (fit : Int → Int) (numberDigits : Nat) (accum number : NumberString) :
    Outcome NumberString := do
  (← multiplyPower fit accum number numberDigits).adjustNumber numberDigits

def dividend (accum : NumberString) : NumberString :=
  { accum with sign := 1, exp := 0, number := [1] }

/-- `DividePower`: the loops are those of `Division`, for the digit 1 over the accumulator. -/
def dividePower (fit : Int → Int) (accum : NumberString) (numberDigits : Nat) :
    Outcome NumberString := do
  let start := { divisionStart (dividend accum) accum numberDigits with
    calcExp := fit (-accum.exp - accum.length + 1) }
  let st ← divisionLoop .divide (divChar start.num2 start.rightLength) numberDigits
    (divisionFuel numberDigits) start
  return { accum with number := st.output, exp := st.calcExp }

def powerResult (fit : Int → Int) (s : Settings) (accum : NumberString) :
    Outcome NumberString := do
  let accumPtr := stripLeadingZeros accum.number
  let (digits, exp) ←
    if accumPtr.length > s.digits then
      mathRound accumPtr s.digits (fit (accum.exp + (accumPtr.length - s.digits)))
    else .ok (accumPtr, accum.exp)
  let (digits, exp) := dropTrailingZeros digits.reverse exp
  return new s accum.sign exp digits

def powerDigits (s : Settings) (power : Nat) : Nat :=
  s.digits + ((Nat.digits 10 power).length + 1)

def powerLoop (fit : Int → Int) (left : NumberString) (power numberDigits : Nat) :
    Outcome NumberString :=
  let (bits, numBits) := firstBit longBits longBits power
  bitLoop longBits (fun accum => accumulatePower fit numberDigits accum left)
    (fun accum => accumulatePower fit numberDigits accum accum) numBits (bits - 2 ^ (longBits - 1))
    left

def powerOverflows (left : NumberString) (power : Nat) : Prop :=
  highBits (labs (left.exp + left.length - 1)).toNat + highBits power + 1 > longBits ∨
    wrap32 (labs (left.exp + left.length - 1) * power) > maxNum

instance (left : NumberString) (power : Nat) : Decidable (powerOverflows left power) := by
  unfold powerOverflows
  infer_instance

/-- `power` for an argument, with its text and its value as a `long`. -/
def powerWith (fit : Int → Int) (s : Settings) (this : NumberString) (powerObj : List UInt8)
    (power : Int) : Outcome NumberString := do
  if power = noLong then throw (.raised (.invalidWholeNumberPower powerObj))
  let left ← this.prepareNumber s (s.digits + 1) false
  if left.sign = 0 then
    if power < 0 then throw (.raised .overflowPower)
    if power = 0 then return one s else return zero s
  if powerOverflows left power.natAbs then throw (.raised (.overflowOverflow this powerObj))
  if power = 0 then return one s
  let numberDigits := powerDigits s power.natAbs
  let accum ← powerLoop fit left power.natAbs numberDigits
  let accum ← if power < 0 then dividePower fit accum numberDigits else .ok accum
  powerResult fit s accum

def power (s : Settings) (this : NumberString) (powerObj : List UInt8) (power : Int) :
    Outcome NumberString := powerWith wrap32 s this powerObj power

/-! ## One multiplication -/

def accumulated (left : NumberString) (sign : Int) (d : Decimal) : NumberString :=
  { left with sign := sign, exp := d.exp, number := numeral 10 d.coeff }

def roundProduct (N : Nat) (a b : Decimal) : Outcome Decimal := do
  if 10 ^ N ≤ (a.mul b).coeff then checkExponent ((a.mul b).round N).exp N
  return (a.mul b).round N

def cutExp (N : Nat) (a b : Decimal) : Int :=
  a.exp + (b.exp + ((numeral 10 (a.coeff * b.coeff)).length - N : ℕ))

variable {left right : NumberString} {N : Nat} {a b : Decimal} {fit : Int → Int}

theorem multiplyPower_eq {sa sb : Int} (ha : a.coeff ≠ 0) (hb : b.coeff ≠ 0)
    (hla : a.coeff < 10 ^ N) (hlb : b.coeff < 10 ^ N) (hfit : fit (cutExp N a b) = cutExp N a b) :
    multiplyPower fit (accumulated left sa a) (accumulated right sb b) N =
      .ok (accumulated left (sa * sb) ⟨a.coeff * b.coeff, cutExp N a b⟩) := by
  have hlena := length_numeral_le_of_lt (b := 10) (by norm_num) hla
  have hlenb := length_numeral_le_of_lt (b := 10) (by norm_num) hlb
  obtain ⟨x, xs, hx, hx0⟩ := numeral_eq_cons (b := 10) ha
  obtain ⟨y, ys, hy, hy0⟩ := numeral_eq_cons (b := 10) hb
  obtain ⟨accum, q, hok, hdrop, hlen⟩ := multiplyLoop_numeral (accumLength N)
    (isDigits_numeral (by norm_num) a.coeff) (isDigits_numeral (by norm_num) b.coeff)
    (by rw [hx]; exact hx0) (by rw [hy]; exact hy0) (by unfold accumLength; omega)
  rw [value_numeral, value_numeral] at hdrop hlen
  have hcount : ((accumLength N : Int) - (numeral 10 b.coeff).length - 1 + 1 - q +
      (numeral 10 b.coeff).length).toNat = (numeral 10 (a.coeff * b.coeff)).length := by omega
  have hextra : (if (numeral 10 (a.coeff * b.coeff)).length > N then
      (numeral 10 (a.coeff * b.coeff)).length - N else 0) =
        (numeral 10 (a.coeff * b.coeff)).length - N := by
    split <;> omega
  unfold cutExp at hfit ⊢
  unfold multiplyPower
  simp only [accumulated, length, hok, Outcome.ok_bind, Int.toNat_natCast, hdrop, hcount, hextra,
    List.take_length, hfit]
  rfl

theorem accumulatePower_eq (hN : 1 ≤ N) {sa sb : Int} (ha : a.coeff ≠ 0) (hb : b.coeff ≠ 0)
    (hla : a.coeff < 10 ^ N) (hlb : b.coeff < 10 ^ N) (hfit : fit (cutExp N a b) = cutExp N a b) :
    accumulatePower fit N (accumulated left sa a) (accumulated right sb b) =
      accumulated left (sa * sb) <$> roundProduct N a b := by
  have hc : a.coeff * b.coeff ≠ 0 := Nat.mul_ne_zero ha hb
  have hmul : a.mul b = ⟨a.coeff * b.coeff, a.exp + b.exp⟩ := rfl
  unfold accumulatePower roundProduct
  rw [multiplyPower_eq ha hb hla hlb hfit, Outcome.ok_bind, adjustNumber, hmul]
  simp only [accumulated, stripLeadingZeros_numeral hc]
  have hlen := length_numeral (b := 10) (by norm_num) hc
  by_cases hlong : 10 ^ N ≤ a.coeff * b.coeff
  · have hlog : N ≤ Nat.log 10 (a.coeff * b.coeff) := Nat.le_log_of_pow_le (by norm_num) hlong
    have hexp : cutExp N a b =
        a.exp + b.exp + (((numeral 10 (a.coeff * b.coeff)).length : Int) - N) := by
      unfold cutExp
      omega
    rw [if_pos (by omega), if_pos hlong, hexp, mathRound_numeral hN hlong rfl]
    cases checkExponent ((⟨a.coeff * b.coeff, a.exp + b.exp⟩ : Decimal).round N).exp N <;> rfl
  · have hshort := length_numeral_le_of_lt (b := 10) (by norm_num) (not_le.mp hlong)
    have hexp : cutExp N a b = a.exp + b.exp := by
      unfold cutExp
      omega
    rw [if_neg (not_lt.mpr hshort), if_neg hlong, hexp,
      Decimal.round_of_lt (d := ⟨a.coeff * b.coeff, a.exp + b.exp⟩) (not_le.mp hlong)]
    rfl

end NumberString

end LeooRexx
