import Mathlib
import LeooRexx.NumberString.Precision

/-!
# Long division

`Division` serves the operators `/`, `%` and `//`.  Its two nested loops are
one transition here: a state is what the local variables hold at the head of
the inner loop, and a step is one subtraction or, once the dividend is smaller
than the divisor, the end of one quotient digit.

`num1` holds the cells from `Num1` to the end of the left buffer.  The number
of result digits is the length of `output`.
-/

namespace LeooRexx

open Positional DecimalRounding

namespace NumberString

inductive DivOp where
  | divide
  | intDivide
  | remainder
  deriving DecidableEq, Repr

structure DivState where
  num1 : List Nat
  leftLength : Nat
  num2 : List Nat
  rightLength : Nat
  rightPadding : Nat
  calcExp : Int
  thisDigit : Nat
  output : List Nat
  deriving DecidableEq, Repr

/-! ## SubtractDivisor -/

/-- The cast `(UCHAR)` of an `int`. -/
def uchar (i : Int) : Nat := (i % 256).toNat

def subtractExtra (carry : Int) : List Nat → List Nat → List Nat
  | [], result => result
  | digit :: data1, result =>
      let divChar := carry + digit
      if divChar < 0 then subtractExtra (-1) data1 (uchar (divChar + 10) :: result)
      else data1.reverse ++ uchar divChar :: result

def subtractDivisorLoop (mult : Nat) (carry : Int) :
    List Nat → List Nat → List Nat → Outcome (List Nat)
  | digit :: data1, digit2 :: data2, result =>
      let divChar := carry + digit - digit2 * mult
      if divChar < 0 then
        subtractDivisorLoop mult ((divChar + 100).tdiv 10 - 10) data1 data2
          (uchar ((divChar + 100).tmod 10) :: result)
      else subtractDivisorLoop mult 0 data1 data2 (uchar divChar :: result)
  | [], _ :: _, _ => .error .outOfBounds
  | data1, [], result =>
      if carry = 0 then .ok (data1.reverse ++ result)
      else .ok (subtractExtra carry data1 result)

def subtractDivisor (data1 : List Nat) (length1 : Nat) (data2 : List Nat)
    (length2 mult : Nat) : Outcome (List Nat) := do
  let digits ← subtractDivisorLoop mult 0 (data1.take length1).reverse
    (data2.take length2).reverse []
  return digits ++ data1.drop length1

def skipZeros : List Nat → Nat → List Nat × Nat
  | 0 :: num1, length + 2 => skipZeros num1 (length + 1)
  | num1, length => (num1, length)

/-! ## One digit of the quotient -/

inductive Guess where
  | smaller
  | equal
  | multiplier (multiplier : Nat)
  deriving DecidableEq, Repr

def bestGuess (multiplier divChar : Nat) : Guess :=
  .multiplier (if multiplier * 10 / divChar = 0 then 1 else multiplier * 10 / divChar)

def guess (divOp : DivOp) (divChar : Nat) (st : DivState) : Outcome Guess :=
  if st.leftLength = st.rightLength then
    let rc := memcmp st.num1 st.num2 st.leftLength
    if rc < 0 then .ok .smaller
    else if rc = 0 ∧ divOp ≠ .remainder then .ok .equal
    else do
      return bestGuess (← readAt st.num1 0) divChar
  else if st.leftLength > st.rightLength then do
    return bestGuess ((← readAt st.num1 0) * 10 + (← readAt st.num1 1)) divChar
  else .ok .smaller

inductive Progress where
  | running (st : DivState)
  | done (st : DivState)
  deriving DecidableEq, Repr

def DivState.storeDigit (st : DivState) (digit : Nat) : DivState :=
  { st with output := st.output ++ [digit], thisDigit := 0 }

def DivState.shift (st : DivState) : DivState :=
  if st.rightPadding > 0 then
    { st with
      calcExp := st.calcExp - 1
      rightLength := st.rightLength - 1
      rightPadding := st.rightPadding - 1 }
  else { st with calcExp := st.calcExp - 1, leftLength := st.leftLength + 1 }

def endDigit (divOp : DivOp) (first : Nat) (st : DivState) : Progress :=
  if divOp ≠ .divide ∧ st.calcExp ≤ 0 then .done st
  else if st.leftLength = 1 ∧ first = 0 then .done st
  else .running st.shift

def nextDigit (divOp : DivOp) (numberDigits : Nat) (st : DivState) :
    Outcome Progress := do
  let first ← readAt st.num1 0
  if st.output.length ≠ 0 ∨ st.thisDigit ≠ 0 then
    let st := st.storeDigit st.thisDigit
    if first = 0 ∨ st.output.length > numberDigits then return .done st
    else return endDigit divOp first st
  else return endDigit divOp first st

def DivState.subtract (st : DivState) (multiplier : Nat) : Outcome DivState := do
  let num1 ← subtractDivisor st.num1 st.leftLength st.num2 st.rightLength multiplier
  let (num1, leftLength) := skipZeros num1 st.leftLength
  return { st with
    num1 := num1
    leftLength := leftLength
    thisDigit := st.thisDigit + multiplier }

def divisionStep (divOp : DivOp) (divChar numberDigits : Nat) (st : DivState) :
    Outcome Progress := do
  match ← guess divOp divChar st with
  | .smaller => nextDigit divOp numberDigits st
  | .equal => return .done (st.storeDigit (st.thisDigit + 1))
  | .multiplier multiplier => return .running (← st.subtract multiplier)

def divisionLoop (divOp : DivOp) (divChar numberDigits : Nat) :
    Nat → DivState → Outcome DivState
  | 0, _ => .error .outOfFuel
  | fuel + 1, st => do
      match ← divisionStep divOp divChar numberDigits st with
      | .running st => divisionLoop divOp divChar numberDigits fuel st
      | .done st => return st

/-! ## Division -/

def totalDigits (numberDigits : Nat) : Nat := (numberDigits + 1) * 2 + 1

def workBuffer (n : NumberString) (totalDigits : Nat) : List Nat :=
  n.number ++ List.replicate (totalDigits - n.length) 0

def startExp (left right : NumberString) : Int :=
  left.exp - right.exp + (left.length - right.length)

def divisionStart (left right : NumberString) (numberDigits : Nat) : DivState :=
  { num1 := workBuffer left (totalDigits numberDigits)
    leftLength := max left.length right.length
    num2 := workBuffer right (totalDigits numberDigits)
    rightLength := max left.length right.length
    rightPadding := left.length - right.length
    calcExp := startExp left right
    thisDigit := 0
    output := [] }

def divChar (num2 : List Nat) (rightLength : Nat) : Nat :=
  num2.headD 0 * 10 + (if rightLength > 1 then num2.tail.headD 0 else 0) + 1

def dropTrailingZeros : List Nat → Int → List Nat × Int
  | 0 :: digits, exp => dropTrailingZeros digits (exp + 1)
  | digits, exp => (digits.reverse, exp)

def quotientResult (s : Settings) (sign : Int) (st : DivState) :
    Outcome NumberString := do
  if st.output = [] then return zero s
  let (digits, exp) ←
    if st.output.length > s.digits then
      mathRound st.output s.digits (st.calcExp + (st.output.length - s.digits))
    else pure (st.output, st.calcExp)
  let (digits, exp) := dropTrailingZeros digits.reverse exp
  (new s sign exp []).adjustPrecisionFrom s digits digits.length s.digits

def remainderResult (s : Settings) (this left : NumberString) (st : DivState) :
    Outcome NumberString := do
  if st.output = [] then this.setupNumber s
  else if (← readAt st.num1 0) = 0 then return zero s
  else
    -- how far the end of the remainder is beyond the last digit of the dividend
    let added : Int :=
      totalDigits s.digits - st.num1.length + st.leftLength - left.length
    (new s left.sign (left.exp - added) []).adjustPrecisionFrom s st.num1
      st.leftLength s.digits

def notWhole (numberDigits : Nat) (st : DivState) : Prop :=
  (st.calcExp ≥ 0 ∧ st.output.length + st.calcExp > numberDigits) ∨
    (st.calcExp < 0 ∧ st.calcExp.natAbs > st.output.length)

instance (numberDigits : Nat) (st : DivState) : Decidable (notWhole numberDigits st) :=
  inferInstanceAs (Decidable (_ ∨ _))

/-- Steps enough for every digit and every subtraction, see `divisionLoop_ok`. -/
def divisionFuel (numberDigits : Nat) : Nat := 10 * (numberDigits + 3)

def division (s : Settings) (this other : NumberString) (divOp : DivOp) :
    Outcome NumberString := do
  if other.sign = 0 then throw (.raised .overflowZero)
  if this.sign = 0 then return zero s
  let numberDigits := s.digits
  let left ← this.checkNumber s (numberDigits + 1) false
  let right ← other.checkNumber s (numberDigits + 1) false
  if startExp left right < 0 ∧ divOp ≠ .divide then
    if divOp = .intDivide then return zero s
    else (← left.prepareNumber s (numberDigits + 1) false).setupNumber s
  else
    let start := divisionStart left right numberDigits
    let st ← divisionLoop divOp (divChar start.num2 start.rightLength)
      numberDigits (divisionFuel numberDigits) start
    if divOp ≠ .divide ∧ notWhole numberDigits st then
      if divOp = .remainder then throw (.raised .invalidWholeNumberRem)
      else throw (.raised .invalidWholeNumberIntdiv)
    if divOp = .remainder then remainderResult s this left st
    else quotientResult s (left.sign * right.sign) st

/-! ## What SubtractDivisor computes -/

theorem subtractExtra_spec {borrow : Nat} {data1 result : List Nat}
    (hborrow : borrow < 10) (hdata1 : IsDigits 10 data1) (hres : IsDigits 10 result)
    (hle : borrow ≤ value 10 data1.reverse) :
    IsDigits 10 (subtractExtra (-borrow) data1 result) ∧
      (subtractExtra (-borrow) data1 result).length = data1.length + result.length ∧
      value 10 (subtractExtra (-borrow) data1 result) + borrow * 10 ^ result.length =
        value 10 data1.reverse * 10 ^ result.length + value 10 result := by
  induction data1 generalizing borrow result with
  | nil =>
      have h0 : borrow = 0 := by simpa using hle
      simpa [subtractExtra, h0] using hres
  | cons x data1 ih =>
      obtain ⟨hx, hrest⟩ := isDigits_cons.mp hdata1
      rw [value_reverse_cons] at hle ⊢
      rw [subtractExtra]
      split_ifs with hneg
      · have hout : uchar (-(borrow : Int) + x + 10) = x + 10 - borrow := by
          unfold uchar
          omega
        have hdigit : x + 10 - borrow < 10 := by omega
        have hborrow1 : 1 < 10 := by norm_num
        obtain ⟨hdig, hlen, hval⟩ := ih hborrow1 hrest
          (isDigits_cons.mpr ⟨hdigit, hres⟩) (by omega)
        rw [hout]
        refine ⟨hdig, by simp at hlen ⊢; omega, ?_⟩
        have h := borrow_column (c := 1) (d := x + 10 - borrow) (x := x) (y := borrow)
          (by omega) _ 0 result _ hval
        simpa using h
      · have hout : uchar (-(borrow : Int) + x) = x - borrow := by
          unfold uchar
          omega
        rw [hout]
        refine ⟨?_, by simp; omega, ?_⟩
        · rw [isDigits_append, isDigits_reverse, isDigits_cons]
          exact ⟨hrest, by omega, hres⟩
        · have h := borrow_column (b := 10) (c := 0) (d := x - borrow) (x := x)
            (y := borrow) (by omega) (value 10 data1.reverse) 0 result
            (value 10 (data1.reverse ++ (x - borrow) :: result))
            (by rw [value_append]; ring)
          simpa using h

theorem subtractDivisorLoop_spec {mult borrow : Nat} {data1 data2 result : List Nat}
    (hmult : mult < 10) (hborrow : borrow < 10) (hdata1 : IsDigits 10 data1)
    (hdata2 : IsDigits 10 data2) (hres : IsDigits 10 result)
    (hlen : data2.length ≤ data1.length)
    (hle : borrow + mult * value 10 data2.reverse ≤ value 10 data1.reverse) :
    ∃ digits,
      subtractDivisorLoop mult (-borrow) data1 data2 result = .ok digits ∧
        IsDigits 10 digits ∧ digits.length = data1.length + result.length ∧
        value 10 digits +
            (borrow + mult * value 10 data2.reverse) * 10 ^ result.length =
          value 10 data1.reverse * 10 ^ result.length + value 10 result := by
  induction data2 generalizing data1 borrow result with
  | nil =>
      simp only [List.reverse_nil, value_nil, mul_zero, add_zero] at hle ⊢
      cases borrow with
      | zero =>
          refine ⟨data1.reverse ++ result, by cases data1 <;> simp [subtractDivisorLoop],
            ?_, by simp, by simp [value_append]⟩
          exact isDigits_append.mpr ⟨isDigits_reverse.mpr hdata1, hres⟩
      | succ borrow =>
          refine ⟨subtractExtra (-(borrow + 1 : ℕ)) data1 result, ?_,
            subtractExtra_spec hborrow hdata1 hres hle⟩
          have h0 : (-((borrow + 1 : ℕ) : Int)) ≠ 0 := by omega
          cases data1 <;> simp only [subtractDivisorLoop, h0, if_false]
  | cons y data2 ih =>
      cases data1 with
      | nil => simp at hlen
      | cons x data1 =>
          obtain ⟨hx, hrest1⟩ := isDigits_cons.mp hdata1
          obtain ⟨hy, hrest2⟩ := isDigits_cons.mp hdata2
          simp only [List.length_cons, value_reverse_cons, mul_add] at hlen hle ⊢
          have hprod : y * mult ≤ 9 * 9 := Nat.mul_le_mul (by omega) (by omega)
          rw [mul_comm mult y, mul_left_comm mult 10] at hle ⊢
          rw [subtractDivisorLoop]
          have key : ∀ d c : Nat, d < 10 → c < 10 →
              d + (borrow + y * mult) = x + c * 10 →
              ∃ digits, subtractDivisorLoop mult (-(c : Int)) data1 data2
                  (d :: result) = .ok digits ∧
                IsDigits 10 digits ∧
                digits.length = data1.length + 1 + result.length ∧
                value 10 digits + (borrow + (y * mult +
                    10 * (mult * value 10 data2.reverse))) * 10 ^ result.length =
                  (x + 10 * value 10 data1.reverse) * 10 ^ result.length +
                    value 10 result := by
            intro d c hd hc hcol
            obtain ⟨digits, hok, hdig, hdlen, hval⟩ :=
              ih hc hrest1 hrest2
                (isDigits_cons.mpr ⟨hd, hres⟩) (by omega) (by omega)
            refine ⟨digits, hok, hdig, by rw [hdlen, List.length_cons]; omega, ?_⟩
            rw [← add_assoc borrow]
            exact borrow_column hcol _ _ _ _ hval
          have hmulcast : ((y : Int) * mult) = ((y * mult : ℕ) : Int) := by push_cast; rfl
          rw [hmulcast]
          generalize y * mult = p at *
          split_ifs with hneg
          · obtain ⟨t, ht⟩ : ∃ t : Nat, (t : Int) = -(borrow : Int) + x - p + 100 :=
              ⟨x + 100 - borrow - p, by omega⟩
            have hdiv : (-(borrow : Int) + x - p + 100).tdiv 10 - 10 =
                -((10 - t / 10 : ℕ) : Int) := by
              rw [← ht, Int.tdiv_eq_ediv_of_nonneg (by omega)]
              omega
            have hmod : uchar ((-(borrow : Int) + x - p + 100).tmod 10) = t % 10 := by
              rw [← ht, Int.tmod_eq_emod_of_nonneg (by omega), uchar]
              omega
            rw [hdiv, hmod]
            exact key _ _ (by omega) (by omega) (by omega)
          · have hout : uchar (-(borrow : Int) + x - p) = x - borrow - p := by
              unfold uchar
              omega
            rw [hout]
            exact key _ 0 (by omega) (by norm_num) (by omega)

theorem subtractDivisor_spec {num1 num2 : List Nat} {length1 length2 mult : Nat}
    (hmult : mult < 10) (hnum1 : IsDigits 10 num1) (hnum2 : IsDigits 10 num2)
    (hlen1 : length1 ≤ num1.length) (hlen : length2 ≤ length1)
    (hle : mult * value 10 (num2.take length2) ≤ value 10 (num1.take length1)) :
    ∃ num1', subtractDivisor num1 length1 num2 length2 mult = .ok num1' ∧
      IsDigits 10 num1' ∧ num1'.length = num1.length ∧
      num1'.drop length1 = num1.drop length1 ∧
      value 10 (num1'.take length1) + mult * value 10 (num2.take length2) =
        value 10 (num1.take length1) := by
  obtain ⟨digits, hok, hdig, hdlen, hval⟩ := subtractDivisorLoop_spec hmult
    (Nat.succ_pos 9) (isDigits_reverse.mpr (hnum1.take length1))
    (isDigits_reverse.mpr (hnum2.take length2)) isDigits_nil (by simp; omega)
    (by simpa using hle)
  have hdlen' : digits.length = length1 := by simp at hdlen; omega
  refine ⟨digits ++ num1.drop length1, ?_, ?_, ?_, ?_, ?_⟩
  · simp only [subtractDivisor]
    rw [show (0 : Int) = -((0 : ℕ) : Int) by norm_num, hok]
    rfl
  · exact isDigits_append.mpr ⟨hdig, hnum1.drop _⟩
  · simp [hdlen']; omega
  · rw [← hdlen']; simp
  · rw [← hdlen', List.take_left', hdlen']
    · simpa using hval
    · rfl

theorem skipZeros_spec {num1 : List Nat} {length : Nat} (hnum1 : IsDigits 10 num1)
    (hpos : 1 ≤ length) (hlen : length ≤ num1.length) :
    ∃ num1' length', skipZeros num1 length = (num1', length') ∧
      IsDigits 10 num1' ∧ 1 ≤ length' ∧ length' ≤ length ∧
      num1'.length + length = num1.length + length' ∧
      num1'.drop length' = num1.drop length ∧
      value 10 (num1'.take length') = value 10 (num1.take length) ∧
      (length' = 1 ∨ 0 < num1'.headD 0) := by
  fun_induction skipZeros num1 length with
  | case1 num1 length ih =>
      simp only [isDigits_cons, List.length_cons] at hnum1 hlen
      obtain ⟨num1', length', hok, hdig, hpos', hle, hsum, hdrop, hval, hlead⟩ :=
        ih hnum1.2 (by omega) (by omega)
      refine ⟨num1', length', hok, hdig, hpos', by omega, ?_, ?_, ?_, hlead⟩
      · simp only [List.length_cons]; omega
      · simpa using hdrop
      · simpa using hval
  | case2 num1 length hstop =>
      refine ⟨num1, length, rfl, hnum1, hpos, le_rfl, rfl, rfl, rfl, ?_⟩
      by_cases hone : length = 1
      · exact .inl hone
      · obtain ⟨length, rfl⟩ : ∃ k, length = k + 2 := ⟨length - 2, by omega⟩
        cases num1 with
        | nil => simp at hlen
        | cons d ds =>
            refine .inr (Nat.pos_of_ne_zero ?_)
            rintro rfl
            exact hstop ds length rfl rfl

theorem readAt_zero {buffer : List Nat} (h : 0 < buffer.length) :
    readAt buffer 0 = .ok (buffer.headD 0) := by
  cases buffer with
  | nil => simp at h
  | cons digit rest => rfl

theorem readAt_one {buffer : List Nat} (h : 1 < buffer.length) :
    readAt buffer 1 = .ok (buffer.tail.headD 0) := by
  match buffer with
  | [] => simp at h
  | [_] => simp at h
  | _ :: _ :: _ => rfl

/-! ## The best guess -/

theorem head_bounds {ds : List Nat} {k : Nat} (h : IsDigits 10 ds) (hk : 1 ≤ k)
    (hlen : k ≤ ds.length) :
    ds.headD 0 * 10 ^ (k - 1) ≤ value 10 (ds.take k) ∧
      value 10 (ds.take k) < (ds.headD 0 + 1) * 10 ^ (k - 1) := by
  match ds, k, hk, hlen with
  | [], k + 1, _, hlen => simp at hlen
  | d :: ds, k + 1, _, hlen =>
      have htail := value_lt (b := 10) (by norm_num) ((isDigits_cons.mp h).2.take k)
      have hk : (ds.take k).length = k := by simpa using hlen
      rw [hk] at htail
      simp only [List.take_succ_cons, value_cons, hk, List.headD_cons,
        Nat.add_sub_cancel, add_mul, one_mul]
      omega

theorem head_two_bounds {ds : List Nat} {k : Nat} (h : IsDigits 10 ds) (hk : 2 ≤ k)
    (hlen : k ≤ ds.length) :
    (ds.headD 0 * 10 + ds.tail.headD 0) * 10 ^ (k - 2) ≤ value 10 (ds.take k) ∧
      value 10 (ds.take k) <
        (ds.headD 0 * 10 + ds.tail.headD 0 + 1) * 10 ^ (k - 2) := by
  match ds, k, hk, hlen with
  | [], k + 1, _, hlen => simp at hlen
  | d :: ds, k + 1, hk, hlen =>
      have hk' : (ds.take k).length = k := by simpa using hlen
      obtain ⟨hlo, hhi⟩ := head_bounds (isDigits_cons.mp h).2
        (Nat.le_of_succ_le_succ hk) (by simpa using hlen)
      obtain ⟨j, rfl⟩ : ∃ j, k = j + 1 := ⟨k - 1, by omega⟩
      simp only [List.take_succ_cons, value_cons, hk', List.headD_cons, List.tail_cons,
        Nat.add_sub_cancel, add_mul, one_mul, mul_assoc] at hlo hhi ⊢
      rw [pow_succ', show j + 1 + 1 - 2 = j by omega]
      omega

theorem divChar_bound {num2 : List Nat} {rightLength maxLength : Nat}
    (h : IsDigits 10 num2) (hpos : 1 ≤ rightLength) (hle : rightLength ≤ maxLength)
    (hlen : rightLength ≤ num2.length) :
    10 * value 10 (num2.take rightLength) ≤
      divChar num2 maxLength * 10 ^ (rightLength - 1) := by
  unfold divChar
  cases hpos.eq_or_lt with
  | inl h1 =>
      obtain ⟨-, hhi⟩ := head_bounds h hpos hlen
      rw [← h1] at hhi ⊢
      simp only [Nat.sub_self, pow_zero, mul_one] at hhi ⊢
      omega
  | inr h2 =>
      obtain ⟨-, hhi⟩ := head_two_bounds h h2 hlen
      obtain ⟨j, rfl⟩ : ∃ j, rightLength = j + 2 := ⟨rightLength - 2, by omega⟩
      rw [if_pos (by omega), show j + 2 - 1 = j + 1 by omega, pow_succ, ← mul_assoc]
      simp only [Nat.add_sub_cancel] at hhi
      omega

theorem guess_le {leading divChar divisor remainder w : Nat}
    (hdivisor : 10 * divisor ≤ divChar * w) (hleading : leading * w ≤ remainder) :
    leading * 10 / divChar * divisor ≤ remainder := by
  have hq := Nat.div_mul_le_self (leading * 10) divChar
  have h1 := Nat.mul_le_mul_left (leading * 10 / divChar) hdivisor
  have h2 := Nat.mul_le_mul_right w hq
  generalize leading * 10 / divChar = q at *
  have h3 : q * (10 * divisor) ≤ leading * 10 * w := by
    calc q * (10 * divisor) ≤ q * (divChar * w) := h1
      _ = q * divChar * w := (mul_assoc _ _ _).symm
      _ ≤ leading * 10 * w := h2
  have h4 : leading * 10 * w = 10 * (leading * w) := by ring
  have h5 : q * (10 * divisor) = 10 * (q * divisor) := by ring
  omega

end NumberString

end LeooRexx
