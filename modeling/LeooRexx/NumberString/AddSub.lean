import LeooRexx.NumberString.Basic

/-!
# Addition and subtraction

`addSub` aligns the two operands by their exponents and runs from the last
digits to the first, writing the result backwards into a work buffer.  The
digits at and before a pointer are held as a list with the pointer's own digit
first, so moving the pointer to the left is taking the tail; the part of the
result written so far is a list whose head is the digit written last.
-/

namespace LeooRexx

open Positional DecimalRounding

inductive Operation where
  | plus
  | minus
  deriving DecidableEq, Repr

def Operation.exact (operation : Operation) (x y : ℚ) : ℚ :=
  match operation with
  | .plus => x + y
  | .minus => x - y

namespace NumberString

/-! ## The digit loops -/

def moveDigits : Nat → List Nat → List Nat → List Nat × List Nat
  | 0, ptr, result => (ptr, result)
  | count + 1, [], result => moveDigits count [] (0 :: result)
  | count + 1, digit :: ptr, result => moveDigits count ptr (digit :: result)

/--
The three addition loops: both numbers, the rest of the left one, the rest of
the right one.  A last carry becomes the leading digit.
-/
def addDigits (carry : Nat) : List Nat → List Nat → List Nat → List Nat
  | l :: left, r :: right, result =>
      if carry + l + r ≥ 10 then addDigits 1 left right ((carry + l + r - 10) :: result)
      else addDigits 0 left right ((carry + l + r) :: result)
  | l :: left, [], result =>
      if carry + l ≥ 10 then addDigits 1 left [] ((carry + l - 10) :: result)
      else addDigits 0 left [] ((carry + l) :: result)
  | [], r :: right, result =>
      if carry + r ≥ 10 then addDigits 1 [] right ((carry + r - 10) :: result)
      else addDigits 0 [] right ((carry + r) :: result)
  | [], [], result => if carry = 0 then result else 1 :: result

/--
The first loop of `Subtract_Numbers`: the larger number is extended by zeros.
The source's `borrow` of -1 is 1 here.
-/
def subtractFromZeros :
    Nat → List Nat → Nat → List Nat → List Nat × Nat × List Nat
  | 0, smallerPtr, borrow, result => (smallerPtr, borrow, result)
  | count + 1, smallerPtr, borrow, result =>
      let subDigit := 10 - borrow - smallerPtr.headD 0
      if subDigit = 10 then
        subtractFromZeros count smallerPtr.tail 0 (0 :: result)
      else
        subtractFromZeros count smallerPtr.tail 1 (subDigit :: result)

/--
The last two loops of `Subtract_Numbers`.  The larger number is read without a
test while the smaller one has digits left.
-/
def subtractDigits (borrow : Nat) :
    List Nat → List Nat → List Nat → Outcome (List Nat)
  | x :: largerPtr, y :: smallerPtr, result =>
      if x < y + borrow then
        subtractDigits 1 largerPtr smallerPtr ((x + 10 - y - borrow) :: result)
      else subtractDigits 0 largerPtr smallerPtr ((x - y - borrow) :: result)
  | [], _ :: _, _ => .error .outOfBounds
  | x :: largerPtr, [], result =>
      if x < borrow then subtractDigits 1 largerPtr [] ((x + 10 - borrow) :: result)
      else subtractDigits 0 largerPtr [] ((x - borrow) :: result)
  | [], [], result => .ok result

def subtractNumbers (largerPtr : List Nat) (aLargerExp : Nat)
    (smallerPtr : List Nat) (aSmallerExp : Nat) : Outcome (List Nat) :=
  let (smallerPtr, borrow, result) :=
    subtractFromZeros aLargerExp smallerPtr 0 []
  let (largerPtr, result) := moveDigits aSmallerExp largerPtr result
  subtractDigits borrow largerPtr smallerPtr result

/-! ## Alignment -/

/--
The working copy of one operand: its exponent and length after the operand was
cut to the precision, the adjusted exponent (the zeros it is extended by), and
how many of its digits stand at or before the digit pointer.
-/
structure Operand where
  exp : Int
  length : Int
  aExp : Int
  ptr : Int
  deriving DecidableEq, Repr

def Operand.ofNumber (n : NumberString) (maxLength : Nat) : Operand :=
  if n.length > maxLength then
    ⟨n.exp + (n.length - maxLength), maxLength, 0, maxLength⟩
  else ⟨n.exp, n.length, 0, n.length⟩

def Operand.align (minExp : Int) (o : Operand) : Operand :=
  { o with aExp := o.exp - minExp }

def Operand.digits (o : Operand) (n : NumberString) : List Nat :=
  (n.number.take o.ptr.toNat).reverse

/--
Cut the operands so that both fit in `maxLength` aligned positions: first the
digits that the other operand does not reach, then digits of both.
-/
def adjustOperands (left right : Operand) (maxLength : Nat) :
    Operand × Operand :=
  let lAdjustDigits := left.length + left.aExp - maxLength
  let rAdjustDigits := right.length + right.aExp - maxLength
  if lAdjustDigits > 0 ∨ rAdjustDigits > 0 then
    let adjustDigits :=
      if lAdjustDigits ≥ rAdjustDigits then lAdjustDigits else rAdjustDigits
    let (left, right, adjustDigits) :=
      if left.aExp ≠ 0 then trim left right adjustDigits
      else if right.aExp ≠ 0 then
        let (right, left, adjustDigits) := trim right left adjustDigits
        (left, right, adjustDigits)
      else (left, right, adjustDigits)
    if adjustDigits ≠ 0 then
      ({ left with exp := left.exp + adjustDigits, ptr := left.ptr - adjustDigits },
        { right with
          exp := right.exp + adjustDigits
          ptr := right.ptr - adjustDigits })
    else (left, right)
  else (left, right)
where
  /-- Shorten `low`, the operand with the smaller exponent. -/
  trim (high low : Operand) (adjustDigits : Int) : Operand × Operand × Int :=
    if adjustDigits < high.aExp then
      ({ high with aExp := high.aExp - adjustDigits },
        { low with
          ptr := low.ptr - adjustDigits
          exp := low.exp + adjustDigits
          length := low.length - adjustDigits },
        0)
    else
      ({ high with aExp := 0 },
        { low with
          ptr := low.ptr - high.aExp
          exp := low.exp + high.aExp
          length := low.length - adjustDigits },
        adjustDigits - high.aExp)

/-! ## addSub -/

def dominant (left right : NumberString) (l r : Operand) (numberDigits : Nat) :
    Option Bool :=
  if left.sign = 0 then some true
  else if right.sign = 0 then some false
  else if l.aExp + l.length > r.length + numberDigits then some false
  else if r.aExp + r.length > l.length + numberDigits then some true
  else none

def addOperands (left right : NumberString) (l r : Operand) : List Nat × Int :=
  if l.aExp ≠ 0 then
    let (rightPtr, result) := moveDigits l.aExp.toNat (r.digits right) []
    (addDigits 0 (l.digits left) rightPtr result, r.exp)
  else if r.aExp ≠ 0 then
    let (leftPtr, result) := moveDigits r.aExp.toNat (l.digits left) []
    (addDigits 0 leftPtr (r.digits right) result, l.exp)
  else (addDigits 0 (l.digits left) (r.digits right) [], l.exp)

/--
The subtraction branch: digits, exponent and sign of the difference.  The
larger operand is found by its aligned length, then by its digits.
-/
def subtractOperands (left right : NumberString) (l r : Operand)
    (rightSign : Int) : Outcome (List Nat × Int × Int) :=
  let leftMinusRight :=
    subtractNumbers (l.digits left) l.aExp.toNat (r.digits right) r.aExp.toNat
  let rightMinusLeft :=
    subtractNumbers (r.digits right) r.aExp.toNat (l.digits left) l.aExp.toNat
  if l.aExp + l.length > r.aExp + r.length then do
    return (← leftMinusRight, if l.aExp ≠ 0 then r.exp else l.exp, left.sign)
  else if l.aExp + l.length < r.aExp + r.length then do
    return (← rightMinusLeft, if l.aExp ≠ 0 then r.exp else l.exp, rightSign)
  else if r.length < l.length then
    if memcmp right.number left.number r.length.toNat > 0 then do
      return (← rightMinusLeft, l.exp, rightSign)
    else do
      return (← leftMinusRight, l.exp, left.sign)
  else
    let rc := memcmp left.number right.number l.length.toNat
    if rc > 0 then do
      return (← leftMinusRight, r.exp, left.sign)
    else if rc ≠ 0 then do
      return (← rightMinusLeft, r.exp, rightSign)
    else if l.length < r.length then do
      return (← rightMinusLeft, r.exp, rightSign)
    else
      -- no digit is written: the pointer passed on leaves the work buffer
      .error .outOfBounds

def addSub (s : Settings) (this other : NumberString) (operation : Operation)
    (numberDigits : Nat) : Outcome NumberString :=
  let maxLength := numberDigits + 1
  let l := Operand.ofNumber this maxLength
  let r := Operand.ofNumber other maxLength
  let minExp := if l.exp ≤ r.exp then l.exp else r.exp
  let l := l.align minExp
  let r := r.align minExp
  match dominant this other l r numberDigits with
  | some isRight =>
      let result := if isRight then other else this
      let result :=
        if isRight ∧ operation = .minus then { result with sign := -result.sign }
        else result
      result.setupNumber s
  | none =>
      let rightSign := if operation = .minus then -other.sign else other.sign
      if rightSign ≠ this.sign then
        if l.length = r.length ∧ l.exp = r.exp ∧
            memcmp this.number other.number l.length.toNat = 0 then
          .ok (zero s)
        else do
          let (l, r) := adjustOperands l r maxLength
          let (digits, exp, sign) ← subtractOperands this other l r rightSign
          (new s sign exp []).adjustPrecisionFrom s digits digits.length numberDigits
      else
        let (l, r) := adjustOperands l r maxLength
        let (digits, exp) := addOperands this other l r
        (new s this.sign exp []).adjustPrecisionFrom s digits digits.length numberDigits

/-! ## The addition loops -/

private theorem column_value {c d t : Nat} (h : c * 10 + d = t) (v : Nat)
    (result : List Nat) :
    (c + v) * 10 ^ (d :: result).length + value 10 (d :: result) =
      (t + 10 * v) * 10 ^ result.length + value 10 result := by
  rw [value_cons, List.length_cons, pow_succ, ← h]
  ring

theorem addDigits_spec {carry : Nat} {left right result : List Nat}
    (hc : carry ≤ 1) (hl : IsDigits 10 left) (hr : IsDigits 10 right)
    (hres : IsDigits 10 result) :
    IsDigits 10 (addDigits carry left right result) ∧
      value 10 (addDigits carry left right result) =
        (carry + (value 10 left.reverse + value 10 right.reverse)) *
          10 ^ result.length + value 10 result := by
  fun_induction addDigits carry left right result with
  | case1 carry l left r right result hge ih =>
      simp only [isDigits_cons] at hl hr
      obtain ⟨hdig, hval⟩ :=
        ih le_rfl hl.2 hr.2 (isDigits_cons.mpr ⟨by omega, hres⟩)
      refine ⟨hdig, ?_⟩
      rw [hval, column_value (t := carry + l + r) (by omega)]
      simp only [value_reverse_cons]
      ring
  | case2 carry l left r right result hlt ih =>
      simp only [isDigits_cons] at hl hr
      obtain ⟨hdig, hval⟩ :=
        ih (by omega) hl.2 hr.2 (isDigits_cons.mpr ⟨by omega, hres⟩)
      refine ⟨hdig, ?_⟩
      rw [hval, column_value (t := carry + l + r) (by omega)]
      simp only [value_reverse_cons]
      ring
  | case3 carry l left result hge ih =>
      simp only [isDigits_cons] at hl
      obtain ⟨hdig, hval⟩ :=
        ih le_rfl hl.2 hr (isDigits_cons.mpr ⟨by omega, hres⟩)
      refine ⟨hdig, ?_⟩
      rw [hval, column_value (t := carry + l) (by omega)]
      simp only [value_reverse_cons, List.reverse_nil, value_nil]
      ring
  | case4 carry l left result hlt ih =>
      simp only [isDigits_cons] at hl
      obtain ⟨hdig, hval⟩ :=
        ih (by omega) hl.2 hr (isDigits_cons.mpr ⟨by omega, hres⟩)
      refine ⟨hdig, ?_⟩
      rw [hval, column_value (t := carry + l) (by omega)]
      simp only [value_reverse_cons, List.reverse_nil, value_nil]
      ring
  | case5 carry r right result hge ih =>
      simp only [isDigits_cons] at hr
      obtain ⟨hdig, hval⟩ :=
        ih le_rfl hl hr.2 (isDigits_cons.mpr ⟨by omega, hres⟩)
      refine ⟨hdig, ?_⟩
      rw [hval, column_value (t := carry + r) (by omega)]
      simp only [value_reverse_cons, List.reverse_nil, value_nil]
      ring
  | case6 carry r right result hlt ih =>
      simp only [isDigits_cons] at hr
      obtain ⟨hdig, hval⟩ :=
        ih (by omega) hl hr.2 (isDigits_cons.mpr ⟨by omega, hres⟩)
      refine ⟨hdig, ?_⟩
      rw [hval, column_value (t := carry + r) (by omega)]
      simp only [value_reverse_cons, List.reverse_nil, value_nil]
      ring
  | case7 result => exact ⟨hres, by simp⟩
  | case8 carry result hne =>
      have h1 : carry = 1 := by omega
      refine ⟨isDigits_cons.mpr ⟨by norm_num, hres⟩, ?_⟩
      simp [h1, value_cons]

theorem addDigits_length (carry : Nat) (left right result : List Nat) :
    (addDigits carry left right result).length =
        max left.length right.length + result.length ∨
      ∃ rest, addDigits carry left right result = 1 :: rest ∧
        rest.length = max left.length right.length + result.length := by
  fun_induction addDigits carry left right result with
  | case7 result => exact .inl (by simp)
  | case8 carry result hne => exact .inr ⟨result, rfl, by simp⟩
  | _ =>
      rename_i ih
      simp only [List.length_cons, List.length_nil] at ih ⊢
      rcases ih with h | ⟨rest, h, hlen⟩
      · exact .inl (by omega)
      · exact .inr ⟨rest, h, by omega⟩

theorem addDigits_zeros_left (count : Nat) (left right result : List Nat)
    (hr : IsDigits 10 right) :
    addDigits 0 (List.replicate count 0 ++ left) right result =
      addDigits 0 left (moveDigits count right result).1
        (moveDigits count right result).2 := by
  induction count generalizing right result with
  | zero => rfl
  | succ count ih =>
      cases right with
      | nil => simpa [List.replicate_succ, addDigits, moveDigits] using ih [] _ hr
      | cons r right =>
          have hr10 := (isDigits_cons.mp hr).1
          simp only [List.replicate_succ, List.cons_append, addDigits, moveDigits,
            Nat.zero_add, if_neg (not_le.mpr hr10)]
          exact ih right _ (isDigits_cons.mp hr).2

theorem addDigits_comm (carry : Nat) (left right result : List Nat) :
    addDigits carry left right result = addDigits carry right left result := by
  fun_induction addDigits carry left right result with
  | case1 => simp_all [addDigits, Nat.add_right_comm]
  | case2 => simp_all [addDigits, Nat.add_right_comm]
  | case3 => simp_all [addDigits]
  | case4 => simp_all [addDigits]
  | case5 => simp_all [addDigits]
  | case6 => simp_all [addDigits]
  | case7 => simp [addDigits]
  | case8 => simp_all [addDigits]

/-! ## The subtraction loops -/

theorem subtractDigits_spec {borrow : Nat} {larger smaller result : List Nat}
    (hb : borrow ≤ 1) (hl : IsDigits 10 larger) (hs : IsDigits 10 smaller)
    (hres : IsDigits 10 result) (hlen : smaller.length ≤ larger.length)
    (hle : borrow + value 10 smaller.reverse ≤ value 10 larger.reverse) :
    ∃ digits, subtractDigits borrow larger smaller result = .ok digits ∧
      IsDigits 10 digits ∧ digits.length = larger.length + result.length ∧
      value 10 digits +
          (borrow + value 10 smaller.reverse) * 10 ^ result.length =
        value 10 larger.reverse * 10 ^ result.length + value 10 result := by
  fun_induction subtractDigits borrow larger smaller result with
  | case1 borrow x larger y smaller result hlt ih =>
      simp only [isDigits_cons, List.length_cons, value_reverse_cons] at *
      obtain ⟨digits, hok, hdig, hdlen, hval⟩ :=
        ih le_rfl hl.2 hs.2 ⟨by omega, hres⟩ (by omega) (by omega)
      refine ⟨digits, hok, hdig, by omega, ?_⟩
      rw [← add_assoc]
      exact borrow_column (by omega) _ _ _ _ hval
  | case2 borrow x larger y smaller result hge ih =>
      simp only [isDigits_cons, List.length_cons, value_reverse_cons] at *
      obtain ⟨digits, hok, hdig, hdlen, hval⟩ :=
        ih (by omega) hl.2 hs.2 ⟨by omega, hres⟩ (by omega) (by omega)
      refine ⟨digits, hok, hdig, by omega, ?_⟩
      rw [← add_assoc]
      exact borrow_column (by omega) _ _ _ _ hval
  | case3 => simp at hlen
  | case4 borrow x larger result hlt ih =>
      simp only [isDigits_cons, value_reverse_cons, List.reverse_nil, value_nil,
        add_zero] at *
      obtain ⟨digits, hok, hdig, hdlen, hval⟩ :=
        ih le_rfl hl.2 hs ⟨by omega, hres⟩ (by simp) (by omega)
      refine ⟨digits, hok, hdig, by simp [hdlen]; omega, ?_⟩
      exact borrow_column (w := 0) (y := borrow) (by omega) _ _ _ hval
  | case5 borrow x larger result hge ih =>
      simp only [isDigits_cons, value_reverse_cons, List.reverse_nil, value_nil,
        add_zero] at *
      obtain ⟨digits, hok, hdig, hdlen, hval⟩ :=
        ih (by omega) hl.2 hs ⟨by omega, hres⟩ (by simp) (by omega)
      refine ⟨digits, hok, hdig, by simp [hdlen]; omega, ?_⟩
      exact borrow_column (w := 0) (y := borrow) (by omega) _ _ _ hval
  | case6 borrow result =>
      have h0 : borrow = 0 := by simpa using hle
      exact ⟨result, rfl, hres, by simp, by simp [h0]⟩

private theorem subtractDigits_zero_cons (borrow : Nat)
    (larger smaller result : List Nat) :
    subtractDigits borrow (0 :: larger) smaller result =
      if 10 - borrow - smaller.headD 0 = 10 then
        subtractDigits 0 larger smaller.tail (0 :: result)
      else
        subtractDigits 1 larger smaller.tail
          ((10 - borrow - smaller.headD 0) :: result) := by
  cases smaller with
  | nil =>
      rw [subtractDigits, List.headD_nil, List.tail_nil]
      by_cases h : 0 < borrow
      · rw [if_pos h, if_neg (by omega), Nat.zero_add, Nat.sub_zero]
      · rw [if_neg h, if_pos (by omega), Nat.zero_sub]
  | cons y smaller =>
      rw [subtractDigits, List.headD_cons, List.tail_cons]
      by_cases h : 0 < y + borrow
      · rw [if_pos h, if_neg (by omega),
          show 0 + 10 - y - borrow = 10 - borrow - y by omega]
      · rw [if_neg h, if_pos (by omega), show 0 - y - borrow = 0 by omega]

theorem subtractDigits_zeros_larger (count borrow : Nat)
    (larger smaller result : List Nat) :
    subtractDigits borrow (List.replicate count 0 ++ larger) smaller result =
      subtractDigits (subtractFromZeros count smaller borrow result).2.1 larger
        (subtractFromZeros count smaller borrow result).1
        (subtractFromZeros count smaller borrow result).2.2 := by
  induction count generalizing smaller borrow result with
  | zero => rfl
  | succ count ih =>
      rw [List.replicate_succ, List.cons_append, subtractDigits_zero_cons,
        subtractFromZeros]
      split_ifs
      · exact ih 0 _ _
      · exact ih 1 _ _

theorem subtractDigits_zeros_smaller (count : Nat)
    (larger smaller result : List Nat) (h : count ≤ larger.length) :
    subtractDigits 0 larger (List.replicate count 0 ++ smaller) result =
      subtractDigits 0 (moveDigits count larger result).1 smaller
        (moveDigits count larger result).2 := by
  induction count generalizing larger result with
  | zero => rfl
  | succ count ih =>
      cases larger with
      | nil => simp at h
      | cons x larger =>
          simpa [List.replicate_succ, subtractDigits, moveDigits] using
            ih larger (x :: result) (by simpa using h)

theorem subtractNumbers_eq {larger smaller : List Nat} {aLarger aSmaller : Nat}
    (h : aLarger = 0 ∨ aSmaller = 0) (hlen : aSmaller ≤ larger.length) :
    subtractNumbers larger aLarger smaller aSmaller =
      subtractDigits 0 (List.replicate aLarger 0 ++ larger)
        (List.replicate aSmaller 0 ++ smaller) [] := by
  rcases h with rfl | rfl
  · simpa [subtractNumbers, subtractFromZeros] using
      (subtractDigits_zeros_smaller aSmaller larger smaller [] hlen).symm
  · simpa [subtractNumbers, moveDigits] using
      (subtractDigits_zeros_larger aLarger 0 larger smaller []).symm

end NumberString

end LeooRexx
