import LeooRexx.NumberString.AddSub
import LeooRexx.NumberString.Precision

/-!
# The rounded sum and difference

Operands that lie in the window of `numberDigits + 1` positions are never cut,
so `addSub` works on their coefficients over the smaller exponent.  The sum is
rounded from its leading digit.  The difference keeps the zeros that cancel,
and `addSub_rounds_iff` says when rounding loses a digit because of them.
-/

namespace LeooRexx

open Positional DecimalRounding

namespace NumberString

/-! ## Aligned operands -/

/-- The coefficient of `n` over the common exponent `m`. -/
def aligned (m : Int) (n : NumberString) : Nat :=
  value 10 n.number * 10 ^ (n.exp - m).toNat

def alignedDigits (m : Int) (n : NumberString) : List Nat :=
  List.replicate (n.exp - m).toNat 0 ++ n.number.reverse

def Operand.at (m : Int) (n : NumberString) : Operand :=
  ⟨n.exp, n.length, n.exp - m, n.length⟩

theorem Operand.ofNumber_align {n : NumberString} {maxLength : Nat} (m : Int)
    (h : n.length ≤ maxLength) :
    (Operand.ofNumber n maxLength).align m = Operand.at m n := by
  simp [Operand.ofNumber, Operand.align, Operand.at, not_lt.mpr h]

@[simp] theorem Operand.at_exp (m : Int) (n : NumberString) :
    (Operand.at m n).exp = n.exp := rfl

@[simp] theorem Operand.at_length (m : Int) (n : NumberString) :
    (Operand.at m n).length = n.length := rfl

@[simp] theorem Operand.at_aExp (m : Int) (n : NumberString) :
    (Operand.at m n).aExp = n.exp - m := rfl

@[simp] theorem Operand.digits_at (m : Int) (n : NumberString) :
    (Operand.at m n).digits n = n.number.reverse := by
  simp [Operand.digits, Operand.at, NumberString.length]

theorem value_alignedDigits (m : Int) (n : NumberString) :
    value 10 (alignedDigits m n).reverse = aligned m n := by
  simp [alignedDigits, aligned, value_append_zeros]

theorem length_alignedDigits (m : Int) (n : NumberString) :
    (alignedDigits m n).length = (n.exp - m).toNat + n.length := by
  simp [alignedDigits, length]

theorem isDigits_alignedDigits {n : NumberString} (m : Int)
    (h : IsDigits 10 n.number) : IsDigits 10 (alignedDigits m n) := by
  rw [alignedDigits, isDigits_append, isDigits_reverse]
  exact ⟨isDigits_replicate_zero (by norm_num) _, h⟩

theorem toRat_decimal_eq_aligned {m : Int} {n : NumberString} (h : m ≤ n.exp) :
    n.decimal.toRat = (aligned m n : ℚ) * 10 ^ m := by
  obtain ⟨k, hk⟩ := Int.eq_ofNat_of_zero_le (Int.sub_nonneg_of_le h)
  rw [Decimal.toRat, decimal, aligned, hk, Int.toNat_natCast,
    show n.exp = k + m by omega, zpow_add₀ (by norm_num), zpow_natCast]
  push_cast
  ring

theorem aligned_bounds {m : Int} {n : NumberString} (hn : n.Normalized)
    (h0 : n.sign ≠ 0) :
    10 ^ ((n.exp - m).toNat + n.length - 1) ≤ aligned m n ∧
      aligned m n < 10 ^ ((n.exp - m).toNat + n.length) := by
  obtain ⟨d, ds, hds, hd⟩ := hn.leading h0
  have hlen : n.length = ds.length + 1 := by simp [length, hds]
  constructor
  · rw [aligned, hds, hlen, ← add_assoc, Nat.add_sub_cancel, pow_add, mul_comm]
    exact Nat.mul_le_mul_right _ (le_value_cons hd ds)
  · rw [aligned, pow_add, mul_comm]
    exact Nat.mul_lt_mul_of_pos_left (value_lt (by norm_num) hn.digits)
      (by positivity)

theorem adjustOperands_of_le {left right : Operand} {maxLength : Nat}
    (hl : left.aExp + left.length ≤ maxLength)
    (hr : right.aExp + right.length ≤ maxLength) :
    adjustOperands left right maxLength = (left, right) := by
  rw [adjustOperands, if_neg]
  omega

theorem addOperands_at {left right : NumberString} {m : Int}
    (hm : m = min left.exp right.exp) (hl : IsDigits 10 left.number)
    (hr : IsDigits 10 right.number) :
    addOperands left right (Operand.at m left) (Operand.at m right) =
      (addDigits 0 (alignedDigits m left) (alignedDigits m right) [], m) := by
  have hl' := isDigits_reverse.mpr hl
  have hr' := isDigits_reverse.mpr hr
  simp only [addOperands, Operand.digits_at, Operand.at_aExp, Operand.at_exp,
    alignedDigits]
  by_cases h1 : left.exp - m = 0
  · simp only [h1, ne_eq, not_true_eq_false, if_false]
    by_cases h2 : right.exp - m = 0
    · simp only [h2, not_true_eq_false, if_false]
      exact Prod.ext rfl (by dsimp only; omega)
    · simp only [h2, not_false_eq_true, if_true, Int.toNat_zero,
        List.replicate_zero, List.nil_append]
      rw [addDigits_comm 0 _ (List.replicate _ 0 ++ _),
        addDigits_zeros_left _ _ _ _ hl', addDigits_comm]
      exact Prod.ext rfl (by dsimp only; omega)
  · have h2 : right.exp - m = 0 := by omega
    simp only [h1, ne_eq, not_false_eq_true, if_true, h2, Int.toNat_zero,
      List.replicate_zero, List.nil_append]
    rw [addDigits_zeros_left _ _ _ _ hr']
    exact Prod.ext rfl (by dsimp only; omega)

/-! ## Aligned lengths -/

/-- The number of positions `n` takes over the exponent `m`. -/
def alignedLength (m : Int) (n : NumberString) : Int := n.exp - m + n.length

theorem aligned_lt_of_length {m : Int} {x y : NumberString} (hx : x.Normalized)
    (hy : y.Normalized) (hx0 : x.sign ≠ 0) (hy0 : y.sign ≠ 0) (hmx : m ≤ x.exp)
    (hmy : m ≤ y.exp) (hlt : alignedLength m x < alignedLength m y) :
    aligned m x < aligned m y := by
  have hhi := (aligned_bounds (m := m) hx hx0).2
  have hlo := (aligned_bounds (m := m) hy hy0).1
  have hpow : 10 ^ ((x.exp - m).toNat + x.length) ≤
      10 ^ ((y.exp - m).toNat + y.length - 1) := by
    apply Nat.pow_le_pow_right (by norm_num)
    unfold alignedLength at hlt
    omega
  omega

theorem subtractNumbers_at {larger smaller : NumberString} {m : Int}
    (hm : m = min larger.exp smaller.exp) (hl : IsDigits 10 larger.number)
    (hs : IsDigits 10 smaller.number)
    (hlen : alignedLength m smaller ≤ alignedLength m larger)
    (hle : aligned m smaller ≤ aligned m larger) :
    ∃ digits,
      subtractNumbers larger.number.reverse (larger.exp - m).toNat
          smaller.number.reverse (smaller.exp - m).toNat = .ok digits ∧
        IsDigits 10 digits ∧ digits.length = alignedLength m larger ∧
        value 10 digits = aligned m larger - aligned m smaller := by
  unfold alignedLength at *
  rw [subtractNumbers_eq (by omega)
    (by rw [List.length_reverse]; simp only [length] at hlen; omega)]
  change ∃ digits, subtractDigits 0 (alignedDigits m larger)
    (alignedDigits m smaller) [] = .ok digits ∧ _
  obtain ⟨digits, hok, hdig, hlen', hval⟩ :=
    subtractDigits_spec (Nat.zero_le 1)
      (isDigits_alignedDigits m hl) (isDigits_alignedDigits m hs) isDigits_nil
      (by simp only [length_alignedDigits]; omega)
      (by simpa only [value_alignedDigits, Nat.zero_add] using hle)
  rw [length_alignedDigits, List.length_nil] at hlen'
  simp only [value_alignedDigits, List.length_nil, pow_zero, mul_one, value_nil,
    Nat.zero_add, Nat.add_zero] at hval
  exact ⟨digits, hok, hdig, by omega, by omega⟩

private theorem prefix_bounds {long short : NumberString} {m : Int}
    (hl : m ≤ long.exp) (hs : m ≤ short.exp) (hdig : IsDigits 10 long.number)
    (hlen : short.length ≤ long.length)
    (halign : alignedLength m short = alignedLength m long) :
    value 10 (long.number.take short.length) * 10 ^ (short.exp - m).toNat ≤
        aligned m long ∧
      aligned m long <
        (value 10 (long.number.take short.length) + 1) *
          10 ^ (short.exp - m).toNat := by
  have hsplit := value_split (b := 10) long.number short.length
  have hlow : value 10 (long.number.drop short.length) <
      10 ^ (long.length - short.length) := by
    simpa [length] using value_lt (b := 10) (by norm_num) (hdig.drop short.length)
  have hexp : (short.exp - m).toNat =
      long.length - short.length + (long.exp - m).toNat := by
    unfold alignedLength at halign
    omega
  change _ = value 10 (long.number.take short.length) *
    10 ^ (long.length - short.length) + _ at hsplit
  rw [aligned, hexp, pow_add, ← mul_assoc, ← mul_assoc, hsplit, add_mul (value _ _) 1,
    one_mul]
  constructor
  · gcongr
    omega
  · gcongr

private theorem value_take_length (n : NumberString) :
    value 10 (n.number.take n.length) = value 10 n.number := by
  simp [length]

def Difference (m : Int) (left right : NumberString) (rightSign : Int)
    (digits : List Nat) (sign : Int) : Prop :=
  IsDigits 10 digits ∧
    digits.length = max (alignedLength m left) (alignedLength m right) ∧
    ((aligned m right ≤ aligned m left ∧ sign = left.sign ∧
        value 10 digits = aligned m left - aligned m right) ∨
      (aligned m left ≤ aligned m right ∧ sign = rightSign ∧
        value 10 digits = aligned m right - aligned m left))

theorem subtractOperands_at {left right : NumberString} {m : Int}
    (rightSign : Int) (hm : m = min left.exp right.exp) (hl : left.Normalized)
    (hr : right.Normalized) (hl0 : left.sign ≠ 0) (hr0 : right.sign ≠ 0)
    (hdiff : ¬ (left.length = right.length ∧ left.exp = right.exp ∧
      memcmp left.number right.number left.length = 0)) :
    ∃ digits sign,
      subtractOperands left right (Operand.at m left) (Operand.at m right)
          rightSign = .ok (digits, m, sign) ∧
        Difference m left right rightSign digits sign := by
  have hlexp : m ≤ left.exp := by omega
  have hrexp : m ≤ right.exp := by omega
  have hbl := aligned_bounds (m := m) hl hl0
  have hbr := aligned_bounds (m := m) hr hr0
  -- the two ways to call `Subtract_Numbers`
  have leftMinusRight : ∀ e, e = m →
      alignedLength m right ≤ alignedLength m left →
      aligned m right ≤ aligned m left →
      ∃ digits sign,
        (do
          return (← subtractNumbers left.number.reverse (left.exp - m).toNat
            right.number.reverse (right.exp - m).toNat, e, left.sign)) =
          (.ok (digits, m, sign) : Outcome _) ∧
        Difference m left right rightSign digits sign := by
    rintro _ rfl hlen hle
    obtain ⟨digits, hok, hdig, hlen', hval⟩ :=
      subtractNumbers_at hm hl.digits hr.digits hlen hle
    refine ⟨digits, left.sign, by rw [hok]; rfl, hdig, ?_, .inl ⟨hle, rfl, hval⟩⟩
    rw [hlen', max_eq_left hlen]
  have rightMinusLeft : ∀ e, e = m →
      alignedLength m left ≤ alignedLength m right →
      aligned m left ≤ aligned m right →
      ∃ digits sign,
        (do
          return (← subtractNumbers right.number.reverse (right.exp - m).toNat
            left.number.reverse (left.exp - m).toNat, e, rightSign)) =
          (.ok (digits, m, sign) : Outcome _) ∧
        Difference m left right rightSign digits sign := by
    rintro _ rfl hlen hle
    obtain ⟨digits, hok, hdig, hlen', hval⟩ :=
      subtractNumbers_at (hm.trans (min_comm _ _)) hr.digits hl.digits hlen hle
    refine ⟨digits, rightSign, by rw [hok]; rfl, hdig, ?_, .inr ⟨hle, rfl, hval⟩⟩
    rw [hlen', max_eq_right hlen]
  simp only [subtractOperands, Operand.digits_at, Operand.at_aExp,
    Operand.at_exp, Operand.at_length, Int.toNat_natCast]
  change ∃ digits sign, (if alignedLength m left > alignedLength m right then _
    else if alignedLength m left < alignedLength m right then _ else _) = _ ∧ _
  by_cases h1 : alignedLength m left > alignedLength m right
  · rw [if_pos h1]
    exact leftMinusRight _ (by split_ifs <;> omega) h1.le
      (aligned_lt_of_length hr hl hr0 hl0 hrexp hlexp h1).le
  rw [if_neg h1]
  by_cases h2 : alignedLength m left < alignedLength m right
  · rw [if_pos h2]
    exact rightMinusLeft _ (by split_ifs <;> omega) h2.le
      (aligned_lt_of_length hl hr hl0 hr0 hlexp hrexp h2).le
  rw [if_neg h2]
  have halign : alignedLength m left = alignedLength m right := by omega
  by_cases h3 : (right.length : Int) < left.length
  · have hlen : right.length ≤ left.length := by omega
    have hexp : left.exp = m := by unfold alignedLength at halign; omega
    obtain ⟨hlo, hhi⟩ :=
      prefix_bounds hlexp hrexp hl.digits hlen halign.symm
    have hcmp := memcmp_spec hr.digits hl.digits le_rfl hlen
    rw [show right.number.length = right.length from rfl, value_take_length] at hcmp
    rw [if_pos h3]
    by_cases h4 : memcmp right.number left.number right.length > 0
    · rw [if_pos h4]
      refine rightMinusLeft _ hexp halign.le (hhi.le.trans ?_)
      exact Nat.mul_le_mul_right _ (hcmp.1.mp h4)
    · rw [if_neg h4]
      refine leftMinusRight _ hexp halign.ge (le_trans ?_ hlo)
      exact Nat.mul_le_mul_right _ (not_lt.mp (mt hcmp.1.mpr h4))
  · have hlen : left.length ≤ right.length := by omega
    have hexp : right.exp = m := by unfold alignedLength at halign; omega
    obtain ⟨hlo, hhi⟩ := prefix_bounds hrexp hlexp hr.digits hlen halign
    have hcmp := memcmp_spec hl.digits hr.digits le_rfl hlen
    rw [show left.number.length = left.length from rfl, value_take_length] at hcmp
    rw [if_neg h3]
    by_cases h4 : memcmp left.number right.number left.length > 0
    · rw [if_pos h4]
      refine leftMinusRight _ hexp halign.ge (hhi.le.trans ?_)
      exact Nat.mul_le_mul_right _ (hcmp.1.mp h4)
    · rw [if_neg h4]
      have hle : aligned m left ≤ aligned m right :=
        le_trans (Nat.mul_le_mul_right _ (not_lt.mp (mt hcmp.1.mpr h4))) hlo
      by_cases h5 : memcmp left.number right.number left.length ≠ 0
      · rw [if_pos h5]
        exact rightMinusLeft _ hexp halign.le hle
      · rw [if_neg h5]
        have h6 : (left.length : Int) < right.length := by
          by_contra h6
          refine hdiff ⟨by omega, ?_, not_not.mp h5⟩
          unfold alignedLength at halign
          omega
        rw [if_pos h6]
        exact rightMinusLeft _ hexp halign.le hle

/-! ## addSub on aligned operands -/

/-- The sign with which `other` enters the sum. -/
def rightSign (operation : Operation) (other : NumberString) : Int :=
  if operation = .minus then -other.sign else other.sign

def InWindow (numberDigits : Nat) (a b : NumberString) : Prop :=
  a.sign ≠ 0 → b.sign ≠ 0 →
    alignedLength (min a.exp b.exp) a ≤ numberDigits + 1 ∧
      alignedLength (min a.exp b.exp) b ≤ numberDigits + 1

theorem dominant_eq_none {left right : NumberString} {m : Int} {D : Nat}
    (hl : left.Normalized) (hr : right.Normalized) (hl0 : left.sign ≠ 0)
    (hr0 : right.sign ≠ 0) (hlw : alignedLength m left ≤ D + 1)
    (hrw : alignedLength m right ≤ D + 1) :
    dominant left right (Operand.at m left) (Operand.at m right) D = none := by
  have := hl.length_pos
  have := hr.length_pos
  unfold alignedLength at hlw hrw
  rw [dominant, if_neg hl0, if_neg hr0, if_neg, if_neg]
  · simp only [Operand.at_aExp, Operand.at_length]
    omega
  · simp only [Operand.at_aExp, Operand.at_length]
    omega

theorem addSub_at {s : Settings} {a b : NumberString} {D : Nat} {m : Int}
    (operation : Operation) (hm : m = min a.exp b.exp) (hla : a.length ≤ D + 1)
    (hlb : b.length ≤ D + 1) :
    addSub s a b operation D =
      match dominant a b (Operand.at m a) (Operand.at m b) D with
      | some isRight =>
          let result := if isRight then b else a
          let result :=
            if isRight ∧ operation = .minus then { result with sign := -result.sign }
            else result
          result.setupNumber s
      | none =>
          if rightSign operation b ≠ a.sign then
            if a.length = b.length ∧ a.exp = b.exp ∧
                memcmp a.number b.number a.length = 0 then .ok (zero s)
            else do
              let (l, r) := adjustOperands (Operand.at m a) (Operand.at m b) (D + 1)
              let (digits, exp, sign) ← subtractOperands a b l r (rightSign operation b)
              (new s sign exp []).adjustPrecisionFrom s digits digits.length D
          else
            let (l, r) := adjustOperands (Operand.at m a) (Operand.at m b) (D + 1)
            let (digits, exp) := addOperands a b l r
            (new s a.sign exp []).adjustPrecisionFrom s digits digits.length D := by
  have hexp : ∀ n : NumberString, n.length ≤ D + 1 →
      (Operand.ofNumber n (D + 1)).exp = n.exp := by
    intro n hn
    have hlen : ¬ n.length > D + 1 := by omega
    simp [Operand.ofNumber, hlen]
  simp only [addSub, hexp a hla, hexp b hlb]
  rw [← min_def, ← hm, Operand.ofNumber_align m (by omega),
    Operand.ofNumber_align m (by omega)]
  simp only [Operand.at_length, Operand.at_exp, Nat.cast_inj, Int.toNat_natCast, rightSign]
  rfl

theorem addSub_eq {s : Settings} {a b : NumberString} {D : Nat} {m : Int}
    (operation : Operation) (hm : m = min a.exp b.exp) (ha : a.Normalized)
    (hb : b.Normalized) (hla : a.length ≤ D + 1) (hlb : b.length ≤ D + 1)
    (ha0 : a.sign ≠ 0) (hb0 : b.sign ≠ 0)
    (haw : alignedLength m a ≤ D + 1) (hbw : alignedLength m b ≤ D + 1) :
    addSub s a b operation D =
      if rightSign operation b ≠ a.sign then
        if a.length = b.length ∧ a.exp = b.exp ∧
            memcmp a.number b.number a.length = 0 then .ok (zero s)
        else do
          let (digits, exp, sign) ← subtractOperands a b (Operand.at m a)
            (Operand.at m b) (rightSign operation b)
          (new s sign exp []).adjustPrecisionFrom s digits digits.length D
      else
        let (digits, exp) := addOperands a b (Operand.at m a) (Operand.at m b)
        (new s a.sign exp []).adjustPrecisionFrom s digits digits.length D := by
  have hadj : adjustOperands (Operand.at m a) (Operand.at m b) (D + 1) =
      (Operand.at m a, Operand.at m b) :=
    adjustOperands_of_le (by simpa [alignedLength] using haw)
      (by simpa [alignedLength] using hbw)
  rw [addSub_at operation hm hla hlb, dominant_eq_none ha hb ha0 hb0 haw hbw, hadj]

theorem addSub_same_sign {s : Settings} {a b : NumberString} {D : Nat} {m : Int}
    (operation : Operation) (hD : 1 ≤ D) (hm : m = min a.exp b.exp)
    (ha : a.Normalized) (hb : b.Normalized) (hla : a.length ≤ D)
    (hlb : b.length ≤ D) (ha0 : a.sign ≠ 0) (hb0 : b.sign ≠ 0)
    (haw : alignedLength m a ≤ D + 1) (hbw : alignedLength m b ≤ D + 1)
    (hsign : rightSign operation b = a.sign) {r : Decimal}
    (hr : (⟨aligned m a + aligned m b, m⟩ : Decimal).round D = r) :
    addSub s a b operation D = do
      checkExponent r.exp (numeral 10 r.coeff).length
      return ofDecimal s D a.sign r := by
  have hba := aligned_bounds (m := m) ha ha0
  have hbb := aligned_bounds (m := m) hb hb0
  have hla1 := ha.length_pos
  have hlb1 := hb.length_pos
  have hpos : 0 < aligned m a := lt_of_lt_of_le (by positivity) hba.1
  obtain ⟨hdig, hval⟩ := addDigits_spec (Nat.zero_le 1)
    (isDigits_alignedDigits m ha.digits) (isDigits_alignedDigits m hb.digits)
    isDigits_nil
  simp only [value_alignedDigits, List.length_nil, pow_zero, mul_one, value_nil,
    Nat.zero_add, Nat.add_zero] at hval
  have hdigits : addDigits 0 (alignedDigits m a) (alignedDigits m b) [] =
      numeral 10 (aligned m a + aligned m b) := by
    rw [← hval]
    rcases addDigits_length 0 (alignedDigits m a) (alignedDigits m b) [] with
      hlen | ⟨rest, hrest, -⟩
    · simp only [length_alignedDigits, List.length_nil, Nat.add_zero] at hlen
      refine eq_numeral_of_le (by norm_num) hdig (by omega) ?_
      rw [hlen, hval]
      rcases le_total ((a.exp - m).toNat + a.length)
        ((b.exp - m).toNat + b.length) with h | h
      · rw [max_eq_right h]
        omega
      · rw [max_eq_left h]
        omega
    · rw [hrest] at hdig ⊢
      exact eq_numeral (by norm_num) hdig one_pos
  rw [addSub_eq operation hm ha hb (hla.trans D.le_succ) (hlb.trans D.le_succ) ha0 hb0 haw hbw,
    if_neg (not_not.mpr hsign), addOperands_at hm ha.digits hb.digits, hdigits]
  exact adjustPrecisionFrom_numeral s _ hD (by omega) hr

theorem memcmp_eq_zero_iff {a b : NumberString} (ha : IsDigits 10 a.number)
    (hb : IsDigits 10 b.number) (hlen : a.length = b.length) :
    memcmp a.number b.number a.length = 0 ↔ a.number = b.number := by
  have hcmp : memcmp a.number b.number a.length = 0 ↔
      a.number.take a.length = b.number.take a.length :=
    (memcmp_spec ha hb le_rfl hlen.le).2.2
  rw [hcmp, List.take_of_length_le (by rfl), List.take_of_length_le hlen.ge]

theorem addSub_opposite_sign {s : Settings} {a b : NumberString} {D : Nat}
    {m : Int} (operation : Operation) (hm : m = min a.exp b.exp)
    (ha : a.Normalized) (hb : b.Normalized) (hla : a.length ≤ D + 1)
    (hlb : b.length ≤ D + 1) (ha0 : a.sign ≠ 0) (hb0 : b.sign ≠ 0)
    (haw : alignedLength m a ≤ D + 1) (hbw : alignedLength m b ≤ D + 1)
    (hsign : rightSign operation b ≠ a.sign) :
    (aligned m a = aligned m b ∧ addSub s a b operation D = .ok (zero s)) ∨
      ∃ digits sign, Difference m a b (rightSign operation b) digits sign ∧
        addSub s a b operation D =
          (new s sign m []).adjustPrecisionFrom s digits digits.length D := by
  rw [addSub_eq operation hm ha hb hla hlb ha0 hb0 haw hbw, if_pos hsign]
  split_ifs with h
  · left
    obtain ⟨hlen, hexp, hcmp⟩ := h
    have hnum := (memcmp_eq_zero_iff ha.digits hb.digits hlen).mp hcmp
    exact ⟨by rw [aligned, aligned, hnum, hexp], rfl⟩
  · right
    obtain ⟨digits, sign, hok, hdiff⟩ :=
      subtractOperands_at (rightSign operation b) hm ha hb ha0 hb0 h
    exact ⟨digits, sign, hdiff, by rw [hok]; rfl⟩

/-! ## The rounded result -/

/--
An answer agrees with the exact result `q` when it is `q` rounded, or reports
an overflow that the rounded result makes unavoidable.
-/
def AddSubSpec (D : Nat) (q : ℚ) : Outcome NumberString → Prop
  | .ok r => Rounds D q r
  | .error e =>
      (∃ value, e = .raised (.overflowExpoverflow value 9)) ∧
        10 ^ (maxNum + 1) ≤ |roundHalfUp D q|

/--
The leading digit of the larger operand is cancelled although it needs the
extra position, and the last digit of the difference is not zero.
-/
def CancelsLeadingDigit (D : Nat) (operation : Operation)
    (a b : NumberString) : Prop :=
  a.sign ≠ 0 ∧ b.sign ≠ 0 ∧ rightSign operation b ≠ a.sign ∧
    10 ^ D ≤ max (aligned (min a.exp b.exp) a) (aligned (min a.exp b.exp) b) ∧
    ((aligned (min a.exp b.exp) a : Int) -
      aligned (min a.exp b.exp) b).natAbs < 10 ^ D ∧
    ¬ 10 ∣ ((aligned (min a.exp b.exp) a : Int) -
      aligned (min a.exp b.exp) b).natAbs

theorem exact_eq_aligned {a b : NumberString} {m : Int} (operation : Operation)
    (hma : m ≤ a.exp) (hmb : m ≤ b.exp) :
    operation.exact a.toRat b.toRat =
      (a.sign * aligned m a + rightSign operation b * aligned m b) * 10 ^ m := by
  rw [toRat, toRat, toRat_decimal_eq_aligned hma, toRat_decimal_eq_aligned hmb]
  cases operation <;> simp [Operation.exact, rightSign] <;> ring

theorem addSubSpec_of_round {s : Settings} {D : Nat} {sign : Int} {d : Decimal}
    (hD : 1 ≤ D) (hsign : sign = -1 ∨ sign = 1) (hc : d.coeff ≠ 0)
    (hlow : -maxNum ≤ d.exp) :
    AddSubSpec D (sign * d.toRat) (do
      checkExponent (d.round D).exp (numeral 10 (d.round D).coeff).length
      return ofDecimal s D sign (d.round D)) := by
  cases hcheck : checkExponent (d.round D).exp
      (numeral 10 (d.round D).coeff).length with
  | ok u => exact rounds_ofDecimal hD hsign hcheck
  | error e =>
      rcases checkExponent_error hcheck with ⟨rfl, hover⟩ | ⟨-, hunder⟩
      · refine ⟨⟨_, rfl⟩, ?_⟩
        have hr0 := Decimal.round_coeff_ne_zero hD hc
        have habs : |(sign : ℚ)| = 1 := by rcases hsign with rfl | rfl <;> simp
        have hnonneg : 0 ≤ (d.round D).toRat := by
          unfold Decimal.toRat; positivity
        rw [roundHalfUp_sign_mul _ hsign, ← Decimal.toRat_round hD, abs_mul, habs,
          one_mul, abs_of_nonneg hnonneg]
        refine le_trans ?_ (le_toRat_of_length hr0)
        exact zpow_le_zpow_right₀ (by norm_num) (by omega)
      · have := Decimal.exp_le_round (D := D) d
        omega

theorem addSub_zero {s : Settings} {a b : NumberString} {D : Nat}
    (operation : Operation) (hs : D ≤ s.digits) (hla : a.length ≤ D)
    (hlb : b.length ≤ D) (h0 : a.sign = 0 ∨ b.sign = 0) :
    addSub s a b operation D =
      .ok ((if a.sign = 0 then { b with sign := rightSign operation b } else a
        ).setNumericSettings s.digits s.form) := by
  simp only [addSub, dominant]
  by_cases ha : a.sign = 0
  · cases operation with
    | plus => simpa [ha, rightSign] using setupNumber_of_le (hlb.trans hs)
    | minus =>
        simpa [ha, rightSign] using
          setupNumber_of_le (n := { b with sign := -b.sign }) (hlb.trans hs)
  · simpa [ha, h0.resolve_left ha] using setupNumber_of_le (hla.trans hs)

theorem addSubSpec_zero {s : Settings} {a b : NumberString} {D : Nat}
    (operation : Operation) (hs : D ≤ s.digits) (ha : a.Normalized)
    (hb : b.Normalized) (hla : a.length ≤ D) (hlb : b.length ≤ D)
    (h0 : a.sign = 0 ∨ b.sign = 0) :
    AddSubSpec D (operation.exact a.toRat b.toRat) (addSub s a b operation D) := by
  rw [addSub_zero operation hs hla hlb h0]
  by_cases ha0 : a.sign = 0
  · rw [if_pos ha0]
    have hq : operation.exact a.toRat b.toRat =
        ({ b with sign := rightSign operation b }.setNumericSettings s.digits
          s.form).toRat := by
      have hb' : b.toRat = b.sign * b.decimal.toRat := rfl
      rw [(toRat_eq_zero_iff ha).mpr ha0, hb']
      cases operation <;>
        simp [Operation.exact, rightSign, toRat, decimal, setNumericSettings]
    rw [hq]
    refine rounds_self (hb.congr ?_ rfl rfl) hlb
    cases operation <;> simp [rightSign, setNumericSettings]
  · rw [if_neg ha0]
    have hq : operation.exact a.toRat b.toRat =
        (a.setNumericSettings s.digits s.form).toRat := by
      rw [(toRat_eq_zero_iff hb).mpr (h0.resolve_left ha0)]
      cases operation <;> simp [Operation.exact] <;> rfl
    rw [hq]
    exact rounds_self (ha.congr (.inl rfl) rfl rfl) hla

theorem Difference.natAbs {a b : NumberString} {m sign rs : Int}
    {digits : List Nat} (h : Difference m a b rs digits sign) :
    value 10 digits = ((aligned m a : Int) - aligned m b).natAbs := by
  rcases h.2.2 with ⟨hle, -, hval⟩ | ⟨hle, -, hval⟩ <;> omega

theorem Difference.exact {a b : NumberString} {m sign rs : Int}
    {digits : List Nat} (h : Difference m a b rs digits sign)
    (hrs : rs = -a.sign) :
    (a.sign : ℚ) * aligned m a + rs * aligned m b =
      sign * value 10 digits := by
  rcases h.2.2 with ⟨hle, rfl, hval⟩ | ⟨hle, rfl, hval⟩
  · rw [hval, hrs]; push_cast [hle]; ring
  · rw [hval, hrs]; push_cast [hle]; ring

theorem addSubSpec_difference {s : Settings} {a b : NumberString} {D : Nat}
    {m sign : Int} {digits : List Nat} (hD : 1 ≤ D) (hm : m = min a.exp b.exp)
    (ha : a.Normalized) (hb : b.Normalized) (ha0 : a.sign ≠ 0) (hb0 : b.sign ≠ 0)
    (haw : alignedLength m a ≤ D + 1) (hbw : alignedLength m b ≤ D + 1)
    (hsign : sign = -1 ∨ sign = 1)
    (h : Difference m a b rs digits sign) :
    AddSubSpec D (sign * (⟨value 10 digits, m⟩ : Decimal).toRat)
        ((new s sign m []).adjustPrecisionFrom s digits digits.length D) ↔
      ¬ (10 ^ D ≤ max (aligned m a) (aligned m b) ∧
        value 10 digits < 10 ^ D ∧ ¬ 10 ∣ value 10 digits) := by
  have hba := aligned_bounds (m := m) ha ha0
  have hbb := aligned_bounds (m := m) hb hb0
  have hla1 := ha.length_pos
  have hlb1 := hb.length_pos
  have hea := ha.exp_upper
  have heb := hb.exp_upper
  have hlow : -maxNum ≤ m := by
    have := ha.exp_lower
    have := hb.exp_lower
    omega
  obtain ⟨hdig, hlen, -⟩ := h
  have hmax : 10 ^ D ≤ max (aligned m a) (aligned m b) ↔
      digits.length = D + 1 := by
    unfold alignedLength at *
    constructor
    · intro hle
      rcases le_max_iff.mp hle with h | h
      · have := (Nat.pow_lt_pow_iff_right (by norm_num)).mp (h.trans_lt hba.2)
        omega
      · have := (Nat.pow_lt_pow_iff_right (by norm_num)).mp (h.trans_lt hbb.2)
        omega
    · intro hl
      rcases le_total (a.exp - m + a.length) (b.exp - m + b.length) with h | h
      · refine le_max_of_le_right (le_trans (le_of_eq ?_) hbb.1)
        congr 1
        omega
      · refine le_max_of_le_left (le_trans (le_of_eq ?_) hba.1)
        congr 1
        omega
  have hupp : m + digits.length - 1 ≤ maxNum := by
    unfold alignedLength at hlen
    omega
  have hne : digits ≠ [] := by
    rw [← List.length_pos_iff]
    unfold alignedLength at hlen
    omega
  rw [hmax]
  by_cases hcancel : value 10 digits < 10 ^ D
  · by_cases hlong : digits.length = D + 1
    · rw [adjustPrecisionFrom_leadingZero s (new s sign m []) hD hdig hlong hcancel
        hlow (by dsimp only [new]; omega)]
      simpa [hlong, hcancel, new, AddSubSpec] using
        rounds_leadingZero_iff hD hsign hcancel hlow (by omega)
    · have hle : digits.length ≤ D := by omega
      rw [adjustPrecisionFrom_short s (new s sign m []) hdig hne hle hlow hupp]
      refine iff_of_true ?_ (fun h => hlong h.1)
      refine rounds_ofDecimal_of_lt hD hsign hcancel ?_
      rw [checkExponent_eq_ok_iff]
      refine ⟨?_, hlow⟩
      by_cases h0 : value 10 digits = 0
      · simp [numeral, h0]
        omega
      · have := length_numeral_le (by norm_num) hdig h0
        dsimp only [new]
        omega
  · have hlong : digits.length = D + 1 := by
      have := (Nat.pow_lt_pow_iff_right (by norm_num)).mp
        ((not_lt.mp hcancel).trans_lt (value_lt (by norm_num) hdig))
      unfold alignedLength at *
      omega
    have hnum : digits = numeral 10 (value 10 digits) :=
      eq_numeral_of_le (by norm_num) hdig (by omega)
        (by rw [hlong]; exact not_lt.mp hcancel)
    have hv0 : value 10 digits ≠ 0 := by
      have : 0 < 10 ^ D := by positivity
      omega
    refine iff_of_true ?_ (fun h => hcancel h.2.1)
    rw [hnum, value_numeral, adjustPrecisionFrom_numeral s _ hD hv0 rfl]
    exact addSubSpec_of_round hD hsign hv0 hlow

/--
Within the window `addSub` returns the exact result, rounded; it fails exactly
when a cancelled leading digit makes it round off a digit that still fits.
-/
theorem addSub_rounds_iff {s : Settings} {a b : NumberString} {D : Nat}
    (operation : Operation) (hD : 1 ≤ D) (hs : D ≤ s.digits) (ha : a.Normalized)
    (hb : b.Normalized) (hla : a.length ≤ D) (hlb : b.length ≤ D)
    (hw : InWindow D a b) :
    AddSubSpec D (operation.exact a.toRat b.toRat) (addSub s a b operation D) ↔
      ¬ CancelsLeadingDigit D operation a b := by
  by_cases hzero : a.sign = 0 ∨ b.sign = 0
  · refine iff_of_true (addSubSpec_zero operation hs ha hb hla hlb hzero) ?_
    rintro ⟨ha0, hb0, -⟩
    exact hzero.elim ha0 hb0
  obtain ⟨ha0, hb0⟩ := not_or.mp hzero
  obtain ⟨haw, hbw⟩ := hw ha0 hb0
  obtain ⟨m, hm⟩ : ∃ m, m = min a.exp b.exp := ⟨_, rfl⟩
  have hsa := ha.sign_eq ha0
  have hsb := hb.sign_eq hb0
  have hrs : rightSign operation b = -1 ∨ rightSign operation b = 1 := by
    cases operation <;> simp [rightSign] <;> omega
  rw [CancelsLeadingDigit, exact_eq_aligned (m := m) operation (by omega) (by omega)]
  rw [← hm] at haw hbw ⊢
  by_cases hsign : rightSign operation b = a.sign
  · refine iff_of_true ?_ (fun h => h.2.2.1 hsign)
    rw [addSub_same_sign operation hD hm ha hb hla hlb ha0 hb0 haw hbw hsign rfl]
    have hpos : 0 < aligned m a :=
      lt_of_lt_of_le (by positivity) (aligned_bounds ha ha0).1
    have hq : ((a.sign : ℚ) * aligned m a + rightSign operation b * aligned m b) *
        10 ^ m = a.sign * (⟨aligned m a + aligned m b, m⟩ : Decimal).toRat := by
      rw [hsign, Decimal.toRat]
      push_cast
      ring
    rw [hq]
    refine addSubSpec_of_round hD hsa (by dsimp only; omega) ?_
    have := ha.exp_lower
    have := hb.exp_lower
    dsimp only
    omega
  · have hneg : rightSign operation b = -a.sign := by omega
    rcases addSub_opposite_sign (s := s) operation hm ha hb (hla.trans D.le_succ)
      (hlb.trans D.le_succ) ha0 hb0 haw hbw
      hsign with ⟨heq, hok⟩ | ⟨digits, sign, hdiff, hok⟩
    · rw [hok, hneg, heq]
      refine iff_of_true ?_ (fun h => h.2.2.2.2.2 (by simp))
      have hq : ((a.sign : ℚ) * aligned m b + ((-a.sign : ℤ) : ℚ) * aligned m b) *
          10 ^ m = (zero s).toRat := by
        push_cast
        simp [zero, new, toRat]
      rw [hq]
      exact rounds_self (normalized_zero s) hD
    · rw [hok, hdiff.exact hneg, ← hdiff.natAbs]
      have hsign' : sign = -1 ∨ sign = 1 := by
        rcases hdiff.2.2 with ⟨-, h, -⟩ | ⟨-, h, -⟩ <;> omega
      have hspec := addSubSpec_difference (s := s) hD hm ha hb ha0 hb0 haw hbw hsign'
        hdiff
      rw [Decimal.toRat, ← mul_assoc] at hspec
      rw [hspec]
      simp only [ne_eq, ha0, hb0, hsign, not_false_eq_true, true_and]

theorem addSub_rounds_iff_one_minus_half :
    AddSubSpec 3 (Operation.exact .minus (toRat ⟨1, 0, [1], 3, true⟩)
        (toRat ⟨1, -1, [5], 3, true⟩))
      (addSub ⟨3, 0, .scientific⟩ ⟨1, 0, [1], 3, true⟩ ⟨1, -1, [5], 3, true⟩ .minus 3) ↔
      ¬ CancelsLeadingDigit 3 .minus ⟨1, 0, [1], 3, true⟩ ⟨1, -1, [5], 3, true⟩ :=
  addSub_rounds_iff .minus (by decide) (by decide) (by decide) (by decide)
    (by decide) (by decide) (by unfold InWindow; decide)

/-- In three digits `1 - .999` is zero, although `.001` has one digit. -/
theorem addSub_one_minus_999 :
    addSub ⟨3, 0, .scientific⟩ ⟨1, 0, [1], 3, true⟩ ⟨1, -3, [9, 9, 9], 3, true⟩
        .minus 3 = .ok (zero ⟨3, 0, .scientific⟩) ∧
      Operation.exact .minus (toRat ⟨1, 0, [1], 3, true⟩)
        (toRat ⟨1, -3, [9, 9, 9], 3, true⟩) = 1 / 1000 ∧
      (⟨1, 0, [1], 3, true⟩ : NumberString).Normalized ∧
      (⟨1, -3, [9, 9, 9], 3, true⟩ : NumberString).Normalized ∧
      InWindow 3 ⟨1, 0, [1], 3, true⟩ ⟨1, -3, [9, 9, 9], 3, true⟩ ∧
      ¬ AddSubSpec 3 (Operation.exact .minus (toRat ⟨1, 0, [1], 3, true⟩)
          (toRat ⟨1, -3, [9, 9, 9], 3, true⟩))
        (addSub ⟨3, 0, .scientific⟩ ⟨1, 0, [1], 3, true⟩
          ⟨1, -3, [9, 9, 9], 3, true⟩ .minus 3) := by
  have hsub : addSub ⟨3, 0, .scientific⟩ ⟨1, 0, [1], 3, true⟩
      ⟨1, -3, [9, 9, 9], 3, true⟩ .minus 3 = .ok (zero ⟨3, 0, .scientific⟩) := by
    decide
  have hexact : Operation.exact .minus (toRat ⟨1, 0, [1], 3, true⟩)
      (toRat ⟨1, -3, [9, 9, 9], 3, true⟩) = 1 / 1000 := by
    simp [Operation.exact, toRat, decimal, Decimal.toRat, value_cons]
    norm_num
  refine ⟨hsub, hexact, by decide, by decide, by unfold InWindow; decide, ?_⟩
  rw [hsub, hexact]
  intro h
  have hzero := h.zero_iff.mp (by decide)
  norm_num at hzero

end NumberString

end LeooRexx
