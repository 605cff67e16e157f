import Mathlib
import LeooRexx.NumberString.AddSubRounding
import LeooRexx.NumberString.Compare
import LeooRexx.NumberString.Multiply
import LeooRexx.NumberString.Quotient
import LeooRexx.NumberString.StringValue

/-!
# Whole numbers of nine digits

The number strings made from machine integers, and what the operations return
for them at the default nine digits.  Nothing is rounded unless the result
itself needs a tenth digit.
-/

namespace LeooRexx

open Positional DecimalRounding

def Operation.exactInt (operation : Operation) (x y : Int) : Int :=
  match operation with
  | .plus => x + y
  | .minus => x - y

namespace NumberString

/-- `formatLong`: the digits of `_ltoa`, made zero based. -/
def formatLong (n : NumberString) (integer : Int) : NumberString :=
  if integer = 0 then n.setZero
  else
    let sign := if integer < 0 then -1 else n.sign
    let integer := if integer < 0 then -integer else integer
    { n with sign := sign, number := digitValues (ltoa integer) }

/-- `new_numberstring(wholenumber_t)`. -/
def newWholenumber (s : Settings) (integer : Int) : NumberString :=
  (new s 1 0 []).formatLong integer

/-! ## The number made from an integer -/

theorem digitValues_ltoa {v : Int} (h : 0 < v) :
    digitValues (ltoa v) = numeral 10 v.natAbs := by
  rw [ltoa, if_neg h.ne', if_neg (not_lt.mpr h.le)]
  exact digitValues_digitText (isDigits_numeral (by norm_num) _)

theorem newWholenumber_eq (s : Settings) (v : Int) :
    newWholenumber s v =
      if v = 0 then zero s else new s v.sign 0 (numeral 10 v.natAbs) := by
  rw [newWholenumber, formatLong]
  split_ifs with h0 hneg
  · rfl
  · dsimp only
    rw [digitValues_ltoa (Int.neg_pos.mpr hneg), Int.natAbs_neg,
      Int.sign_eq_neg_one_of_neg hneg]
    rfl
  · have hpos : 0 < v := by omega
    dsimp only
    rw [digitValues_ltoa hpos, Int.sign_eq_one_of_pos hpos]
    rfl

@[simp] theorem newWholenumber_sign (s : Settings) (v : Int) :
    (newWholenumber s v).sign = v.sign := by
  rw [newWholenumber_eq]
  split_ifs with h0
  · simp [h0, zero, new]
  · rfl

@[simp] theorem newWholenumber_exp (s : Settings) (v : Int) :
    (newWholenumber s v).exp = 0 := by
  rw [newWholenumber_eq]
  split_ifs <;> rfl

@[simp] theorem value_newWholenumber (s : Settings) (v : Int) :
    value 10 (newWholenumber s v).number = v.natAbs := by
  rw [newWholenumber_eq]
  split_ifs with h0
  · simp [h0, zero, new]
  · exact value_numeral _

@[simp] theorem toRat_newWholenumber (s : Settings) (v : Int) :
    (newWholenumber s v).toRat = v := by
  have hnat : ((v.natAbs : ℕ) : ℚ) = ((|v| : ℤ) : ℚ) := by
    rw [← Int.natCast_natAbs, Int.cast_natCast]
  rw [toRat, decimal, Decimal.toRat]
  simp only [newWholenumber_sign, value_newWholenumber, newWholenumber_exp, zpow_zero, mul_one]
  rw [hnat, ← Int.cast_mul, Int.sign_mul_abs]

theorem length_whole (s : Settings) {v : Int} {k : Nat} (hk : 1 ≤ k) (h : v.natAbs < 10 ^ k) :
    (newWholenumber s v).length ≤ k := by
  rw [newWholenumber_eq]
  split_ifs with h0
  · simpa [zero, new, length] using hk
  · have hv : v.natAbs ≠ 0 := Int.natAbs_ne_zero.mpr h0
    have hlog := (Nat.log_lt_iff_lt_pow (by norm_num) hv).mpr h
    rw [length, new, length_numeral (by norm_num) hv]
    omega

theorem normalized_whole (s : Settings) {v : Int} {k : Nat} (hk : 1 ≤ k)
    (hmax : (k : Int) ≤ maxNum) (h : v.natAbs < 10 ^ k) : (newWholenumber s v).Normalized := by
  have hlen := length_whole s hk h
  refine
    { sign_cases := ?_
      digits := ?_
      zero := ?_
      leading := ?_
      exp_lower := ?_
      exp_upper := ?_ }
  · rw [newWholenumber_sign]
    rcases lt_trichotomy v 0 with hv | rfl | hv
    · exact .inl (Int.sign_eq_neg_one_of_neg hv)
    · exact .inr (.inl rfl)
    · exact .inr (.inr (Int.sign_eq_one_of_pos hv))
  · rw [newWholenumber_eq]
    split_ifs
    · exact (normalized_zero s).digits
    · exact isDigits_numeral (by norm_num) _
  · intro h0
    rw [newWholenumber_sign, Int.sign_eq_zero_iff_zero] at h0
    rw [h0]
    exact ⟨rfl, rfl⟩
  · intro h0
    rw [newWholenumber_sign, Ne, Int.sign_eq_zero_iff_zero] at h0
    rw [newWholenumber_eq, if_neg h0]
    exact numeral_eq_cons (Int.natAbs_ne_zero.mpr h0)
  · rw [newWholenumber_exp]
    decide
  · rw [newWholenumber_exp]
    omega

theorem length_newWholenumber (s : Settings) {v : Int} (h : |v| ≤ 999999999) :
    (newWholenumber s v).length ≤ 9 := by
  apply length_whole s (by decide)
  rw [abs_le] at h
  omega

theorem normalized_newWholenumber (s : Settings) {v : Int} (h : |v| ≤ 999999999) :
    (newWholenumber s v).Normalized := by
  refine normalized_whole s (k := 9) (by decide) (by decide) ?_
  rw [abs_le] at h
  omega

theorem fitsDigits_intCast {v : Int} (h : |v| ≤ 999999999) : FitsDigits 9 (v : ℚ) := by
  have hfits := fitsDigits_toRat (normalized_newWholenumber ⟨9, 0, .scientific⟩ h)
    (length_newWholenumber _ h)
  rwa [toRat_newWholenumber] at hfits

/-! ## The string form -/

/-- The decimal digits of `v`, with a sign and leading zeros. -/
def spelling (zeros : Nat) (v : Int) : List UInt8 :=
  (if v < 0 then [chMinus] else []) ++
    (List.replicate zeros chZero ++ digitText (numeral 10 v.natAbs))

def Spells (v : Int) (text : List UInt8) : Prop :=
  ∃ zeros, zeros + (numeral 10 v.natAbs).length ≠ 0 ∧ text = spelling zeros v

theorem numeral_zero : numeral 10 0 = [] := by simp [numeral]

theorem spells_ltoa (v : Int) : Spells v (ltoa v) := by
  by_cases h0 : v = 0
  · refine ⟨1, by omega, ?_⟩
    rw [h0, ltoa, if_pos rfl, spelling, Int.natAbs_zero, numeral_zero]
    rfl
  · obtain ⟨d, ds, hds, -⟩ := numeral_eq_cons (b := 10) (Int.natAbs_ne_zero.mpr h0)
    refine ⟨0, by simp [hds], ?_⟩
    rw [ltoa, if_neg h0, spelling, List.replicate_zero, List.nil_append]
    split_ifs <;> rfl

theorem isDigit_wholeText (zeros : Nat) (v : Int) :
    ∀ c ∈ List.replicate zeros chZero ++ digitText (numeral 10 v.natAbs), isDigit c := by
  intro c hc
  rcases List.mem_append.mp hc with hc | hc
  · exact isDigit_zeros zeros c hc
  · exact isDigit_digitText (isDigits_numeral (by norm_num) _) c hc

theorem wholeText_append_ne {zeros : Nat} {v : Int}
    (h : zeros + (numeral 10 v.natAbs).length ≠ 0) :
    List.replicate zeros chZero ++ digitText (numeral 10 v.natAbs) ++
      (none : Option (List UInt8)).getD [] ≠ [] := by
  intro hnil
  have hlen := congrArg List.length hnil
  rw [List.append_assoc, List.length_append, List.length_append, List.length_replicate,
    digitText, List.length_map, List.length_nil] at hlen
  omega

def wholeLiteral (zeros : Nat) (v : Int)
    (h : zeros + (numeral 10 v.natAbs).length ≠ 0) : Literal where
  leading := []
  sign := if v < 0 then .minus else .absent
  gap := []
  whole := List.replicate zeros chZero ++ digitText (numeral 10 v.natAbs)
  fraction := none
  exponent := none
  trailing := []
  leading_blank := nil_isBlank
  gap_blank := nil_isBlank
  whole_digits := isDigit_wholeText zeros v
  fraction_digits := none_isDigit
  digits_ne := wholeText_append_ne h
  trailing_blank := nil_isBlank

theorem significant_wholeLiteral {zeros : Nat} {v : Int}
    (h : zeros + (numeral 10 v.natAbs).length ≠ 0) :
    (wholeLiteral zeros v h).significant = numeral 10 v.natAbs := by
  have hvalue : value 10 (wholeLiteral zeros v h).significant = v.natAbs := by
    have hzeros : digitValues (List.replicate zeros chZero) = List.replicate zeros 0 := by
      rw [digitValues, List.map_replicate]
      rfl
    have hcoeff : (wholeLiteral zeros v h).coeff =
        List.replicate zeros chZero ++ digitText (numeral 10 v.natAbs) := List.append_nil _
    rw [Literal.value_significant, hcoeff, digitValues, List.map_append, ← digitValues,
      ← digitValues, hzeros, digitValues_digitText (isDigits_numeral (by norm_num) _),
      value_append, value_replicate_zero, zero_mul, zero_add, value_numeral]
  by_cases hnil : (wholeLiteral zeros v h).significant = []
  · rw [hnil, value_nil] at hvalue
    rw [hnil, ← hvalue, numeral_zero]
  · obtain ⟨d, ds, hds, hd⟩ := Literal.significant_leading hnil
    have hnumeral := eq_numeral (b := 10) (by norm_num)
      (hds ▸ (wholeLiteral zeros v h).isDigits_significant) hd
    rw [← hds, hvalue] at hnumeral
    exact hnumeral

theorem newInstance_spells (s : Settings) {v : Int} {text : List UInt8}
    (h : Spells v text) : newInstance s text = some (newWholenumber s v) := by
  obtain ⟨zeros, hne, rfl⟩ := h
  have hrest : (wholeLiteral zeros v hne).rest = [] := rfl
  have htext : (wholeLiteral zeros v hne).text = spelling zeros v := by
    rw [Literal.text, Literal.body, hrest]
    simp only [wholeLiteral, spelling, Literal.pointText, List.nil_append, List.append_nil]
    split_ifs <;> rfl
  have hnumber : (wholeLiteral zeros v hne).number s = newWholenumber s v := by
    rw [newWholenumber_eq, Literal.number, significant_wholeLiteral]
    by_cases h0 : v = 0
    · have hnil : numeral 10 v.natAbs = [] := by rw [h0, Int.natAbs_zero, numeral_zero]
      rw [if_pos h0, if_pos hnil]
    · obtain ⟨d, ds, hds, -⟩ := numeral_eq_cons (b := 10) (Int.natAbs_ne_zero.mpr h0)
      have hsign : (wholeLiteral zeros v hne).sign.value = v.sign := by
        rcases lt_or_gt_of_ne h0 with hneg | hpos
        · rw [Int.sign_eq_neg_one_of_neg hneg]
          simp [wholeLiteral, hneg, SignMark.value]
        · rw [Int.sign_eq_one_of_pos hpos]
          simp [wholeLiteral, not_lt.mpr hpos.le, SignMark.value]
      rw [if_neg h0, if_neg (by simp [hds]), hsign]
      rfl
  rw [← htext, newInstance_text, if_pos (Literal.accepted_of_rest_nil hrest), hnumber]

/-! ## The operators on whole numbers -/

/-- An operation whose exact result is `v`: nothing is rounded off a short result. -/
def ExactWhenShort (v : Int) : Outcome NumberString → Prop
  | .ok r => |v| ≤ 999999999 → r.toRat = v
  | .error (.raised _) => 999999999 < |v|
  | .error _ => False

theorem exponent_small {e : Int} {v : Int} (hv : |v| ≤ 999999999)
    (h : (10 : ℚ) ^ e ≤ |(v : ℚ)|) : e < 9 := by
  have hle : |(v : ℚ)| ≤ 999999999 := by exact_mod_cast hv
  by_contra hge
  have hpow : (10 : ℚ) ^ (9 : ℤ) ≤ 10 ^ e :=
    zpow_le_zpow_right₀ (by norm_num) (not_lt.mp hge)
  have hnine : (10 : ℚ) ^ (9 : ℤ) = 1000000000 := by norm_num
  linarith

theorem aligned_whole (s : Settings) (v : Int) :
    aligned 0 (newWholenumber s v) = v.natAbs := by
  simp [aligned]

theorem fitsAligned_whole (s : Settings) {x y : Int} (hx : |x| ≤ 999999999)
    (hy : |y| ≤ 999999999) :
    FitsAligned 9 (newWholenumber s x) (newWholenumber s y) := by
  have hlx := length_newWholenumber s hx
  have hly := length_newWholenumber s hy
  unfold FitsAligned alignedLength
  simp only [newWholenumber_exp]
  omega

theorem not_cancels_whole (s : Settings) (operation : Operation) {x y : Int}
    (hx : |x| ≤ 999999999) (hy : |y| ≤ 999999999) :
    ¬ CancelsLeadingDigit 9 operation (newWholenumber s x) (newWholenumber s y) := by
  rintro ⟨-, -, -, hmax, -⟩
  rw [newWholenumber_exp, newWholenumber_exp, min_self, aligned_whole, aligned_whole] at hmax
  rw [abs_le] at hx hy
  omega

theorem addSub_whole {s : Settings} (hD : s.digits = 9) (operation : Operation) {x y : Int}
    (hx : |x| ≤ 999999999) (hy : |y| ≤ 999999999) :
    ExactWhenShort (operation.exactInt x y)
      (addSub s (newWholenumber s x) (newWholenumber s y) operation s.digits) := by
  have hfits := fitsAligned_whole s hx hy
  have hspec := (addSub_rounds_iff (s := s) operation (by norm_num) hD.ge
    (normalized_newWholenumber s hx) (normalized_newWholenumber s hy)
    (length_newWholenumber s hx) (length_newWholenumber s hy)
    (fun _ _ => ⟨hfits.1.trans (by norm_num), hfits.2.trans (by norm_num)⟩)).mpr
    (not_cancels_whole s operation hx hy)
  have hexact : operation.exact (x : ℚ) y = (operation.exactInt x y : ℤ) := by
    cases operation <;> simp [Operation.exact, Operation.exactInt]
  rw [toRat_newWholenumber, toRat_newWholenumber, hexact] at hspec
  rw [hD]
  revert hspec
  cases addSub s (newWholenumber s x) (newWholenumber s y) operation 9 with
  | ok r => exact fun hr hv => hr.exact (fitsDigits_intCast hv)
  | error e =>
      rintro ⟨⟨value, rfl⟩, hbig⟩
      by_contra hv
      have hshort : |operation.exactInt x y| ≤ 999999999 := not_lt.mp hv
      rw [roundHalfUp_of_fits (fitsDigits_intCast hshort)] at hbig
      have hsmall := exponent_small hshort hbig
      unfold maxNum at hsmall
      omega

theorem MultiplySpec.raised {D : Nat} {a b : NumberString} {fault : Fault}
    (h : MultiplySpec D a b (.error fault)) :
    (∃ exception, fault = .raised exception) ∧
      (maxNum < ((exactProduct a b).round D).exp +
          (numeral 10 ((exactProduct a b).round D).coeff).length - 1 ∨
        ((exactProduct a b).round D).exp < -maxNum) := by
  cases fault with
  | outOfBounds => exact h.elim
  | outOfFuel => exact h.elim
  | raised exception =>
      refine ⟨⟨exception, rfl⟩, ?_⟩
      cases exception with
      | overflowExpoverflow value digits => exact .inl h
      | overflowExpunderflow value digits => exact .inr h
      | _ => exact h.elim

theorem multiply_whole {s : Settings} (hD : s.digits = 9) {x y : Int}
    (hx : |x| ≤ 999999999) (hy : |y| ≤ 999999999) :
    ExactWhenShort (x * y) (multiply s (newWholenumber s x) (newWholenumber s y)) := by
  have hlx := length_newWholenumber s hx
  have hly := length_newWholenumber s hy
  by_cases hzero : x = 0 ∨ y = 0
  · have hresult : multiply s (newWholenumber s x) (newWholenumber s y) = .ok (zero s) := by
      have hsign : x.sign = 0 ∨ y.sign = 0 := by simpa using hzero
      rw [multiply]
      simp only [checkNumber_of_le false (hlx.trans (by omega : 9 ≤ s.digits + 1)),
        checkNumber_of_le false (hly.trans (by omega : 9 ≤ s.digits + 1)), Outcome.ok_bind,
        newWholenumber_sign, if_pos hsign]
      rfl
    rw [hresult, mul_eq_zero.mpr hzero]
    intro _
    simp [zero, new, toRat]
  · obtain ⟨hx0, hy0⟩ := not_or.mp hzero
    obtain ⟨hspec, -⟩ := multiply_rounds (s := s) (by omega) (normalized_newWholenumber s hx)
      (normalized_newWholenumber s hy) (by simpa using hx0) (by simpa using hy0)
      (hlx.trans (by omega)) (hly.trans (by omega))
    have hcoeff : exactProduct (newWholenumber s x) (newWholenumber s y) =
        ⟨(x * y).natAbs, 0⟩ := by
      simp [exactProduct, Int.natAbs_mul]
    rw [hD] at hspec
    revert hspec
    cases multiply s (newWholenumber s x) (newWholenumber s y) with
    | ok r =>
        rintro ⟨-, hr, -⟩ hv
        rw [toRat_newWholenumber, toRat_newWholenumber, ← Int.cast_mul] at hr
        exact hr.exact (fitsDigits_intCast hv)
    | error e =>
        intro hspec
        have hraised := hspec.raised
        have hlong : 999999999 < |x * y| := by
          by_contra hle
          have hshort : (x * y).natAbs < 10 ^ 9 := by
            rw [Int.abs_eq_natAbs] at hle
            omega
          have hlen := length_numeral_le_of_lt (b := 10) (by norm_num) hshort
          have hround : (exactProduct (newWholenumber s x) (newWholenumber s y)).round 9 =
              ⟨(x * y).natAbs, 0⟩ := by
            rw [hcoeff, Decimal.round_of_lt hshort]
          have hrange := hraised.2
          rw [hround] at hrange
          unfold maxNum at hrange
          dsimp only at hrange
          omega
        obtain ⟨exception, rfl⟩ := hraised.1
        exact hlong

theorem quotientResult_ok {divOp : DivOp} {left right : NumberString} {s : Settings}
    {rem : Nat} {st : DivState} (sign : Int) (hD : 1 ≤ s.digits) (hmax : s.digits ≤ maxNum)
    (h : DivDone divOp left right s.digits rem st) (hop : divOp ≠ .divide)
    (hwhole : ¬ notWhole s.digits st) : ∃ r, quotientResult s sign st = .ok r := by
  by_cases hne : st.output = []
  · exact ⟨zero s, by rw [quotientResult, if_pos hne]; rfl⟩
  · obtain ⟨hlo, hhi, hout⟩ := output_bounds h.output_digits hne (h.output_leading hne)
    have hpos := h.whole hop
    have hlen : st.output.length + st.calcExp ≤ s.digits := by
      unfold notWhole at hwhole
      omega
    have hc : value 10 st.output ≠ 0 := by
      have : 0 < 10 ^ (st.output.length - 1) := by positivity
      omega
    obtain ⟨c', k, hcoeff, hdvd, hresult⟩ := quotientResult_short sign hD hc hout
      (lt_of_lt_of_le hhi (Nat.pow_le_pow_right (by norm_num) (by omega)))
    have hc' : c' ≠ 0 := by rintro rfl; simp at hdvd
    have hlength := length_numeral_mul_pow hc' k
    rw [← hcoeff, ← hout] at hlength
    have hok : checkExponent (st.calcExp + k) (numeral 10 c').length = .ok () :=
      checkExponent_eq_ok_iff.mpr (by unfold maxNum at *; omega)
    rw [hok] at hresult
    exact ⟨_, hresult⟩

theorem remainderResult_ok {s : Settings} {a b : NumberString} {rem : Nat} {st : DivState}
    (h : DivDone .remainder a b s.digits rem st) (ho : DivOperands a b s.digits)
    (hla : a.length ≤ s.digits) (hlb : b.length ≤ s.digits)
    (hwhole : ¬ notWhole s.digits st) (hexp : -maxNum + totalDigits s.digits ≤ a.exp)
    (hb : b.exp + b.length ≤ maxNum) : ∃ r, remainderResult s a a st = .ok r := by
  by_cases hne : st.output = []
  · exact ⟨_, by rw [remainderResult, if_pos hne, setupNumber_of_le hla]⟩
  · rw [remainderResult_eq h ho hla hlb hne]
    by_cases hrem0 : rem = 0
    · exact ⟨zero s, if_pos hrem0⟩
    · have hroom := h.leftLength_le
      have hlow : -maxNum ≤ st.unit a s.digits := by
        unfold DivState.unit
        omega
      -- the remainder is smaller than the divisor
      have hupp : st.unit a s.digits + (numeral 10 rem).length - 1 ≤ maxNum := by
        have hbelow : (⟨rem, st.unit a s.digits⟩ : Decimal).toRat < b.decimal.toRat := by
          have hvalue := h.remainder_value ho (by decide) hwhole
          have hfloor := Int.lt_floor_add_one (a.decimal.toRat / b.decimal.toRat)
          rw [div_lt_iff₀ (ho.right_normalized.decimal_pos ho.right_ne)] at hfloor
          rw [Decimal.toRat, hvalue]
          linarith
        have hdivisor : b.decimal.toRat < 10 ^ (b.exp + b.length) := by
          rw [decimal, Decimal.toRat, zpow_add₀ (by norm_num), mul_comm, zpow_natCast]
          have hlt : value 10 b.number < 10 ^ b.length :=
            value_lt (by norm_num) ho.right_normalized.digits
          gcongr
          exact_mod_cast hlt
        have hunit := le_toRat_of_length (d := ⟨rem, st.unit a s.digits⟩) hrem0
        have hpow := (zpow_lt_zpow_iff_right₀ (by norm_num)).mp
          (hunit.trans_lt (hbelow.trans hdivisor))
        dsimp only at hpow
        omega
      rw [if_neg hrem0, checkExponent_eq_ok_iff.mpr ⟨hupp, hlow⟩]
      exact ⟨_, rfl⟩

theorem wholeQuotient_whole (s : Settings) (x y : Int) :
    wholeQuotient (newWholenumber s x) (newWholenumber s y) = (x.natAbs / y.natAbs : ℕ) := by
  have hdec (v : Int) : (newWholenumber s v).decimal.toRat = v.natAbs := by
    simp [decimal, Decimal.toRat]
  rw [wholeQuotient, hdec, hdec, Rat.floor_natCast_div_natCast, Int.natCast_div]

theorem division_ok {s : Settings} {a b : NumberString} (hmax : s.digits ≤ maxNum)
    (ho : DivOperands a b s.digits) (hla : a.length ≤ s.digits) (hlb : b.length ≤ s.digits)
    (hexp : -maxNum + totalDigits s.digits ≤ a.exp) (hb : b.exp + b.length ≤ maxNum)
    (hshort : wholeQuotient a b < 10 ^ s.digits) :
    (∃ q, division s a b .intDivide = .ok q) ∧ ∃ r, division s a b .remainder = .ok r := by
  have hD : 1 ≤ s.digits := ho.left_normalized.length_pos.trans hla
  have hint : DivOp.intDivide ≠ .divide := by decide
  have hremainder : DivOp.remainder ≠ .divide := by decide
  by_cases hstart : startExp a b < 0
  · exact ⟨⟨_, division_short ho hla hint hstart⟩,
      ⟨_, division_short ho hla hremainder hstart⟩⟩
  · have hnonneg := not_lt.mp hstart
    constructor
    · obtain ⟨st, rem, hdone, hrun⟩ := division_run .intDivide ho fun _ => hnonneg
      have hwhole := mt (hdone.notWhole_iff ho hint).mp (not_le.mpr hshort)
      rw [hrun, if_neg (fun h => hwhole h.2), if_neg (by decide)]
      exact quotientResult_ok _ hD hmax hdone hint hwhole
    · obtain ⟨st, rem, hdone, hrun⟩ := division_run .remainder ho fun _ => hnonneg
      have hwhole := mt (hdone.notWhole_iff ho hremainder).mp (not_le.mpr hshort)
      rw [hrun, if_neg (fun h => hwhole h.2), if_pos rfl]
      exact remainderResult_ok hdone ho hla hlb hwhole hexp hb

theorem division_zero {s : Settings} {a b : NumberString} (divOp : DivOp) (ha : a.sign = 0)
    (hb : b.sign ≠ 0) : division s a b divOp = .ok (zero s) := by
  rw [division, if_neg hb, if_pos ha]
  rfl

theorem sign_mul_natAbs_div (x y : Int) :
    x.sign * y.sign * (x.natAbs / y.natAbs : ℕ) = x.tdiv y := by
  obtain ⟨n, rfl | rfl⟩ := x.eq_nat_or_neg <;> obtain ⟨m, rfl | rfl⟩ := y.eq_nat_or_neg <;>
    rcases n.eq_zero_or_pos with rfl | hn <;> rcases m.eq_zero_or_pos with rfl | hm <;>
    simp [Int.sign_natCast_of_ne_zero, Nat.pos_iff_ne_zero.mp, *]

theorem sign_mul_natAbs_sub (x y : Int) :
    x.sign * (x.natAbs - (x.natAbs / y.natAbs : ℕ) * y.natAbs) = x.tmod y := by
  have hx := Int.sign_mul_natAbs x
  have hy : y * y.sign = y.natAbs := by
    rw [mul_comm, Int.sign_mul_self_eq_abs, Int.abs_eq_natAbs]
  rw [Int.tmod_def, ← sign_mul_natAbs_div, mul_sub, hx, ← hy]
  ring

theorem division_whole_numbers {s : Settings} (hD : s.digits = 9) {x y : Int}
    (hx : |x| ≤ 999999999) (hy : |y| ≤ 999999999) (hy0 : y ≠ 0) :
    (∃ q, division s (newWholenumber s x) (newWholenumber s y) .intDivide = .ok q ∧
        q.toRat = (x.tdiv y : ℤ)) ∧
      ∃ r, division s (newWholenumber s x) (newWholenumber s y) .remainder = .ok r ∧
        r.toRat = (x.tmod y : ℤ) := by
  have hys : (newWholenumber s y).sign ≠ 0 := by simpa using hy0
  by_cases hx0 : x = 0
  · have hxs : (newWholenumber s x).sign = 0 := by simp [hx0]
    have hzero : (zero s).toRat = 0 := by simp [zero, new, toRat]
    refine ⟨⟨_, division_zero _ hxs hys, ?_⟩, ⟨_, division_zero _ hxs hys, ?_⟩⟩
    · rw [hzero, hx0, Int.zero_tdiv, Int.cast_zero]
    · rw [hzero, hx0, Int.zero_tmod, Int.cast_zero]
  · have hlx : (newWholenumber s x).length ≤ s.digits := by
      rw [hD]
      exact length_newWholenumber s hx
    have hly : (newWholenumber s y).length ≤ s.digits := by
      rw [hD]
      exact length_newWholenumber s hy
    have ho : DivOperands (newWholenumber s x) (newWholenumber s y) s.digits :=
      ⟨normalized_newWholenumber s hx, normalized_newWholenumber s hy,
        by simpa using hx0, hys, by omega, by omega⟩
    have hquotient := wholeQuotient_whole s x y
    have hle : x.natAbs / y.natAbs ≤ x.natAbs := Nat.div_le_self _ _
    have hshort : wholeQuotient (newWholenumber s x) (newWholenumber s y) <
        10 ^ s.digits := by
      rw [hquotient, hD]
      rw [Int.abs_eq_natAbs] at hx
      omega
    obtain ⟨⟨q, hq⟩, ⟨r, hr⟩⟩ := division_ok (by rw [hD]; decide) ho hlx hly
      (by rw [hD, newWholenumber_exp]; decide)
      (by rw [newWholenumber_exp]; unfold maxNum; omega) hshort
    rcases division_whole ho hlx hly with ⟨hlong, -⟩ | ⟨-, hint, hrem⟩
    · exact absurd hlong (not_le.mpr hshort)
    · have hqv := hint.1 q hq
      obtain ⟨hrv, -⟩ := hrem.1 r hr
      refine ⟨⟨q, hq, ?_⟩, ⟨r, hr, ?_⟩⟩
      · rw [hqv, hquotient, newWholenumber_sign, newWholenumber_sign, ← Int.cast_mul,
          sign_mul_natAbs_div]
      · rw [hrv, hquotient, newWholenumber_sign, ← sign_mul_natAbs_sub]
        simp [decimal, Decimal.toRat]

end NumberString

end LeooRexx
