import LeooRexx.Foundation.RoundedPower
import LeooRexx.NumberString.DivisionLoop

/-!
# The division operators

The loop leaves the quotient cut off behind some digit and what remains of the
dividend.  `/` rounds the quotient, `%` keeps it when it is whole, and `//`
keeps the remainder.
-/

namespace LeooRexx

open Positional DecimalRounding

namespace NumberString

variable {divOp : DivOp} {left right : NumberString} {D rem : Nat} {st : DivState}

/-! ## The quotient digits -/

theorem output_bounds {ds : List Nat} (h : IsDigits 10 ds) (hne : ds ≠ [])
    (hlead : 0 < ds.headD 0) :
    10 ^ (ds.length - 1) ≤ value 10 ds ∧ value 10 ds < 10 ^ ds.length ∧
      ds = numeral 10 (value 10 ds) := by
  cases ds with
  | nil => exact absurd rfl hne
  | cons d ds =>
      exact ⟨le_value_cons hlead ds, value_lt (by norm_num) h,
        eq_numeral (by norm_num) h hlead⟩

theorem DivDone.quotient_bounds (h : DivDone divOp left right D rem st)
    (ho : DivOperands left right D) :
    (value 10 st.output : ℚ) * 10 ^ st.calcExp ≤
        left.decimal.toRat / right.decimal.toRat ∧
      left.decimal.toRat / right.decimal.toRat <
        (value 10 st.output + 1) * 10 ^ st.calcExp ∧
      (rem = 0 ↔ left.decimal.toRat / right.decimal.toRat =
        value 10 st.output * 10 ^ st.calcExp) := by
  have hright := ho.right_normalized.decimal_pos ho.right_ne
  have hdivisor := h.divisor_eq
  have hunit : (0 : ℚ) < 10 ^ st.unit left D := by positivity
  have hbelow : (rem : ℚ) < st.divisor := by exact_mod_cast h.below
  have hdividend : left.decimal.toRat = value 10 st.output * 10 ^ st.calcExp *
      right.decimal.toRat + rem * 10 ^ st.unit left D := by
    rw [← h.dividend_eq]
    push_cast
    linear_combination (value 10 st.output : ℚ) * hdivisor
  have hrem : (rem : ℚ) * 10 ^ st.unit left D <
      right.decimal.toRat * 10 ^ st.calcExp := by
    rw [← hdivisor]
    exact mul_lt_mul_of_pos_right hbelow hunit
  have hrem0 : 0 ≤ (rem : ℚ) * 10 ^ st.unit left D := by positivity
  refine ⟨?_, ?_, ?_⟩
  · rw [le_div_iff₀ hright, hdividend]
    linarith
  · rw [div_lt_iff₀ hright, hdividend]
    linarith
  · rw [div_eq_iff hright.ne', hdividend]
    constructor
    · rintro rfl
      simp
    · intro heq
      have h0 : (rem : ℚ) * 10 ^ st.unit left D = 0 := by linarith
      simpa [hunit.ne'] using h0

/-! ## Trailing zeros -/

theorem dropTrailingZeros_numeral {c : Nat} (hc : c ≠ 0) (e : Int) :
    ∃ c' k : ℕ, dropTrailingZeros (numeral 10 c).reverse e = (numeral 10 c', e + k) ∧
      c = c' * 10 ^ k ∧ ¬ 10 ∣ c' := by
  induction c using Nat.strong_induction_on generalizing e with
  | _ c ih =>
      have hdigits : (numeral 10 c).reverse = c % 10 :: (numeral 10 (c / 10)).reverse := by
        simp only [numeral, List.reverse_reverse]
        exact Nat.digits_of_two_le_of_pos (by norm_num) (Nat.pos_of_ne_zero hc)
      by_cases h0 : c % 10 = 0
      · obtain ⟨c', k, hok, heq, hdvd⟩ := ih (c / 10) (by omega) (by omega) (e + 1)
        refine ⟨c', k + 1, ?_, ?_, hdvd⟩
        · rw [hdigits, h0, dropTrailingZeros, hok]
          push_cast
          rw [add_assoc, add_comm (1 : Int)]
        · rw [pow_succ, ← mul_assoc, ← heq]
          omega
      · refine ⟨c, 0, ?_, by simp, by omega⟩
        have hstop : dropTrailingZeros (numeral 10 c).reverse e =
            ((numeral 10 c).reverse.reverse, e) := by
          rw [hdigits, dropTrailingZeros]
          intro ds h
          exact h0 (List.cons.inj h).1
        rw [hstop, List.reverse_reverse]
        simp

theorem length_numeral_mul_pow {c : Nat} (hc : c ≠ 0) (k : Nat) :
    (numeral 10 (c * 10 ^ k)).length = (numeral 10 c).length + k := by
  have hlog : Nat.log 10 (c * 10 ^ k) = Nat.log 10 c + k := by
    induction k with
    | zero => simp
    | succ k ih =>
        rw [pow_succ, ← mul_assoc, Nat.log_mul_base (by norm_num)
          (Nat.mul_ne_zero hc (by positivity)), ih]
        rfl
  rw [length_numeral (by norm_num) hc,
    length_numeral (by norm_num) (Nat.mul_ne_zero hc (by positivity)), hlog]
  omega

theorem InRange.strip {c k : Nat} {e : Int} (hc : c ≠ 0)
    (h : InRange ⟨c * 10 ^ k, e⟩) : InRange ⟨c, e + k⟩ := by
  unfold InRange at h ⊢
  rw [length_numeral_mul_pow hc] at h
  push_cast at h
  dsimp only at h ⊢
  omega

theorem toRat_strip (c k : Nat) (e : Int) :
    (⟨c * 10 ^ k, e⟩ : Decimal).toRat = (⟨c, e + k⟩ : Decimal).toRat := by
  simp only [Decimal.toRat]
  rw [zpow_add₀ (by norm_num), zpow_natCast]
  push_cast
  ring

theorem quotientResult_short {s : Settings} (sign : Int) (hD : 1 ≤ s.digits)
    {c : Nat} (hc : c ≠ 0) (hout : st.output = numeral 10 c) (hlt : c < 10 ^ s.digits) :
    ∃ c' k : ℕ, c = c' * 10 ^ k ∧ ¬ 10 ∣ c' ∧
      quotientResult s sign st = do
        checkExponent (st.calcExp + k) (numeral 10 c').length
        return ofDecimal s s.digits sign ⟨c', st.calcExp + k⟩ := by
  obtain ⟨c', k, hdrop, heq, hdvd⟩ := dropTrailingZeros_numeral hc st.calcExp
  refine ⟨c', k, heq, hdvd, ?_⟩
  have hc' : c' ≠ 0 := by rintro rfl; simp at hdvd
  have hle : c' < 10 ^ s.digits := by
    refine lt_of_le_of_lt ?_ hlt
    rw [heq]
    exact Nat.le_mul_of_pos_right _ (by positivity)
  have hlen : ¬ (numeral 10 c).length > s.digits := by
    rw [length_numeral (by norm_num) hc]
    have := Nat.log_lt_of_lt_pow hc hlt
    omega
  obtain ⟨d, ds, hds, -⟩ := numeral_eq_cons (b := 10) hc
  rw [quotientResult, if_neg (by rw [hout, hds]; simp), hout, if_neg hlen]
  simp only [pure_bind, hdrop]
  exact adjustPrecisionFrom_numeral s (new s sign (st.calcExp + k) []) hD hc'
    (Decimal.round_of_lt hle)

theorem quotientResult_long {s : Settings} (sign : Int) (hD : 1 ≤ s.digits)
    {c : Nat} (hout : st.output = numeral 10 c) (hge : 10 ^ s.digits ≤ c)
    {r : Decimal} (hr : (⟨c, st.calcExp⟩ : Decimal).round s.digits = r) :
    ∃ c' k : ℕ, r.coeff = c' * 10 ^ k ∧ ¬ 10 ∣ c' ∧
      quotientResult s sign st = do
        checkExponent r.exp (numeral 10 r.coeff).length
        return ofDecimal s s.digits sign ⟨c', r.exp + k⟩ := by
  have hc : c ≠ 0 := by
    have : 0 < 10 ^ s.digits := by positivity
    omega
  have hr0 : r.coeff ≠ 0 := hr ▸ Decimal.round_coeff_ne_zero hD hc
  have hrlt : r.coeff < 10 ^ s.digits := hr ▸ (Decimal.round_coeff_bounds hD hge).2
  have hrlen : (numeral 10 r.coeff).length = s.digits :=
    hr ▸ length_numeral_round (d := ⟨c, st.calcExp⟩) hD hge
  obtain ⟨c', k, hdrop, heq, hdvd⟩ := dropTrailingZeros_numeral hr0 r.exp
  refine ⟨c', k, heq, hdvd, ?_⟩
  have hc' : c' ≠ 0 := by rintro rfl; simp at hdvd
  have hle : c' < 10 ^ s.digits := by
    refine lt_of_le_of_lt ?_ hrlt
    rw [heq]
    exact Nat.le_mul_of_pos_right _ (by positivity)
  have hlen : (numeral 10 c).length > s.digits := by
    rw [length_numeral (by norm_num) hc]
    have := Nat.le_log_of_pow_le (b := 10) (by norm_num) hge
    omega
  obtain ⟨d, ds, hds, -⟩ := numeral_eq_cons (b := 10) hc
  rw [quotientResult, if_neg (by rw [hout, hds]; simp), hout, if_pos hlen,
    mathRound_numeral hD hge hr, hrlen]
  cases hcheck : checkExponent r.exp s.digits with
  | error e => rfl
  | ok u =>
      have hrange : InRange ⟨c', r.exp + k⟩ := by
        refine InRange.strip hc' ?_
        rw [← heq, InRange, hrlen]
        exact (checkExponent_eq_ok_iff.mp hcheck).symm
      simp only [Outcome.ok_bind, pure_bind, hdrop]
      have hok : checkExponent (r.exp + k) (numeral 10 c').length = .ok () :=
        checkExponent_eq_ok_iff.mpr hrange.symm
      refine (adjustPrecisionFrom_numeral s (new s sign (r.exp + k) []) hD hc'
        (Decimal.round_of_lt hle)).trans ?_
      simp only [new, hok]
      rfl

/-! ## The operator `/` -/

/--
`d` is the non-negative `q` as a quotient in `D` digits is written: without
trailing zeros when it fits, and with all `D` digits when it was rounded.
-/
structure RoundedQuotient (D : Nat) (q : ℚ) (d : Decimal) : Prop where
  value : d.toRat = roundHalfUp D q
  fits : FitsDigits D q → ¬ 10 ∣ d.coeff
  rounded : ¬ FitsDigits D q → 10 ^ (D - 1) ≤ d.coeff ∧ d.coeff < 10 ^ D

theorem not_fits_of_cut {c : Nat} {x : ℤ} {q : ℚ} (hlo : 10 ^ D ≤ c)
    (hhi : c < 10 ^ (D + 1)) (hcq : (c : ℚ) * 10 ^ x ≤ q)
    (hqc : q < (c + 1) * 10 ^ x) (hlast : q = c * 10 ^ x → ¬ 10 ∣ c) :
    ¬ FitsDigits D q := by
  intro hfits
  have hround := roundHalfUp_of_floor hlo hhi hcq hqc
  rw [roundHalfUp_of_fits hfits, zpow_add₀ (by norm_num), zpow_one] at hround
  have hx : (0 : ℚ) < 10 ^ x := by positivity
  have hq : q = ((10 * ((c + 5) / 10) : ℕ) : ℚ) * 10 ^ x := by
    rw [hround]
    push_cast
    ring
  rw [hq] at hcq hqc
  have h1 : c ≤ 10 * ((c + 5) / 10) := by
    exact_mod_cast le_of_mul_le_mul_right hcq hx
  have h2 : 10 * ((c + 5) / 10) < c + 1 := by
    exact_mod_cast lt_of_mul_lt_mul_right hqc hx.le
  have heq : 10 * ((c + 5) / 10) = c := by omega
  rw [heq] at hq
  exact hlast hq ⟨_, heq.symm⟩

/--
What a quotient promises: it is the rounded one without trailing zeros, or an
exponent of the rounded one is out of range.
-/
def QuotientSpec (D : Nat) (q : ℚ) (d : Decimal) : Outcome NumberString → Prop
  | .ok r =>
      InRange d ∧ r.toRat = roundHalfUp D q ∧ r.Normalized ∧
        ∀ ds, r.number ≠ ds ++ [0]
  | .error (.raised (.overflowExpoverflow _ _)) =>
      maxNum < d.exp + (numeral 10 d.coeff).length - 1
  | .error (.raised (.overflowExpunderflow _ _)) => d.exp < -maxNum
  | .error _ => False

theorem numeral_ne_concat_zero {c : Nat} (h : ¬ 10 ∣ c) (ds : List Nat) :
    numeral 10 c ≠ ds ++ [0] := by
  intro heq
  have hval := congrArg (value 10) heq
  rw [value_numeral, value_concat] at hval
  exact h ⟨value 10 ds, by omega⟩

theorem quotientSpec_of_strip {s : Settings} {sign : Int} {q : ℚ} {c k : Nat}
    {d : Decimal} (hsign : sign = -1 ∨ sign = 1) (hcoeff : d.coeff = c * 10 ^ k)
    (hdvd : ¬ 10 ∣ c) (hvalue : d.toRat = roundHalfUp D q) :
    QuotientSpec D (sign * q) d (do
      checkExponent d.exp (numeral 10 d.coeff).length
      return ofDecimal s D sign ⟨c, d.exp + k⟩) := by
  have hc : c ≠ 0 := by rintro rfl; simp at hdvd
  cases hok : checkExponent d.exp (numeral 10 d.coeff).length with
  | ok u =>
      have hrange : InRange d := (checkExponent_eq_ok_iff.mp hok).symm
      have hstrip : InRange ⟨c, d.exp + k⟩ := InRange.strip hc (by rwa [← hcoeff])
      refine ⟨hrange, ?_, normalized_ofDecimal hsign
        (checkExponent_eq_ok_iff.mpr hstrip.symm), ?_⟩
      · rw [toRat_ofDecimal, ← toRat_strip, ← hcoeff, roundHalfUp_sign_mul _ hsign, ← hvalue]
      · simpa [ofDecimal, hc] using numeral_ne_concat_zero hdvd
  | error err =>
      rcases checkExponent_error hok with ⟨rfl, h⟩ | ⟨rfl, h⟩
      · exact h
      · exact h

theorem quotientResult_spec {s : Settings} {sign : Int} (hD : 1 ≤ s.digits)
    (hsign : sign = -1 ∨ sign = 1)
    (h : DivDone .divide left right s.digits rem st)
    (ho : DivOperands left right s.digits) :
    ∃ d, RoundedQuotient s.digits (left.decimal.toRat / right.decimal.toRat) d ∧
      QuotientSpec s.digits (sign * (left.decimal.toRat / right.decimal.toRat)) d
        (quotientResult s sign st) := by
  have hne := h.output_ne rfl
  obtain ⟨hlo, hhi, hout⟩ := output_bounds h.output_digits hne (h.output_leading hne)
  obtain ⟨hcq, hqc, hexact⟩ := h.quotient_bounds ho
  generalize hq : left.decimal.toRat / right.decimal.toRat = q at *
  obtain ⟨c, hcdef⟩ : ∃ c, c = value 10 st.output := ⟨_, rfl⟩
  have hlast := h.last
  rw [← hcdef] at hlo hhi hout hcq hqc hexact hlast
  by_cases hlong : st.output.length = s.digits + 1
  · have hge : 10 ^ s.digits ≤ c := by
      rw [hlong] at hlo
      simpa using hlo
    have hlt : c < 10 ^ (s.digits + 1) := by rwa [hlong] at hhi
    obtain ⟨c', k, hcoeff, hdvd, hresult⟩ := quotientResult_long sign hD hout hge rfl
    have hvalue := Decimal.toRat_round_of_cut hD hge hcq hqc
    have hfits : ¬ FitsDigits s.digits q :=
      not_fits_of_cut hge hlt hcq hqc fun heq => hlast (hexact.mpr heq) hne
    refine ⟨_, ⟨hvalue, fun hf => absurd hf hfits,
      fun _ => Decimal.round_coeff_bounds hD hge⟩, ?_⟩
    rw [hresult]
    exact quotientSpec_of_strip hsign hcoeff hdvd hvalue
  · have hrem : rem = 0 := by
      rcases h.stop with h0 | h1 | h2
      · exact h0
      · exact absurd h1 hlong
      · exact absurd rfl h2.1
    have hlen := h.output_length
    have hlt : c < 10 ^ s.digits :=
      lt_of_lt_of_le hhi (Nat.pow_le_pow_right (by norm_num) (by omega))
    have hc : c ≠ 0 := by
      have : 0 < 10 ^ (st.output.length - 1) := by positivity
      omega
    have hqeq := hexact.mp hrem
    obtain ⟨c', k, hcoeff, hdvd, hresult⟩ := quotientResult_short sign hD hc hout hlt
    have hround : roundHalfUp s.digits q = q := by
      rw [hqeq, roundHalfUp_of_lt _ hlt]
    have hvalue : (⟨c', st.calcExp + k⟩ : Decimal).toRat = roundHalfUp s.digits q := by
      rw [hround, hqeq, ← toRat_strip, ← hcoeff, Decimal.toRat]
    have hfits : FitsDigits s.digits q := by
      refine ⟨c, st.calcExp, hlt, ?_⟩
      rw [hqeq, abs_of_nonneg (by positivity)]
    refine ⟨⟨c', st.calcExp + k⟩, ⟨hvalue, fun _ => hdvd, fun hf => absurd hfits hf⟩, ?_⟩
    rw [hresult]
    have hspec := quotientSpec_of_strip (s := s) (k := 0) hsign
      (mul_one c').symm hdvd hvalue
    simpa using hspec

theorem division_run (divOp : DivOp) {s : Settings} {a b : NumberString}
    (ho : DivOperands a b s.digits)
    (hstart : divOp ≠ .divide → 0 ≤ startExp a b) :
    ∃ st rem, DivDone divOp a b s.digits rem st ∧
      division s a b divOp =
        if divOp ≠ .divide ∧ notWhole s.digits st then
          if divOp = .remainder then .error (.raised .invalidWholeNumberRem)
          else .error (.raised .invalidWholeNumberIntdiv)
        else if divOp = .remainder then remainderResult s a a st
        else quotientResult s (a.sign * b.sign) st := by
  obtain ⟨st, rem, hloop, hdone⟩ := divisionLoop_ok
    (divisionFuel s.digits) (start_invariant ho hstart) ho
    (by simp [divisionStart, divisionFuel]; omega)
  refine ⟨st, rem, hdone, ?_⟩
  have hshort : ¬ (startExp a b < 0 ∧ divOp ≠ .divide) := fun h =>
    not_lt.mpr (hstart h.2) h.1
  rw [division, if_neg ho.right_ne, if_neg ho.left_ne]
  simp only [checkNumber_of_le false ho.left_length,
    checkNumber_of_le false ho.right_length, Outcome.ok_bind, if_neg hshort,
    start_rightLength, hloop]
  split_ifs <;> rfl

def DivideSpec (s : Settings) (a b : NumberString) (out : Outcome NumberString) :
    Prop :=
  (a.sign = 0 → out = .ok (zero s)) ∧
    (a.sign ≠ 0 → ∃ d, RoundedQuotient s.digits |a.toRat / b.toRat| d ∧
      QuotientSpec s.digits (a.toRat / b.toRat) d out)

structure DivSafe (divOp : DivOp) (left right : NumberString) (D : Nat)
    (st : DivState) : Prop where
  thisDigit : st.thisDigit ≤ 9
  output : ∀ d ∈ st.output, d ≤ 9
  last : ∀ st', divisionStep divOp
    (divChar st.num2 (max left.length right.length)) D st = .ok (.done st') →
      ∀ d ∈ st'.output, d ≤ 9
  subtraction : ∀ m, guess divOp (divChar st.num2 (max left.length right.length)) st =
    .ok (.multiplier m) → m * st.divisor ≤ st.remainder ∧
      ∃ st', st.subtract m = .ok st' ∧
        st'.remainder + m * st.divisor = st.remainder

theorem DivReachable.safe (h : DivReachable divOp left right D st)
    (ho : DivOperands left right D)
    (hstart : divOp ≠ .divide → 0 ≤ startExp left right) :
    DivSafe divOp left right D st := by
  have hinv := h.invariant ho hstart
  refine
    { thisDigit := Nat.le_of_lt_succ hinv.thisDigit_lt
      output := fun d hd => Nat.le_of_lt_succ (hinv.output_digits d hd)
      last := ?_
      subtraction := ?_ }
  · intro st' hdone d hd
    obtain ⟨p, hok, hspec⟩ := divisionStep_spec hinv ho
    rw [hdone] at hok
    cases hok
    obtain ⟨rem, hfinal⟩ := hspec
    exact Nat.le_of_lt_succ (hfinal.output_digits d hd)
  · intro m hm
    rcases guess_spec hinv ho with ⟨hguess, -⟩ | ⟨hguess, -⟩ | ⟨m', hguess, hm', hle⟩
    · rw [hm] at hguess
      cases hguess
    · rw [hm] at hguess
      cases hguess
    · rw [hm] at hguess
      cases hguess
      obtain ⟨st', hok, -, -, -, -, hrem⟩ := subtract_spec hinv ho hm' hle
      exact ⟨hle, st', hok, hrem⟩

theorem toRat_div_toRat {a b : NumberString} (hb : b.Normalized) (hb0 : b.sign ≠ 0) :
    a.toRat / b.toRat = ((a.sign * b.sign : ℤ) : ℚ) *
      (a.decimal.toRat / b.decimal.toRat) := by
  rw [toRat, toRat]
  rcases hb.sign_eq hb0 with h | h <;> simp [h, div_neg, mul_div_assoc]

/--
The operator `/` ends and returns the exact quotient, rounded and without
trailing zeros, unless the exponent of the rounded quotient is out of range.
On the way every digit is a digit and no subtraction goes below zero.
-/
theorem division_rounds {s : Settings} {a b : NumberString} (hD : 1 ≤ s.digits)
    (ha : a.Normalized) (hb : b.Normalized) (hb0 : b.sign ≠ 0)
    (hla : a.length ≤ s.digits + 1) (hlb : b.length ≤ s.digits + 1) :
    DivideSpec s a b (division s a b .divide) ∧
      (a.sign ≠ 0 → ∀ st, DivReachable .divide a b s.digits st →
        DivSafe .divide a b s.digits st) := by
  have hstart : DivOp.divide ≠ .divide → 0 ≤ startExp a b := fun h => absurd rfl h
  refine ⟨⟨fun ha0 => ?_, fun ha0 => ?_⟩, fun ha0 st hst => ?_⟩
  · rw [division, if_neg hb0, if_pos ha0]
    rfl
  · have ho : DivOperands a b s.digits := ⟨ha, hb, ha0, hb0, hla, hlb⟩
    have hsign := sign_mul_sign ha hb ha0 hb0
    obtain ⟨st, rem, hdone, hrun⟩ := division_run .divide ho hstart
    obtain ⟨d, hd, hspec⟩ := quotientResult_spec hD hsign hdone ho
    have hpos : 0 ≤ a.decimal.toRat / b.decimal.toRat :=
      (div_pos (ha.decimal_pos ha0) (hb.decimal_pos hb0)).le
    have habs : |((a.sign * b.sign : ℤ) : ℚ)| = 1 := by
      rcases hsign with h | h <;> rw [h] <;> norm_num
    rw [hrun, if_neg (fun h => h.1 rfl), if_neg (by decide), toRat_div_toRat hb hb0]
    refine ⟨d, ?_, hspec⟩
    rwa [abs_mul, habs, one_mul, abs_of_nonneg hpos]
  · exact hst.safe ⟨ha, hb, ha0, hb0, hla, hlb⟩ hstart

theorem division_rounds_two_thirds :
    DivideSpec ⟨4, 0, .scientific⟩ ⟨1, 0, [2], 4, true⟩ ⟨-1, -1, [3], 4, true⟩
        (division ⟨4, 0, .scientific⟩ ⟨1, 0, [2], 4, true⟩ ⟨-1, -1, [3], 4, true⟩
          .divide) ∧
      ((⟨1, 0, [2], 4, true⟩ : NumberString).sign ≠ 0 → ∀ st,
        DivReachable .divide ⟨1, 0, [2], 4, true⟩ ⟨-1, -1, [3], 4, true⟩ 4 st →
          DivSafe .divide ⟨1, 0, [2], 4, true⟩ ⟨-1, -1, [3], 4, true⟩ 4 st) :=
  division_rounds (s := ⟨4, 0, .scientific⟩) (a := ⟨1, 0, [2], 4, true⟩)
    (b := ⟨-1, -1, [3], 4, true⟩) (by decide) (by decide) (by decide) (by decide)
    (by decide) (by decide)

private theorem roundHalfUp_100_div_99 (e : ℤ) :
    roundHalfUp 2 (10 ^ e / (99 * 10 ^ (-2 : ℤ))) = 10 ^ e := by
  have he : (0 : ℚ) < 10 ^ e := by positivity
  have hpow : (10 : ℚ) ^ e = 100 * 10 ^ (e - 2) := by
    rw [zpow_sub₀ (by norm_num)]
    norm_num
    ring
  have hx : (0 : ℚ) < 10 ^ (e - 2) := by positivity
  rw [roundHalfUp_of_floor (c := 101) (x := e - 2) (by norm_num) (by norm_num)]
  · rw [show e - 2 + 1 = 1 + (e - 2) by ring, zpow_add₀ (by norm_num), hpow]
    norm_num
    ring
  · rw [hpow]
    norm_num
    linarith
  · rw [hpow]
    norm_num
    linarith

/--
In two digits `1E-999999999 / .99` is `1E-999999999`, but its two digits `10`
have the exponent -1000000000 before the zero is dropped.
-/
theorem division_early_underflow :
    division ⟨2, 0, .scientific⟩ ⟨1, -999999999, [1], 2, true⟩
        ⟨1, -2, [9, 9], 2, true⟩ .divide =
      .error (.raised (.overflowExpunderflow (-1000000000) 9)) ∧
    (⟨1, -999999999, [1], 2, true⟩ : NumberString).Normalized ∧
    (⟨1, -2, [9, 9], 2, true⟩ : NumberString).Normalized ∧
    toRat ⟨1, -999999999, [1], 2, true⟩ =
      roundHalfUp 2 (toRat ⟨1, -999999999, [1], 2, true⟩ /
        toRat ⟨1, -2, [9, 9], 2, true⟩) := by
  refine ⟨by decide, by decide, by decide, ?_⟩
  have hb : toRat ⟨1, -2, [9, 9], 2, true⟩ = 99 * 10 ^ (-2 : ℤ) := by
    simp [toRat, decimal, Decimal.toRat, value_cons]
  have ha : ∀ e : ℤ, toRat ⟨1, e, [1], 2, true⟩ = 10 ^ e := by
    intro e
    simp [toRat, decimal, Decimal.toRat]
  rw [hb, ha, roundHalfUp_100_div_99]

/-! ## The operators `%` and `//` -/

theorem DivDone.whole_toNat (h : DivDone divOp left right D rem st)
    (hop : divOp ≠ .divide) : ((st.calcExp.toNat : ℕ) : Int) = st.calcExp :=
  Int.toNat_of_nonneg (h.whole hop)

theorem DivDone.output_nil (h : DivDone divOp left right D rem st)
    (ho : DivOperands left right D) (hout : st.output = []) : st.calcExp = 0 := by
  rcases h.stop with h0 | h1 | h2
  · have hleft := ho.left_normalized.decimal_pos ho.left_ne
    have hdividend := h.dividend_eq
    simp only [hout, value_nil, zero_mul, h0, Nat.add_zero, Nat.cast_zero] at hdividend
    linarith
  · simp [hout] at h1
  · exact h2.2

theorem DivDone.floor_eq (h : DivDone divOp left right D rem st)
    (ho : DivOperands left right D) (hop : divOp ≠ .divide)
    (hwhole : ¬ notWhole D st) :
    ⌊left.decimal.toRat / right.decimal.toRat⌋ =
      ((value 10 st.output * 10 ^ st.calcExp.toNat : ℕ) : ℤ) := by
  obtain ⟨hcq, hqc, hexact⟩ := h.quotient_bounds ho
  have hnat := h.whole_toNat hop
  have hpow : (10 : ℚ) ^ st.calcExp = 10 ^ st.calcExp.toNat := by
    rw [← zpow_natCast, hnat]
  rw [hpow] at hcq hqc hexact
  have hlen : st.output.length + st.calcExp ≤ D := by
    unfold notWhole at hwhole
    omega
  rw [Int.floor_eq_iff]
  push_cast
  refine ⟨hcq, ?_⟩
  rcases h.stop with h0 | h1 | h2
  · rw [hexact.mp h0]
    linarith
  · omega
  · rw [h2.2] at hqc ⊢
    simpa using hqc

theorem DivDone.remainder_value (h : DivDone divOp left right D rem st)
    (ho : DivOperands left right D) (hop : divOp ≠ .divide)
    (hwhole : ¬ notWhole D st) :
    (rem : ℚ) * 10 ^ st.unit left D = left.decimal.toRat -
      ⌊left.decimal.toRat / right.decimal.toRat⌋ * right.decimal.toRat := by
  have hnat := h.whole_toNat hop
  have hpow : (10 : ℚ) ^ st.calcExp = 10 ^ st.calcExp.toNat := by
    rw [← zpow_natCast, hnat]
  have hdivisor := h.divisor_eq
  rw [h.floor_eq ho hop hwhole, ← h.dividend_eq]
  rw [hpow] at hdivisor
  push_cast
  linear_combination -(value 10 st.output : ℚ) * hdivisor

theorem DivDone.notWhole_iff (h : DivDone divOp left right D rem st)
    (ho : DivOperands left right D) (hop : divOp ≠ .divide) :
    notWhole D st ↔ 10 ^ D ≤ ⌊left.decimal.toRat / right.decimal.toRat⌋ := by
  have hnat := h.whole_toNat hop
  by_cases hwhole : notWhole D st
  · refine iff_of_true hwhole ?_
    have hne : st.output ≠ [] := by
      intro hout
      have := h.output_nil ho hout
      simp only [notWhole, hout, List.length_nil] at hwhole
      omega
    obtain ⟨hlo, -, -⟩ := output_bounds h.output_digits hne (h.output_leading hne)
    have hpos := List.length_pos_iff.mpr hne
    obtain ⟨hcq, -, -⟩ := h.quotient_bounds ho
    rw [← hnat, zpow_natCast] at hcq
    have hle : 10 ^ D ≤ value 10 st.output * 10 ^ st.calcExp.toNat := by
      calc 10 ^ D ≤ 10 ^ (st.output.length - 1 + st.calcExp.toNat) := by
            apply Nat.pow_le_pow_right (by norm_num)
            unfold notWhole at hwhole
            omega
        _ = 10 ^ (st.output.length - 1) * 10 ^ st.calcExp.toNat := pow_add _ _ _
        _ ≤ value 10 st.output * 10 ^ st.calcExp.toNat := Nat.mul_le_mul_right _ hlo
    rw [Int.le_floor]
    refine le_trans ?_ hcq
    exact_mod_cast hle
  · refine iff_of_false hwhole (not_le.mpr ?_)
    rw [h.floor_eq ho hop hwhole]
    have hlt := value_lt (by norm_num) h.output_digits
    have hlen : st.output.length + st.calcExp.toNat ≤ D := by
      unfold notWhole at hwhole
      omega
    have : value 10 st.output * 10 ^ st.calcExp.toNat < 10 ^ D := by
      calc value 10 st.output * 10 ^ st.calcExp.toNat
          < 10 ^ st.output.length * 10 ^ st.calcExp.toNat :=
            Nat.mul_lt_mul_of_pos_right hlt (by positivity)
        _ = 10 ^ (st.output.length + st.calcExp.toNat) := (pow_add _ _ _).symm
        _ ≤ 10 ^ D := Nat.pow_le_pow_right (by norm_num) hlen
    exact_mod_cast this

theorem floor_eq_zero_of_startExp {a b : NumberString} (ha : a.Normalized)
    (hb : b.Normalized) (hb0 : b.sign ≠ 0) (h : startExp a b < 0) :
    ⌊a.decimal.toRat / b.decimal.toRat⌋ = 0 := by
  obtain ⟨d, ds, hds, hd⟩ := hb.leading hb0
  have hbpos := hb.decimal_pos hb0
  have hapos : 0 ≤ a.decimal.toRat := by unfold Decimal.toRat; positivity
  have hlt : a.decimal.toRat < b.decimal.toRat := by
    have hav : ((value 10 a.number : ℕ) : ℚ) < (10 ^ a.length : ℕ) := by
      exact_mod_cast value_lt (by norm_num) ha.digits
    have hbv : ((10 ^ (b.length - 1) : ℕ) : ℚ) ≤ (value 10 b.number : ℕ) := by
      have hlen : b.length - 1 = ds.length := by simp [length, hds]
      rw [hlen, hds]
      exact_mod_cast le_value_cons hd ds
    have hblen := hb.length_pos
    calc a.decimal.toRat < (10 ^ a.length : ℕ) * 10 ^ a.exp := by
          simp only [decimal, Decimal.toRat]
          gcongr
      _ = 10 ^ (a.length + a.exp) := by
          rw [zpow_add₀ (by norm_num), zpow_natCast]
          push_cast
          ring
      _ ≤ 10 ^ (((b.length - 1 : ℕ) : ℤ) + b.exp) := by
          apply zpow_le_zpow_right₀ (by norm_num)
          unfold startExp at h
          omega
      _ = (10 ^ (b.length - 1) : ℕ) * 10 ^ b.exp := by
          rw [zpow_add₀ (by norm_num), zpow_natCast]
          push_cast
          ring
      _ ≤ b.decimal.toRat := by
          simp only [decimal, Decimal.toRat]
          gcongr
  rw [Int.floor_eq_zero_iff]
  exact ⟨div_nonneg hapos hbpos.le, by rwa [div_lt_one hbpos]⟩

def wholeQuotient (a b : NumberString) : ℤ :=
  ⌊a.decimal.toRat / b.decimal.toRat⌋

theorem checked_result (exp : Int) (len : Nat) (x : NumberString)
    {out : Outcome NumberString}
    (hout : out = do
      checkExponent exp len
      return x) :
    out = .ok x ∨ (∃ v, out = .error (.raised (.overflowExpoverflow v 9))) ∨
      ∃ v, out = .error (.raised (.overflowExpunderflow v 9)) := by
  subst hout
  cases hcheck : checkExponent exp len with
  | ok u => exact .inl rfl
  | error e =>
      rcases checkExponent_error hcheck with ⟨rfl, -⟩ | ⟨rfl, -⟩
      · exact .inr (.inl ⟨_, rfl⟩)
      · exact .inr (.inr ⟨_, rfl⟩)

def WholeResult (P : NumberString → Prop) (out : Outcome NumberString) : Prop :=
  (∀ r, out = .ok r → P r) ∧ out ≠ .error (.raised .invalidWholeNumberIntdiv) ∧
    out ≠ .error (.raised .invalidWholeNumberRem)

theorem WholeResult.ok {P : NumberString → Prop} {r : NumberString} (h : P r) :
    WholeResult P (.ok r) :=
  ⟨by rintro _ ⟨⟩; exact h, by simp, by simp⟩

theorem WholeResult.checked {P : NumberString → Prop} {exp : Int} {len : Nat}
    {r : NumberString} (h : P r) :
    WholeResult P (do
      checkExponent exp len
      return r) := by
  rcases checked_result exp len r rfl with hout | ⟨v, hout⟩ | ⟨v, hout⟩
  · rw [hout]
    exact .ok h
  · rw [hout]
    exact ⟨by simp, by simp, by simp⟩
  · rw [hout]
    exact ⟨by simp, by simp, by simp⟩

theorem quotientResult_whole {s : Settings} {sign : Int} (hD : 1 ≤ s.digits)
    (h : DivDone divOp left right s.digits rem st)
    (ho : DivOperands left right s.digits) (hop : divOp ≠ .divide)
    (hwhole : ¬ notWhole s.digits st) :
    WholeResult (fun q => q.toRat = sign * wholeQuotient left right)
      (quotientResult s sign st) := by
  have hnat := h.whole_toNat hop
  rw [wholeQuotient, h.floor_eq ho hop hwhole]
  by_cases hne : st.output = []
  · rw [quotientResult, if_pos hne, hne]
    refine .ok ?_
    simp [zero, new, toRat]
  · obtain ⟨hlo, hhi, hout⟩ := output_bounds h.output_digits hne (h.output_leading hne)
    have hlen : st.output.length ≤ s.digits := by
      unfold notWhole at hwhole
      omega
    have hc : value 10 st.output ≠ 0 := by
      have : 0 < 10 ^ (st.output.length - 1) := by positivity
      omega
    obtain ⟨c', k, hcoeff, -, hresult⟩ := quotientResult_short sign hD hc hout
      (lt_of_lt_of_le hhi (Nat.pow_le_pow_right (by norm_num) hlen))
    rw [hresult]
    refine .checked ?_
    rw [toRat_ofDecimal, ← toRat_strip, ← hcoeff, Decimal.toRat, ← hnat, zpow_natCast]
    push_cast
    rfl

theorem remainderResult_eq {s : Settings} {a b : NumberString}
    (h : DivDone .remainder a b s.digits rem st) (ho : DivOperands a b s.digits)
    (hla : a.length ≤ s.digits) (hlb : b.length ≤ s.digits) (hne : st.output ≠ []) :
    remainderResult s a a st =
      if rem = 0 then .ok (zero s)
      else do
        checkExponent (st.unit a s.digits) (numeral 10 rem).length
        return ofDecimal s s.digits a.sign ⟨rem, st.unit a s.digits⟩ := by
  have hzero := h.remainder_eq_zero_iff h.leftLength_le
  rw [h.rem_eq rfl] at hzero
  have hread : readAt st.num1 0 = .ok (st.num1.headD 0) :=
    readAt_zero (lt_of_lt_of_le h.leftLength_pos h.leftLength_le)
  rw [remainderResult, if_neg hne, hread, Outcome.ok_bind]
  by_cases hrem0 : rem = 0
  · rw [if_pos (hzero.mpr hrem0), if_pos hrem0]
    rfl
  · rw [if_neg (mt hzero.mp hrem0), if_neg hrem0]
    have hrem : value 10 (st.num1.take st.leftLength) = rem := h.rem_eq rfl
    obtain ⟨hlo, hhi⟩ := h.remainder_bounds h.leftLength_le
    rw [h.rem_eq rfl] at hlo hhi
    have hlen : st.leftLength ≤ s.digits := by
      have hdiv := (h.divisor_bounds ho).2
      have hbelow := h.below
      have hrle := h.rightLength_le
      cases hlo with
      | inl h1 =>
          have := h.rightLength_bounds ho
          omega
      | inr hlo =>
          have := (Nat.pow_lt_pow_iff_right (a := 10) (by norm_num)).mp
            (lt_of_le_of_lt hlo (hbelow.trans hdiv))
          omega
    have hpos : 0 < (st.num1.take st.leftLength).length := by
      rw [List.length_take, min_eq_left h.leftLength_le]
      exact h.leftLength_pos
    have hdigits : st.num1.take st.leftLength = numeral 10 rem := by
      rw [← hrem]
      refine eq_numeral_of_le (by norm_num) (h.num1_digits.take _)
        hpos ?_
      rw [hrem, List.length_take, min_eq_left h.leftLength_le]
      cases hlo with
      | inl h1 =>
          rw [h1]
          exact Nat.one_le_iff_ne_zero.mpr hrem0
      | inr hlo => exact hlo
    have hdlen : (numeral 10 rem).length = st.leftLength := by
      rw [← hdigits, List.length_take, min_eq_left h.leftLength_le]
    have hlt : rem < 10 ^ s.digits :=
      lt_of_lt_of_le hhi (Nat.pow_le_pow_right (by norm_num) hlen)
    have hresult := adjustPrecisionFrom_numeral s (new s a.sign (st.unit a s.digits) [])
      (ho.left_normalized.length_pos.trans hla) hrem0 (Decimal.round_of_lt hlt)
    rw [hdlen, ← hdigits, ← adjustPrecisionFrom_take s _ _ hlen] at hresult
    rw [hdlen]
    exact hresult

theorem remainderResult_whole {s : Settings} {a b : NumberString}
    (h : DivDone .remainder a b s.digits rem st) (ho : DivOperands a b s.digits)
    (hla : a.length ≤ s.digits) (hlb : b.length ≤ s.digits)
    (hwhole : ¬ notWhole s.digits st) :
    WholeResult (fun r => r.toRat = a.sign *
        (a.decimal.toRat - wholeQuotient a b * b.decimal.toRat) ∧
        (r.toRat = 0 ∨ r.sign = a.sign))
      (remainderResult s a a st) := by
  have hop : DivOp.remainder ≠ .divide := by decide
  have hvalue := h.remainder_value ho hop hwhole
  rw [wholeQuotient, ← hvalue]
  by_cases hne : st.output = []
  · have hq := h.floor_eq ho hop hwhole
    rw [hne, value_nil, zero_mul, Nat.cast_zero] at hq
    rw [hq, Int.cast_zero, zero_mul, sub_zero] at hvalue
    rw [remainderResult, if_pos hne, setupNumber_of_le hla]
    refine .ok ⟨?_, .inr rfl⟩
    rw [hvalue]
    rfl
  · rw [remainderResult_eq h ho hla hlb hne]
    by_cases hrem0 : rem = 0
    · rw [if_pos hrem0, hrem0]
      refine .ok ⟨?_, .inl ?_⟩ <;> simp [zero, new, toRat]
    · rw [if_neg hrem0]
      refine .checked ⟨?_, ?_⟩
      · rw [toRat_ofDecimal]
        rfl
      · right
        simp [ofDecimal, hrem0]

theorem division_short {s : Settings} {a b : NumberString}
    (ho : DivOperands a b s.digits) (hla : a.length ≤ s.digits)
    (hop : divOp ≠ .divide) (hstart : startExp a b < 0) :
    division s a b divOp = .ok
      (if divOp = .intDivide then zero s else a.setNumericSettings s.digits s.form) := by
  have hcut : ¬ a.length > s.digits + 1 := by
    have := ho.left_length
    omega
  have hcopy : (a.setNumericSettings (s.digits + 1) s.form).setupNumber s =
      .ok (a.setNumericSettings s.digits s.form) :=
    setupNumber_of_le hla
  rw [division, if_neg ho.right_ne, if_neg ho.left_ne]
  simp only [checkNumber_of_le false ho.left_length,
    checkNumber_of_le false ho.right_length, Outcome.ok_bind, hstart, hop, true_and,
    if_true, ne_eq, not_false_eq_true, prepareNumber, if_neg hcut, pure_bind]
  split_ifs
  · rfl
  · exact hcopy

theorem division_whole {s : Settings} {a b : NumberString}
    (ho : DivOperands a b s.digits) (hla : a.length ≤ s.digits)
    (hlb : b.length ≤ s.digits) :
    (10 ^ s.digits ≤ wholeQuotient a b ∧
        division s a b .intDivide = .error (.raised .invalidWholeNumberIntdiv) ∧
        division s a b .remainder = .error (.raised .invalidWholeNumberRem)) ∨
      (wholeQuotient a b < 10 ^ s.digits ∧
        WholeResult (fun q => q.toRat = (a.sign * b.sign : ℤ) * wholeQuotient a b)
          (division s a b .intDivide) ∧
        WholeResult (fun r => r.toRat = a.sign *
            (a.decimal.toRat - wholeQuotient a b * b.decimal.toRat) ∧
            (r.toRat = 0 ∨ r.sign = a.sign))
          (division s a b .remainder)) := by
  have hD : 1 ≤ s.digits := ho.left_normalized.length_pos.trans hla
  have hint : DivOp.intDivide ≠ .divide := by decide
  have hremainder : DivOp.remainder ≠ .divide := by decide
  by_cases hstart : startExp a b < 0
  · right
    have hfloor := floor_eq_zero_of_startExp ho.left_normalized ho.right_normalized
      ho.right_ne hstart
    rw [wholeQuotient, hfloor, division_short ho hla hint hstart,
      division_short ho hla hremainder hstart]
    refine ⟨by positivity, .ok ?_, .ok ⟨?_, .inr rfl⟩⟩
    · simp [zero, new, toRat]
    · rw [Int.cast_zero, zero_mul, sub_zero]
      rfl
  · have hnonneg := not_lt.mp hstart
    obtain ⟨st, rem, hdone, hrun⟩ := division_run .intDivide ho fun _ => hnonneg
    obtain ⟨st', rem', hdone', hrun'⟩ :=
      division_run .remainder ho fun _ => hnonneg
    have hiff := hdone.notWhole_iff ho hint
    have hiff' := hdone'.notWhole_iff ho hremainder
    rw [hrun, hrun', wholeQuotient]
    by_cases hlong : 10 ^ s.digits ≤ ⌊a.decimal.toRat / b.decimal.toRat⌋
    · left
      rw [if_pos ⟨hint, hiff.mpr hlong⟩, if_neg (by decide),
        if_pos ⟨hremainder, hiff'.mpr hlong⟩, if_pos rfl]
      exact ⟨hlong, rfl, rfl⟩
    · right
      have hwhole := mt hiff.mp hlong
      have hwhole' := mt hiff'.mp hlong
      rw [if_neg (fun h => hwhole h.2), if_neg (by decide),
        if_neg (fun h => hwhole' h.2), if_pos rfl]
      exact ⟨not_le.mp hlong, quotientResult_whole hD hdone ho hint hwhole,
        remainderResult_whole hdone' ho hla hlb hwhole'⟩

theorem truncate_toRat_div {a b : NumberString} (ha : a.Normalized)
    (hb : b.Normalized) (ha0 : a.sign ≠ 0) (hb0 : b.sign ≠ 0) :
    truncate (a.toRat / b.toRat) = a.sign * b.sign * wholeQuotient a b := by
  have hpos := div_pos (ha.decimal_pos ha0) (hb.decimal_pos hb0)
  rw [toRat_div_toRat hb hb0, wholeQuotient]
  rcases sign_mul_sign ha hb ha0 hb0 with h | h <;>
    simp [truncate, h, abs_of_pos hpos, Left.sign_neg, sign_pos hpos]

end NumberString

end LeooRexx
