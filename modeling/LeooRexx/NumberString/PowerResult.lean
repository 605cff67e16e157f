import LeooRexx.NumberString.PowerRuns
import LeooRexx.NumberString.Reciprocal

/-!
# What `power` returns

A power that fits in the digits setting is returned exactly.  A negative one is the reciprocal of
the accumulator, which is itself rounded to the working precision.
-/

namespace LeooRexx

open Positional DecimalRounding SquareMultiply

namespace NumberString

variable {s : Settings} {left x : NumberString} {N n : Nat} {d : Decimal}

/-! ## The end of `power` -/

theorem powerResult_agree {sign lead A B : Int} (hD : 1 ≤ s.digits) (hd : d.coeff ≠ 0)
    (hlo : (10 : ℚ) ^ A ≤ d.toRat) (hhi : d.toRat ≤ (10 : ℚ) ^ B)
    (hlow : -2 ^ 31 ≤ A - s.digits + 1) (hhigh : B < 2 ^ 31)
    (hover : maxNum < B → maxNum < (|lead| + 1) * n + N)
    (hunder : A - s.digits + 1 < -maxNum → maxNum < (|lead| + 1) * n + N) :
    Agree (fun r => r.toRat = sign * (d.round s.digits).toRat) (PowerFault N lead n)
      (powerResult wrap32 s (accumulated left sign d))
      (powerResult id s (accumulated left sign d)) := by
  have hlength := lead_eq_length hd
  have hlead := Decimal.le_lead hlo
  have hlead' := Decimal.lead_le hd hhi
  have hround : ∀ r : Decimal, r.coeff ≠ 0 → r.toRat = (d.round s.digits).toRat →
      ∃ digits exp, dropTrailingZeros (numeral 10 r.coeff).reverse r.exp = (digits, exp) ∧
        (new s sign exp digits).toRat = sign * (d.round s.digits).toRat := by
    intro r hr hvalue
    obtain ⟨c', k, hdrop, heq, -⟩ := dropTrailingZeros_numeral hr r.exp
    refine ⟨_, _, hdrop, ?_⟩
    have hstrip := toRat_strip c' k r.exp
    rw [← heq] at hstrip
    rw [← hvalue]
    change (sign : ℚ) * ((⟨value 10 (numeral 10 c'), r.exp + k⟩ : Decimal).toRat) = _
    rw [value_numeral, ← hstrip]
  unfold powerResult
  simp only [accumulated, stripLeadingZeros_numeral hd]
  by_cases hlong : 10 ^ s.digits ≤ d.coeff
  · have hlog : s.digits ≤ Nat.log 10 d.coeff := Nat.le_log_of_pow_le (by norm_num) hlong
    have hlen := length_numeral (b := 10) (by norm_num) hd
    have hfit : wrap32 (d.exp + ((numeral 10 d.coeff).length - s.digits)) =
        id (d.exp + ((numeral 10 d.coeff).length - s.digits)) :=
      wrap32_of_range (by omega) (by omega)
    have hlonger : (numeral 10 d.coeff).length > s.digits := by omega
    rw [if_pos hlonger, if_pos hlonger, hfit, id, mathRound_numeral hD hlong rfl]
    have hne := Decimal.round_coeff_ne_zero hD hd
    have hfull := lead_of_long hD (Decimal.round_coeff_bounds hD hlong).1
      (Decimal.round_coeff_bounds hD hlong).2
    have hrlow := Decimal.le_lead (Decimal.zpow_le_round hD hlo)
    have hrhigh := Decimal.lead_le hne (Decimal.round_le_zpow hD hd hhi)
    obtain ⟨digits, exp, hdrop, hvalue⟩ := hround (d.round s.digits) hne rfl
    have hcheck : Ensures _ (PowerFault N lead n)
        (checkExponent (d.round s.digits).exp s.digits) :=
      checkExponent_ensures (fun h => hover (by omega)) (fun h => hunder (by omega))
    refine ⟨rfl, ?_⟩
    cases hrun : checkExponent (d.round s.digits).exp s.digits with
    | error fault =>
        rw [hrun] at hcheck
        exact hcheck
    | ok u =>
        change Ensures _ _ (Except.ok (new s sign
          (dropTrailingZeros (numeral 10 (d.round s.digits).coeff).reverse
            (d.round s.digits).exp).2
          (dropTrailingZeros (numeral 10 (d.round s.digits).coeff).reverse
            (d.round s.digits).exp).1))
        rw [hdrop]
        exact hvalue
  · have hshort := length_numeral_le_of_lt (b := 10) (by norm_num) (not_le.mp hlong)
    obtain ⟨digits, exp, hdrop, hvalue⟩ := hround d hd
      (by rw [Decimal.round_of_lt (not_le.mp hlong)])
    rw [if_neg (not_lt.mpr hshort), if_neg (not_lt.mpr hshort)]
    refine ⟨rfl, ?_⟩
    change Ensures _ _ (Except.ok (new s sign
      (dropTrailingZeros (numeral 10 d.coeff).reverse d.exp).2
      (dropTrailingZeros (numeral 10 d.coeff).reverse d.exp).1))
    rw [hdrop]
    exact hvalue

/-! ## The estimate -/

theorem highBits_bounds {v : Nat} (h : v < 2 ^ 32) :
    v < 2 ^ highBits v ∧ (v ≠ 0 → 2 ^ (highBits v - 1) ≤ v) ∧ (v = 0 → highBits v = 0) := by
  unfold highBits
  by_cases h0 : v = 0
  · rw [if_pos h0, h0]
    exact ⟨by norm_num, fun hne => absurd rfl hne, fun _ => rfl⟩
  · obtain ⟨m, r, -, hr, rfl, hcount, -⟩ := firstBit_clear (Nat.one_le_iff_ne_zero.mpr h0) h
    rw [if_neg h0]
    change _ < 2 ^ (firstBit 32 32 _).2 ∧ (_ → 2 ^ ((firstBit 32 32 _).2 - 1) ≤ _) ∧ _
    rw [hcount, Nat.add_sub_cancel, pow_succ]
    exact ⟨by omega, fun _ => Nat.le_add_right _ _, fun hzero => absurd hzero h0⟩

theorem powerOverflows_iff (hx : left.Normalized) (hn : n < 2 ^ 31) :
    powerOverflows left n ↔ maxNum < |left.exp + left.length - 1| * n := by
  have hpos := hx.length_pos
  have hlow := hx.exp_lower
  have hhigh := hx.exp_upper
  unfold powerOverflows
  generalize hadj : left.exp + (left.length : Int) - 1 = adj at hhigh ⊢
  have habs : |adj| ≤ maxNum := abs_le.mpr ⟨by omega, hhigh⟩
  obtain ⟨a, ha⟩ : ∃ a : Nat, |adj| = a := ⟨adj.natAbs, (Int.natCast_natAbs adj).symm⟩
  have hlabs : labs adj = a := by
    unfold labs
    rw [ha]
    unfold maxNum at habs
    exact wrap32_of_range (by omega) (by omega)
  rw [hlabs, Int.toNat_natCast, ha]
  rw [ha] at habs
  unfold maxNum at habs ⊢
  obtain ⟨halt, hage, hazero⟩ := highBits_bounds (v := a) (by omega)
  obtain ⟨hnlt, hnge, hnzero⟩ := highBits_bounds (v := n) (by omega)
  by_cases hbits : highBits a + highBits n + 1 > longBits
  · have hsmall : ∀ v : Nat, v < 2 ^ 31 → (v ≠ 0 → 2 ^ (highBits v - 1) ≤ v) →
        (v = 0 → highBits v = 0) → highBits v ≤ 31 := by
      intro v hv hge hzero
      rcases Nat.eq_zero_or_pos v with h0 | hpos'
      · rw [hzero h0]
        norm_num
      · have hlt := (Nat.pow_lt_pow_iff_right (by norm_num : 1 < 2)).mp
          ((hge hpos'.ne').trans_lt hv)
        omega
    have ha31 := hsmall a (by omega) hage hazero
    have hn31 := hsmall n hn hnge hnzero
    unfold longBits at hbits
    have ha0 : a ≠ 0 := fun h => by
      have hzero := hazero h
      omega
    have hn0 : n ≠ 0 := fun h => by
      have hzero := hnzero h
      omega
    have hproduct := Nat.mul_le_mul (hage ha0) (hnge hn0)
    rw [← pow_add] at hproduct
    have hlarge : 2 ^ 30 ≤ 2 ^ (highBits a - 1 + (highBits n - 1)) :=
      Nat.pow_le_pow_right (by norm_num) (by omega)
    have hcast : ((2 ^ 30 : ℕ) : Int) ≤ a * n := by exact_mod_cast hlarge.trans hproduct
    norm_num at hcast
    constructor
    · exact fun _ => by omega
    · exact fun _ => Or.inl hbits
  · have hlt : a * n < 2 ^ 31 := by
      calc a * n < 2 ^ highBits a * 2 ^ highBits n := Nat.mul_lt_mul'' halt hnlt
        _ = 2 ^ (highBits a + highBits n) := (pow_add ..).symm
        _ ≤ 2 ^ 31 := Nat.pow_le_pow_right (by norm_num) (by unfold longBits at hbits; omega)
    have hwrap : wrap32 ((a : Int) * n) = a * n := by
      have hcast : ((a * n : ℕ) : Int) < 2 ^ 31 := by exact_mod_cast hlt
      push_cast at hcast
      have hpos' : (0 : Int) ≤ a * n := by positivity
      exact wrap32_of_range (by omega) hcast
    rw [hwrap, or_iff_right hbits]

/-! ## The base -/

/-- The copy of the base that `power` works on. -/
def powerBase (s : Settings) (x : NumberString) : NumberString :=
  x.setNumericSettings (s.digits + 1) s.form

def leadExp (x : NumberString) : Int := x.exp + x.length - 1

theorem lead_decimal (hx : x.Normalized) (h0 : x.sign ≠ 0) : x.decimal.lead = leadExp x := by
  obtain ⟨y, ys, hys, hy⟩ := hx.leading h0
  have hnum : x.number = numeral 10 (value 10 x.number) := by
    rw [hys]
    exact eq_numeral (by norm_num) (hys ▸ hx.digits) hy
  rw [lead_eq_length (hx.value_ne_zero h0)]
  change x.exp + ((numeral 10 (value 10 x.number)).length : Int) - 1 = _
  rw [← hnum]
  rfl

theorem powerBase_eq (hx : x.Normalized) (h0 : x.sign ≠ 0) :
    powerBase s x = accumulated (powerBase s x) (powerBase s x).sign x.decimal := by
  obtain ⟨y, ys, hys, hy⟩ := hx.leading h0
  have hnum : numeral 10 (value 10 x.number) = x.number := by
    rw [hys]
    exact (eq_numeral (by norm_num) (hys ▸ hx.digits) hy).symm
  unfold powerBase accumulated decimal setNumericSettings
  dsimp only
  rw [hnum]

theorem normalized_powerBase (hx : x.Normalized) : (powerBase s x).Normalized :=
  hx.congr (Or.inl rfl) rfl rfl

theorem prepareNumber_powerBase (hlen : x.length ≤ s.digits) :
    x.prepareNumber s (s.digits + 1) false = .ok (powerBase s x) := by
  have hshort : ¬x.length > s.digits + 1 := by omega
  rw [prepareNumber, if_neg hshort]
  rfl

theorem powerWith_eq (fit : Int → Int) (powerObj : List UInt8) {p : Int}
    (h0 : x.sign ≠ 0) (hlen : x.length ≤ s.digits) (hp0 : p ≠ 0) (hp : p ≠ noLong) :
    powerWith fit s x powerObj p =
      if powerOverflows (powerBase s x) p.natAbs then
        .error (.raised (.overflowOverflow x powerObj))
      else (do
        let accum ← powerLoop fit (powerBase s x) p.natAbs (powerDigits s p.natAbs)
        let accum ← if p < 0 then dividePower fit accum (powerDigits s p.natAbs) else .ok accum
        powerResult fit s accum) := by
  have hbase : ¬(powerBase s x).sign = 0 := h0
  unfold powerWith
  rw [if_neg hp, prepareNumber_powerBase hlen]
  simp only [Outcome.ok_bind, if_neg hbase, if_neg hp0]
  split <;> rfl

/-! ## What `power` promises -/

/-- The errors `power` can raise for a base, with the exponents that lead to them. -/
def PowerRaises (s : Settings) (x : NumberString) (n : Nat) : Fault → Prop
  | .raised (.overflowOverflow _ _) => maxNum < |leadExp x| * n
  | fault => PowerFault (powerDigits s n) (leadExp x) n fault

theorem powerRaises_of_fault {fault : Fault}
    (h : PowerFault (powerDigits s n) (leadExp x) n fault) : PowerRaises s x n fault := by
  unfold PowerRaises
  split
  · exact h.elim
  · exact h

def powerAccumulator (s : Settings) (x : NumberString) (n : Nat) : Outcome NumberString :=
  powerLoop wrap32 (powerBase s x) n (powerDigits s n)

/--
The power is exact when it fits in the digits setting.  A negative power is the rounded reciprocal
of the accumulator, which is the power itself when that fits in the working precision.  The loop
shifts the exponent out bit by bit, and no exponent leaves the range of the machine.
-/
structure PowerLaws (s : Settings) (x : NumberString) (powerObj : List UInt8) (n : Nat) :
    Prop where
  exact : Ensures (fun r => FitsDigits s.digits (x.toRat ^ n) → r.toRat = x.toRat ^ n)
    (PowerRaises s x n) (power s x powerObj n)
  reciprocal : x.sign ≠ 0 → 1 ≤ n →
    Ensures (fun r => ∃ P, powerAccumulator s x n = .ok P ∧
        r.toRat = roundHalfUp s.digits (1 / P.toRat) ∧
        (FitsDigits (powerDigits s n) (x.toRat ^ n) → P.toRat = x.toRat ^ n))
      (PowerRaises s x n) (power s x powerObj (-n))
  bits : 1 ≤ n →
    bitLoop (ε := Fault) longBits (fun k => .ok (k + 1)) (fun k => .ok (2 * k))
      (firstBit longBits longBits n).2
      ((firstBit longBits longBits n).1 - 2 ^ (longBits - 1)) 1 = .ok n
  unbounded : power s x powerObj n = powerWith id s x powerObj n ∧
    power s x powerObj (-n) = powerWith id s x powerObj (-n)
  counted : x.sign ≠ 0 → 1 ≤ n → |leadExp x| * n ≤ maxNum → ∀ P,
    powerAccumulator s x n = .ok P → ∀ st,
      DivReachable .divide (dividend P) P (powerDigits s n) st →
        -2 ^ 31 ≤ st.calcExp ∧ st.calcExp < 2 ^ 31

theorem bitLoop_exponent (hn0 : 1 ≤ n) (hn : n < 2 ^ 31) :
    bitLoop (ε := Fault) longBits (fun k => .ok (k + 1)) (fun k => .ok (2 * k))
      (firstBit longBits longBits n).2
      ((firstBit longBits longBits n).1 - 2 ^ (longBits - 1)) 1 = .ok n := by
  obtain ⟨m, r, hm, hr, hnr, hcount, hclear⟩ :=
    firstBit_clear hn0 (hn.trans (by norm_num [longBits]) : n < 2 ^ longBits)
  have hloop : Ensures (fun k => k = n) (fun _ : Fault => False) (bitLoop longBits
      (fun k => .ok (k + 1)) (fun k => .ok (2 * k)) (m + 1) (r * 2 ^ (longBits - (m + 1))) 1) := by
    refine bitLoop_ensures (R := fun a k => a = k) (S := fun a k => a = k) ?_
      (fun _ _ hak => hak) ?_ m hm (by rw [pow_succ]; omega) (by rw [one_mul]; exact hnr.symm) rfl
    · rintro a k rfl -
      exact (rfl : a + 1 = a + 1)
    · rintro a k rfl -
      exact (rfl : 2 * a = 2 * a)
  rw [hcount, hclear]
  generalize bitLoop longBits _ _ _ _ _ = run at hloop ⊢
  cases run with
  | error fault => exact hloop.elim
  | ok k => exact congrArg Except.ok hloop

/-! ## The two signs of the argument -/

structure PowerInput (s : Settings) (x : NumberString) (n : Nat) : Prop where
  digits : 1 ≤ s.digits
  normalized : x.Normalized
  sign : x.sign ≠ 0
  length : x.length ≤ s.digits
  pos : 1 ≤ n
  long : n < 2 ^ 31
  memory : 4 * accumLength (powerDigits s n) ≤ 2 ^ 32
  estimate : |leadExp x| * n ≤ maxNum

namespace PowerInput

variable (h : PowerInput s x n)

include h

theorem precision : s.digits + 2 ≤ powerDigits s n ∧ powerDigits s n + 2 ≤ 2 ^ 29 := by
  have hmemory := h.memory
  have hone : 1 ≤ (Nat.digits 10 n).length :=
    List.length_pos_iff.mpr (Nat.digits_ne_nil_iff_ne_zero.mpr (by have := h.pos; omega))
  unfold accumLength at hmemory
  refine ⟨?_, by omega⟩
  unfold powerDigits
  omega

theorem coeff_ne : x.decimal.coeff ≠ 0 := h.normalized.value_ne_zero h.sign

theorem loop : Agree
    (Accumulates (powerDigits s n) (powerBase s x) x.decimal (max (leadExp x + 1) 0) · n)
    (PowerFault (powerDigits s n) (leadExp x) n) (powerAccumulator s x n)
    (powerLoop id (powerBase s x) n (powerDigits s n)) := by
  obtain ⟨hlow, hhigh⟩ := h.precision
  have hlead := lead_decimal h.normalized h.sign
  have hlt : x.decimal.coeff < 10 ^ powerDigits s n :=
    (value_lt (by norm_num) h.normalized.digits).trans_le
      (Nat.pow_le_pow_right (by norm_num) (by
        have hlen := h.length
        unfold NumberString.length at hlen
        omega))
  have hloop := powerLoop_agree (N := powerDigits s n) (by omega) (by omega) h.pos h.long
    (powerBase_eq (s := s) h.normalized h.sign) h.coeff_ne hlt (by rw [hlead]; exact h.estimate)
  rw [hlead] at hloop
  exact hloop

theorem lead_bounds (hd : PowerState (powerDigits s n) x.decimal d n)
    (hs : Settled (powerDigits s n) x.decimal (max (leadExp x + 1) 0) d n) :
    -maxNum ≤ d.lead ∧ d.lead ≤ (|leadExp x| + 1) * n ∧
      d.lead + powerDigits s n + 1 ≤ 2 ^ 31 := by
  obtain ⟨-, hmemory⟩ := h.precision
  have hlead := lead_decimal h.normalized h.sign
  obtain ⟨hlow, hhigh, hnext⟩ := lead_mul_bounds h.estimate (le_refl n)
  have hupper := Decimal.lead_le hd.coeff_ne hd.upper
  have hlower := Decimal.le_lead hd.lower
  have hlog := Nat.log_lt_of_lt_pow hd.coeff_ne hd.coeff_lt
  rw [hlead] at hupper hlower
  refine ⟨by omega, by omega, ?_⟩
  unfold Settled at hs
  rw [hlead] at hs
  rcases hs with hexp | ⟨htwo, -, hcheck⟩
  · have hdlead : d.lead = d.exp + Nat.log 10 d.coeff := rfl
    unfold maxNum at hhigh
    omega
  · have hhalf : |leadExp x| * 2 ≤ |leadExp x| * n :=
      mul_le_mul_of_nonneg_left (by exact_mod_cast htwo) (abs_nonneg _)
    have hest := h.estimate
    have habs := le_abs_self (leadExp x)
    unfold maxNum at hest hcheck
    omega

theorem sign_pow : (powerBase s x).sign ^ n = -1 ∨ (powerBase s x).sign ^ n = 1 := by
  change x.sign ^ n = -1 ∨ x.sign ^ n = 1
  rcases h.normalized.sign_eq h.sign with hs | hs
  · rw [hs]
    exact (neg_one_pow_eq_or Int n).symm
  · rw [hs]
    exact Or.inr (one_pow n)

omit h in
theorem toRat_pow : x.toRat ^ n = ((x.sign ^ n : ℤ) : ℚ) * x.decimal.toRat ^ n := by
  rw [toRat, mul_pow]
  push_cast
  rfl

theorem fits_iff (D : Nat) : FitsDigits D (x.toRat ^ n) ↔ FitsDigits D (x.decimal.toRat ^ n) := by
  have habs : |((x.sign ^ n : ℤ) : ℚ)| = 1 := by
    have hsign := h.sign_pow
    change x.sign ^ n = -1 ∨ x.sign ^ n = 1 at hsign
    rcases hsign with hs | hs <;> rw [hs] <;> norm_num
  unfold FitsDigits
  rw [toRat_pow, abs_mul, habs, one_mul]

theorem accumulated_toRat (hd : PowerState (powerDigits s n) x.decimal d n)
    (hfits : FitsDigits (powerDigits s n) (x.toRat ^ n)) :
    (accumulated (powerBase s x) ((powerBase s x).sign ^ n) d).toRat = x.toRat ^ n := by
  have hexact := hd.exact ((h.fits_iff _).mp hfits)
  rw [toRat_pow, ← hexact]
  change ((x.sign ^ n : ℤ) : ℚ) * ((⟨value 10 (numeral 10 d.coeff), d.exp⟩ : Decimal).toRat) = _
  rw [value_numeral]

theorem result_agree (hd : PowerState (powerDigits s n) x.decimal d n) :
    Agree (fun r => FitsDigits s.digits (x.toRat ^ n) → r.toRat = x.toRat ^ n)
      (PowerFault (powerDigits s n) (leadExp x) n)
      (powerResult wrap32 s (accumulated (powerBase s x) ((powerBase s x).sign ^ n) d))
      (powerResult id s (accumulated (powerBase s x) ((powerBase s x).sign ^ n) d)) := by
  obtain ⟨hprecision, hmemory⟩ := h.precision
  have hlead := lead_decimal h.normalized h.sign
  obtain ⟨hlow, hhigh, hnext⟩ := lead_mul_bounds h.estimate (le_refl n)
  have hlower := hd.lower
  have hupper := hd.upper
  rw [hlead] at hlower hupper
  have habs : -(|leadExp x| * n) ≤ leadExp x * n := by
    rw [← neg_mul]
    exact mul_le_mul_of_nonneg_right (neg_abs_le _) (Int.natCast_nonneg n)
  have hmore : |leadExp x| * n ≤ (|leadExp x| + 1) * n :=
    mul_le_mul_of_nonneg_right (by omega) (Int.natCast_nonneg n)
  have htop := lead_succ_mul_lt h.long h.estimate (le_refl n)
  refine (powerResult_agree h.digits hd.coeff_ne hlower hupper (by unfold maxNum at hlow; omega)
    htop (by omega) (by omega)).mono ?_ fun _ hfault => hfault
  intro r hr hfits
  have hwide : FitsDigits (powerDigits s n) (x.decimal.toRat ^ n) := by
    obtain ⟨c, e, hc, heq⟩ := (h.fits_iff _).mp hfits
    exact ⟨c, e, hc.trans_le (Nat.pow_le_pow_right (by norm_num) (by omega)), heq⟩
  have hexact := hd.exact hwide
  rw [hr, Decimal.toRat_round_of_fits h.digits (hexact ▸ (h.fits_iff _).mp hfits), hexact,
    toRat_pow]
  rfl

theorem reciprocal_agree (hd : PowerState (powerDigits s n) x.decimal d n)
    (hs : Settled (powerDigits s n) x.decimal (max (leadExp x + 1) 0) d n) :
    Agree (fun r => r.toRat = roundHalfUp s.digits
        (1 / (accumulated (powerBase s x) ((powerBase s x).sign ^ n) d).toRat))
      (PowerFault (powerDigits s n) (leadExp x) n)
      (dividePower wrap32 (accumulated (powerBase s x) ((powerBase s x).sign ^ n) d)
        (powerDigits s n) >>= powerResult wrap32 s)
      (dividePower id (accumulated (powerBase s x) ((powerBase s x).sign ^ n) d)
        (powerDigits s n) >>= powerResult id s) := by
  obtain ⟨hprecision, hmemory⟩ := h.precision
  obtain ⟨hlow, hlead, hroom⟩ := h.lead_bounds hd hs
  obtain ⟨hnlow, hnhigh, -⟩ := lead_mul_bounds h.estimate (le_refl n)
  have hsign := h.sign_pow
  have hlower := hd.lower
  rw [lead_decimal h.normalized h.sign] at hlower
  have hdpos := Decimal.toRat_pos hd.coeff_ne
  generalize (powerBase s x).sign ^ n = sign at hsign ⊢
  have hrange : wrap32 (-d.lead) = -d.lead :=
    wrap32_of_range (by omega) (by unfold maxNum at hlow; omega)
  obtain ⟨c, e, hrun, hc, hcut, hnext, hexact⟩ := dividePower_eq (powerBase s x) (by omega)
    (by omega) hsign hd.coeff_ne hd.coeff_lt hrange
  have hsame : dividePower id (accumulated (powerBase s x) sign d) (powerDigits s n) =
      dividePower wrap32 (accumulated (powerBase s x) sign d) (powerDigits s n) := by
    refine dividePower_congr _ ?_
    have hcalc : -(accumulated (powerBase s x) sign d).exp -
        (accumulated (powerBase s x) sign d).length + 1 = -d.lead := by
      have hlength := lead_eq_length hd.coeff_ne
      simp only [accumulated, NumberString.length]
      omega
    rw [hcalc, hrange, id]
  -- the reciprocal lies between the powers of ten around the one of the accumulator
  have hfirst : (10 : ℚ) ^ (-d.lead - 1) < 1 / d.toRat := by
    rw [lt_one_div (by positivity) hdpos, one_div, ← zpow_neg, neg_sub, sub_neg_eq_add, add_comm]
    exact Decimal.toRat_lt_zpow_lead d
  have hlast : 1 / d.toRat ≤ (10 : ℚ) ^ (-(leadExp x * n)) := by
    rw [one_div_le hdpos (by positivity), one_div, ← zpow_neg, neg_neg]
    exact hlower
  have hrounded : ((⟨c, e⟩ : Decimal).round s.digits).toRat =
      roundHalfUp s.digits (1 / d.toRat) := by
    by_cases hlong : 10 ^ s.digits ≤ c
    · exact Decimal.toRat_round_of_cut h.digits hlong hcut hnext
    · have hshort : ¬10 ^ powerDigits s n ≤ c := fun hfull =>
        hlong ((Nat.pow_le_pow_right (by norm_num) (by omega)).trans hfull)
      rw [Decimal.toRat_round h.digits, hexact.resolve_left hshort]
      rfl
  have hinv : 1 / (accumulated (powerBase s x) sign d).toRat = (sign : ℚ) * (1 / d.toRat) := by
    have hvalue : (accumulated (powerBase s x) sign d).toRat = sign * d.toRat := by
      change (sign : ℚ) * ((⟨value 10 (numeral 10 d.coeff), d.exp⟩ : Decimal).toRat) = _
      rw [value_numeral]
    rw [hvalue]
    rcases hsign with hs | hs
    · rw [hs]
      push_cast
      field_simp
    · rw [hs]
      push_cast
      field_simp
  rw [hsame, hrun, Outcome.ok_bind, Outcome.ok_bind, hinv, roundHalfUp_sign_mul _ hsign]
  refine (powerResult_agree (d := ⟨c, e⟩) h.digits hc
    (Decimal.zpow_le_of_cut hc (hfirst.trans hnext)) (hcut.trans hlast) (by omega)
    (by unfold maxNum at hnlow; omega) (by omega) (by omega)).mono ?_ fun _ hfault => hfault
  intro r hr
  rw [hr, hrounded]

theorem powerWith_run (fit : Int → Int) (powerObj : List UInt8) :
    powerWith fit s x powerObj n =
        powerLoop fit (powerBase s x) n (powerDigits s n) >>= powerResult fit s ∧
      powerWith fit s x powerObj (-n) =
        powerLoop fit (powerBase s x) n (powerDigits s n) >>= fun accum =>
          dividePower fit accum (powerDigits s n) >>= powerResult fit s := by
  have hlong := h.long
  have hpos := h.pos
  have hestimate : ¬powerOverflows (powerBase s x) n := fun hover =>
    absurd ((powerOverflows_iff (normalized_powerBase h.normalized) h.long).mp hover)
      (not_lt.mpr h.estimate)
  have hplus := powerWith_eq fit powerObj h.sign h.length (p := n) (by omega)
    (by unfold noLong; omega)
  have hminus := powerWith_eq fit powerObj h.sign h.length (p := -n) (by omega)
    (by unfold noLong; omega)
  rw [Int.natAbs_natCast, if_neg hestimate] at hplus
  rw [Int.natAbs_neg, Int.natAbs_natCast, if_neg hestimate] at hminus
  have hsign : ¬(n : Int) < 0 := by omega
  have hsign' : -(n : Int) < 0 := by omega
  rw [hplus, hminus]
  simp only [if_neg hsign, if_pos hsign', Outcome.ok_bind, true_and]

theorem laws (powerObj : List UInt8) : PowerLaws s x powerObj n := by
  obtain ⟨hwrap, hwrap'⟩ := h.powerWith_run wrap32 powerObj
  obtain ⟨hid, hid'⟩ := h.powerWith_run id powerObj
  have hloop := h.loop
  have hplus : Agree (fun r => FitsDigits s.digits (x.toRat ^ n) → r.toRat = x.toRat ^ n)
      (PowerRaises s x n) (power s x powerObj n) (powerWith id s x powerObj n) := by
    unfold power
    rw [hwrap, hid]
    refine (hloop.bind ?_).mono (fun _ hr => hr) fun _ => powerRaises_of_fault
    rintro accum - ⟨d, rfl, hd, -⟩
    exact h.result_agree hd
  have hminus : Agree (fun r => ∃ P, powerAccumulator s x n = .ok P ∧
        r.toRat = roundHalfUp s.digits (1 / P.toRat) ∧
        (FitsDigits (powerDigits s n) (x.toRat ^ n) → P.toRat = x.toRat ^ n))
      (PowerRaises s x n) (power s x powerObj (-n)) (powerWith id s x powerObj (-n)) := by
    unfold power
    rw [hwrap', hid']
    refine (hloop.bind ?_).mono (fun _ hr => hr) fun _ => powerRaises_of_fault
    rintro accum hrun ⟨d, rfl, hd, hs⟩
    exact (h.reciprocal_agree hd hs).mono
      (fun r hr => ⟨_, hrun, hr, h.accumulated_toRat hd⟩) fun _ hfault => hfault
  refine ⟨hplus.2, fun _ _ => hminus.2, fun hn0 => bitLoop_exponent hn0 h.long,
    ⟨hplus.1, hminus.1⟩, fun _ _ _ P hP st hst => ?_⟩
  have haccum := hloop.2
  rw [hP] at haccum
  obtain ⟨d, rfl, hd, hs⟩ := haccum
  obtain ⟨hprecision, hmemory⟩ := h.precision
  obtain ⟨hlow, -, hroom⟩ := h.lead_bounds hd hs
  have hcalc := calcExp_bounds (powerBase s x) (by omega) (by omega) h.sign_pow
    hd.coeff_ne hd.coeff_lt hst
  unfold maxNum at hlow
  omega

end PowerInput

/-! ## `power` -/

theorem powerWith_zero (fit : Int → Int) (powerObj : List UInt8) {p : Int} (h0 : x.sign = 0)
    (hlen : x.length ≤ s.digits) (hp : p ≠ noLong) :
    powerWith fit s x powerObj p =
      if p < 0 then .error (.raised .overflowPower)
      else if p = 0 then .ok (one s) else .ok (zero s) := by
  have hbase : (powerBase s x).sign = 0 := h0
  unfold powerWith
  rw [if_neg hp, prepareNumber_powerBase hlen]
  simp only [Outcome.ok_bind, if_pos hbase]
  split
  · rfl
  · split <;> rfl

theorem powerWith_exponent_zero (fit : Int → Int) (powerObj : List UInt8) (hx : x.Normalized)
    (h0 : x.sign ≠ 0) (hlen : x.length ≤ s.digits) :
    powerWith fit s x powerObj 0 = .ok (one s) := by
  have hbase : ¬(powerBase s x).sign = 0 := h0
  have hestimate : ¬powerOverflows (powerBase s x) (0 : Int).natAbs := fun hover => by
    have hlarge := (powerOverflows_iff (normalized_powerBase (s := s) hx) (by norm_num)).mp hover
    rw [Int.natAbs_zero, Nat.cast_zero, mul_zero] at hlarge
    exact absurd hlarge (by decide)
  unfold powerWith
  rw [if_neg (by decide), prepareNumber_powerBase hlen]
  simp only [Outcome.ok_bind, if_neg hbase, if_neg hestimate, if_true]
  rfl

theorem powerLaws (powerObj : List UInt8) (hD : 1 ≤ s.digits) (hx : x.Normalized)
    (hlen : x.length ≤ s.digits) (hn : n < 2 ^ 31)
    (hmemory : 4 * accumLength (powerDigits s n) ≤ 2 ^ 32) : PowerLaws s x powerObj n := by
  have hlong : (n : Int) ≠ noLong ∧ -(n : Int) ≠ noLong := by
    unfold noLong
    omega
  by_cases h0 : x.sign = 0
  · have hplus := fun fit => powerWith_zero fit powerObj h0 hlen hlong.1
    have hminus := fun fit => powerWith_zero fit powerObj h0 hlen hlong.2
    have hrat : x.toRat = 0 := (toRat_eq_zero_iff hx).mpr h0
    refine ⟨?_, fun hne => absurd h0 hne, fun hn0 => bitLoop_exponent hn0 hn,
      ⟨(hplus _).trans (hplus _).symm, (hminus _).trans (hminus _).symm⟩,
      fun hne => absurd h0 hne⟩
    unfold power
    rw [hplus, if_neg (by omega), hrat]
    split
    · case isTrue hzero =>
      have hn0 : n = 0 := by omega
      rw [hn0, pow_zero]
      exact fun _ => by simp [one, new, toRat, decimal, Decimal.toRat]
    · case isFalse hpos =>
      rw [zero_pow (by omega)]
      exact fun _ => by simp [zero, new, toRat]
  · rcases Nat.eq_zero_or_pos n with hzero | hpos
    · have hone := fun fit => powerWith_exponent_zero fit powerObj hx h0 hlen
      rw [hzero]
      refine ⟨?_, fun _ hn0 => absurd hn0 (by norm_num), fun hn0 => absurd hn0 (by norm_num),
        ⟨(hone _).trans (hone _).symm, (hone _).trans (hone _).symm⟩,
        fun _ hn0 => absurd hn0 (by norm_num)⟩
      unfold power
      rw [Nat.cast_zero, hone, pow_zero]
      exact fun _ => by simp [one, new, toRat, decimal, Decimal.toRat]
    · by_cases hest : |leadExp x| * n ≤ maxNum
      · exact PowerInput.laws ⟨hD, hx, h0, hlen, hpos, hn, hmemory, hest⟩ powerObj
      · have hover : powerOverflows (powerBase s x) n :=
          (powerOverflows_iff (normalized_powerBase hx) hn).mpr (not_le.mp hest)
        have hplus : ∀ fit, powerWith fit s x powerObj n =
            .error (.raised (.overflowOverflow x powerObj)) := by
          intro fit
          rw [powerWith_eq fit powerObj h0 hlen (by omega) hlong.1, Int.natAbs_natCast,
            if_pos hover]
        have hminus : ∀ fit, powerWith fit s x powerObj (-n) =
            .error (.raised (.overflowOverflow x powerObj)) := by
          intro fit
          rw [powerWith_eq fit powerObj h0 hlen (by omega) hlong.2, Int.natAbs_neg,
            Int.natAbs_natCast, if_pos hover]
        refine ⟨?_, fun _ _ => ?_, fun hn0 => bitLoop_exponent hn0 hn,
          ⟨(hplus _).trans (hplus _).symm, (hminus _).trans (hminus _).symm⟩,
          fun _ _ hle => absurd hle hest⟩
        · unfold power
          rw [hplus]
          exact not_le.mp hest
        · unfold power
          rw [hminus]
          exact not_le.mp hest

/-- The laws for `1.5 ** 7` and `1.5 ** -7` at nine digits. -/
theorem powerLaws_seventh :
    (⟨1, -1, [1, 5], 9, true⟩ : NumberString).Normalized ∧
      PowerLaws ⟨9, 0, .scientific⟩ ⟨1, -1, [1, 5], 9, true⟩ [55] 7 := by
  have hx : (⟨1, -1, [1, 5], 9, true⟩ : NumberString).Normalized :=
    normalized_iff.mpr (by decide)
  exact ⟨hx, powerLaws [55] (by decide) hx (by decide) (by norm_num)
    (by norm_num [powerDigits, accumLength])⟩

/--
At two digits the cube of 54 is held as `1575E+2`, to the four digits the accumulator has.  Its
reciprocal starts with 6.349, the reciprocal of the cube itself with 6.3506.
-/
theorem power_54_cube :
    power ⟨2, 0, .scientific⟩ ⟨1, 0, [5, 4], 2, true⟩ [45, 51] (-3) =
        .ok ⟨1, -7, [6, 3], 2, true⟩ ∧
      (⟨1, -7, [6, 3], 2, true⟩ : NumberString).toRat = 63 / 10 ^ 7 ∧
      roundHalfUp 2 (1 / (⟨1, 0, [5, 4], 2, true⟩ : NumberString).toRat ^ 3) = 64 / 10 ^ 7 := by
  have hbase : (⟨1, 0, [5, 4], 2, true⟩ : NumberString).toRat = 54 := by
    norm_num [toRat, decimal, Decimal.toRat, value, Nat.ofDigits_cons]
  have hround : roundHalfUp 2 (1 / (54 : ℚ) ^ 3) = ((635 + 5) / 10 : ℕ) * 10 ^ (-8 + 1 : ℤ) :=
    roundHalfUp_of_floor (by norm_num) (by norm_num) (by norm_num) (by norm_num)
  refine ⟨by decide, by norm_num [toRat, decimal, Decimal.toRat, value, Nat.ofDigits_cons], ?_⟩
  rw [hbase, hround]
  norm_num

end NumberString

end LeooRexx
