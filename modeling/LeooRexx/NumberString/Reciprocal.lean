import LeooRexx.NumberString.Power

/-!
# The reciprocal of a power

`DividePower` divides the digit 1 by the accumulator.  The loops are those of a division whose
numbers may have any exponent: the exponent of the quotient is only counted down, so a division
with another exponent runs through the same states.
-/

namespace LeooRexx

open Positional DecimalRounding SquareMultiply

namespace NumberString

def DivState.shiftExp (c : Int) (st : DivState) : DivState := { st with calcExp := st.calcExp + c }

def Progress.shiftExp (c : Int) : Progress → Progress
  | .running st => .running (st.shiftExp c)
  | .done st => .done (st.shiftExp c)

variable {N : Nat}

/-! ## Runs with another exponent -/

theorem shift_shiftExp (c : Int) (st : DivState) :
    (st.shiftExp c).shift = st.shift.shiftExp c := by
  have hcomm : st.calcExp + c - 1 = st.calcExp - 1 + c := by omega
  unfold DivState.shift DivState.shiftExp
  dsimp only
  rw [hcomm]
  split <;> rfl

theorem endDigit_shiftExp (c : Int) (first : Nat) (st : DivState) :
    endDigit .divide first (st.shiftExp c) = (endDigit .divide first st).shiftExp c := by
  have hdivide : ∀ e : Int, ¬(DivOp.divide ≠ .divide ∧ e ≤ 0) := fun e h => h.1 rfl
  unfold endDigit
  rw [if_neg (hdivide _), if_neg (hdivide _), shift_shiftExp]
  change (if st.leftLength = 1 ∧ first = 0 then _ else _) = _
  split <;> rfl

theorem nextDigit_shiftExp (c : Int) (st : DivState) :
    nextDigit .divide N (st.shiftExp c) = Progress.shiftExp c <$> nextDigit .divide N st := by
  unfold nextDigit
  change (readAt st.num1 0 >>= _) = _ <$> (readAt st.num1 0 >>= _)
  cases readAt st.num1 0 with
  | error fault => rfl
  | ok first =>
      simp only [Outcome.ok_bind]
      have hstore : (st.shiftExp c).storeDigit (st.shiftExp c).thisDigit =
          (st.storeDigit st.thisDigit).shiftExp c := rfl
      rw [hstore, endDigit_shiftExp, endDigit_shiftExp]
      change (if st.output.length ≠ 0 ∨ st.thisDigit ≠ 0 then
        (if first = 0 ∨ (st.storeDigit st.thisDigit).output.length > N then _ else _) else _) = _
      split
      · split <;> rfl
      · rfl

theorem divisionStep_shiftExp (c : Int) (divChar : Nat) (st : DivState) :
    divisionStep .divide divChar N (st.shiftExp c) =
      Progress.shiftExp c <$> divisionStep .divide divChar N st := by
  have hguess : guess .divide divChar (st.shiftExp c) = guess .divide divChar st := rfl
  unfold divisionStep
  rw [hguess]
  cases guess .divide divChar st with
  | error fault => rfl
  | ok found =>
      cases found with
      | smaller => exact nextDigit_shiftExp c st
      | equal => rfl
      | multiplier m =>
          change ((st.shiftExp c).subtract m >>= _) = _ <$> (st.subtract m >>= _)
          unfold DivState.subtract
          change (subtractDivisor st.num1 st.leftLength st.num2 st.rightLength m >>= _) >>= _ =
            _ <$> ((subtractDivisor st.num1 st.leftLength st.num2 st.rightLength m >>= _) >>= _)
          cases subtractDivisor st.num1 st.leftLength st.num2 st.rightLength m <;> rfl

theorem divisionLoop_shiftExp (c : Int) (divChar fuel : Nat) (st : DivState) :
    divisionLoop .divide divChar N fuel (st.shiftExp c) =
      DivState.shiftExp c <$> divisionLoop .divide divChar N fuel st := by
  induction fuel generalizing st with
  | zero => rfl
  | succ fuel ih =>
      rw [divisionLoop, divisionLoop, divisionStep_shiftExp]
      cases divisionStep .divide divChar N st with
      | error fault => rfl
      | ok p =>
          cases p with
          | running st => exact ih st
          | done st => rfl

theorem DivReachable.shiftExp {left left' right right' : NumberString} {c : Int}
    (hstart : divisionStart left right N = (divisionStart left' right' N).shiftExp c)
    (hlength : max left.length right.length = max left'.length right'.length) {st : DivState}
    (h : DivReachable .divide left right N st) :
    ∃ st', st = st'.shiftExp c ∧ DivReachable .divide left' right' N st' := by
  induction h with
  | start => exact ⟨_, hstart, .start⟩
  | step _ hstep ih =>
      obtain ⟨st', rfl, hreach⟩ := ih
      rw [divisionStep_shiftExp] at hstep
      change Progress.shiftExp c <$> divisionStep .divide
        (divChar st'.num2 (max left.length right.length)) N st' = _ at hstep
      rw [hlength] at hstep
      cases hrun : divisionStep .divide (divChar st'.num2 (max left'.length right'.length)) N
          st' with
      | error fault =>
          rw [hrun] at hstep
          cases hstep
      | ok p =>
          rw [hrun] at hstep
          cases p with
          | running st₁ =>
              cases hstep
              exact ⟨st₁, rfl, .step hreach hrun⟩
          | done st₁ => cases hstep

/-! ## The reciprocal -/

variable {left : NumberString} {sign : Int} {d : Decimal}

theorem operands_dividend (left : NumberString) (hN : 1 ≤ N) (hmemory : N ≤ 2 ^ 29)
    (hsign : sign = -1 ∨ sign = 1) (hd : d.coeff ≠ 0) (hlt : d.coeff < 10 ^ N) :
    DivOperands (dividend left) (accumulated left sign ⟨d.coeff, 0⟩) N := by
  have hlen := length_numeral_le_of_lt (b := 10) (by norm_num) hlt
  obtain ⟨x, xs, hx, hpos⟩ := numeral_eq_cons (b := 10) hd
  refine ⟨⟨Or.inr (Or.inr rfl), ?_, ?_, ?_, ?_, ?_⟩, ⟨?_, isDigits_numeral (by norm_num) _, ?_,
    fun _ => ⟨x, xs, hx, hpos⟩, ?_, ?_⟩, ?_, ?_, ?_, ?_⟩
  · simp [dividend]
  · exact fun h => absurd h (one_ne_zero : (1 : Int) ≠ 0)
  · exact fun _ => ⟨1, [], rfl, one_pos⟩
  · simp [dividend, maxNum]
  · simp [dividend, length, maxNum]
  · rcases hsign with hs | hs
    · exact Or.inl hs
    · exact Or.inr (Or.inr hs)
  · intro h0
    change sign = 0 at h0
    omega
  · simp [accumulated, maxNum]
  · change (0 : Int) + (numeral 10 d.coeff).length - 1 ≤ maxNum
    unfold maxNum
    omega
  · exact (one_ne_zero : (1 : Int) ≠ 0)
  · change sign ≠ 0
    omega
  · simp [dividend, length]
  · exact hlen.trans (Nat.le_succ N)

theorem lead_eq_length (hd : d.coeff ≠ 0) :
    d.lead = d.exp + (numeral 10 d.coeff).length - 1 := by
  rw [length_numeral (by norm_num) hd, Decimal.lead]
  push_cast
  ring

theorem start_dividend (N : Nat) (left : NumberString) (sign : Int) (hd : d.coeff ≠ 0) :
    divisionStart (dividend left) (accumulated left sign d) N =
        (divisionStart (dividend left) (accumulated left sign ⟨d.coeff, 0⟩) N).shiftExp (-d.exp) ∧
      startExp (dividend left) (accumulated left sign d) = -d.lead ∧
      startExp (dividend left) (accumulated left sign ⟨d.coeff, 0⟩) = -d.lead + d.exp := by
  have hlead := lead_eq_length hd
  have hexp : startExp (dividend left) (accumulated left sign d) = -d.lead := by
    simp only [startExp, dividend, accumulated, length, List.length_singleton]
    omega
  have hexp0 : startExp (dividend left) (accumulated left sign ⟨d.coeff, 0⟩) =
      -d.lead + d.exp := by
    simp only [startExp, dividend, accumulated, length, List.length_singleton]
    omega
  refine ⟨?_, hexp, hexp0⟩
  have hshift : startExp (dividend left) (accumulated left sign d) =
      startExp (dividend left) (accumulated left sign ⟨d.coeff, 0⟩) + -d.exp := by
    rw [hexp, hexp0]
    ring
  unfold divisionStart DivState.shiftExp
  rw [hshift]
  rfl

theorem calcExp_bounds (left : NumberString) (hN : 1 ≤ N) (hmemory : N ≤ 2 ^ 29)
    (hsign : sign = -1 ∨ sign = 1) (hd : d.coeff ≠ 0) (hlt : d.coeff < 10 ^ N) {st : DivState}
    (h : DivReachable .divide (dividend left) (accumulated left sign d) N st) :
    -d.lead - N - 1 ≤ st.calcExp ∧ st.calcExp ≤ -d.lead := by
  obtain ⟨hstart, -, hexp0⟩ := start_dividend N left sign hd
  obtain ⟨st', rfl, hreach⟩ := h.shiftExp hstart rfl
  have hinv := hreach.invariant (operands_dividend left hN hmemory hsign hd hlt)
    fun hne => absurd rfl hne
  have hlower := hinv.count_lower
  have hupper := hinv.count_upper
  have hout := hinv.output_length
  change -d.lead - N - 1 ≤ st'.calcExp + -d.exp ∧ st'.calcExp + -d.exp ≤ -d.lead
  omega

theorem dividePower_eq {fit : Int → Int} (left : NumberString) (hN : 1 ≤ N)
    (hmemory : N ≤ 2 ^ 29) (hsign : sign = -1 ∨ sign = 1) (hd : d.coeff ≠ 0)
    (hlt : d.coeff < 10 ^ N) (hfit : fit (-d.lead) = -d.lead) :
    ∃ c x, dividePower fit (accumulated left sign d) N = .ok (accumulated left sign ⟨c, x⟩) ∧
      c ≠ 0 ∧ (c : ℚ) * 10 ^ x ≤ 1 / d.toRat ∧ 1 / d.toRat < (c + 1) * 10 ^ x ∧
      (10 ^ N ≤ c ∨ 1 / d.toRat = c * 10 ^ x) := by
  have ho := operands_dividend left hN hmemory hsign hd hlt
  obtain ⟨hstart, hexp, hexp0⟩ := start_dividend N left sign hd
  obtain ⟨st, rem, hloop, hdone⟩ := divisionLoop_ok (divisionFuel N)
    (start_invariant ho fun hne => absurd rfl hne) ho (by simp [divisionStart, divisionFuel]; omega)
  have hne := hdone.output_ne rfl
  obtain ⟨hlo, hhi, hout⟩ := output_bounds hdone.output_digits hne (hdone.output_leading hne)
  obtain ⟨hcut, hnext, hexact⟩ := hdone.quotient_bounds ho
  have hone : (dividend left).decimal.toRat = 1 := by
    simp [dividend, decimal, Decimal.toRat]
  have hdecimal : (accumulated left sign ⟨d.coeff, 0⟩).decimal.toRat = d.coeff := by
    simp [accumulated, decimal, Decimal.toRat]
  have hscale : ∀ q : ℚ, q * 10 ^ (st.calcExp + -d.exp) = q * 10 ^ st.calcExp * 10 ^ (-d.exp) := by
    intro q
    rw [zpow_add₀ (by norm_num), mul_assoc]
  have hrecip : 1 / d.toRat = 1 / (d.coeff : ℚ) * 10 ^ (-d.exp) := by
    rw [Decimal.toRat, zpow_neg]
    field_simp
  have hpos : (0 : ℚ) < 10 ^ (-d.exp) := by positivity
  rw [hone, hdecimal] at hcut hnext hexact
  refine ⟨value 10 st.output, st.calcExp + -d.exp, ?_, ?_, ?_, ?_, ?_⟩
  · have hfirst : { divisionStart (dividend (accumulated left sign d)) (accumulated left sign d) N
        with calcExp :=
          fit (-(accumulated left sign d).exp - (accumulated left sign d).length + 1) } =
        (divisionStart (dividend left) (accumulated left sign ⟨d.coeff, 0⟩) N).shiftExp
          (-d.exp) := by
      have hlead := lead_eq_length hd
      have hcalc : -(accumulated left sign d).exp - (accumulated left sign d).length + 1 =
          -d.lead := by
        simp only [accumulated, length]
        omega
      rw [hcalc, hfit, ← hexp, ← hstart]
      rfl
    unfold dividePower
    change (divisionLoop _ _ _ _ { divisionStart (dividend (accumulated left sign d))
      (accumulated left sign d) N with calcExp := _ } >>= _) = _
    rw [hfirst, divisionLoop_shiftExp]
    change (DivState.shiftExp (-d.exp) <$> divisionLoop .divide
      (divChar (divisionStart (dividend left) (accumulated left sign ⟨d.coeff, 0⟩) N).num2
        (max (dividend left).length (accumulated left sign ⟨d.coeff, 0⟩).length)) N
      (divisionFuel N) (divisionStart (dividend left) (accumulated left sign ⟨d.coeff, 0⟩) N) >>=
      _) = _
    rw [hloop]
    change Except.ok _ = Except.ok _
    unfold accumulated DivState.shiftExp
    rw [← hout]
  · have hpow : 0 < 10 ^ (st.output.length - 1) := by positivity
    omega
  · rw [hscale, hrecip]
    exact mul_le_mul_of_nonneg_right hcut hpos.le
  · rw [hscale, hrecip]
    exact mul_lt_mul_of_pos_right hnext hpos
  · rcases hdone.stop with hzero | hfull | ⟨hne', -⟩
    · right
      rw [hscale, hrecip, hexact.mp hzero]
    · left
      rwa [hfull, Nat.add_sub_cancel] at hlo
    · exact absurd rfl hne'

theorem dividePower_congr {fit fit' : Int → Int} (accum : NumberString)
    (h : fit (-accum.exp - accum.length + 1) = fit' (-accum.exp - accum.length + 1)) :
    dividePower fit accum N = dividePower fit' accum N := by
  unfold dividePower
  rw [h]

end NumberString

end LeooRexx
