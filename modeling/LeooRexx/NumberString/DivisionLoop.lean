import LeooRexx.NumberString.Division

/-!
# The division loop

The invariant of the long division.  It relates the part of the dividend that
is left, the divisor and the quotient digits found so far to the two operands,
bounds every quotient digit, and counts the shifts so that the loop ends inside
its buffers.
-/

namespace LeooRexx

open Positional DecimalRounding

namespace NumberString

/-! ## The value of a state -/

def DivState.remainder (st : DivState) : Nat :=
  value 10 (st.num1.take st.leftLength)

def DivState.divisor (st : DivState) : Nat :=
  value 10 (st.num2.take st.rightLength)

def DivState.unit (left : NumberString) (numberDigits : Nat) (st : DivState) : Int :=
  left.exp -
    (totalDigits numberDigits - st.num1.length + st.leftLength - left.length)

/-! ## The invariant -/

structure DivNumbers (divOp : DivOp) (left right : NumberString) (D : Nat)
    (st : DivState) : Prop where
  num1_digits : IsDigits 10 st.num1
  leftLength_pos : 1 ≤ st.leftLength
  leading : st.leftLength = 1 ∨ 0 < st.num1.headD 0
  num1_zeros : value 10 (st.num1.drop st.leftLength) = 0
  room : (st.leftLength : Int) + D + 2 + st.calcExp ≤
    st.num1.length + startExp left right
  num2_eq : st.num2 = workBuffer right (totalDigits D)
  rightLength_eq : st.rightLength = right.length + st.rightPadding
  rightLength_le : st.rightLength ≤ max left.length right.length
  output_digits : IsDigits 10 st.output
  output_leading : st.output ≠ [] → 0 < st.output.headD 0
  divisor_eq : (st.divisor : ℚ) * 10 ^ st.unit left D =
    right.decimal.toRat * 10 ^ st.calcExp
  whole : divOp ≠ .divide → 0 ≤ st.calcExp

structure DivInvariant (divOp : DivOp) (left right : NumberString) (D : Nat)
    (st : DivState) : Prop extends DivNumbers divOp left right D st where
  below : st.thisDigit * st.divisor + st.remainder < 10 * st.divisor
  nonzero : st.thisDigit * st.divisor + st.remainder ≠ 0
  output_length : st.output.length ≤ D
  count_lower : st.output.length + st.calcExp ≤ startExp left right
  count_upper : startExp left right ≤ st.output.length + st.calcExp + 1
  fresh : st.output = [] →
    st.divisor ≤ st.thisDigit * st.divisor + st.remainder ∨
      st.calcExp = startExp left right ∧ st.thisDigit = 0 ∧
        st.leftLength = st.rightLength
  dividend_eq : (((10 * value 10 st.output + st.thisDigit) * st.divisor +
    st.remainder : ℕ) : ℚ) * 10 ^ st.unit left D = left.decimal.toRat

structure DivDone (divOp : DivOp) (left right : NumberString) (D rem : Nat)
    (st : DivState) : Prop extends DivNumbers divOp left right D st where
  below : rem < st.divisor
  last : rem = 0 → st.output ≠ [] → ¬ 10 ∣ value 10 st.output
  output_length : st.output.length ≤ D + 1
  output_ne : divOp = .divide → st.output ≠ []
  dividend_eq : ((value 10 st.output * st.divisor + rem : ℕ) : ℚ) *
    10 ^ st.unit left D = left.decimal.toRat
  stop : rem = 0 ∨ st.output.length = D + 1 ∨ divOp ≠ .divide ∧ st.calcExp = 0
  rem_eq : divOp = .remainder → st.remainder = rem
  leftLength_le : st.leftLength ≤ st.num1.length

variable {divOp : DivOp} {left right : NumberString} {D : Nat} {st : DivState}

theorem DivInvariant.leftLength_lt (h : DivInvariant divOp left right D st) :
    st.leftLength < st.num1.length := by
  have := h.room
  have := h.count_upper
  have := h.output_length
  omega

theorem workBuffer_digits {n : NumberString} (h : IsDigits 10 n.number) (k : Nat) :
    IsDigits 10 (workBuffer n k) :=
  isDigits_append.mpr ⟨h, isDigits_replicate_zero (by norm_num) _⟩

theorem length_workBuffer {n : NumberString} {k : Nat} (h : n.length ≤ k) :
    (workBuffer n k).length = k := by
  simp only [workBuffer, List.length_append, List.length_replicate, length] at h ⊢
  omega

theorem value_workBuffer_take {n : NumberString} {k padding : Nat}
    (h : n.length + padding ≤ k) :
    value 10 ((workBuffer n k).take (n.length + padding)) =
      value 10 n.number * 10 ^ padding := by
  rw [workBuffer, length, List.take_append, List.take_of_length_le (by omega),
    List.take_replicate, value_append_zeros]
  congr 2
  unfold length at h
  omega

theorem workBuffer_headD {n : NumberString} {k : Nat} (h : 0 < n.number.length) :
    (workBuffer n k).headD 0 = n.number.headD 0 := by
  cases hn : n.number with
  | nil => simp [hn] at h
  | cons d ds => simp [workBuffer, hn]

structure DivOperands (left right : NumberString) (D : Nat) : Prop where
  left_normalized : left.Normalized
  right_normalized : right.Normalized
  left_ne : left.sign ≠ 0
  right_ne : right.sign ≠ 0
  left_length : left.length ≤ D + 1
  right_length : right.length ≤ D + 1

theorem DivNumbers.num2_length (h : DivNumbers divOp left right D st)
    (ho : DivOperands left right D) : st.num2.length = totalDigits D := by
  have := ho.right_length
  rw [h.num2_eq, length_workBuffer]
  unfold totalDigits
  omega

theorem DivNumbers.num2_digits (h : DivNumbers divOp left right D st)
    (ho : DivOperands left right D) : IsDigits 10 st.num2 := by
  rw [h.num2_eq]
  exact workBuffer_digits ho.right_normalized.digits _

theorem DivNumbers.rightLength_bounds (h : DivNumbers divOp left right D st)
    (ho : DivOperands left right D) :
    1 ≤ st.rightLength ∧ st.rightLength ≤ D + 1 ∧
      st.rightLength ≤ st.num2.length := by
  have := ho.right_normalized.length_pos
  have := ho.left_length
  have := ho.right_length
  have := h.rightLength_eq
  have := h.rightLength_le
  rw [h.num2_length ho, totalDigits]
  omega

theorem DivNumbers.divisor_value (h : DivNumbers divOp left right D st)
    (ho : DivOperands left right D) :
    st.divisor = value 10 right.number * 10 ^ st.rightPadding := by
  have hlen := h.rightLength_bounds ho
  have heq := h.rightLength_eq
  rw [DivState.divisor, h.num2_eq, heq, value_workBuffer_take]
  unfold totalDigits
  omega

theorem DivNumbers.divisor_bounds (h : DivNumbers divOp left right D st)
    (ho : DivOperands left right D) :
    10 ^ (st.rightLength - 1) ≤ st.divisor ∧ st.divisor < 10 ^ st.rightLength := by
  obtain ⟨hpos, -, hle⟩ := h.rightLength_bounds ho
  have hdig := h.num2_digits ho
  obtain ⟨d, ds, hds, hd⟩ := ho.right_normalized.leading ho.right_ne
  have hhead : st.num2.headD 0 = d := by
    rw [h.num2_eq, workBuffer_headD (by simp [hds]), hds, List.headD_cons]
  constructor
  · obtain ⟨hlo, -⟩ := head_bounds hdig hpos hle
    rw [hhead] at hlo
    exact le_trans (Nat.le_mul_of_pos_left _ hd) hlo
  · have hlt := value_lt (b := 10) (by norm_num) (hdig.take st.rightLength)
    rwa [List.length_take, min_eq_left hle] at hlt

theorem DivNumbers.remainder_bounds (h : DivNumbers divOp left right D st)
    (hlen : st.leftLength ≤ st.num1.length) :
    (st.leftLength = 1 ∨ 10 ^ (st.leftLength - 1) ≤ st.remainder) ∧
      st.remainder < 10 ^ st.leftLength := by
  obtain ⟨hlo, -⟩ := head_bounds h.num1_digits h.leftLength_pos hlen
  have hlt := value_lt (b := 10) (by norm_num) (h.num1_digits.take st.leftLength)
  rw [List.length_take, min_eq_left hlen] at hlt
  refine ⟨h.leading.imp_right fun hpos => ?_, hlt⟩
  exact le_trans (Nat.le_mul_of_pos_left _ hpos) hlo

theorem DivNumbers.remainder_eq_zero_iff (h : DivNumbers divOp left right D st)
    (hlen : st.leftLength ≤ st.num1.length) :
    st.num1.headD 0 = 0 ↔ st.remainder = 0 := by
  have hlead := h.leading
  obtain ⟨hlo, hhi⟩ := head_bounds h.num1_digits h.leftLength_pos hlen
  change _ ≤ st.remainder at hlo
  change st.remainder < _ at hhi
  constructor
  · intro h0
    have h1 : st.leftLength = 1 := by omega
    rw [h0, h1] at hhi
    simpa using hhi
  · intro h0
    rw [h0, Nat.le_zero, Nat.mul_eq_zero] at hlo
    exact hlo.resolve_right (by positivity)

theorem DivInvariant.leftLength_le (h : DivInvariant divOp left right D st)
    (ho : DivOperands left right D) : st.leftLength ≤ st.rightLength + 1 := by
  obtain ⟨hlo, -⟩ := h.remainder_bounds h.leftLength_lt.le
  obtain ⟨-, hdiv⟩ := h.divisor_bounds ho
  have hbelow := h.below
  cases hlo with
  | inl h1 => omega
  | inr hlo =>
      have hpow : 10 ^ (st.leftLength - 1) < 10 ^ (st.rightLength + 1) := by
        rw [pow_succ 10 st.rightLength]
        omega
      have := (Nat.pow_lt_pow_iff_right (by norm_num)).mp hpow
      omega

/-! ## The guess -/

theorem bestGuess_spec {leading divChar divisor remainder w : Nat}
    (hdivisor : 10 * divisor ≤ divChar * w) (hleading : leading * w ≤ remainder)
    (hle : divisor ≤ remainder) :
    ∃ m, bestGuess leading divChar = .multiplier m ∧ 1 ≤ m ∧
      m * divisor ≤ remainder := by
  refine ⟨_, rfl, ?_⟩
  split_ifs with h0
  · exact ⟨le_rfl, by rwa [one_mul]⟩
  · exact ⟨Nat.one_le_iff_ne_zero.mpr h0, guess_le hdivisor hleading⟩

theorem guess_spec (h : DivInvariant divOp left right D st)
    (ho : DivOperands left right D) :
    (guess divOp (divChar st.num2 (max left.length right.length)) st =
        .ok .smaller ∧ st.remainder < st.divisor) ∨
      (guess divOp (divChar st.num2 (max left.length right.length)) st =
        .ok .equal ∧ st.remainder = st.divisor ∧ divOp ≠ .remainder) ∨
      ∃ m, guess divOp (divChar st.num2 (max left.length right.length)) st =
          .ok (.multiplier m) ∧ 1 ≤ m ∧ m * st.divisor ≤ st.remainder := by
  have hlt := h.leftLength_lt
  have hpos := h.leftLength_pos
  obtain ⟨hrpos, -, hrlen⟩ := h.rightLength_bounds ho
  have hdivChar := divChar_bound (h.num2_digits ho) hrpos h.rightLength_le hrlen
  change 10 * st.divisor ≤ _ at hdivChar
  have hdivisor := h.divisor_bounds ho
  obtain ⟨hrem, hrem'⟩ := h.remainder_bounds hlt.le
  rcases lt_trichotomy st.leftLength st.rightLength with hlr | hlr | hlr
  · left
    have hguess : guess divOp (divChar st.num2 (max left.length right.length)) st =
        .ok .smaller := by
      rw [guess, if_neg (by omega), if_neg (by omega)]
    refine ⟨hguess, lt_of_lt_of_le hrem' (le_trans ?_ hdivisor.1)⟩
    exact Nat.pow_le_pow_right (by norm_num) (by omega)
  · obtain ⟨hgt, hless, heq⟩ := memcmp_spec h.num1_digits (h.num2_digits ho) hlt.le
      (by omega : st.leftLength ≤ st.num2.length)
    have hdiv : value 10 (st.num2.take st.leftLength) = st.divisor := by
      rw [hlr]; rfl
    change _ ↔ _ < st.remainder at hgt
    change _ ↔ st.remainder < _ at hless
    rw [hdiv] at hgt hless
    rw [guess, if_pos hlr]
    by_cases hrc : memcmp st.num1 st.num2 st.leftLength < 0
    · exact .inl ⟨if_pos hrc, hless.mp hrc⟩
    · have hle : st.divisor ≤ st.remainder := not_lt.mp (mt hless.mpr hrc)
      right
      simp only [if_neg hrc]
      by_cases hrc0 : memcmp st.num1 st.num2 st.leftLength = 0 ∧ divOp ≠ .remainder
      · refine .inl ⟨if_pos hrc0, ?_, hrc0.2⟩
        rw [← hdiv, ← heq.mp hrc0.1]
        rfl
      · have hlead := (head_bounds h.num1_digits hpos hlt.le).1
        rw [hlr] at hlead
        obtain ⟨m, hm, hbounds⟩ := bestGuess_spec hdivChar hlead
          (by rw [← hlr]; exact hle)
        refine .inr ⟨m, ?_, by rw [← hlr] at hbounds; exact hbounds⟩
        rw [if_neg hrc0, readAt_zero (by omega), Outcome.ok_bind, hm]
        rfl
  · right; right
    have hlen := h.leftLength_le ho
    have hlen' : st.leftLength = st.rightLength + 1 := by omega
    have hlead := (head_two_bounds h.num1_digits (by omega) hlt.le).1
    rw [show st.leftLength - 2 = st.rightLength - 1 by omega] at hlead
    have hle : st.divisor ≤ st.remainder := by
      have := hrem.resolve_left (by omega)
      rw [hlen', Nat.add_sub_cancel] at this
      omega
    obtain ⟨m, hm, hbounds⟩ := bestGuess_spec hdivChar hlead hle
    refine ⟨m, ?_, hbounds⟩
    rw [guess, if_neg (by omega), if_pos hlr, readAt_zero (by omega),
      readAt_one (by omega), Outcome.ok_bind, Outcome.ok_bind, hm]
    rfl

/-! ## One step -/

theorem subtract_spec (h : DivInvariant divOp left right D st)
    (ho : DivOperands left right D) {m : Nat} (hm : 1 ≤ m)
    (hle : m * st.divisor ≤ st.remainder) :
    ∃ st', st.subtract m = .ok st' ∧ DivInvariant divOp left right D st' ∧
      st'.calcExp = st.calcExp ∧ st'.thisDigit = st.thisDigit + m ∧
      st'.divisor = st.divisor ∧
      st'.remainder + m * st.divisor = st.remainder := by
  have hlt := h.leftLength_lt
  obtain ⟨hrpos, -, hrlen⟩ := h.rightLength_bounds ho
  obtain ⟨hdivlo, -⟩ := h.divisor_bounds ho
  obtain ⟨-, hremlt⟩ := h.remainder_bounds hlt.le
  have hbelow := h.below
  have hdivle : st.divisor ≤ st.remainder := by
    have := Nat.mul_le_mul_right st.divisor hm
    omega
  have hm10 : m < 10 := by
    by_contra hge
    have := Nat.mul_le_mul_right st.divisor (not_lt.mp hge)
    omega
  have hlen : st.rightLength ≤ st.leftLength := by
    have := (Nat.pow_lt_pow_iff_right (a := 10) (by norm_num)).mp
      (lt_of_le_of_lt (hdivlo.trans hdivle) hremlt)
    omega
  obtain ⟨num1, hok, hdig, hlen1, hdrop, hval⟩ :=
    subtractDivisor_spec hm10 h.num1_digits (h.num2_digits ho) hlt.le hlen hle
  obtain ⟨num1', length', hskip, hdig', hpos', hle', hsum, hdrop', hval', hlead'⟩ :=
    skipZeros_spec hdig h.leftLength_pos (by omega)
  have hrem : value 10 (num1'.take length') + m * st.divisor = st.remainder := by
    rw [hval']
    exact hval
  obtain ⟨st', hst'⟩ : ∃ st', st' = { st with
    num1 := num1'
    leftLength := length'
    thisDigit := st.thisDigit + m } := ⟨_, rfl⟩
  have hsubtract : st.subtract m = .ok st' := by
    simp only [DivState.subtract, hok, Outcome.ok_bind, hskip, hst']
    rfl
  have hdivisor : st'.divisor = st.divisor := by rw [hst']; rfl
  have hremainder : st'.remainder + m * st.divisor = st.remainder := by
    rw [hst']
    exact hrem
  have hunit : st'.unit left D = st.unit left D := by
    rw [hst']
    unfold DivState.unit
    dsimp only
    omega
  have hroom := h.room
  refine ⟨st', hsubtract, ?_, by rw [hst'], by rw [hst'], hdivisor, hremainder⟩
  have hdigit : st'.thisDigit = st.thisDigit + m := by rw [hst']
  have hcalc : st'.calcExp = st.calcExp := by rw [hst']
  have hout : st'.output = st.output := by rw [hst']
  exact
    { num1_digits := by rw [hst']; exact hdig'
      leftLength_pos := by rw [hst']; exact hpos'
      leading := by rw [hst']; exact hlead'
      num1_zeros := by
        rw [hst']
        dsimp only
        rw [hdrop', hdrop]
        exact h.num1_zeros
      room := by rw [hst']; dsimp only; omega
      num2_eq := by rw [hst']; exact h.num2_eq
      rightLength_eq := by rw [hst']; exact h.rightLength_eq
      rightLength_le := by rw [hst']; exact h.rightLength_le
      output_digits := hout ▸ h.output_digits
      output_leading := hout ▸ h.output_leading
      divisor_eq := by rw [hdivisor, hunit, hcalc]; exact h.divisor_eq
      whole := hcalc ▸ h.whole
      below := by rw [hdigit, hdivisor, add_mul]; omega
      nonzero := by
        have := h.nonzero
        rw [hdigit, hdivisor, add_mul]
        omega
      output_length := hout ▸ h.output_length
      count_lower := by rw [hout, hcalc]; exact h.count_lower
      count_upper := by rw [hout, hcalc]; exact h.count_upper
      fresh := fun _ => by
        left
        rw [hdigit, hdivisor, add_mul]
        omega
      dividend_eq := by
        rw [← h.dividend_eq, hunit, hout, hdivisor, hdigit, ← hremainder]
        push_cast
        ring }

structure DigitEnd (divOp : DivOp) (left right : NumberString) (D : Nat)
    (st : DivState) : Prop extends DivNumbers divOp left right D st where
  below : st.remainder < st.divisor
  last : st.remainder = 0 → st.output ≠ [] → ¬ 10 ∣ value 10 st.output
  thisDigit_eq : st.thisDigit = 0
  output_length : st.output.length ≤ D + 1
  count_lower : st.output.length + st.calcExp ≤ startExp left right + 1
  count_upper : startExp left right ≤ st.output.length + st.calcExp
  fresh : st.output = [] → st.leftLength = st.rightLength ∧ st.remainder ≠ 0
  dividend_eq : ((value 10 st.output * st.divisor + st.remainder : ℕ) : ℚ) *
    10 ^ st.unit left D = left.decimal.toRat
  leftLength_lt : st.leftLength < st.num1.length

theorem DigitEnd.fresh_bounds (h : DigitEnd divOp left right D st)
    (ho : DivOperands left right D) (hout : st.output = []) :
    st.divisor < 10 * st.remainder := by
  obtain ⟨hlen, h0⟩ := h.fresh hout
  obtain ⟨hlo, -⟩ := h.remainder_bounds h.leftLength_lt.le
  obtain ⟨-, hdiv⟩ := h.divisor_bounds ho
  have hpos := h.leftLength_pos
  have hrem : 10 ^ (st.leftLength - 1) ≤ st.remainder := by
    cases hlo with
    | inl h1 =>
        rw [h1, Nat.sub_self, pow_zero]
        exact Nat.one_le_iff_ne_zero.mpr h0
    | inr hlo => exact hlo
  have hpow : 10 ^ st.rightLength = 10 * 10 ^ (st.leftLength - 1) := by
    rw [← hlen, ← pow_succ']
    congr 1
    omega
  omega

theorem shift_padding (h : DigitEnd divOp left right D st)
    (ho : DivOperands left right D) (hlen : st.output.length ≤ D)
    (hrem : st.remainder ≠ 0) (hwhole : divOp ≠ .divide → 0 < st.calcExp) (hpad : 0 < st.rightPadding) :
    DivInvariant divOp left right D st.shift := by
  obtain ⟨st', hst'⟩ : ∃ st', st' = { st with
    calcExp := st.calcExp - 1
    rightLength := st.rightLength - 1
    rightPadding := st.rightPadding - 1 } := ⟨_, rfl⟩
  have hshift : st.shift = st' := by rw [DivState.shift, if_pos hpad, hst']
  have hlens := h.rightLength_bounds ho
  have heq := h.rightLength_eq
  have hdivisor : st.divisor = 10 * st'.divisor := by
    rw [h.divisor_value ho, hst', DivState.divisor]
    dsimp only
    rw [h.num2_eq, show st.rightLength - 1 = right.length + (st.rightPadding - 1) by omega,
      value_workBuffer_take (by unfold totalDigits; omega), mul_left_comm, ← pow_succ']
    congr 2
    omega
  have hremainder : st'.remainder = st.remainder := by rw [hst']; rfl
  have hunit : st'.unit left D = st.unit left D := by rw [hst']; rfl
  have hcalc : st'.calcExp = st.calcExp - 1 := by rw [hst']
  have hout : st'.output = st.output := by rw [hst']
  have hdigit : st'.thisDigit = 0 := by rw [hst']; exact h.thisDigit_eq
  have hbelow := h.below
  have hpow : (10 : ℚ) ^ st.calcExp = 10 * 10 ^ (st.calcExp - 1) := by
    rw [← zpow_one_add₀ (by norm_num)]
    congr 1
    ring
  rw [hshift]
  exact
    { num1_digits := by rw [hst']; exact h.num1_digits
      leftLength_pos := by rw [hst']; exact h.leftLength_pos
      leading := by rw [hst']; exact h.leading
      num1_zeros := by rw [hst']; exact h.num1_zeros
      room := by
        have := h.room
        rw [hst']
        dsimp only
        omega
      num2_eq := by rw [hst']; exact h.num2_eq
      rightLength_eq := by rw [hst']; dsimp only; omega
      rightLength_le := by
        have := h.rightLength_le
        rw [hst']
        dsimp only
        omega
      output_digits := hout ▸ h.output_digits
      output_leading := hout ▸ h.output_leading
      divisor_eq := by
        have heq := h.divisor_eq
        rw [hdivisor, hpow] at heq
        rw [hunit, hcalc]
        push_cast at heq
        linarith
      whole := fun hop => by
        have := hwhole hop
        omega
      below := by rw [hdigit, hremainder]; omega
      nonzero := by rw [hdigit, hremainder]; omega
      output_length := hout ▸ hlen
      count_lower := by
        have := h.count_lower
        rw [hout, hcalc]
        omega
      count_upper := by
        have := h.count_upper
        rw [hout, hcalc]
        omega
      fresh := fun h0 => by
        have := h.fresh_bounds ho (hout ▸ h0)
        left
        rw [hremainder]
        omega
      dividend_eq := by
        rw [← h.dividend_eq, hunit, hout, hdigit, hremainder, hdivisor]
        push_cast
        ring }

theorem shift_extend (h : DigitEnd divOp left right D st)
    (ho : DivOperands left right D) (hlen : st.output.length ≤ D)
    (hrem : st.remainder ≠ 0) (hwhole : divOp ≠ .divide → 0 < st.calcExp)
    (hpad : ¬ 0 < st.rightPadding) :
    DivInvariant divOp left right D st.shift := by
  obtain ⟨st', hst'⟩ : ∃ st', st' = { st with
    calcExp := st.calcExp - 1
    leftLength := st.leftLength + 1 } := ⟨_, rfl⟩
  have hshift : st.shift = st' := by rw [DivState.shift, if_neg hpad, hst']
  have hlt := h.leftLength_lt
  have hcell : value 10 (st.num1.drop st.leftLength) =
      st.num1[st.leftLength] * 10 ^ (st.num1.length - st.leftLength - 1) +
        value 10 (st.num1.drop (st.leftLength + 1)) := by
    rw [List.drop_eq_getElem_cons hlt, value_cons, List.length_drop]
    congr 3
  have hzeros := h.num1_zeros
  rw [hcell, Nat.add_eq_zero_iff, Nat.mul_eq_zero] at hzeros
  have hzero : st.num1[st.leftLength] = 0 := hzeros.1.resolve_right (by positivity)
  have hremainder : st'.remainder = 10 * st.remainder := by
    rw [hst', DivState.remainder]
    dsimp only
    rw [List.take_succ_eq_append_getElem hlt, value_concat, hzero, add_zero, mul_comm]
    rfl
  have hdivisor : st'.divisor = st.divisor := by rw [hst']; rfl
  have hunit : st'.unit left D = st.unit left D - 1 := by
    rw [hst']
    unfold DivState.unit
    dsimp only
    push_cast
    ring
  have hcalc : st'.calcExp = st.calcExp - 1 := by rw [hst']
  have hout : st'.output = st.output := by rw [hst']
  have hdigit : st'.thisDigit = 0 := by rw [hst']; exact h.thisDigit_eq
  have hbelow := h.below
  have hpow : ∀ e : ℤ, (10 : ℚ) ^ e = 10 * 10 ^ (e - 1) := by
    intro e
    rw [← zpow_one_add₀ (by norm_num)]
    congr 1
    ring
  rw [hshift]
  exact
    { num1_digits := by rw [hst']; exact h.num1_digits
      leftLength_pos := by rw [hst']; exact Nat.succ_pos _
      leading := .inr (by
        rw [hst']
        exact Nat.pos_of_ne_zero (mt (h.remainder_eq_zero_iff hlt.le).mp hrem))
      num1_zeros := by rw [hst']; exact hzeros.2
      room := by
        have := h.room
        rw [hst']
        dsimp only
        omega
      num2_eq := by rw [hst']; exact h.num2_eq
      rightLength_eq := by rw [hst']; exact h.rightLength_eq
      rightLength_le := by rw [hst']; exact h.rightLength_le
      output_digits := hout ▸ h.output_digits
      output_leading := hout ▸ h.output_leading
      divisor_eq := by
        have heq := h.divisor_eq
        rw [hpow (st.unit left D), hpow st.calcExp] at heq
        rw [hunit, hcalc, hdivisor]
        linarith
      whole := fun hop => by
        have := hwhole hop
        omega
      below := by rw [hdigit, hremainder, hdivisor]; omega
      nonzero := by rw [hdigit, hremainder]; omega
      output_length := hout ▸ hlen
      count_lower := by
        have := h.count_lower
        rw [hout, hcalc]
        omega
      count_upper := by
        have := h.count_upper
        rw [hout, hcalc]
        omega
      fresh := fun h0 => by
        have := h.fresh_bounds ho (hout ▸ h0)
        left
        rw [hremainder, hdivisor]
        omega
      dividend_eq := by
        rw [← h.dividend_eq, hunit, hpow (st.unit left D), hout, hdigit, hremainder,
          hdivisor]
        push_cast
        ring }

theorem shift_spec (h : DigitEnd divOp left right D st)
    (ho : DivOperands left right D) (hlen : st.output.length ≤ D)
    (hrem : st.remainder ≠ 0) (hwhole : divOp ≠ .divide → 0 < st.calcExp) :
    DivInvariant divOp left right D st.shift ∧
      st.shift.calcExp = st.calcExp - 1 ∧ st.shift.thisDigit = st.thisDigit := by
  by_cases hpad : 0 < st.rightPadding
  · exact ⟨shift_padding h ho hlen hrem hwhole hpad, by simp [DivState.shift, hpad],
      by simp [DivState.shift, hpad]⟩
  · exact ⟨shift_extend h ho hlen hrem hwhole hpad, by simp [DivState.shift, hpad],
      by simp [DivState.shift, hpad]⟩

/-! ## Runs -/

theorem DivInvariant.thisDigit_lt (h : DivInvariant divOp left right D st) :
    st.thisDigit < 10 := by
  have hbelow := h.below
  by_contra hge
  have := Nat.mul_le_mul_right st.divisor (not_lt.mp hge)
  omega

theorem headD_append {ds : List Nat} (d : Nat) (h : ds ≠ []) :
    (ds ++ [d]).headD 0 = ds.headD 0 := by
  cases ds with
  | nil => exact absurd rfl h
  | cons x xs => rfl

@[simp] theorem storeDigit_output (st : DivState) (digit : Nat) :
    (st.storeDigit digit).output = st.output ++ [digit] := rfl

@[simp] theorem storeDigit_calcExp (st : DivState) (digit : Nat) :
    (st.storeDigit digit).calcExp = st.calcExp := rfl

@[simp] theorem storeDigit_divisor (st : DivState) (digit : Nat) :
    (st.storeDigit digit).divisor = st.divisor := rfl

@[simp] theorem storeDigit_remainder (st : DivState) (digit : Nat) :
    (st.storeDigit digit).remainder = st.remainder := rfl

@[simp] theorem storeDigit_unit (st : DivState) (digit : Nat) :
    (st.storeDigit digit).unit left D = st.unit left D := rfl

theorem storeDigit_numbers (h : DivInvariant divOp left right D st) {digit : Nat}
    (hdigit : digit < 10) (hlead : st.output = [] → 0 < digit) :
    DivNumbers divOp left right D (st.storeDigit digit) where
  num1_digits := h.num1_digits
  leftLength_pos := h.leftLength_pos
  leading := h.leading
  num1_zeros := h.num1_zeros
  room := h.room
  num2_eq := h.num2_eq
  rightLength_eq := h.rightLength_eq
  rightLength_le := h.rightLength_le
  output_digits := by
    rw [storeDigit_output, isDigits_append, isDigits_cons]
    exact ⟨h.output_digits, hdigit, isDigits_nil⟩
  output_leading := fun _ => by
    by_cases hout : st.output = []
    · simpa [hout] using hlead hout
    · rw [storeDigit_output, headD_append _ hout]
      exact h.output_leading hout
  divisor_eq := h.divisor_eq
  whole := h.whole

theorem storeDigit_equal (h : DivInvariant divOp left right D st)
    (ho : DivOperands left right D) (heq : st.remainder = st.divisor)
    (hop : divOp ≠ .remainder) :
    DivDone divOp left right D 0 (st.storeDigit (st.thisDigit + 1)) := by
  have hbelow := h.below
  have hlt : st.thisDigit + 1 < 10 := by
    by_contra hge
    have := Nat.mul_le_mul_right st.divisor (not_lt.mp hge)
    rw [add_mul] at this
    omega
  exact
    { storeDigit_numbers h hlt (fun _ => Nat.succ_pos _) with
      below := by
        have := (h.divisor_bounds ho).1
        have hpos : 0 < 10 ^ (st.rightLength - 1) := by positivity
        exact lt_of_lt_of_le hpos this
      last := fun _ _ => by
        rw [storeDigit_output, value_concat]
        omega
      output_length := by
        have := h.output_length
        rw [storeDigit_output, List.length_append, List.length_singleton]
        omega
      output_ne := fun _ => by simp
      dividend_eq := by
        have hdividend := h.dividend_eq
        rw [heq] at hdividend
        rw [← hdividend]
        rw [storeDigit_output, value_concat, storeDigit_divisor, storeDigit_unit]
        push_cast
        ring
      stop := .inl rfl
      rem_eq := fun h0 => absurd h0 hop
      leftLength_le := h.leftLength_lt.le }

theorem storeDigit_end (h : DivInvariant divOp left right D st)
    (hrem : st.remainder < st.divisor)
    (hout : st.output.length ≠ 0 ∨ st.thisDigit ≠ 0) :
    DigitEnd divOp left right D (st.storeDigit st.thisDigit) := by
  have hlead : st.output = [] → 0 < st.thisDigit := fun h0 => by
    rw [h0] at hout
    simpa [Nat.pos_iff_ne_zero] using hout
  have hlower := h.count_lower
  have hupper := h.count_upper
  have hlen : (st.storeDigit st.thisDigit).output.length = st.output.length + 1 := by
    simp
  exact
    { storeDigit_numbers h h.thisDigit_lt hlead with
      below := hrem
      last := fun h0 _ => by
        have hnonzero := h.nonzero
        have hdigit := h.thisDigit_lt
        rw [storeDigit_remainder] at h0
        rw [h0, add_zero, Nat.mul_ne_zero_iff] at hnonzero
        rw [storeDigit_output, value_concat]
        omega
      thisDigit_eq := rfl
      output_length := by rw [hlen]; exact Nat.succ_le_succ h.output_length
      count_lower := by
        rw [hlen, storeDigit_calcExp]
        omega
      count_upper := by
        rw [hlen, storeDigit_calcExp]
        omega
      fresh := fun h0 => by simp at h0
      dividend_eq := by
        rw [← h.dividend_eq]
        rw [storeDigit_output, value_concat, storeDigit_divisor, storeDigit_unit,
          storeDigit_remainder, mul_comm (value 10 st.output)]
      leftLength_lt := h.leftLength_lt }

theorem noDigit_end (h : DivInvariant divOp left right D st)
    (hrem : st.remainder < st.divisor) (hout : st.output = [])
    (hdigit : st.thisDigit = 0) : DigitEnd divOp left right D st := by
  have hfresh := (h.fresh hout).resolve_left (by rw [hdigit]; omega)
  have hnonzero := h.nonzero
  rw [hdigit, zero_mul, zero_add] at hnonzero
  have hlen : st.output.length = 0 := by rw [hout]; rfl
  exact
    { h.toDivNumbers with
      below := hrem
      last := fun _ hne => absurd hout hne
      thisDigit_eq := hdigit
      output_length := by omega
      count_lower := by omega
      count_upper := by omega
      fresh := fun _ => ⟨hfresh.2.2, hnonzero⟩
      dividend_eq := by
        have hdividend := h.dividend_eq
        rw [hout, hdigit] at hdividend
        rw [← hdividend, hout]
        simp
      leftLength_lt := h.leftLength_lt }

theorem DigitEnd.done (h : DigitEnd divOp left right D st)
    (hstop : st.remainder = 0 ∨ st.output.length = D + 1 ∨
      divOp ≠ .divide ∧ st.calcExp = 0)
    (hne : divOp = .divide → st.output ≠ []) :
    DivDone divOp left right D st.remainder st :=
  { h.toDivNumbers with
    below := h.below
    last := h.last
    output_length := h.output_length
    output_ne := hne
    dividend_eq := h.dividend_eq
    stop := hstop
    rem_eq := fun _ => rfl
    leftLength_le := h.leftLength_lt.le }

/--
A step ends the division, or keeps the invariant and comes closer to the end:
it lowers the exponent of the quotient or raises the current digit.
-/
def StepSpec (divOp : DivOp) (left right : NumberString) (D : Nat)
    (st : DivState) : Progress → Prop
  | .running st' =>
      DivInvariant divOp left right D st' ∧
        10 * st'.calcExp - st'.thisDigit < 10 * st.calcExp - st.thisDigit
  | .done st' => ∃ rem, DivDone divOp left right D rem st'

theorem endDigit_spec (h : DigitEnd divOp left right D st)
    (ho : DivOperands left right D) (hlen : st.output.length ≤ D)
    (hrem : st.remainder ≠ 0) {digit : Nat} (hdigit : digit < 10) :
    StepSpec divOp left right D { st with thisDigit := digit }
      (endDigit divOp (st.num1.headD 0) st) := by
  have hne := mt (h.remainder_eq_zero_iff h.leftLength_lt.le).mp hrem
  unfold endDigit
  by_cases hop : divOp ≠ .divide ∧ st.calcExp ≤ 0
  · rw [if_pos hop]
    have hwhole := h.whole hop.1
    exact ⟨st.remainder, h.done (.inr (.inr ⟨hop.1, by omega⟩))
      (fun h0 => absurd h0 hop.1)⟩
  · rw [if_neg hop, if_neg (fun h0 => hne h0.2)]
    obtain ⟨hinv, hcalc, hthis⟩ := shift_spec h ho hlen hrem
      (fun h0 => not_le.mp fun hle => hop ⟨h0, hle⟩)
    refine ⟨hinv, ?_⟩
    rw [hcalc, hthis, h.thisDigit_eq]
    dsimp only
    omega

theorem nextDigit_spec (h : DivInvariant divOp left right D st)
    (ho : DivOperands left right D) (hrem : st.remainder < st.divisor) :
    ∃ p, nextDigit divOp D st = .ok p ∧ StepSpec divOp left right D st p := by
  have hread := readAt_zero (Nat.zero_lt_of_lt h.leftLength_lt)
  have hzero := h.remainder_eq_zero_iff h.leftLength_lt.le
  unfold nextDigit
  rw [hread, Outcome.ok_bind]
  by_cases hout : st.output.length ≠ 0 ∨ st.thisDigit ≠ 0
  · rw [if_pos hout]
    have hend := storeDigit_end h hrem hout
    have hlen : (st.storeDigit st.thisDigit).output.length = st.output.length + 1 := by
      simp
    have holen := h.output_length
    by_cases hstop : st.num1.headD 0 = 0 ∨
        (st.storeDigit st.thisDigit).output.length > D
    · simp only [if_pos hstop]
      refine ⟨_, rfl, _, hend.done ?_ (fun _ => by simp)⟩
      exact hstop.imp hzero.mp fun hgt => .inl (by omega)
    · simp only [if_neg hstop]
      rw [not_or] at hstop
      exact ⟨_, rfl, endDigit_spec hend ho (by omega) (mt hzero.mpr hstop.1)
        h.thisDigit_lt⟩
  · rw [if_neg hout]
    simp only [not_or, not_not, List.length_eq_zero_iff] at hout
    have hend := noDigit_end h hrem hout.1 hout.2
    refine ⟨_, rfl, ?_⟩
    have hspec := endDigit_spec hend ho (by simp [hout.1]) (hend.fresh hout.1).2
      h.thisDigit_lt
    exact hspec

theorem divisionStep_spec (h : DivInvariant divOp left right D st)
    (ho : DivOperands left right D) :
    ∃ p, divisionStep divOp (divChar st.num2 (max left.length right.length)) D st =
        .ok p ∧ StepSpec divOp left right D st p := by
  unfold divisionStep
  rcases guess_spec h ho with ⟨hguess, hrem⟩ | ⟨hguess, heq, hop⟩ | ⟨m, hguess, hm, hle⟩
  · rw [hguess]
    exact nextDigit_spec h ho hrem
  · rw [hguess]
    exact ⟨_, rfl, 0, storeDigit_equal h ho heq hop⟩
  · obtain ⟨st', hok, hinv, hcalc, hdigit, -⟩ := subtract_spec h ho hm hle
    simp only [hguess, Outcome.ok_bind, hok]
    refine ⟨_, rfl, hinv, ?_⟩
    rw [hcalc, hdigit]
    push_cast
    omega

inductive DivReachable (divOp : DivOp) (left right : NumberString) (D : Nat) :
    DivState → Prop
  | start : DivReachable divOp left right D (divisionStart left right D)
  | step {st st' : DivState} (h : DivReachable divOp left right D st)
      (hstep : divisionStep divOp (divChar st.num2 (max left.length right.length)) D
        st = .ok (.running st')) : DivReachable divOp left right D st'

@[simp] theorem start_leftLength (left right : NumberString) (D : Nat) :
    (divisionStart left right D).leftLength = max left.length right.length := rfl

@[simp] theorem start_rightLength (left right : NumberString) (D : Nat) :
    (divisionStart left right D).rightLength = max left.length right.length := rfl

theorem start_num1_length (ho : DivOperands left right D) :
    (divisionStart left right D).num1.length = totalDigits D := by
  have hll := ho.left_length
  exact length_workBuffer (by unfold totalDigits; omega)

theorem start_numbers (ho : DivOperands left right D)
    (hwhole : divOp ≠ .divide → 0 ≤ startExp left right) :
    DivNumbers divOp left right D (divisionStart left right D) := by
  obtain ⟨d, ds, hds, hd⟩ := ho.left_normalized.leading ho.left_ne
  have hlpos := ho.left_normalized.length_pos
  have hll := ho.left_length
  have hrl := ho.right_length
  have hnum1 := start_num1_length ho
  have htotal : totalDigits D = (D + 1) * 2 + 1 := rfl
  have hdivisor : (divisionStart left right D).divisor =
      value 10 right.number * 10 ^ (left.length - right.length) := by
    rw [← value_workBuffer_take (k := totalDigits D) (by omega), DivState.divisor,
      start_rightLength]
    congr 2
    omega
  have hunit : (divisionStart left right D).unit left D =
      left.exp - (max left.length right.length - left.length) := by
    rw [DivState.unit, hnum1, start_leftLength]
    push_cast
    ring
  exact
    { num1_digits := workBuffer_digits ho.left_normalized.digits _
      leftLength_pos := by simp only [divisionStart]; omega
      leading := .inr (by
        rw [divisionStart, workBuffer_headD (by simp [hds]), hds]
        exact hd)
      num1_zeros := by
        simp only [divisionStart, workBuffer]
        rw [List.drop_append, List.drop_eq_nil_of_le (le_max_left left.length _),
          List.nil_append, List.drop_replicate, value_replicate_zero]
      room := by
        rw [hnum1, start_leftLength]
        change _ + startExp left right ≤ _
        omega
      num2_eq := rfl
      rightLength_eq := by simp only [divisionStart]; omega
      rightLength_le := le_rfl
      output_digits := isDigits_nil
      output_leading := fun h => absurd rfl h
      divisor_eq := by
        rw [hdivisor, hunit, Decimal.toRat]
        change _ = _ * 10 ^ startExp left right
        push_cast
        rw [mul_assoc, mul_assoc, ← zpow_natCast, ← zpow_add₀ (by norm_num),
          ← zpow_add₀ (by norm_num)]
        congr 2
        simp only [startExp, decimal]
        omega
      whole := hwhole }

theorem start_invariant (ho : DivOperands left right D)
    (hwhole : divOp ≠ .divide → 0 ≤ startExp left right) :
    DivInvariant divOp left right D (divisionStart left right D) := by
  have hnumbers := start_numbers ho hwhole
  have hlpos := ho.left_normalized.length_pos
  have hll := ho.left_length
  have hrl := ho.right_length
  have hnum1 := start_num1_length ho
  have htotal : totalDigits D = (D + 1) * 2 + 1 := rfl
  have hlen : (divisionStart left right D).leftLength ≤
      (divisionStart left right D).num1.length := by
    rw [hnum1, start_leftLength]
    omega
  have hremainder : (divisionStart left right D).remainder =
      value 10 left.number * 10 ^ (max left.length right.length - left.length) := by
    rw [← value_workBuffer_take (k := totalDigits D) (by omega), DivState.remainder,
      start_leftLength]
    congr 2
    omega
  have hrem0 : (divisionStart left right D).remainder ≠ 0 := by
    rw [hremainder]
    exact Nat.mul_ne_zero (ho.left_normalized.value_ne_zero ho.left_ne) (by positivity)
  exact
    { hnumbers with
      below := by
        have hrem := (hnumbers.remainder_bounds hlen).2
        have hdiv := (hnumbers.divisor_bounds ho).1
        have hpow : 10 ^ (divisionStart left right D).leftLength =
            10 * 10 ^ ((divisionStart left right D).rightLength - 1) := by
          rw [← pow_succ']
          congr 1
          rw [start_leftLength, start_rightLength]
          omega
        have hdigit : (divisionStart left right D).thisDigit = 0 := rfl
        rw [hdigit]
        omega
      nonzero := by
        rw [show (divisionStart left right D).thisDigit = 0 from rfl, zero_mul, zero_add]
        exact hrem0
      output_length := Nat.zero_le _
      count_lower := by simp [divisionStart]
      count_upper := by simp [divisionStart]
      fresh := fun _ => .inr ⟨rfl, rfl, rfl⟩
      dividend_eq := by
        have hvalue : (10 * value 10 (divisionStart left right D).output +
            (divisionStart left right D).thisDigit) *
              (divisionStart left right D).divisor +
            (divisionStart left right D).remainder =
            value 10 left.number *
              10 ^ (max left.length right.length - left.length) := by
          rw [hremainder]
          simp [divisionStart]
        have hunit : (divisionStart left right D).unit left D =
            left.exp - ((max left.length right.length - left.length : ℕ) : Int) := by
          rw [DivState.unit, hnum1, start_leftLength]
          omega
        rw [hvalue, hunit, Decimal.toRat]
        push_cast
        rw [mul_assoc, ← zpow_natCast, ← zpow_add₀ (by norm_num)]
        congr 2
        simp only [decimal]
        omega }

theorem DivReachable.invariant (h : DivReachable divOp left right D st)
    (ho : DivOperands left right D)
    (hwhole : divOp ≠ .divide → 0 ≤ startExp left right) :
    DivInvariant divOp left right D st := by
  induction h with
  | start => exact start_invariant ho hwhole
  | step _ hstep ih =>
      obtain ⟨p, hok, hspec⟩ := divisionStep_spec ih ho
      rw [hstep] at hok
      cases hok
      exact hspec.1

theorem divisionLoop_ok (fuel : Nat) (h : DivInvariant divOp left right D st)
    (ho : DivOperands left right D)
    (hfuel : 10 * st.calcExp - st.thisDigit <
      10 * startExp left right - 10 * (D + 1) - 9 + fuel) :
    ∃ st' rem,
      divisionLoop divOp (divChar st.num2 (max left.length right.length)) D fuel st =
          .ok st' ∧ DivDone divOp left right D rem st' := by
  induction fuel generalizing st with
  | zero =>
      have := h.count_upper
      have := h.output_length
      have := h.thisDigit_lt
      omega
  | succ fuel ih =>
      obtain ⟨p, hok, hspec⟩ := divisionStep_spec h ho
      rw [divisionLoop, hok]
      cases p with
      | running st₁ =>
          obtain ⟨hinv, hless⟩ := hspec
          have hnum2 : st₁.num2 = st.num2 := hinv.num2_eq.trans h.num2_eq.symm
          rw [← hnum2]
          exact ih hinv (by push_cast at hfuel; omega)
      | done st₁ =>
          obtain ⟨rem, hdone⟩ := hspec
          exact ⟨st₁, rem, rfl, hdone⟩

end NumberString

end LeooRexx
