import LeooRexx.NumberString.Basic

/-!
# Precision

The routines that fit a result into the precision of an operation, as
operations on a coefficient and an exponent.  `Rounds` is what an arithmetic
operator promises about its result.
-/

namespace LeooRexx

open Positional DecimalRounding

namespace NumberString

/-! ## What the precision routines compute -/

private theorem roundCarry_spec (ds : List Nat) (h : IsDigits 10 ds) :
    (roundCarry ds).1.length = ds.length ∧ IsDigits 10 (roundCarry ds).1 ∧
      value 10 (roundCarry ds).1.reverse +
          (if (roundCarry ds).2 then 10 ^ ds.length else 0) =
        value 10 ds.reverse + 1 := by
  induction ds with
  | nil => simp [roundCarry]
  | cons d rest ih =>
      obtain ⟨hd, hrest⟩ := isDigits_cons.mp h
      obtain ⟨hlen, hdig, hval⟩ := ih hrest
      by_cases h9 : d = 9
      · subst h9
        simp only [roundCarry, if_true, List.length_cons, hlen, isDigits_cons,
          value_reverse_cons, pow_succ]
        refine ⟨trivial, ⟨by norm_num, hdig⟩, ?_⟩
        cases hc : (roundCarry rest).2 <;> simp only [hc] at hval ⊢ <;>
          simp at hval ⊢ <;> omega
      · simp only [roundCarry, h9, if_false, List.length_cons, isDigits_cons,
          value_reverse_cons]
        refine ⟨trivial, ⟨by omega, hrest⟩, ?_⟩
        simp
        omega

theorem eq_replicate_zero_of_value {ds : List Nat} (h : IsDigits 10 ds)
    (hv : value 10 ds = 0) : ds = List.replicate ds.length 0 :=
  value_inj (by norm_num) (by simp) h (isDigits_replicate_zero (by norm_num) _)
    (by simpa using hv)

theorem roundUpAt_spec {digits : List Nat} {next : Nat} (exp : Int)
    (h : IsDigits 10 digits) (hnext : next < 10) (hpos : 0 < digits.length) :
    (roundUpAt digits next exp).1.length = digits.length ∧
      IsDigits 10 (roundUpAt digits next exp).1 ∧
      ((value 10 (roundUpAt digits next exp).1 =
            (value 10 digits * 10 + next + 5) / 10 ∧
          (roundUpAt digits next exp).2 = exp) ∨
        ((value 10 digits * 10 + next + 5) / 10 = 10 ^ digits.length ∧
          (roundUpAt digits next exp).1 =
            1 :: List.replicate (digits.length - 1) 0 ∧
          (roundUpAt digits next exp).2 = exp + 1)) := by
  by_cases h5 : next ≥ 5
  · have hr : (value 10 digits * 10 + next + 5) / 10 = value 10 digits + 1 := by
      omega
    obtain ⟨hlen, hdig, hval⟩ :=
      roundCarry_spec digits.reverse (isDigits_reverse.mpr h)
    rw [List.reverse_reverse, List.length_reverse] at hval
    rw [List.length_reverse] at hlen
    unfold roundUpAt
    rw [if_pos h5, hr]
    rcases hc : roundCarry digits.reverse with ⟨rounded, carry⟩
    rw [hc] at hlen hdig hval
    cases carry with
    | false =>
        refine ⟨by simpa using hlen, isDigits_reverse.mpr hdig, .inl ⟨?_, rfl⟩⟩
        simpa using hval
    | true =>
        have hlt := value_lt (by norm_num) h
        have hzero : value 10 rounded.reverse = 0 := by
          simp only [if_true] at hval
          omega
        have hrep := eq_replicate_zero_of_value (isDigits_reverse.mpr hdig) hzero
        have hset : rounded.reverse.set 0 1 =
            1 :: List.replicate (digits.length - 1) 0 := by
          rw [hrep, List.length_reverse, hlen]
          obtain ⟨k, hk⟩ : ∃ k, digits.length = k + 1 := ⟨_, (Nat.succ_pred_eq_of_pos hpos).symm⟩
          simp [hk, List.replicate_succ]
        simp only [hset]
        refine ⟨by rw [List.length_cons, List.length_replicate]; omega, ?_,
          .inr ⟨?_, trivial, trivial⟩⟩
        · exact isDigits_cons.mpr ⟨by norm_num, isDigits_replicate_zero (by norm_num) _⟩
        · simp only [if_true] at hval
          omega
  · have hout : roundUpAt digits next exp = (digits, exp) := if_neg h5
    rw [hout]
    refine ⟨rfl, h, .inl ⟨?_, rfl⟩⟩
    change value 10 digits = _
    omega

theorem stripLeadingZeros_spec {ds : List Nat} (h : IsDigits 10 ds)
    (hne : ds ≠ []) :
    stripLeadingZeros ds =
      if value 10 ds = 0 then [0] else numeral 10 (value 10 ds) := by
  induction ds using stripLeadingZeros.induct with
  | case1 d ds ih =>
      rw [stripLeadingZeros, ih (isDigits_cons.mp h).2 (by simp), value_zero_cons]
  | case2 ds hstop =>
      match ds, hne with
      | [0], _ => simp [stripLeadingZeros]
      | 0 :: d :: ds, _ => exact absurd rfl (hstop d ds)
      | (d + 1) :: ds, _ =>
          have hv := le_value_cons (b := 10) (Nat.add_one_pos d) ds
          have hpos : 0 < 10 ^ ds.length := by positivity
          rw [if_neg (by omega), stripLeadingZeros,
            ← eq_numeral (by norm_num) h (Nat.add_one_pos d)]
          rintro _ _ ⟨⟩

theorem stripLeadingZeros_numeral {c : Nat} (hc : c ≠ 0) :
    stripLeadingZeros (numeral 10 c) = numeral 10 c := by
  obtain ⟨d, ds, hds, -⟩ := numeral_eq_cons (b := 10) hc
  rw [stripLeadingZeros_spec (isDigits_numeral (by norm_num) c) (by simp [hds]),
    value_numeral, if_neg hc]

theorem mathRound_numeral {D c : Nat} {e : Int} {r : Decimal} (hD : 1 ≤ D)
    (hc : 10 ^ D ≤ c) (hr : (⟨c, e⟩ : Decimal).round D = r) :
    mathRound (numeral 10 c) D (e + ((numeral 10 c).length - D)) = do
      checkExponent r.exp D
      return (numeral 10 r.coeff, r.exp) := by
  have hc0 : c ≠ 0 := by
    have : 0 < 10 ^ D := by positivity
    omega
  have hlen := length_numeral (b := 10) (by norm_num) hc0
  have hlog : D ≤ Nat.log 10 c := Nat.le_log_of_pow_le (by norm_num) hc
  have hlt : D < (numeral 10 c).length := by omega
  have hdig := isDigits_numeral (b := 10) (by norm_num) c
  have htake : value 10 ((numeral 10 c).take D) * 10 + (numeral 10 c)[D] =
      c / 10 ^ (Nat.log 10 c - D) := by
    have := value_take (by norm_num) hdig (D + 1)
    rw [List.take_succ_eq_append_getElem hlt, value_concat, value_numeral,
      hlen] at this
    rw [this]
    congr 2
    omega
  obtain ⟨hcut, hcut'⟩ := Decimal.cut_bounds hc
  obtain ⟨hl, hd, hv⟩ := roundUpAt_spec
    (e + ((numeral 10 c).length - D)) (hdig.take D)
    (hdig _ (List.getElem_mem hlt)) (by rw [List.length_take]; omega)
  rw [htake, List.length_take, min_eq_left hlt.le] at hv
  rw [List.length_take, min_eq_left hlt.le] at hl
  have hr : r = if (c / 10 ^ (Nat.log 10 c - D) + 5) / 10 = 10 ^ D then
      ⟨10 ^ (D - 1), e + (Nat.log 10 c - D : ℕ) + 2⟩
      else ⟨(c / 10 ^ (Nat.log 10 c - D) + 5) / 10,
        e + (Nat.log 10 c - D : ℕ) + 1⟩ := by
    simp [← hr, Decimal.round, not_lt.mpr hc]
  suffices h : roundUpAt ((numeral 10 c).take D) (numeral 10 c)[D]
      (e + ((numeral 10 c).length - D)) = (numeral 10 r.coeff, r.exp) by
    rw [mathRound, List.getElem?_eq_getElem hlt]
    simp only [h]
  have hexp : e + (((numeral 10 c).length : Int) - D) =
      e + (Nat.log 10 c - D : ℕ) + 1 := by
    omega
  generalize roundUpAt ((numeral 10 c).take D) (numeral 10 c)[D]
      (e + ((numeral 10 c).length - D)) = out at hl hd hv ⊢
  have hq : 10 ^ (D - 1) ≤ (c / 10 ^ (Nat.log 10 c - D) + 5) / 10 := by
    obtain ⟨j, rfl⟩ : ∃ j, D = j + 1 := ⟨D - 1, by omega⟩
    rw [pow_succ] at hcut
    rw [Nat.add_sub_cancel]
    omega
  generalize (c / 10 ^ (Nat.log 10 c - D) + 5) / 10 = q at hv hr hq
  have hq0 : q ≠ 0 := by
    have : 0 < 10 ^ (D - 1) := by positivity
    omega
  rcases hv with ⟨hval, hexp'⟩ | ⟨rfl, hone, hexp'⟩
  · have hqlt : q < 10 ^ D := by
      rw [← hval, ← hl]
      exact value_lt (by norm_num) hd
    have hqlen : (numeral 10 q).length = D := by
      rw [length_numeral (by norm_num) hq0,
        Nat.log_eq_of_pow_le_of_lt_pow hq (by rwa [Nat.sub_add_cancel hD])]
      omega
    have hdigits : out.1 = numeral 10 q :=
      value_inj (by norm_num) (by omega) hd (isDigits_numeral (by norm_num) q)
        (by rw [hval, value_numeral])
    rw [hr, if_neg hqlt.ne, ← hdigits, ← hexp, ← hexp']
  · have hdigits : out.1 = numeral 10 (10 ^ (D - 1)) := by
      have hnum := eq_numeral (by norm_num) (hone ▸ hd) one_pos
      rw [value_cons, value_replicate_zero, one_mul, add_zero,
        List.length_replicate] at hnum
      rw [hone, hnum]
    rw [hr, if_pos rfl, Prod.ext_iff]
    exact ⟨hdigits, by rw [hexp', hexp]; ring⟩

theorem checkExponent_eq_ok_iff {exp : Int} {length : Nat} :
    checkExponent exp length = .ok () ↔
      exp + length - 1 ≤ maxNum ∧ -maxNum ≤ exp := by
  unfold checkExponent
  split_ifs <;> simp <;> omega

theorem length_numeral_round {D : Nat} (hD : 1 ≤ D) {d : Decimal}
    (hc : 10 ^ D ≤ d.coeff) : (numeral 10 (d.round D).coeff).length = D := by
  have hc0 : d.coeff ≠ 0 := by
    have : 0 < 10 ^ D := by positivity
    omega
  obtain ⟨hlo, hhi⟩ := Decimal.round_coeff_bounds hD hc
  rw [length_numeral (by norm_num) (Decimal.round_coeff_ne_zero hD hc0),
    Nat.log_eq_of_pow_le_of_lt_pow hlo (by rwa [Nat.sub_add_cancel hD])]
  omega

def ofDecimal (s : Settings) (numberDigits : Nat) (sign : Int) (d : Decimal) :
    NumberString :=
  if d.coeff = 0 then ⟨0, 0, [0], numberDigits, s.form = .scientific⟩
  else ⟨sign, d.exp, numeral 10 d.coeff, numberDigits, s.form = .scientific⟩

@[simp] theorem toRat_ofDecimal (s : Settings) (D : Nat) (sign : Int)
    (d : Decimal) : (ofDecimal s D sign d).toRat = sign * d.toRat := by
  by_cases h : d.coeff = 0 <;> simp [ofDecimal, toRat, decimal, Decimal.toRat, h]

theorem length_ofDecimal {s : Settings} {D : Nat} {sign : Int} {d : Decimal}
    (h : d.coeff ≠ 0) :
    (ofDecimal s D sign d).length = (numeral 10 d.coeff).length := by
  simp [ofDecimal, h, length]

theorem normalized_ofDecimal {s : Settings} {D : Nat} {sign : Int} {d : Decimal}
    (hsign : sign = -1 ∨ sign = 1)
    (hrange : checkExponent d.exp (numeral 10 d.coeff).length = .ok ()) :
    (ofDecimal s D sign d).Normalized := by
  rw [checkExponent_eq_ok_iff] at hrange
  by_cases h : d.coeff = 0
  · constructor <;> simp [ofDecimal, h, length, maxNum]
  · obtain ⟨x, xs, hx, hpos⟩ := numeral_eq_cons (b := 10) h
    simp only [ofDecimal, h, if_false]
    exact
      { sign_cases := by dsimp only; omega
        digits := isDigits_numeral (by norm_num) _
        zero := by dsimp only; omega
        leading := fun _ => ⟨x, xs, hx, hpos⟩
        exp_lower := hrange.2
        exp_upper := hrange.1 }

theorem adjustPrecisionFrom_short (s : Settings) (n : NumberString) {D : Nat}
    {digits : List Nat} (hdig : IsDigits 10 digits) (hne : digits ≠ [])
    (hlen : digits.length ≤ D) (hlow : -maxNum ≤ n.exp)
    (hupp : n.exp + digits.length - 1 ≤ maxNum) :
    n.adjustPrecisionFrom s digits digits.length D =
      .ok (ofDecimal s D n.sign ⟨value 10 digits, n.exp⟩) := by
  simp only [adjustPrecisionFrom, if_neg (not_lt.mpr hlen), List.take_length,
    pure_bind, setNumericSettings, stripLeadingZeros_spec hdig hne, ofDecimal]
  by_cases h0 : value 10 digits = 0
  · simp [h0, setZero]
    rfl
  · have hshort := length_numeral_le (by norm_num) hdig h0
    obtain ⟨d, ds, hds, hpos⟩ := numeral_eq_cons (b := 10) h0
    have hzero : numeral 10 (value 10 digits) ≠ [0] := by
      rw [hds]; rintro ⟨⟩; omega
    simp only [h0, if_false, hzero]
    rw [checkExponent_eq_ok_iff.mpr ⟨by omega, hlow⟩]
    rfl

theorem adjustPrecisionFrom_leadingZero (s : Settings) (n : NumberString)
    {D : Nat} {digits : List Nat} (hD : 1 ≤ D) (hdig : IsDigits 10 digits)
    (hlen : digits.length = D + 1) (hlead : value 10 digits < 10 ^ D)
    (hlow : -maxNum ≤ n.exp) (hupp : n.exp + D ≤ maxNum) :
    n.adjustPrecisionFrom s digits digits.length D =
      .ok (ofDecimal s D n.sign ⟨(value 10 digits + 5) / 10, n.exp + 1⟩) := by
  have hlt : D < digits.length := by omega
  have htake : value 10 (digits.take D) * 10 + digits[D] = value 10 digits := by
    rw [← value_concat, ← List.take_succ_eq_append_getElem hlt,
      List.take_of_length_le hlen.le]
  obtain ⟨hl, hd, hv⟩ := roundUpAt_spec (n.exp + 1)
    (hdig.take D) (hdig _ (List.getElem_mem hlt))
    (by rw [List.length_take]; omega)
  rw [htake, List.length_take, min_eq_left hlt.le] at hv
  rw [List.length_take, min_eq_left hlt.le] at hl
  obtain ⟨hval, hexp⟩ := hv.resolve_right fun h => by
    obtain ⟨j, rfl⟩ : ∃ j, D = j + 1 := ⟨D - 1, by omega⟩
    have hj : 0 < 10 ^ j := by positivity
    simp only [pow_succ] at h hlead
    omega
  have hexp1 : n.exp + ((digits.length : Int) - D) = n.exp + 1 := by omega
  have hmath : mathRound digits D (n.exp + 1) =
      .ok (roundUpAt (digits.take D) digits[D] (n.exp + 1)) := by
    simp only [mathRound, List.getElem?_eq_getElem hlt]
    rw [checkExponent_eq_ok_iff.mpr (by rw [hexp]; omega)]
    rfl
  have hne : (roundUpAt (digits.take D) digits[D] (n.exp + 1)).1 ≠ [] := by
    rw [← List.length_pos_iff]; omega
  simp only [adjustPrecisionFrom, if_pos hlt, hexp1, hmath]
  change (do
    if stripLeadingZeros _ = [0] then _ else _ : Outcome NumberString) = _
  simp only [stripLeadingZeros_spec hd hne, hval, hexp, setNumericSettings,
    ofDecimal]
  by_cases h0 : (value 10 digits + 5) / 10 = 0
  · simp [h0, setZero]
    rfl
  · have hshort := length_numeral_le (by norm_num) hd (by rwa [hval])
    rw [hval] at hshort
    obtain ⟨d, ds, hds, hpos⟩ := numeral_eq_cons (b := 10) h0
    have hzero : numeral 10 ((value 10 digits + 5) / 10) ≠ [0] := by
      rw [hds]; rintro ⟨⟩; omega
    simp only [h0, if_false, hzero]
    rw [checkExponent_eq_ok_iff.mpr ⟨by omega, by omega⟩]
    rfl

theorem adjustPrecisionFrom_numeral (s : Settings) (n : NumberString)
    {D c : Nat} {r : Decimal} (hD : 1 ≤ D) (hc : c ≠ 0)
    (hr : (⟨c, n.exp⟩ : Decimal).round D = r) :
    n.adjustPrecisionFrom s (numeral 10 c) (numeral 10 c).length D = do
      checkExponent r.exp (numeral 10 r.coeff).length
      return ofDecimal s D n.sign r := by
  have hr0 : r.coeff ≠ 0 := hr ▸ Decimal.round_coeff_ne_zero hD hc
  simp only [ofDecimal, hr0, if_false]
  obtain ⟨d, ds, hds, hpos⟩ := numeral_eq_cons (b := 10) hr0
  have hne : numeral 10 r.coeff ≠ [0] := by
    rw [hds]; rintro ⟨⟩; omega
  by_cases hcD : c < 10 ^ D
  · have hlen : ¬ (numeral 10 c).length > D := by
      rw [length_numeral (by norm_num) hc]
      have := Nat.log_lt_of_lt_pow hc hcD
      omega
    rw [Decimal.round_of_lt (d := ⟨c, n.exp⟩) hcD] at hr
    subst hr
    simp only [adjustPrecisionFrom, if_neg hlen, List.take_length, pure_bind,
      stripLeadingZeros_numeral hc, hne, if_false, setNumericSettings]
  · have hlen : (numeral 10 c).length > D := by
      rw [length_numeral (by norm_num) hc]
      have := Nat.le_log_of_pow_le (b := 10) (by norm_num) (not_lt.mp hcD)
      omega
    have hlenr : (numeral 10 r.coeff).length = D :=
      hr ▸ length_numeral_round (d := ⟨c, n.exp⟩) hD (not_lt.mp hcD)
    simp only [adjustPrecisionFrom, if_pos hlen,
      mathRound_numeral hD (not_lt.mp hcD) hr, setNumericSettings, bind_assoc,
      pure_bind, stripLeadingZeros_numeral hr0, hne, if_false, hlenr]
    -- the range is checked twice, on the same exponent and length
    cases checkExponent r.exp D <;> rfl

theorem adjustPrecisionFrom_take (s : Settings) (n : NumberString)
    (resultPtr : List Nat) {length D : Nat} (h : length ≤ D) :
    n.adjustPrecisionFrom s resultPtr length D =
      n.adjustPrecisionFrom s (resultPtr.take length) length D := by
  simp only [adjustPrecisionFrom, if_neg (not_lt.mpr h), List.take_take, min_self]

theorem adjustPrecisionFrom_cut (s : Settings) (sign exp : Int)
    (resultPtr : List Nat) (D extra : Nat) :
    (new s sign (exp + extra) []).adjustPrecisionFrom s resultPtr (D + 1) D =
      (new s sign exp []).adjustPrecisionFrom s resultPtr (D + 1 + extra) D := by
  have h : D + 1 > D := Nat.lt_succ_self D
  have h' : D + 1 + extra > D := by omega
  have hexp : exp + extra + (((D + 1 : ℕ) : Int) - D) =
      exp + (((D + 1 + extra : ℕ) : Int) - D) := by
    push_cast; ring
  simp only [adjustPrecisionFrom, new, if_pos h, if_pos h', hexp]

theorem checkNumber_of_le {s : Settings} {n : NumberString} {digits : Nat}
    (rounding : Bool) (h : n.length ≤ digits) :
    n.checkNumber s digits rounding = .ok n :=
  if_neg (not_lt.mpr h)

/-! ## Rounded results -/

/-- What the arithmetic operators promise about a result for the exact value `q`. -/
structure Rounds (D : Nat) (q : ℚ) (r : NumberString) : Prop where
  value : r.toRat = roundHalfUp D q
  exact : FitsDigits D q → r.toRat = q
  normalized : r.Normalized
  zero_iff : (r.sign = 0 ∧ r.number = [0] ∧ r.exp = 0) ↔ q = 0

theorem rounds_ofDecimal {s : Settings} {D : Nat} {sign : Int} {d : Decimal}
    (hD : 1 ≤ D) (hsign : sign = -1 ∨ sign = 1)
    (hrange : checkExponent (d.round D).exp
      (numeral 10 (d.round D).coeff).length = .ok ()) :
    Rounds D (sign * d.toRat) (ofDecimal s D sign (d.round D)) := by
  have hvalue : (ofDecimal s D sign (d.round D)).toRat =
      roundHalfUp D (sign * d.toRat) := by
    rw [toRat_ofDecimal, Decimal.toRat_round hD, roundHalfUp_sign_mul _ hsign]
  refine
    { value := hvalue
      exact := fun hfits => hvalue.trans (roundHalfUp_of_fits hfits)
      normalized := normalized_ofDecimal hsign hrange
      zero_iff := ?_ }
  have hs0 : sign ≠ 0 := by omega
  have hq : (sign : ℚ) * d.toRat = 0 ↔ d.coeff = 0 := by
    simp [hs0]
  rw [hq]
  by_cases h0 : d.coeff = 0
  · have hr0 : (d.round D).coeff = 0 := by
      rw [Decimal.round_of_lt (by rw [h0]; positivity), h0]
    simp [ofDecimal, hr0, h0]
  · have hr0 := Decimal.round_coeff_ne_zero hD h0
    simp [ofDecimal, hr0, h0, hs0]

def InRange (d : Decimal) : Prop :=
  -maxNum ≤ d.exp ∧ d.exp + (numeral 10 d.coeff).length - 1 ≤ maxNum

theorem checkExponent_error {exp : Int} {length : Nat} {e : Fault}
    (h : checkExponent exp length = .error e) :
    (e = .raised (.overflowExpoverflow (exp + length - 1) 9) ∧
        maxNum < exp + length - 1) ∨
      (e = .raised (.overflowExpunderflow exp 9) ∧ exp < -maxNum) := by
  unfold checkExponent at h
  split_ifs at h with h1 h2
  · exact .inl ⟨by injection h with h; exact h.symm, h1⟩
  · exact .inr ⟨by injection h with h; exact h.symm, h2⟩

theorem le_toRat_of_length {d : Decimal} (h : d.coeff ≠ 0) :
    (10 : ℚ) ^ (d.exp + (numeral 10 d.coeff).length - 1) ≤ d.toRat := by
  rw [length_numeral (by norm_num) h, Decimal.toRat]
  have hle : ((10 ^ Nat.log 10 d.coeff : ℕ) : ℚ) ≤ d.coeff := by
    exact_mod_cast Nat.pow_log_le_self 10 h
  calc (10 : ℚ) ^ (d.exp + (Nat.log 10 d.coeff + 1 : ℕ) - 1) =
        (10 ^ Nat.log 10 d.coeff : ℕ) * 10 ^ d.exp := by
        rw [show d.exp + ((Nat.log 10 d.coeff + 1 : ℕ) : ℤ) - 1 =
          (Nat.log 10 d.coeff : ℤ) + d.exp by push_cast; ring,
          zpow_add₀ (by norm_num), zpow_natCast]
        push_cast
        rfl
    _ ≤ d.coeff * 10 ^ d.exp := by gcongr

theorem rounds_self {D : Nat} {n : NumberString} (h : n.Normalized)
    (hlen : n.length ≤ D) : Rounds D n.toRat n :=
  { value := (roundHalfUp_of_fits (fitsDigits_toRat h hlen)).symm
    exact := fun _ => rfl
    normalized := h
    zero_iff := by
      rw [toRat_eq_zero_iff h]
      exact ⟨And.left, fun h0 => ⟨h0, h.zero h0⟩⟩ }

theorem rounds_ofDecimal_of_lt {s : Settings} {D : Nat} {sign : Int}
    {d : Decimal} (hD : 1 ≤ D) (hsign : sign = -1 ∨ sign = 1)
    (hc : d.coeff < 10 ^ D)
    (hrange : checkExponent d.exp (numeral 10 d.coeff).length = .ok ()) :
    Rounds D (sign * d.toRat) (ofDecimal s D sign d) := by
  have hround := Decimal.round_of_lt hc
  have h := rounds_ofDecimal (s := s) (d := d) hD hsign (by rwa [hround])
  rwa [hround] at h

theorem rounds_leadingZero_iff {s : Settings} {D v : Nat} {m sign : Int}
    (hD : 1 ≤ D) (hsign : sign = -1 ∨ sign = 1) (hv : v < 10 ^ D)
    (hlow : -maxNum ≤ m) (hupp : m + D ≤ maxNum) :
    Rounds D (sign * (⟨v, m⟩ : Decimal).toRat)
        (ofDecimal s D sign ⟨(v + 5) / 10, m + 1⟩) ↔ 10 ∣ v := by
  have hm : (10 : ℚ) ^ m ≠ 0 := by positivity
  have hm1 : (10 : ℚ) ^ (m + 1) = 10 * 10 ^ m := by
    rw [zpow_add₀ (by norm_num), zpow_one, mul_comm]
  have hsign0 : (sign : ℚ) ≠ 0 := by rcases hsign with rfl | rfl <;> norm_num
  constructor
  · intro h
    have hval := h.value
    rw [toRat_ofDecimal, roundHalfUp_sign_mul _ hsign, Decimal.toRat,
      Decimal.toRat, roundHalfUp_of_lt _ hv, hm1, mul_right_inj' hsign0,
      ← mul_assoc, mul_left_inj' hm] at hval
    exact ⟨(v + 5) / 10, by rw [mul_comm]; exact_mod_cast hval.symm⟩
  · rintro ⟨k, rfl⟩
    have hk : (10 * k + 5) / 10 = k := by omega
    have hdec : (⟨10 * k, m⟩ : Decimal).toRat = (⟨k, m + 1⟩ : Decimal).toRat := by
      simp only [Decimal.toRat, hm1]
      push_cast
      ring
    rw [hk, hdec]
    refine rounds_ofDecimal_of_lt hD hsign (by dsimp only; omega) ?_
    rw [checkExponent_eq_ok_iff]
    dsimp only
    rcases Nat.eq_zero_or_pos k with rfl | hk0
    · simp [numeral]
      omega
    · rw [length_numeral (by norm_num) hk0.ne']
      have := Nat.log_lt_of_lt_pow hk0.ne' (by omega : k < 10 ^ D)
      omega

end NumberString

end LeooRexx
