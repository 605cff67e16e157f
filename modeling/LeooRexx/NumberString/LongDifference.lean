import Mathlib
import LeooRexx.NumberString.Compare
import LeooRexx.NumberString.Whole

/-!
# The sign of a difference of long numbers

`addSub` cuts an operand to one digit more than the precision before it subtracts.  For
two numbers over one exponent this cuts both at the same place, so the sign of the
difference is that of the leading digits, and it is lost when these differ by less than
five.
-/

namespace LeooRexx

open Positional DecimalRounding

namespace NumberString

/-! ## What every result keeps -/

theorem length_roundCarry (ds : List Nat) : (roundCarry ds).1.length = ds.length := by
  induction ds with
  | nil => rfl
  | cons d ds ih =>
    simp only [roundCarry]
    split <;> simp [*]

theorem length_roundUpAt (digits : List Nat) (next : Nat) (exp : Int) :
    (roundUpAt digits next exp).1.length = digits.length := by
  have hlen := length_roundCarry digits.reverse
  rw [List.length_reverse] at hlen
  simp only [roundUpAt]
  split
  · split
    · rename_i rounded h
      rw [h] at hlen
      simpa using hlen
    · rename_i rounded h
      rw [h] at hlen
      simpa using hlen
  · rfl

theorem length_stripLeadingZeros (ds : List Nat) : (stripLeadingZeros ds).length ≤ ds.length := by
  induction ds using stripLeadingZeros.induct with
  | case1 d ds ih =>
    rw [stripLeadingZeros]
    exact ih.trans (Nat.le_succ _)
  | case2 ds h =>
    rw [stripLeadingZeros]
    exact h

theorem length_mathRound {numPtr : List Nat} {length : Nat} {exp : Int} {r : List Nat × Int}
    (h : mathRound numPtr length exp = .ok r) : r.1.length ≤ length := by
  simp only [mathRound] at h
  split at h
  · cases h
  · rename_i next _
    have hlen := length_roundUpAt (numPtr.take length) next exp
    cases hcheck : checkExponent (roundUpAt (numPtr.take length) next exp).2 length with
    | error e =>
      rw [hcheck] at h
      cases h
    | ok _ =>
      rw [hcheck] at h
      cases h
      rw [hlen, List.length_take]
      exact min_le_left _ _

theorem adjustPrecisionFrom_bounds {s : Settings} {n r : NumberString} {ptr : List Nat}
    {length D : Nat} (hD : 1 ≤ D) (h : n.adjustPrecisionFrom s ptr length D = .ok r) :
    r.length ≤ D ∧ (r.sign = n.sign ∨ r.sign = 0) := by
  have hrest : ∀ d : List Nat × Int, d.1.length ≤ D →
      (do
        let n' := { n with number := stripLeadingZeros d.1, exp := d.2 }
        let n' := n'.setNumericSettings D s.form
        if stripLeadingZeros d.1 = [0] then return n'.setZero
        checkExponent d.2 (stripLeadingZeros d.1).length
        return n' : Outcome NumberString) = .ok r →
      r.length ≤ D ∧ (r.sign = n.sign ∨ r.sign = 0) := by
    intro d hlen h
    have hstrip := length_stripLeadingZeros d.1
    simp only at h
    split at h
    · cases h
      exact ⟨hD, Or.inr rfl⟩
    · cases hcheck : checkExponent d.2 (stripLeadingZeros d.1).length with
      | error e =>
        rw [hcheck] at h
        cases h
      | ok _ =>
        rw [hcheck] at h
        cases h
        exact ⟨hstrip.trans hlen, Or.inl rfl⟩
  by_cases hlong : length > D
  · rw [adjustPrecisionFrom, if_pos hlong] at h
    cases hround : mathRound ptr D (n.exp + (length - D)) with
    | error e =>
      rw [hround] at h
      cases h
    | ok d =>
      rw [hround] at h
      exact hrest d (length_mathRound hround) h
  · rw [adjustPrecisionFrom, if_neg hlong] at h
    refine hrest (ptr.take length, n.exp) ?_ h
    rw [List.length_take]
    omega

theorem setupNumber_bounds {s : Settings} {n r : NumberString} (hD : 1 ≤ s.digits)
    (h : n.setupNumber s = .ok r) : r.length ≤ s.digits ∧ (r.sign = n.sign ∨ r.sign = 0) := by
  by_cases hlong : n.length > s.digits
  · have hlong' : (n.setNumericSettings s.digits s.form).length >
        (n.setNumericSettings s.digits s.form).numDigits := hlong
    rw [setupNumber, if_pos hlong', adjustPrecision, if_pos hlong'] at h
    cases hround : mathRound (n.setNumericSettings s.digits s.form).number
        (n.setNumericSettings s.digits s.form).numDigits
        ((n.setNumericSettings s.digits s.form).exp +
          ((n.setNumericSettings s.digits s.form).length -
            (n.setNumericSettings s.digits s.form).numDigits)) with
    | error e =>
      rw [hround] at h
      cases h
    | ok d =>
      have hlen := length_mathRound hround
      rw [hround] at h
      simp only [Outcome.ok_bind] at h
      split at h
      · cases h
        exact ⟨hD, Or.inr rfl⟩
      · revert h
        cases checkExponent d.2 (NumberString.length { n.setNumericSettings s.digits s.form with
          number := d.1, exp := d.2 }) with
        | error e => exact fun h => by cases h
        | ok _ =>
          intro h
          cases h
          exact ⟨hlen, Or.inl rfl⟩
  · rw [setupNumber_of_le (not_lt.mp hlong)] at h
    cases h
    exact ⟨not_lt.mp hlong, Or.inl rfl⟩

theorem subtractOperands_sign {left right : NumberString} {l r : Operand} {rightSign : Int}
    {out : List Nat × Int × Int} (h : subtractOperands left right l r rightSign = .ok out) :
    out.2.2 = left.sign ∨ out.2.2 = rightSign := by
  have hbind : ∀ (o : Outcome (List Nat)) (e sign : Int),
      (do return (← o, e, sign) : Outcome (List Nat × Int × Int)) = .ok out →
        out.2.2 = sign := by
    intro o e sign h
    cases o with
    | error _ => cases h
    | ok _ =>
      cases h
      rfl
  simp only [subtractOperands] at h
  split at h
  · exact Or.inl (hbind _ _ _ h)
  · split at h
    · exact Or.inr (hbind _ _ _ h)
    · split at h
      · split at h
        · exact Or.inr (hbind _ _ _ h)
        · exact Or.inl (hbind _ _ _ h)
      · split at h
        · exact Or.inl (hbind _ _ _ h)
        · split at h
          · exact Or.inr (hbind _ _ _ h)
          · split at h
            · exact Or.inr (hbind _ _ _ h)
            · cases h

theorem addSub_bounds {s : Settings} {a b r : NumberString} {operation : Operation}
    (hD : 1 ≤ s.digits) (h : addSub s a b operation s.digits = .ok r) :
    r.length ≤ s.digits ∧
      (r.sign = 0 ∨ r.sign = a.sign ∨ r.sign = b.sign ∨ r.sign = -b.sign) := by
  have hright : (if operation = .minus then -b.sign else b.sign) = rightSign operation b := rfl
  have hcases : rightSign operation b = b.sign ∨ rightSign operation b = -b.sign := by
    cases operation with
    | plus => exact Or.inl rfl
    | minus => exact Or.inr rfl
  simp only [addSub, hright, ← min_def] at h
  split at h
  · obtain ⟨hlen, hsign⟩ := setupNumber_bounds hD h
    refine ⟨hlen, ?_⟩
    rename_i isRight _
    cases isRight with
    | false => simp at hsign; omega
    | true =>
      cases operation with
      | plus => simp at hsign; omega
      | minus => simp at hsign; omega
  · split at h
    · split at h
      · cases h
        exact ⟨hD, Or.inl rfl⟩
      · revert h
        generalize hsub : subtractOperands a b _ _ _ = o
        intro h
        cases o with
        | error _ => cases h
        | ok out =>
          obtain ⟨hlen, hsign⟩ := adjustPrecisionFrom_bounds hD h
          refine ⟨hlen, ?_⟩
          have hout := subtractOperands_sign hsub
          have hsign' : r.sign = out.2.2 ∨ r.sign = 0 := hsign
          rcases hsign' with h | h
          · rw [h]
            rcases hout with h | h
            · exact Or.inr (Or.inl h)
            · rw [h]
              omega
          · exact Or.inl h
    · obtain ⟨hlen, hsign⟩ := adjustPrecisionFrom_bounds hD h
      have hsign' : r.sign = a.sign ∨ r.sign = 0 := hsign
      exact ⟨hlen, by omega⟩

/-! ## Rounding a difference -/

theorem adjustPrecisionFrom_sign_carry (s : Settings) {digits : List Nat} (sign : Int) {m : Int}
    {W : Nat} (hW : 1 ≤ W) (hdig : IsDigits 10 digits) (hne : digits ≠ [])
    (hlen : digits.length ≤ W + 1) (hlow : -maxNum ≤ m)
    (hupp : m + digits.length ≤ maxNum) :
    ∃ r, (new s sign m []).adjustPrecisionFrom s digits digits.length W = .ok r ∧
      r.sign = if value 10 digits = 0 ∨ digits.length = W + 1 ∧ value 10 digits < 5
        then 0 else sign := by
  by_cases hshort : digits.length ≤ W
  · exact adjustPrecisionFrom_sign s sign hW hdig hne hlen hlow (by omega) (by
      have hlt := value_lt (b := 10) (by norm_num) hdig
      have hpow : 10 ^ digits.length ≤ 10 ^ W := Nat.pow_le_pow_right (by norm_num) hshort
      have hten : 10 ^ (W + 1) = 10 * 10 ^ W := pow_succ' 10 W
      omega)
  have hlong : digits.length = W + 1 := by omega
  by_cases hcancel : value 10 digits < 10 ^ W
  · refine ⟨_, adjustPrecisionFrom_leadingZero s (new s sign m []) hW hdig hlong hcancel
      hlow (by dsimp only [new]; omega), ?_⟩
    have hiff : (value 10 digits + 5) / 10 = 0 ↔
        value 10 digits = 0 ∨ digits.length = W + 1 ∧ value 10 digits < 5 := by
      omega
    simp only [sign_ofDecimal, hiff, new]
  · have hpos : 0 < 10 ^ (W - 1) := by positivity
    have hten : 10 ^ W = 10 * 10 ^ (W - 1) := by
      rw [← pow_succ', Nat.sub_add_cancel hW]
    have hbig : 10 ^ W ≤ value 10 digits := not_lt.mp hcancel
    have hnum : digits = numeral 10 (value 10 digits) :=
      eq_numeral_of_le (by norm_num) hdig (by omega) (by rw [hlong]; exact hbig)
    have hvalue := value_lt (b := 10) (by norm_num) hdig
    rw [hlong] at hvalue
    have hlog : Nat.log 10 (value 10 digits) = W := Nat.log_eq_of_pow_le_of_lt_pow hbig hvalue
    let r := (⟨value 10 digits, m⟩ : Decimal).round W
    have hexp : m ≤ r.exp ∧ r.exp ≤ m + 2 := by
      simp only [r, Decimal.round, if_neg hcancel, hlog, Nat.sub_self]
      split
      · dsimp only
        omega
      · dsimp only
        omega
    have hlenr := length_numeral_round (d := ⟨value 10 digits, m⟩) hW hbig
    have hcoeff : r.coeff ≠ 0 :=
      Decimal.round_coeff_ne_zero (d := ⟨value 10 digits, m⟩) hW (by dsimp only; omega)
    have hcheck : checkExponent r.exp (numeral 10 r.coeff).length = .ok () := by
      rw [checkExponent_eq_ok_iff, show (numeral 10 r.coeff).length = W from hlenr]
      omega
    have hadjust := adjustPrecisionFrom_numeral s (new s sign m []) (r := r) hW
      (by omega) rfl
    rw [← hnum] at hadjust
    refine ⟨_, hadjust.trans (by rw [hcheck]; rfl), ?_⟩
    rw [sign_ofDecimal, if_neg hcoeff, if_neg (by omega)]
    rfl

/-! ## Operands of one exponent in the window -/

theorem addSub_sign_aligned {s : Settings} {a b : NumberString} {W : Nat} (hW : 1 ≤ W)
    (hexp : a.exp = b.exp) (ha : a.Normalized) (hb : b.Normalized)
    (hla : a.length ≤ W + 1) (hlb : b.length ≤ W + 1) (ha0 : a.sign ≠ 0)
    (hsign : a.sign = b.sign) (hupp : a.exp + (W + 1) ≤ maxNum) :
    ∃ r, addSub s a b .minus W = .ok r ∧ SignType.sign r.sign =
      if max a.length b.length = W + 1 ∧
          |(value 10 a.number : Int) - value 10 b.number| < 5 then 0
      else SignType.sign a.sign *
        SignType.sign ((value 10 a.number : Int) - value 10 b.number) := by
  have hb0 : b.sign ≠ 0 := hsign ▸ ha0
  have hm : a.exp = min a.exp b.exp := by omega
  have hright : rightSign .minus b = -a.sign := by rw [hsign]; rfl
  have hvalue : ∀ n : NumberString, n.exp = a.exp → aligned a.exp n = value 10 n.number := by
    intro n hn
    rw [aligned, hn, sub_self, Int.toNat_zero, pow_zero, mul_one]
  have hva := hvalue a rfl
  have hvb := hvalue b hexp.symm
  rcases addSub_opposite_sign (s := s) .minus hm ha hb hla hlb ha0 hb0
    (by unfold alignedLength; omega) (by unfold alignedLength; omega)
    (by omega) with ⟨heq, hok⟩ | ⟨digits, sign, hdiff, hok⟩
  · refine ⟨_, hok, ?_⟩
    rw [hva, hvb] at heq
    rw [heq, sub_self, sign_zero, mul_zero, ite_self]
    rfl
  · obtain ⟨hdig, hlen, hval⟩ := hdiff
    rw [hva, hvb] at hval
    have hlen' : digits.length = max a.length b.length := by
      unfold alignedLength at hlen
      omega
    have hpos := ha.length_pos
    have hlow := ha.exp_lower
    obtain ⟨r, hr, hrsign⟩ := adjustPrecisionFrom_sign_carry s sign hW hdig
      (by rw [← List.length_pos_iff]; omega) (by omega) hlow (by omega) (m := a.exp)
    refine ⟨r, hok.trans hr, ?_⟩
    rw [hrsign, hlen']
    rcases hval with ⟨hle, hs, hv⟩ | ⟨hle, hs, hv⟩
    · have habs : |(value 10 a.number : Int) - value 10 b.number| = value 10 digits := by
        rw [abs_of_nonneg (by omega)]
        omega
      rw [habs]
      by_cases heq : value 10 digits = 0
      · have hab : (value 10 a.number : Int) - value 10 b.number = 0 := by omega
        rw [if_pos (Or.inl heq), hab, sign_zero, mul_zero, ite_self]
      · have hab : SignType.sign ((value 10 a.number : Int) - value 10 b.number) = 1 :=
          sign_pos (by omega)
        simp only [heq, false_or, Nat.cast_lt_ofNat, hab, mul_one, hs]
        split <;> simp
    · have habs : |(value 10 a.number : Int) - value 10 b.number| = value 10 digits := by
        rw [abs_of_nonpos (by omega)]
        omega
      rw [habs]
      by_cases heq : value 10 digits = 0
      · have hab : (value 10 a.number : Int) - value 10 b.number = 0 := by omega
        rw [if_pos (Or.inl heq), hab, sign_zero, mul_zero, ite_self]
      · have hab : SignType.sign ((value 10 a.number : Int) - value 10 b.number) = -1 :=
          sign_neg (by omega)
        simp only [heq, false_or, Nat.cast_lt_ofNat, hab, mul_neg_one, hs, hright]
        split
        · simp
        · rw [Left.sign_neg]

/-! ## Operands that are cut -/

theorem normalized_cut {n : NumberString} {count : Nat} (hn : n.Normalized) (h0 : n.sign ≠ 0)
    (hcount : count < n.length) : (n.cut count).Normalized := by
  have hlen := length_cut hcount.le
  obtain ⟨d, ds, hds, hd⟩ := hn.leading h0
  refine
    { sign_cases := hn.sign_cases
      digits := hn.digits.take _
      zero := fun h => absurd h h0
      leading := fun _ => ?_
      exp_lower := ?_
      exp_upper := ?_ }
  · obtain ⟨k, hk⟩ : ∃ k, n.length - count = k + 1 := ⟨n.length - count - 1, by omega⟩
    exact ⟨d, ds.take k, by simp only [cut, hk, hds, List.take_succ_cons], hd⟩
  · have hlow := hn.exp_lower
    simp only [cut]
    omega
  · have hupp := hn.exp_upper
    have hexp : (n.cut count).exp = n.exp + count := rfl
    omega

theorem value_cut {n : NumberString} {count : Nat} (hn : n.Normalized) (h : count ≤ n.length) :
    value 10 (n.cut count).number = value 10 n.number / 10 ^ count := by
  have hsub : n.number.length - (n.length - count) = count := by
    rw [length] at *
    omega
  rw [cut, value_take (by norm_num) hn.digits, hsub]

theorem memcmp_take {xs ys : List Nat} {count i j : Nat} (hi : count ≤ i) (hj : count ≤ j) :
    memcmp (xs.take i) (ys.take j) count = memcmp xs ys count := by
  induction count generalizing xs ys i j with
  | zero => simp [memcmp]
  | succ count ih =>
    obtain ⟨i, rfl⟩ : ∃ k, i = k + 1 := ⟨i - 1, by omega⟩
    obtain ⟨j, rfl⟩ : ∃ k, j = k + 1 := ⟨j - 1, by omega⟩
    cases xs with
    | nil => simp [memcmp]
    | cons x xs =>
      cases ys with
      | nil => simp [memcmp]
      | cons y ys =>
        simp only [List.take_succ_cons, memcmp]
        rw [ih (by omega) (by omega)]

/-- How many digits of `n` alone are more than the window holds. -/
def excess (W : Nat) (n : NumberString) : Nat := n.length - (W + 1)

theorem ofNumber_excess (W : Nat) (n : NumberString) :
    Operand.ofNumber n (W + 1) =
      ⟨n.exp + excess W n, n.length - excess W n, 0, n.length - excess W n⟩ := by
  unfold excess Operand.ofNumber
  split
  · simp only [Operand.mk.injEq, true_and]
    omega
  · simp only [Operand.mk.injEq, true_and]
    omega

def dropped (W : Nat) (a b : NumberString) : Nat := max (excess W a) (excess W b)

theorem adjustOperands_left {exp : Int} {W la lb ea eb : Nat} (hla : la = W + 1 + ea)
    (hlb : lb - eb ≤ W + 1) (hle : eb ≤ ea) (hea : ea < lb) :
    adjustOperands ⟨exp + ea, la - ea, exp + ea - (exp + eb), la - ea⟩
        ⟨exp + eb, lb - eb, exp + eb - (exp + eb), lb - eb⟩ (W + 1) =
      (⟨exp + ea, la - ea, 0, la - ea⟩, ⟨exp + ea, lb - ea, 0, lb - ea⟩) := by
  rcases Nat.lt_or_eq_of_le hle with hlt | rfl
  · have hne : exp + (ea : Int) - (exp + eb) ≠ 0 := by omega
    have hadjust : (la : Int) - ea + (exp + ea - (exp + eb)) - (W + 1 : Nat) = ea - eb := by
      omega
    have hmax : (if (ea : Int) - eb ≥ (lb : Int) - eb + (exp + eb - (exp + eb)) - (W + 1 : Nat)
        then (ea : Int) - eb
        else (lb : Int) - eb + (exp + eb - (exp + eb)) - (W + 1 : Nat)) = ea - eb :=
      if_pos (by omega)
    have htrim : ¬ (ea : Int) - eb < exp + ea - (exp + eb) := by omega
    simp only [adjustOperands, hadjust, hmax]
    rw [if_pos (by omega)]
    simp only [if_pos hne, adjustOperands.trim, if_neg htrim]
    rw [if_neg (by omega)]
    simp only [Prod.mk.injEq, Operand.mk.injEq, true_and]
    omega
  · rw [adjustOperands_of_le]
    · simp only [sub_self]
    · dsimp only
      omega
    · dsimp only
      omega

theorem adjustOperands_right {exp : Int} {W la lb ea eb : Nat} (hlb : lb = W + 1 + eb)
    (hla : la - ea ≤ W + 1) (hlt : ea < eb) :
    adjustOperands ⟨exp + ea, la - ea, exp + ea - (exp + ea), la - ea⟩
        ⟨exp + eb, lb - eb, exp + eb - (exp + ea), lb - eb⟩ (W + 1) =
      (⟨exp + eb, la - eb, 0, la - eb⟩, ⟨exp + eb, lb - eb, 0, lb - eb⟩) := by
  have hzero : ¬ exp + (ea : Int) - (exp + ea) ≠ 0 := by omega
  have hne : exp + (eb : Int) - (exp + ea) ≠ 0 := by omega
  have hadjust : (lb : Int) - eb + (exp + eb - (exp + ea)) - (W + 1 : Nat) = eb - ea := by
    omega
  have hmax : (if (la : Int) - ea + (exp + ea - (exp + ea)) - (W + 1 : Nat) ≥ (eb : Int) - ea
      then (la : Int) - ea + (exp + ea - (exp + ea)) - (W + 1 : Nat)
      else (eb : Int) - ea) = eb - ea := by
    split
    · omega
    · rfl
  have htrim : ¬ (eb : Int) - ea < exp + eb - (exp + ea) := by omega
  simp only [adjustOperands, hadjust, hmax]
  rw [if_pos (by omega)]
  simp only [if_neg hzero, if_pos hne, adjustOperands.trim, if_neg htrim]
  rw [if_neg (by omega)]
  clear hmax
  simp only [Prod.mk.injEq, Operand.mk.injEq, and_true]
  omega

theorem adjustOperands_dropped {a b : NumberString} {W : Nat} (hexp : a.exp = b.exp)
    (hlong : 1 ≤ dropped W a b) (hla : dropped W a b < a.length)
    (hlb : dropped W a b < b.length) :
    let minExp := min (Operand.ofNumber a (W + 1)).exp (Operand.ofNumber b (W + 1)).exp
    adjustOperands ((Operand.ofNumber a (W + 1)).align minExp)
        ((Operand.ofNumber b (W + 1)).align minExp) (W + 1) =
      (Operand.at (a.exp + dropped W a b) (a.cut (dropped W a b)),
        Operand.at (a.exp + dropped W a b) (b.cut (dropped W a b))) := by
  have hca := length_cut hla.le
  have hcb := length_cut hlb.le
  have hea : (a.cut (dropped W a b)).exp = a.exp + dropped W a b := rfl
  have heb : (b.cut (dropped W a b)).exp = a.exp + dropped W a b := by rw [hexp]; rfl
  simp only [Operand.at, hca, hcb, hea, heb, sub_self, ofNumber_excess, ← hexp, Operand.align]
  unfold dropped at *
  unfold excess at *
  rcases le_or_gt (b.length - (W + 1)) (a.length - (W + 1)) with hle | hlt
  · have hmax := max_eq_left hle
    have hmin : min (a.exp + ((a.length - (W + 1) : ℕ) : Int))
        (a.exp + ((b.length - (W + 1) : ℕ) : Int)) = a.exp + ((b.length - (W + 1) : ℕ) : Int) := by
      omega
    rw [hmax] at hlong hla hlb ⊢
    rw [hmin]
    exact adjustOperands_left (by omega) (by omega) hle hlb
  · have hmax := max_eq_right hlt.le
    have hmin : min (a.exp + ((a.length - (W + 1) : ℕ) : Int))
        (a.exp + ((b.length - (W + 1) : ℕ) : Int)) = a.exp + ((a.length - (W + 1) : ℕ) : Int) := by
      omega
    rw [hmax] at hlong hla hlb ⊢
    rw [hmin]
    exact adjustOperands_right (by omega) (by omega) hlt

theorem subtractOperands_cut {a b : NumberString} {c : Nat} {m rightSign : Int}
    (hca : c ≤ a.length) (hcb : c ≤ b.length) :
    subtractOperands a b (Operand.at m (a.cut c)) (Operand.at m (b.cut c)) rightSign =
      subtractOperands (a.cut c) (b.cut c) (Operand.at m (a.cut c)) (Operand.at m (b.cut c))
        rightSign := by
  have hla : (a.cut c).length = a.length - c := by
    have h := length_cut hca
    omega
  have hlb : (b.cut c).length = b.length - c := by
    have h := length_cut hcb
    omega
  have hsign : (a.cut c).sign = a.sign := rfl
  simp only [subtractOperands, digits_cut hca, digits_cut hcb, Operand.digits_at,
    Operand.at_length, hsign, Int.toNat_natCast]
  split
  · rfl
  · split
    · rfl
    · split
      · rename_i h
        have hlen : (b.cut c).length ≤ a.length - c := by omega
        rw [show memcmp (b.cut c).number (a.cut c).number (b.cut c).length =
          memcmp b.number a.number (b.cut c).length from memcmp_take hlb.le hlen]
      · rename_i h
        have hlen : (a.cut c).length ≤ b.length - c := by omega
        rw [show memcmp (a.cut c).number (b.cut c).number (a.cut c).length =
          memcmp a.number b.number (a.cut c).length from memcmp_take hla.le hlen]

theorem addSub_cut {s : Settings} {a b : NumberString} {W : Nat} (hexp : a.exp = b.exp)
    (ha : a.Normalized) (hb : b.Normalized) (ha0 : a.sign ≠ 0) (hsign : a.sign = b.sign)
    (hlong : 1 ≤ dropped W a b) (hla : dropped W a b < a.length)
    (hlb : dropped W a b < b.length) :
    addSub s a b .minus W =
      addSub s (a.cut (dropped W a b)) (b.cut (dropped W a b)) .minus W := by
  have hb0 : b.sign ≠ 0 := hsign ▸ ha0
  have hright : rightSign .minus b ≠ a.sign := by
    simp only [rightSign, if_true]
    omega
  have hca := length_cut hla.le
  have hcb := length_cut hlb.le
  have hadjust := adjustOperands_dropped hexp hlong hla hlb
  have hna := normalized_cut ha ha0 hla
  have hnb := normalized_cut hb hb0 hlb
  have hcuts := addSub_eq (s := s) (D := W) .minus
    (show a.exp + (dropped W a b : Int) = min (a.cut (dropped W a b)).exp
      (b.cut (dropped W a b)).exp by simp only [cut]; omega) hna hnb
    (by unfold dropped excess at *; omega) (by unfold dropped excess at *; omega) ha0 hb0
    (by unfold alignedLength dropped excess at *; simp only [cut] at *; omega)
    (by unfold alignedLength dropped excess at *; simp only [cut] at *; omega)
  rw [hcuts, ← subtractOperands_cut hla.le hlb.le]
  have hdom : ∀ minExp : Int,
      minExp = min (Operand.ofNumber a (W + 1)).exp (Operand.ofNumber b (W + 1)).exp →
      dominant a b ((Operand.ofNumber a (W + 1)).align minExp)
        ((Operand.ofNumber b (W + 1)).align minExp) W = none := by
    intro minExp hmin
    simp only [ofNumber_excess] at hmin
    rw [dominant, if_neg ha0, if_neg hb0, if_neg, if_neg]
    · simp only [ofNumber_excess, Operand.align]
      unfold dropped excess at *
      omega
    · simp only [ofNumber_excess, Operand.align]
      unfold dropped excess at *
      omega
  -- both checks for equal operands look at the same digits
  have hequal : ((Operand.ofNumber a (W + 1)).length = (Operand.ofNumber b (W + 1)).length ∧
      (Operand.ofNumber a (W + 1)).exp = (Operand.ofNumber b (W + 1)).exp ∧
      memcmp a.number b.number (Operand.ofNumber a (W + 1)).length.toNat = 0) ↔
      ((a.cut (dropped W a b)).length = (b.cut (dropped W a b)).length ∧
        (a.cut (dropped W a b)).exp = (b.cut (dropped W a b)).exp ∧
        memcmp (a.cut (dropped W a b)).number (b.cut (dropped W a b)).number
          (a.cut (dropped W a b)).length = 0) := by
    have hla' : (a.cut (dropped W a b)).length = a.length - dropped W a b := by omega
    have hcutexp : (a.cut (dropped W a b)).exp = (b.cut (dropped W a b)).exp := by
      simp only [cut, hexp]
    by_cases hlen : a.length = b.length
    · have hdropped : dropped W a b = excess W a := by
        unfold dropped excess
        omega
      have hexcess : excess W a = excess W b := by
        unfold excess
        omega
      have hcount : ((Operand.ofNumber a (W + 1)).length).toNat = a.length - dropped W a b := by
        rw [ofNumber_excess, hdropped]
        dsimp only
        omega
      have hmem : memcmp (a.cut (dropped W a b)).number (b.cut (dropped W a b)).number
          (a.length - dropped W a b) = memcmp a.number b.number (a.length - dropped W a b) :=
        memcmp_take (Nat.le_refl _) (by omega)
      rw [hcount, hla', hmem]
      simp only [ofNumber_excess, hexp, hlen, hexcess, hcutexp, true_and]
      omega
    · constructor
      · rintro ⟨h₁, h₂, -⟩
        simp only [ofNumber_excess] at h₁ h₂
        omega
      · rintro ⟨h₁, -, -⟩
        omega
  simp only [addSub]
  rw [← min_def, hdom _ rfl]
  have hneg : -b.sign ≠ a.sign := hright
  have hcutright : rightSign .minus (b.cut (dropped W a b)) = -b.sign := rfl
  have hcutleft : (a.cut (dropped W a b)).sign = a.sign := rfl
  simp only [hadjust, if_true, hcutright, hcutleft, ne_eq, hneg, not_false_eq_true]
  simp only [Operand.align, hequal]

/-- The difference loses its sign: the leading digits differ by less than five. -/
def LosesLeading (W : Nat) (a b : NumberString) : Prop :=
  W < max a.length b.length ∧
    |((value 10 a.number / 10 ^ dropped W a b : ℕ) : Int) -
      (value 10 b.number / 10 ^ dropped W a b : ℕ)| < 5

instance (W : Nat) (a b : NumberString) : Decidable (LosesLeading W a b) := by
  unfold LosesLeading
  infer_instance

theorem addSub_sign_dominant {s : Settings} {a b : NumberString} {W : Nat} (hW : 1 ≤ W)
    (hexp : a.exp = b.exp) (ha : a.Normalized) (hb : b.Normalized) (ha0 : a.sign ≠ 0)
    (hsign : a.sign = b.sign) (hsetup : ∀ n : NumberString, n.number = a.number ∨
      n.number = b.number → n.exp = a.exp → n.sign ≠ 0 →
      ∃ r, n.setupNumber s = .ok r ∧ r.sign = n.sign)
    (hlong : 1 ≤ dropped W a b) (hmin : min a.length b.length ≤ dropped W a b) :
    ∃ r, addSub s a b .minus W = .ok r ∧
      r.sign = if b.length < a.length then a.sign else -a.sign := by
  have hb0 : b.sign ≠ 0 := hsign ▸ ha0
  have hpa := ha.length_pos
  have hpb := hb.length_pos
  have hne : a.length ≠ b.length := by
    unfold dropped excess at *
    omega
  simp only [addSub]
  rw [← min_def]
  rcases Nat.lt_or_gt_of_ne hne with hlt | hgt
  · have hdom : dominant a b
        ((Operand.ofNumber a (W + 1)).align
          (min (Operand.ofNumber a (W + 1)).exp (Operand.ofNumber b (W + 1)).exp))
        ((Operand.ofNumber b (W + 1)).align
          (min (Operand.ofNumber a (W + 1)).exp (Operand.ofNumber b (W + 1)).exp)) W =
        some true := by
      rw [dominant, if_neg ha0, if_neg hb0, if_neg, if_pos]
      · simp only [ofNumber_excess, Operand.align]
        unfold dropped excess at *
        omega
      · simp only [ofNumber_excess, Operand.align]
        unfold dropped excess at *
        omega
    obtain ⟨r, hr, hrs⟩ := hsetup { b with sign := -b.sign } (Or.inr rfl) hexp.symm (by
      simpa using hb0)
    refine ⟨r, ?_, ?_⟩
    · rw [hdom]
      exact hr
    · rw [hrs, if_neg (by omega), hsign]
  · have hdom : dominant a b
        ((Operand.ofNumber a (W + 1)).align
          (min (Operand.ofNumber a (W + 1)).exp (Operand.ofNumber b (W + 1)).exp))
        ((Operand.ofNumber b (W + 1)).align
          (min (Operand.ofNumber a (W + 1)).exp (Operand.ofNumber b (W + 1)).exp)) W =
        some false := by
      rw [dominant, if_neg ha0, if_neg hb0, if_pos]
      simp only [ofNumber_excess, Operand.align]
      unfold dropped excess at *
      omega
    obtain ⟨r, hr, hrs⟩ := hsetup a (Or.inl rfl) rfl ha0
    refine ⟨r, ?_, ?_⟩
    · rw [hdom]
      exact hr
    · rw [hrs, if_pos hgt]

theorem leading_of_dominant {a b : NumberString} {W : Nat} (hW : 1 ≤ W) (ha : a.Normalized)
    (hb : b.Normalized) (ha0 : a.sign ≠ 0)
    (hlong : a.length = W + 1 + dropped W a b) (hshort : b.length ≤ dropped W a b) :
    5 ≤ value 10 a.number / 10 ^ dropped W a b ∧ value 10 b.number / 10 ^ dropped W a b = 0 ∧
      value 10 b.number < value 10 a.number := by
  have hpow : 0 < 10 ^ dropped W a b := by positivity
  obtain ⟨d, ds, hds, hd⟩ := ha.leading ha0
  have hlen : ds.length = W + dropped W a b := by
    rw [length, hds, List.length_cons] at hlong
    omega
  have hlo := le_value_cons (b := 10) hd ds
  rw [← hds, hlen] at hlo
  have hhi := value_lt (b := 10) (by norm_num) hb.digits
  have hle : 10 ^ b.number.length ≤ 10 ^ dropped W a b :=
    Nat.pow_le_pow_right (by norm_num) hshort
  have hten : 10 ^ 1 ≤ 10 ^ W := Nat.pow_le_pow_right (by norm_num) hW
  rw [pow_add] at hlo
  have hbig : 10 * 10 ^ dropped W a b ≤ 10 ^ W * 10 ^ dropped W a b := by
    apply Nat.mul_le_mul_right
    simpa using hten
  refine ⟨?_, Nat.div_eq_of_lt (hhi.trans_le hle), by omega⟩
  rw [Nat.le_div_iff_mul_le hpow]
  omega

theorem addSub_sign_long {s : Settings} {a b : NumberString} {W : Nat} (hW : 1 ≤ W)
    (hexp : a.exp = b.exp) (ha : a.Normalized) (hb : b.Normalized) (ha0 : a.sign ≠ 0)
    (hsign : a.sign = b.sign) (hsetup : ∀ n : NumberString, n.number = a.number ∨
      n.number = b.number → n.exp = a.exp → n.sign ≠ 0 →
      ∃ r, n.setupNumber s = .ok r ∧ r.sign = n.sign)
    (hupp : a.exp + (max a.length b.length + W + 1) ≤ maxNum) :
    ∃ r, addSub s a b .minus W = .ok r ∧ SignType.sign r.sign =
      if LosesLeading W a b then 0
      else SignType.sign a.sign *
        SignType.sign ((value 10 a.number : Int) - value 10 b.number) := by
  have hb0 : b.sign ≠ 0 := hsign ▸ ha0
  by_cases hzero : dropped W a b = 0
  · have hlengths : a.length ≤ W + 1 ∧ b.length ≤ W + 1 := by
      unfold dropped excess at hzero
      omega
    obtain ⟨r, hr, hrs⟩ := addSub_sign_aligned (s := s) hW hexp ha hb hlengths.1 hlengths.2
      ha0 hsign (by omega)
    refine ⟨r, hr, ?_⟩
    have hiff : LosesLeading W a b ↔ max a.length b.length = W + 1 ∧
        |(value 10 a.number : Int) - value 10 b.number| < 5 := by
      rw [LosesLeading, hzero, pow_zero, Nat.div_one, Nat.div_one]
      exact and_congr_left fun _ => by omega
    simp only [hrs, hiff]
  · have hlong : 1 ≤ dropped W a b := by omega
    by_cases hmin : dropped W a b < min a.length b.length
    · have hla : dropped W a b < a.length := by omega
      have hlb : dropped W a b < b.length := by omega
      have hca := length_cut hla.le
      have hcb := length_cut hlb.le
      have hmax : max (a.cut (dropped W a b)).length (b.cut (dropped W a b)).length = W + 1 := by
        unfold dropped excess at *
        omega
      obtain ⟨r, hr, hrs⟩ := addSub_sign_aligned (s := s) (W := W) hW
        (show (a.cut (dropped W a b)).exp = (b.cut (dropped W a b)).exp by
          simp only [cut, hexp]) (normalized_cut ha ha0 hla) (normalized_cut hb hb0 hlb)
        (by omega) (by omega) ha0 hsign
        (by
          have hcut : (a.cut (dropped W a b)).exp = a.exp + dropped W a b := rfl
          unfold dropped excess at *
          omega)
      refine ⟨r, (addSub_cut hexp ha hb ha0 hsign hlong hla hlb).trans hr, ?_⟩
      rw [hrs, hmax, value_cut ha hla.le, value_cut hb hlb.le]
      have hW' : W < max a.length b.length := by
        unfold dropped excess at *
        omega
      have hiff : LosesLeading W a b ↔
          |((value 10 a.number / 10 ^ dropped W a b : ℕ) : Int) -
            (value 10 b.number / 10 ^ dropped W a b : ℕ)| < 5 := by
        rw [LosesLeading]
        exact and_iff_right hW'
      simp only [true_and, ← hiff]
      split
      · rfl
      · rename_i hkeep
        rw [hiff, not_lt] at hkeep
        congr 1
        -- leading digits that differ decide which number is the larger one
        have hdiv : ∀ x y c : ℕ, x / c < y / c → x < y :=
          fun x y c h => Nat.lt_of_not_le fun hle =>
            absurd (Nat.div_le_div_right hle) (Nat.not_le.mpr h)
        rcases lt_trichotomy (value 10 a.number / 10 ^ dropped W a b)
          (value 10 b.number / 10 ^ dropped W a b) with h | h | h
        · have hlt := hdiv _ _ _ h
          rw [sign_neg (by omega), sign_neg (by omega)]
        · rw [h, sub_self, abs_zero] at hkeep
          omega
        · have hlt := hdiv _ _ _ h
          rw [sign_pos (by omega), sign_pos (by omega)]
    · obtain ⟨r, hr, hrs⟩ := addSub_sign_dominant hW hexp ha hb ha0 hsign hsetup hlong
        (not_lt.mp hmin)
      refine ⟨r, hr, ?_⟩
      have hpa := ha.length_pos
      have hpb := hb.length_pos
      rcases Nat.lt_or_ge b.length a.length with hlt | hge
      · obtain ⟨h5, h0, hless⟩ := leading_of_dominant hW ha hb ha0
          (by unfold dropped excess at *; omega) (by omega)
        have hkeep : ¬ LosesLeading W a b := by
          rintro ⟨-, h⟩
          rw [h0, abs_lt] at h
          omega
        rw [hrs, if_pos hlt, if_neg hkeep, sign_pos (a := (value 10 a.number : Int) - _) (by omega),
          mul_one]
      · have hcomm : dropped W b a = dropped W a b := max_comm _ _
        obtain ⟨h5, h0, hless⟩ := leading_of_dominant hW hb ha hb0
          (by unfold dropped excess at *; omega) (by unfold dropped excess at *; omega)
        have hkeep : ¬ LosesLeading W a b := by
          rintro ⟨-, h⟩
          rw [← hcomm, h0, abs_lt] at h
          omega
        rw [hrs, if_neg (by omega), if_neg hkeep,
          sign_neg (a := (value 10 a.number : Int) - _) (by omega), mul_neg_one, Left.sign_neg]

/-! ## Whole numbers of any length -/

theorem setupNumber_long {s : Settings} {n : NumberString} {c : Nat} {r : Decimal}
    (hD : 1 ≤ s.digits) (hn : n.number = numeral 10 c) (hc : c ≠ 0) (hlow : -maxNum ≤ n.exp)
    (hupp : n.exp + n.length + 1 ≤ maxNum) (hlong : n.length > s.digits)
    (hr : (⟨c, n.exp⟩ : Decimal).round s.digits = r) :
    n.setupNumber s = .ok { n.setNumericSettings s.digits s.form with
      number := numeral 10 r.coeff, exp := r.exp } := by
  have hlen := length_numeral (b := 10) (by norm_num) hc
  have hlength : n.length = Nat.log 10 c + 1 := by rw [length, hn, hlen]
  have hbig : 10 ^ s.digits ≤ c :=
    Nat.pow_le_of_le_log hc (by omega)
  have hexp : n.exp ≤ r.exp ∧ r.exp ≤ n.exp + (Nat.log 10 c - s.digits : ℕ) + 2 := by
    simp only [← hr, Decimal.round, if_neg (not_lt.mpr hbig)]
    split
    · dsimp only
      omega
    · dsimp only
      omega
  have hcoeff : r.coeff ≠ 0 :=
    hr ▸ Decimal.round_coeff_ne_zero (d := ⟨c, n.exp⟩) hD (by dsimp only; omega)
  have hlenr : (numeral 10 r.coeff).length = s.digits :=
    hr ▸ length_numeral_round (d := ⟨c, n.exp⟩) hD hbig
  have hcheck : checkExponent r.exp s.digits = .ok () := by
    rw [checkExponent_eq_ok_iff]
    omega
  obtain ⟨d, ds, hds, hd⟩ := numeral_eq_cons (b := 10) hcoeff
  have hne : numeral 10 r.coeff ≠ [0] := by
    rw [hds]
    rintro ⟨⟩
    omega
  have hround := mathRound_numeral hD hbig hr
  rw [← hn, ← length, hcheck, Outcome.ok_bind] at hround
  have hlong' : (n.setNumericSettings s.digits s.form).length >
      (n.setNumericSettings s.digits s.form).numDigits := hlong
  rw [setupNumber, if_pos hlong', adjustPrecision, if_pos hlong']
  simp only [setNumericSettings, length] at hround ⊢
  rw [hround]
  change (do
    if numeral 10 r.coeff = [0] then _ else _ : Outcome NumberString) = _
  rw [if_neg hne, hlenr, hcheck]
  rfl

theorem setupNumber_sign {s : Settings} {n : NumberString} {c : Nat} (hD : 1 ≤ s.digits)
    (hn : n.number = numeral 10 c) (hc : c ≠ 0) (hlow : -maxNum ≤ n.exp)
    (hupp : n.exp + n.length + 1 ≤ maxNum) :
    ∃ r, n.setupNumber s = .ok r ∧ r.sign = n.sign := by
  by_cases hlong : n.length > s.digits
  · exact ⟨_, setupNumber_long hD hn hc hlow hupp hlong rfl, rfl⟩
  · exact ⟨_, setupNumber_of_le (not_lt.mp hlong), rfl⟩

/-- The sign of `x - y` is lost at `D` digits: the larger number has more digits, and the
leading `D + 1` digits differ by less than five. -/
def LosesSign (D : Nat) (x y : Int) : Prop :=
  10 ^ D ≤ max x.natAbs y.natAbs ∧
    |((x.natAbs / 10 ^ (Nat.log 10 (max x.natAbs y.natAbs) - D) : ℕ) : Int) -
      (y.natAbs / 10 ^ (Nat.log 10 (max x.natAbs y.natAbs) - D) : ℕ)| < 5

instance (D : Nat) (x y : Int) : Decidable (LosesSign D x y) := by
  unfold LosesSign
  infer_instance

theorem length_newWholenumber_eq (s : Settings) {v : Int} (h : v ≠ 0) :
    (newWholenumber s v).length = Nat.log 10 v.natAbs + 1 := by
  rw [newWholenumber_eq, if_neg h, length, new,
    length_numeral (by norm_num) (Int.natAbs_ne_zero.mpr h)]

theorem losesLeading_whole (s : Settings) {D : Nat} {x y : Int} (hx : x ≠ 0) (hy : y ≠ 0) :
    LosesLeading D (newWholenumber s x) (newWholenumber s y) ↔ LosesSign D x y := by
  have hx' : x.natAbs ≠ 0 := Int.natAbs_ne_zero.mpr hx
  have hy' : y.natAbs ≠ 0 := Int.natAbs_ne_zero.mpr hy
  have hmax : Nat.log 10 (max x.natAbs y.natAbs) =
      max (Nat.log 10 x.natAbs) (Nat.log 10 y.natAbs) :=
    (Nat.log_monotone (b := 10)).map_max
  have hdropped : dropped D (newWholenumber s x) (newWholenumber s y) =
      Nat.log 10 (max x.natAbs y.natAbs) - D := by
    unfold dropped excess
    rw [length_newWholenumber_eq s hx, length_newWholenumber_eq s hy, hmax]
    omega
  have hlong : D < max (newWholenumber s x).length (newWholenumber s y).length ↔
      10 ^ D ≤ max x.natAbs y.natAbs := by
    rw [length_newWholenumber_eq s hx, length_newWholenumber_eq s hy,
      ← Nat.le_log_iff_pow_le (by norm_num) (by omega), hmax]
    omega
  rw [LosesLeading, LosesSign, hdropped, hlong, value_newWholenumber, value_newWholenumber]

theorem sign_natAbs_sub {x y : Int} (hx0 : x ≠ 0) (hsign : x.sign = y.sign) :
    SignType.sign x.sign * SignType.sign ((x.natAbs : Int) - y.natAbs) =
      SignType.sign (x - y) := by
  rcases lt_or_gt_of_ne hx0 with hneg | hpos
  · have hyneg : y < 0 := by
      rw [Int.sign_eq_neg_one_of_neg hneg] at hsign
      exact Int.sign_eq_neg_one_iff_neg.mp hsign.symm
    have hdiff : (x.natAbs : Int) - y.natAbs = -(x - y) := by omega
    rw [Int.sign_eq_neg_one_of_neg hneg, hdiff, Left.sign_neg, Left.sign_neg, sign_one]
    simp
  · have hypos : 0 < y := by
      rw [Int.sign_eq_one_of_pos hpos] at hsign
      exact Int.sign_eq_one_iff_pos.mp hsign.symm
    have hdiff : (x.natAbs : Int) - y.natAbs = x - y := by omega
    rw [Int.sign_eq_one_of_pos hpos, hdiff, sign_one, one_mul]

theorem addSub_sign_whole {s : Settings} {D k : Nat} {x y : Int} (hD : 1 ≤ D)
    (hs : 1 ≤ s.digits) (hk : 1 ≤ k) (hmax : ((k + D + 1 : ℕ) : Int) ≤ maxNum)
    (hx : x.natAbs < 10 ^ k) (hy : y.natAbs < 10 ^ k) (hx0 : x ≠ 0) (hsign : x.sign = y.sign) :
    ∃ r, addSub s (newWholenumber s x) (newWholenumber s y) .minus D = .ok r ∧
      SignType.sign r.sign = if LosesSign D x y then 0 else SignType.sign (x - y) := by
  have hy0 : y ≠ 0 := by
    rintro rfl
    exact hx0 (Int.sign_eq_zero_iff_zero.mp hsign)
  have hlx := length_whole s hk hx
  have hly := length_whole s hk hy
  have hnumber : ∀ v : Int, v ≠ 0 → (newWholenumber s v).number = numeral 10 v.natAbs := by
    intro v hv
    rw [newWholenumber_eq, if_neg hv]
    rfl
  have hsetup : ∀ n : NumberString, n.number = (newWholenumber s x).number ∨
      n.number = (newWholenumber s y).number → n.exp = (newWholenumber s x).exp → n.sign ≠ 0 →
      ∃ r, n.setupNumber s = .ok r ∧ r.sign = n.sign := by
    intro n hn hexp _
    rw [newWholenumber_exp] at hexp
    have hlow : -maxNum ≤ n.exp := by
      rw [hexp]
      decide
    rcases hn with hn | hn
    · refine setupNumber_sign hs (hn.trans (hnumber x hx0)) (Int.natAbs_ne_zero.mpr hx0) hlow ?_
      rw [hexp, length, hn, ← length]
      omega
    · refine setupNumber_sign hs (hn.trans (hnumber y hy0)) (Int.natAbs_ne_zero.mpr hy0) hlow ?_
      rw [hexp, length, hn, ← length]
      omega
  obtain ⟨r, hr, hrs⟩ := addSub_sign_long (s := s) (W := D) hD
    (show (newWholenumber s x).exp = (newWholenumber s y).exp by simp)
    (normalized_whole s hk (by omega) hx) (normalized_whole s hk (by omega) hy)
    (by rwa [newWholenumber_sign, Ne, Int.sign_eq_zero_iff_zero])
    (by rw [newWholenumber_sign, newWholenumber_sign, hsign]) hsetup
    (by rw [newWholenumber_exp]; omega)
  refine ⟨r, hr, ?_⟩
  rw [hrs]
  simp only [losesLeading_whole s hx0 hy0, value_newWholenumber, newWholenumber_sign]
  rw [sign_natAbs_sub hx0 hsign]

end NumberString

end LeooRexx
