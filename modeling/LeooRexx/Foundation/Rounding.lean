import Mathlib.Algebra.Order.Round
import Mathlib.Data.Int.Log
import Mathlib.Data.Nat.Digits.Lemmas
import Mathlib.Data.Rat.Floor
import Mathlib.Data.Sign.Basic
import Mathlib.Tactic

/-!
# Decimal rounding

`roundHalfUp D q` is the rational `q` rounded to `D` significant decimal
digits, a tie going away from zero.  `Decimal` is the pair of a coefficient and
an exponent that a decimal arithmetic package stores; `Decimal.round` is the
rounding such a package performs on that pair, looking only at the first digit
it drops.
-/

namespace DecimalRounding

/-- The unit of the last of `D` significant digits of `q`. -/
def unitInLastPlace (D : ℕ) (q : ℚ) : ℚ := 10 ^ (Int.log 10 |q| + 1 - D)

def roundHalfUp (D : ℕ) (q : ℚ) : ℚ :=
  SignType.sign q *
    (⌊|q| / unitInLastPlace D q + 1 / 2⌋ * unitInLastPlace D q)

@[simp] theorem roundHalfUp_zero (D : ℕ) : roundHalfUp D 0 = 0 := by
  simp [roundHalfUp]

@[simp] theorem roundHalfUp_neg (D : ℕ) (q : ℚ) :
    roundHalfUp D (-q) = -roundHalfUp D q := by
  simp [roundHalfUp, unitInLastPlace, Left.sign_neg]

theorem log_eq_of_bounds {n : ℤ} {q : ℚ} (hlo : (10 : ℚ) ^ n ≤ q)
    (hhi : q < 10 ^ (n + 1)) : Int.log 10 q = n := by
  have hpos : 0 < q := lt_of_lt_of_le (by positivity) hlo
  apply le_antisymm
  · have h := (Int.lt_zpow_iff_log_lt (b := 10) (by norm_num) hpos).mp
      (by simpa using hhi)
    omega
  · exact (Int.zpow_le_iff_le_log (b := 10) (by norm_num) hpos).mp
      (by simpa using hlo)

private theorem roundHalfUp_of_pos {D : ℕ} {q : ℚ} (hq : 0 < q) :
    roundHalfUp D q =
      ⌊q / unitInLastPlace D q + 1 / 2⌋ * unitInLastPlace D q := by
  simp [roundHalfUp, sign_pos hq, abs_of_pos hq]

theorem roundHalfUp_of_floor {D c : ℕ} {x : ℤ} {q : ℚ} (hlo : 10 ^ D ≤ c)
    (hhi : c < 10 ^ (D + 1)) (hcq : (c : ℚ) * 10 ^ x ≤ q)
    (hqc : q < (c + 1) * 10 ^ x) :
    roundHalfUp D q = ((c + 5) / 10 : ℕ) * 10 ^ (x + 1) := by
  have hx : (0 : ℚ) < 10 ^ x := by positivity
  have hcpos : (0 : ℚ) < c := by
    exact_mod_cast lt_of_lt_of_le (by positivity) hlo
  have hq : 0 < q := lt_of_lt_of_le (by positivity) hcq
  have hlog : Int.log 10 |q| = x + D := by
    rw [abs_of_pos hq]
    apply log_eq_of_bounds
    · calc (10 : ℚ) ^ (x + D) = (10 ^ D : ℕ) * 10 ^ x := by
            rw [zpow_add₀ (by norm_num)]; push_cast; rw [zpow_natCast]; ring
        _ ≤ c * 10 ^ x := by gcongr
        _ ≤ q := hcq
    · have hc : (c : ℚ) + 1 ≤ (10 ^ (D + 1) : ℕ) := by exact_mod_cast hhi
      calc q < (c + 1) * 10 ^ x := hqc
        _ ≤ (10 ^ (D + 1) : ℕ) * 10 ^ x := by gcongr
        _ = 10 ^ (x + D + 1) := by
            rw [add_assoc, zpow_add₀ (by norm_num)]; push_cast
            rw [← zpow_natCast]; push_cast; ring
  have hunit : unitInLastPlace D q = 10 ^ (x + 1) := by
    rw [unitInLastPlace, hlog]; congr 1; ring
  rw [roundHalfUp_of_pos hq, hunit]
  congr 1
  have hx1 : (10 : ℚ) ^ (x + 1) = 10 ^ x * 10 := by
    rw [zpow_add₀ (by norm_num), zpow_one]
  have hlow : (c : ℚ) ≤ q / 10 ^ x := by rwa [le_div_iff₀ hx]
  have hupp : q / 10 ^ x < c + 1 := by rwa [div_lt_iff₀ hx]
  have hdiv : q / 10 ^ (x + 1) = q / 10 ^ x / 10 := by
    rw [hx1, div_div]
  have hfloor : ⌊q / 10 ^ (x + 1) + 1 / 2⌋ = (((c + 5) / 10 : ℕ) : ℤ) := by
    have hle : ((10 * ((c + 5) / 10) : ℕ) : ℚ) ≤ (c + 5 : ℕ) := by
      exact_mod_cast Nat.mul_div_le (c + 5) 10
    have hlt : ((c + 5 : ℕ) : ℚ) + 1 ≤ (10 * ((c + 5) / 10) + 10 : ℕ) := by
      exact_mod_cast (by omega : c + 5 + 1 ≤ 10 * ((c + 5) / 10) + 10)
    generalize (c + 5) / 10 = r at hle hlt ⊢
    rw [Int.floor_eq_iff, hdiv]
    push_cast at hle hlt ⊢
    constructor <;> linarith
  rw [hfloor]
  rfl

theorem roundHalfUp_of_lt {D c : ℕ} (x : ℤ) (hc : c < 10 ^ D) :
    roundHalfUp D (c * 10 ^ x) = c * 10 ^ x := by
  rcases Nat.eq_zero_or_pos c with rfl | hpos
  · simp
  have hq : (0 : ℚ) < c * 10 ^ x := by positivity
  -- pad the coefficient with zeros up to `D + 1` digits
  obtain ⟨k, hk⟩ : ∃ k, Nat.log 10 c + 1 + k = D + 1 := by
    have := Nat.log_lt_of_lt_pow hpos.ne' hc
    exact ⟨D - Nat.log 10 c, by omega⟩
  have hk1 : 1 ≤ k := by
    have := Nat.log_lt_of_lt_pow hpos.ne' hc
    omega
  have hlo : 10 ^ D ≤ c * 10 ^ k := by
    calc 10 ^ D = 10 ^ Nat.log 10 c * 10 ^ k := by
          rw [← pow_add]; congr 1; omega
      _ ≤ c * 10 ^ k := by gcongr; exact Nat.pow_log_le_self 10 hpos.ne'
  have hhi : c * 10 ^ k < 10 ^ (D + 1) := by
    calc c * 10 ^ k < 10 ^ (Nat.log 10 c + 1) * 10 ^ k := by
          gcongr; exact Nat.lt_pow_succ_log_self (by norm_num) c
      _ = 10 ^ (D + 1) := by rw [← pow_add, hk]
  have hval : ((c * 10 ^ k : ℕ) : ℚ) * 10 ^ (x - k) = c * 10 ^ x := by
    push_cast
    rw [← zpow_natCast, mul_assoc, ← zpow_add₀ (by norm_num)]
    congr 2
    ring
  have hround := roundHalfUp_of_floor (x := x - k) hlo hhi hval.le
    (by rw [← hval]; gcongr; linarith)
  rw [hround, ← hval]
  obtain ⟨j, rfl⟩ : ∃ j, k = j + 1 := ⟨k - 1, by omega⟩
  have hdiv : (c * 10 ^ (j + 1) + 5) / 10 = c * 10 ^ j := by
    rw [pow_succ, ← mul_assoc]
    omega
  rw [hdiv]
  push_cast
  rw [zpow_add₀ (by norm_num), pow_succ, zpow_one]
  ring

def truncate (q : ℚ) : ℤ := SignType.sign q * ⌊|q|⌋

def FitsDigits (D : ℕ) (q : ℚ) : Prop :=
  ∃ (c : ℕ) (x : ℤ), c < 10 ^ D ∧ |q| = c * 10 ^ x

theorem roundHalfUp_of_fits {D : ℕ} {q : ℚ} (h : FitsDigits D q) :
    roundHalfUp D q = q := by
  obtain ⟨c, x, hc, hq⟩ := h
  have hpos := roundHalfUp_of_lt x hc
  rw [← hq] at hpos
  rcases abs_choice q with habs | habs
  · rwa [habs] at hpos
  · rwa [habs, roundHalfUp_neg, neg_inj] at hpos

theorem roundHalfUp_sign_mul {D : ℕ} {sign : ℤ} (q : ℚ)
    (h : sign = -1 ∨ sign = 1) :
    roundHalfUp D (sign * q) = sign * roundHalfUp D q := by
  rcases h with rfl | rfl <;> simp

/-! ## Coefficient and exponent pairs -/

/-- The non-negative number `coeff * 10 ^ exp`. -/
structure Decimal where
  coeff : ℕ
  exp : ℤ
  deriving DecidableEq, Repr

namespace Decimal

def toRat (d : Decimal) : ℚ := d.coeff * 10 ^ d.exp

/--
Keep the first `D` digits of the coefficient and add one in the last place when
the first dropped digit is at least five.  A carry out of the leading digit is
absorbed by the exponent, so the result has at most `D` digits.
-/
def round (D : ℕ) (d : Decimal) : Decimal :=
  if d.coeff < 10 ^ D then d
  else
    let dropped := Nat.log 10 d.coeff - D
    let rounded := (d.coeff / 10 ^ dropped + 5) / 10
    if rounded = 10 ^ D then ⟨10 ^ (D - 1), d.exp + dropped + 2⟩
    else ⟨rounded, d.exp + dropped + 1⟩

@[simp] theorem toRat_eq_zero_iff {d : Decimal} :
    d.toRat = 0 ↔ d.coeff = 0 := by
  have : (10 : ℚ) ^ d.exp ≠ 0 := by positivity
  simp [toRat, this]

theorem round_of_lt {D : ℕ} {d : Decimal} (h : d.coeff < 10 ^ D) :
    d.round D = d := by
  simp [round, h]

theorem exp_le_round {D : ℕ} (d : Decimal) : d.exp ≤ (d.round D).exp := by
  unfold round
  split_ifs
  · rfl
  · dsimp only
    split_ifs <;> dsimp only <;> omega

theorem cut_bounds {D c : ℕ} (h : 10 ^ D ≤ c) :
    10 ^ D ≤ c / 10 ^ (Nat.log 10 c - D) ∧
      c / 10 ^ (Nat.log 10 c - D) < 10 ^ (D + 1) := by
  have hc : c ≠ 0 := by
    have : 0 < 10 ^ D := by positivity
    omega
  have hD : D ≤ Nat.log 10 c := Nat.le_log_of_pow_le (by norm_num) h
  constructor
  · rw [Nat.le_div_iff_mul_le (by positivity), ← pow_add]
    calc 10 ^ (D + (Nat.log 10 c - D)) = 10 ^ Nat.log 10 c := by
          congr 1; omega
      _ ≤ c := Nat.pow_log_le_self 10 hc
  · rw [Nat.div_lt_iff_lt_mul (by positivity), ← pow_add]
    calc c < 10 ^ (Nat.log 10 c + 1) := Nat.lt_pow_succ_log_self (by norm_num) c
      _ = 10 ^ (D + 1 + (Nat.log 10 c - D)) := by congr 1; omega

theorem round_coeff_bounds {D : ℕ} (hD : 1 ≤ D) {d : Decimal}
    (h : 10 ^ D ≤ d.coeff) :
    10 ^ (D - 1) ≤ (d.round D).coeff ∧ (d.round D).coeff < 10 ^ D := by
  obtain ⟨hlo, hhi⟩ := cut_bounds h
  obtain ⟨j, rfl⟩ : ∃ j, D = j + 1 := ⟨D - 1, by omega⟩
  have hj : 0 < 10 ^ j := by positivity
  simp only [pow_succ] at hlo hhi
  simp only [round, not_lt.mpr h, if_false, Nat.add_sub_cancel]
  split_ifs with hcarry
  · exact ⟨le_rfl, Nat.pow_lt_pow_right (by norm_num) (Nat.lt_succ_self j)⟩
  · simp only [pow_succ] at hcarry ⊢
    omega

theorem round_coeff_ne_zero {D : ℕ} (hD : 1 ≤ D) {d : Decimal}
    (h : d.coeff ≠ 0) : (d.round D).coeff ≠ 0 := by
  by_cases hlt : d.coeff < 10 ^ D
  · rwa [round_of_lt hlt]
  · have hlo := (round_coeff_bounds hD (not_lt.mp hlt)).1
    have : 0 < 10 ^ (D - 1) := by positivity
    omega

theorem toRat_round {D : ℕ} (hD : 1 ≤ D) (d : Decimal) :
    (d.round D).toRat = roundHalfUp D d.toRat := by
  by_cases h : d.coeff < 10 ^ D
  · rw [round_of_lt h, toRat, roundHalfUp_of_lt d.exp h]
  · obtain ⟨hlo, hhi⟩ := cut_bounds (not_lt.mp h)
    set k := Nat.log 10 d.coeff - D with hk
    set c := d.coeff / 10 ^ k with hc
    have hpow : (10 : ℚ) ^ (d.exp + k) = 10 ^ d.exp * 10 ^ k := by
      rw [zpow_add₀ (by norm_num), zpow_natCast]
    have hcut : (c : ℚ) * 10 ^ (d.exp + k) ≤ d.toRat := by
      have : ((c * 10 ^ k : ℕ) : ℚ) ≤ d.coeff := by
        exact_mod_cast Nat.div_mul_le_self d.coeff (10 ^ k)
      push_cast at this
      calc (c : ℚ) * 10 ^ (d.exp + k) = c * 10 ^ k * 10 ^ d.exp := by
            rw [hpow]; ring
        _ ≤ d.coeff * 10 ^ d.exp := by gcongr
    have hnext : d.toRat < (c + 1) * 10 ^ (d.exp + k) := by
      have : ((d.coeff : ℕ) : ℚ) < ((c + 1) * 10 ^ k : ℕ) := by
        exact_mod_cast Nat.lt_mul_of_div_lt (Nat.lt_succ_self c) (by positivity)
      push_cast at this
      calc d.toRat < (c + 1) * 10 ^ k * 10 ^ d.exp := by
            rw [toRat]; gcongr
        _ = (c + 1) * 10 ^ (d.exp + k) := by rw [hpow]; ring
    rw [roundHalfUp_of_floor hlo hhi hcut hnext, round, if_neg h, ← hk]
    simp only [← hc]
    split_ifs with hcarry
    · obtain ⟨j, rfl⟩ : ∃ j, D = j + 1 := ⟨D - 1, by omega⟩
      rw [hcarry, toRat, show d.exp + k + 2 = d.exp + k + 1 + 1 by ring,
        zpow_add₀ (by norm_num) _ 1, zpow_one, Nat.add_sub_cancel, pow_succ]
      push_cast
      ring
    · rfl

end Decimal

end DecimalRounding
