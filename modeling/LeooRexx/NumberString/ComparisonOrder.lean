import LeooRexx.NumberString.MaxMin

/-!
# The order of the comparison

A lost difference makes a number equal to one that is greater, so that equality is not transitive.
Nothing that is representable lies between the two without being equal to one of them, and being
greater is transitive all the same.
-/

namespace LeooRexx

open DecimalRounding

namespace NumberString

theorem units_below {D j : ℕ} {m : ℤ} {w : ℚ} (hD : 1 ≤ D) (hj5 : j < 5) (hw : FitsDigits D w)
    (hlow : (10 ^ D - j) * 10 ^ m < |w|) (hhigh : |w| < 10 ^ D * 10 ^ m) :
    ∃ i, 1 ≤ i ∧ i < j ∧ |w| = (10 ^ D - i : ℚ) * 10 ^ m := by
  obtain ⟨c, x, hc, hcx⟩ := hw
  have hpow : (10 : ℚ) ≤ 10 ^ D := by
    calc (10 : ℚ) = 10 ^ 1 := (pow_one 10).symm
      _ ≤ 10 ^ D := pow_le_pow_right₀ (by norm_num) hD
  have hm : (0 : ℚ) < 10 ^ m := by positivity
  have hj : (j : ℚ) ≤ 4 := by exact_mod_cast Nat.le_of_lt_succ hj5
  have hmx : m ≤ x := by
    by_contra hlt
    have hx : (10 : ℚ) ^ x ≤ 10 ^ (m - 1) := zpow_le_zpow_right₀ (by norm_num) (by omega)
    have hc' : (c : ℚ) ≤ 10 ^ D := by exact_mod_cast hc.le
    have hle : |w| ≤ 10 ^ D * 10 ^ (m - 1) :=
      hcx ▸ mul_le_mul hc' hx (by positivity) (by positivity)
    rw [zpow_sub_one₀ (by norm_num)] at hle
    have hlt' : (10 ^ D - j : ℚ) * 10 ^ m < 10 ^ D / 10 * 10 ^ m := by linarith
    have := lt_of_mul_lt_mul_right hlt' hm.le
    linarith
  obtain ⟨N, hN⟩ : ∃ N : ℕ, |w| = N * 10 ^ m := by
    refine ⟨c * 10 ^ (x - m).toNat, ?_⟩
    have hsplit : (10 : ℚ) ^ x = 10 ^ (x - m).toNat * 10 ^ m := by
      rw [← zpow_natCast, ← zpow_add₀ (by norm_num)]
      congr 1
      omega
    rw [hcx, hsplit]
    push_cast
    ring
  rw [hN] at hlow hhigh
  have hNlow := lt_of_mul_lt_mul_right hlow hm.le
  have hNhigh := lt_of_mul_lt_mul_right hhigh hm.le
  have hNhigh' : N < 10 ^ D := by exact_mod_cast hNhigh
  have hNlow' : 10 ^ D < N + j := by
    have h : ((10 ^ D : ℕ) : ℚ) < ((N + j : ℕ) : ℚ) := by
      push_cast
      linarith
    exact_mod_cast h
  refine ⟨10 ^ D - N, by omega, by omega, ?_⟩
  rw [hN, Nat.cast_sub hNhigh'.le]
  push_cast
  ring

theorem DifferenceLost.symm {D : ℕ} {u v : ℚ} (h : DifferenceLost D u v) :
    DifferenceLost D v u := by
  obtain ⟨hsign, m, j, hj, hj5, hmax, hmin⟩ := h
  exact ⟨hsign.symm, m, j, hj, hj5, (max_comm _ _).trans hmax, (min_comm _ _).trans hmin⟩

theorem DifferenceLost.between {D : ℕ} {u v w : ℚ} (hD : 1 ≤ D) (hw : FitsDigits D w)
    (h : DifferenceLost D u v) (huw : u < w) (hwv : w < v) :
    DifferenceLost D u w ∨ DifferenceLost D w v := by
  obtain ⟨hsign, m, j, hj, hj5, hmax, hmin⟩ := h
  rcases lt_or_ge 0 u with hu | hu
  · have hw0 : 0 < w := hu.trans huw
    have hv : 0 < v := hw0.trans hwv
    rw [abs_of_pos hu, abs_of_pos hv, max_eq_right (huw.trans hwv).le] at hmax
    rw [abs_of_pos hu, abs_of_pos hv, min_eq_left (huw.trans hwv).le] at hmin
    have habs : |w| = w := abs_of_pos hw0
    obtain ⟨i, hi, hij, hunits⟩ := units_below hD hj5 hw (by linarith) (hmax ▸ habs.trans_lt hwv)
    refine .inr ⟨by rw [sign_pos hw0, sign_pos hv], m, i, hi, by omega, ?_, ?_⟩
    · rw [habs, abs_of_pos hv, max_eq_right hwv.le, hmax]
    · rw [abs_of_pos hv, min_eq_left (habs.trans_le hwv.le), hunits]
  · have hv : v < 0 := by
      by_contra hv
      rw [not_lt] at hv
      have hu' := sign_nonpos_iff.mpr hu
      have hv' := sign_nonneg_iff.mpr hv
      have hu0 := sign_eq_zero_iff.mp (le_antisymm hu' (hsign ▸ hv'))
      have hv0 := sign_eq_zero_iff.mp (le_antisymm (hsign ▸ hu') hv')
      linarith
    have hw0 : w < 0 := hwv.trans hv
    rw [abs_of_nonpos hu, abs_of_neg hv, max_eq_left (by linarith)] at hmax
    rw [abs_of_nonpos hu, abs_of_neg hv, min_eq_right (by linarith)] at hmin
    have habs : |w| = -w := abs_of_neg hw0
    obtain ⟨i, hi, hij, hunits⟩ := units_below hD hj5 hw (by linarith) (by linarith)
    have hu0 : u < 0 := huw.trans hw0
    refine .inl ⟨by rw [sign_neg hu0, sign_neg hw0], m, i, hi, by omega, ?_, ?_⟩
    · rw [habs, abs_of_neg hu0, max_eq_left (by linarith), hmax]
    · rw [abs_of_neg hu0, min_eq_right (by linarith), hunits]

/-! ## The comparison -/

/-- What a comparison without FUZZ answers. -/
def Compares (s : Settings) (a b : NumberString) (o : SignType) : Prop :=
  ∃ r, comp { s with fuzz := 0 } a b = .ok r ∧ SignType.sign r = o

/-- The numbers that are compared, which were rounded before. -/
def Operands (s : Settings) : Type := { n : NumberString // n.Normalized ∧ n.length ≤ s.digits }

section Order

variable {s : Settings} (hD : 1 ≤ s.digits) (a b c : Operands s)

include hD

theorem compares_sign :
    ∃ o, Compares s a.1 b.1 o ∧ Compares s b.1 a.1 (-o) := by
  obtain ⟨r, hr, hsign⟩ := comp_sign hD a.2.1 b.2.1 a.2.2 b.2.2
  obtain ⟨r', hr', hsign'⟩ := comp_sign hD b.2.1 a.2.1 b.2.2 a.2.2
  refine ⟨SignType.sign r, ⟨r, hr, rfl⟩, r', hr', ?_⟩
  rw [hsign, hsign']
  by_cases hloses : LosesDifference s.digits a.1 b.1
  · rw [if_pos hloses, if_pos (losesDifference_comm.mp hloses)]
    rfl
  · rw [if_neg hloses, if_neg (mt losesDifference_comm.mp hloses), ← Left.sign_neg, neg_sub]

theorem compares_one_iff : Compares s a.1 b.1 1 ↔
    b.1.toRat < a.1.toRat ∧ ¬ DifferenceLost s.digits a.1.toRat b.1.toRat := by
  rw [← losesDifference_iff_values hD a.2.1 b.2.1 a.2.2 b.2.2]
  obtain ⟨r, hr, hsign⟩ := comp_sign hD a.2.1 b.2.1 a.2.2 b.2.2
  constructor
  · rintro ⟨r', hr', hone⟩
    obtain rfl : r = r' := by
      rw [hr] at hr'
      injection hr'
    rw [hone] at hsign
    split at hsign
    · cases hsign
    next hkeep => exact ⟨sub_pos.mp (sign_eq_one_iff.mp hsign.symm), hkeep⟩
  · rintro ⟨hlt, hkeep⟩
    rw [if_neg hkeep, sign_pos (sub_pos.mpr hlt)] at hsign
    exact ⟨r, hr, hsign⟩

theorem compares_trans (hab : Compares s a.1 b.1 1) (hbc : Compares s b.1 c.1 1) :
    Compares s a.1 c.1 1 := by
  rw [compares_one_iff hD] at *
  obtain ⟨hab, hkeepab⟩ := hab
  obtain ⟨hbc, hkeepbc⟩ := hbc
  refine ⟨hbc.trans hab, fun hloses => ?_⟩
  rcases hloses.symm.between hD (fitsDigits_toRat b.2.1 b.2.2) hbc hab with h | h
  · exact hkeepbc h.symm
  · exact hkeepab h.symm

omit a b c in
/-- Two numbers are always compared, the other way round with the opposite answer, and what is
greater is greater by value.  To be greater is a strict order. -/
theorem comp_strictOrder :
    (∀ a b : Operands s, ∃ o, Compares s a.1 b.1 o ∧ Compares s b.1 a.1 (-o)) ∧
    (∀ a b : Operands s, Compares s a.1 b.1 1 → b.1.toRat < a.1.toRat) ∧
    IsStrictOrder (Operands s) fun a b => Compares s a.1 b.1 1 := by
  refine ⟨compares_sign hD, fun a b h => ((compares_one_iff hD a b).mp h).1, ?_⟩
  exact
    { irrefl := fun a h => lt_irrefl _ ((compares_one_iff hD a a).mp h).1
      trans := compares_trans hD }

end Order

theorem comp_strictOrder_nine :
    (∀ a b : Operands ⟨9, 0, .scientific⟩, ∃ o, Compares ⟨9, 0, .scientific⟩ a.1 b.1 o ∧
      Compares ⟨9, 0, .scientific⟩ b.1 a.1 (-o)) ∧
    (∀ a b : Operands ⟨9, 0, .scientific⟩, Compares ⟨9, 0, .scientific⟩ a.1 b.1 1 →
      b.1.toRat < a.1.toRat) ∧
    IsStrictOrder (Operands ⟨9, 0, .scientific⟩)
      fun a b => Compares ⟨9, 0, .scientific⟩ a.1 b.1 1 :=
  comp_strictOrder (s := ⟨9, 0, .scientific⟩) (by decide)

end NumberString

end LeooRexx
