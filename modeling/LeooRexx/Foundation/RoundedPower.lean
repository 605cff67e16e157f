import LeooRexx.Foundation.Rounding

/-!
# Powers of rounded decimals

A power is formed by multiplications whose products are rounded to a working precision.  The
leading digit of every product stays between the powers of ten around the base, and nothing is
rounded away as long as the last power fits in the precision.
-/

namespace DecimalRounding

namespace Decimal

def mul (a b : Decimal) : Decimal := ⟨a.coeff * b.coeff, a.exp + b.exp⟩

@[simp] theorem toRat_mul (a b : Decimal) : (a.mul b).toRat = a.toRat * b.toRat := by
  have hexp : (10 : ℚ) ^ (a.exp + b.exp) = 10 ^ a.exp * 10 ^ b.exp := zpow_add₀ (by norm_num) _ _
  unfold mul toRat
  rw [hexp, Nat.cast_mul]
  ring

def lead (d : Decimal) : ℤ := d.exp + Nat.log 10 d.coeff

variable {D : ℕ} {d : Decimal} {M : ℤ}

theorem toRat_pos (h : d.coeff ≠ 0) : 0 < d.toRat := by
  have hpos := Nat.pos_of_ne_zero h
  unfold toRat
  positivity

theorem zpow_lead_le (h : d.coeff ≠ 0) : (10 : ℚ) ^ d.lead ≤ d.toRat := by
  have hlow : ((10 ^ Nat.log 10 d.coeff : ℕ) : ℚ) ≤ d.coeff := by
    exact_mod_cast Nat.pow_log_le_self 10 h
  rw [lead, zpow_add₀ (by norm_num), zpow_natCast, mul_comm, toRat]
  push_cast at hlow
  gcongr

theorem toRat_lt_zpow_lead (d : Decimal) : d.toRat < (10 : ℚ) ^ (d.lead + 1) := by
  have hhigh : (d.coeff : ℚ) < ((10 ^ (Nat.log 10 d.coeff + 1) : ℕ) : ℚ) := by
    exact_mod_cast Nat.lt_pow_succ_log_self (by norm_num) d.coeff
  have hexp : (10 : ℚ) ^ (d.lead + 1) = 10 ^ (Nat.log 10 d.coeff + 1) * 10 ^ d.exp := by
    rw [lead, ← zpow_natCast, ← zpow_add₀ (by norm_num)]
    congr 1
    push_cast
    ring
  rw [hexp, toRat]
  push_cast at hhigh
  gcongr

theorem lead_le (h : d.coeff ≠ 0) (hd : d.toRat ≤ 10 ^ M) : d.lead ≤ M :=
  (zpow_le_zpow_iff_right₀ (by norm_num)).mp ((zpow_lead_le h).trans hd)

theorem le_lead (hd : 10 ^ M ≤ d.toRat) : M ≤ d.lead := by
  have hlt := (zpow_lt_zpow_iff_right₀ (by norm_num)).mp (hd.trans_lt (toRat_lt_zpow_lead d))
  omega

theorem zpow_le_of_cut {c : ℕ} {x : ℤ} (hc : c ≠ 0) (h : (10 : ℚ) ^ M < (c + 1) * 10 ^ x) :
    (10 : ℚ) ^ M ≤ c * 10 ^ x := by
  have hnext : ((c : ℚ) + 1) * 10 ^ x ≤ 10 ^ ((⟨c, x⟩ : Decimal).lead + 1) := by
    have hle : ((c + 1 : ℕ) : ℚ) ≤ ((10 ^ (Nat.log 10 c + 1) : ℕ) : ℚ) := by
      exact_mod_cast Nat.lt_pow_succ_log_self (by norm_num) c
    have hexp : (10 : ℚ) ^ ((⟨c, x⟩ : Decimal).lead + 1) = 10 ^ (Nat.log 10 c + 1) * 10 ^ x := by
      rw [lead, ← zpow_natCast, ← zpow_add₀ (by norm_num)]
      congr 1
      push_cast
      ring
    push_cast at hle
    rw [hexp]
    gcongr
  have hlt := (zpow_lt_zpow_iff_right₀ (by norm_num)).mp (h.trans_le hnext)
  have hpow : (10 : ℚ) ^ M ≤ 10 ^ (⟨c, x⟩ : Decimal).lead :=
    zpow_le_zpow_right₀ (by norm_num) (by omega)
  exact hpow.trans (zpow_lead_le (d := ⟨c, x⟩) hc)

theorem round_bounds (hD : 1 ≤ D) (h : 10 ^ D ≤ d.coeff) :
    (10 : ℚ) ^ d.lead ≤ (d.round D).toRat ∧ (d.round D).toRat ≤ 10 ^ (d.lead + 1) ∧
      (d.toRat = 10 ^ d.lead → (d.round D).toRat = 10 ^ d.lead) := by
  have hc : d.coeff ≠ 0 := by
    have hpow : 0 < 10 ^ D := by positivity
    omega
  obtain ⟨j, rfl⟩ : ∃ j, D = j + 1 := ⟨D - 1, by omega⟩
  have hexact : d.toRat = 10 ^ d.lead → (d.round (j + 1)).toRat = 10 ^ d.lead := by
    intro heq
    rw [toRat_round hD, heq]
    have hone := roundHalfUp_of_lt (D := j + 1) (c := 1) d.lead
      (Nat.one_lt_pow (by omega) (by norm_num))
    simpa using hone
  obtain ⟨hlo, hhi⟩ := cut_bounds h
  have hlog : j + 1 ≤ Nat.log 10 d.coeff := Nat.le_log_of_pow_le (by norm_num) h
  have hround := roundHalfUp_of_floor (x := d.exp + (Nat.log 10 d.coeff - (j + 1) : ℕ))
    (q := d.toRat) hlo hhi
    (by
      have hle : ((d.coeff / 10 ^ (Nat.log 10 d.coeff - (j + 1)) *
          10 ^ (Nat.log 10 d.coeff - (j + 1)) : ℕ) : ℚ) ≤ d.coeff := by
        exact_mod_cast Nat.div_mul_le_self _ _
      rw [zpow_add₀ (by norm_num), zpow_natCast, mul_comm (10 ^ d.exp), ← mul_assoc, toRat]
      push_cast at hle
      gcongr)
    (by
      have hlt : ((d.coeff : ℕ) : ℚ) < (((d.coeff / 10 ^ (Nat.log 10 d.coeff - (j + 1)) + 1) *
          10 ^ (Nat.log 10 d.coeff - (j + 1)) : ℕ) : ℚ) := by
        exact_mod_cast Nat.lt_mul_of_div_lt (Nat.lt_succ_self _) (by positivity)
      rw [zpow_add₀ (by norm_num), zpow_natCast, mul_comm (10 ^ d.exp), ← mul_assoc, toRat]
      push_cast at hlt
      gcongr)
  generalize hq : (d.coeff / 10 ^ (Nat.log 10 d.coeff - (j + 1)) + 5) / 10 = q at hround
  have hqlo : 10 ^ j ≤ q := by
    rw [pow_succ] at hlo
    omega
  have hqhi : q ≤ 10 ^ (j + 1) := by
    rw [pow_succ] at hhi
    omega
  have hunit : (10 : ℚ) ^ (d.exp + (Nat.log 10 d.coeff - (j + 1) : ℕ) + 1) * 10 ^ j =
      10 ^ d.lead := by
    rw [← zpow_natCast, ← zpow_add₀ (by norm_num), lead]
    congr 1
    omega
  have hpos : (0 : ℚ) < 10 ^ (d.exp + (Nat.log 10 d.coeff - (j + 1) : ℕ) + 1) := by positivity
  rw [toRat_round hD] at hexact ⊢
  refine ⟨?_, ?_, hexact⟩
  · rw [hround, ← hunit, mul_comm]
    have hcast : ((10 ^ j : ℕ) : ℚ) ≤ q := by exact_mod_cast hqlo
    push_cast at hcast
    gcongr
  · have hnext : (10 : ℚ) ^ (d.lead + 1) =
        10 ^ (j + 1) * 10 ^ (d.exp + (Nat.log 10 d.coeff - (j + 1) : ℕ) + 1) := by
      rw [zpow_add₀ (by norm_num), zpow_one, ← hunit, pow_succ]
      ring
    have hcast : (q : ℚ) ≤ ((10 ^ (j + 1) : ℕ) : ℚ) := by exact_mod_cast hqhi
    push_cast at hcast
    rw [hround, hnext]
    gcongr

theorem zpow_le_round (hD : 1 ≤ D) (hd : 10 ^ M ≤ d.toRat) :
    10 ^ M ≤ (d.round D).toRat := by
  by_cases hlong : 10 ^ D ≤ d.coeff
  · exact (zpow_le_zpow_right₀ (by norm_num) (le_lead hd)).trans (round_bounds hD hlong).1
  · rwa [round_of_lt (not_le.mp hlong)]

theorem round_le_zpow (hD : 1 ≤ D) (h : d.coeff ≠ 0) (hd : d.toRat ≤ 10 ^ M) :
    (d.round D).toRat ≤ 10 ^ M := by
  by_cases hlong : 10 ^ D ≤ d.coeff
  · obtain ⟨-, hhigh, hexact⟩ := round_bounds hD hlong
    rcases (lead_le h hd).lt_or_eq with hlt | heq
    · exact hhigh.trans (zpow_le_zpow_right₀ (by norm_num) hlt)
    · have hdlead : d.toRat = 10 ^ d.lead :=
        le_antisymm (heq ▸ hd) (zpow_lead_le h)
      rw [hexact hdlead, heq]
  · rwa [round_of_lt (not_le.mp hlong)]

theorem toRat_round_of_cut {c : ℕ} {x : ℤ} {q : ℚ} (hD : 1 ≤ D) (h : 10 ^ D ≤ c)
    (hcq : (c : ℚ) * 10 ^ x ≤ q) (hqc : q < (c + 1) * 10 ^ x) :
    ((⟨c, x⟩ : Decimal).round D).toRat = roundHalfUp D q := by
  obtain ⟨hlo, hhi⟩ := cut_bounds h
  generalize Nat.log 10 c - D = k at hlo hhi
  have hscale : ∀ v : ℕ, ((v * 10 ^ k : ℕ) : ℚ) * 10 ^ x = v * 10 ^ (x + k) := by
    intro v
    rw [zpow_add₀ (by norm_num), zpow_natCast]
    push_cast
    ring
  have hpos : (0 : ℚ) < 10 ^ x := by positivity
  have hlow : ((c / 10 ^ k : ℕ) : ℚ) * 10 ^ (x + k) ≤ c * 10 ^ x := by
    rw [← hscale]
    have hle : ((c / 10 ^ k * 10 ^ k : ℕ) : ℚ) ≤ c := by exact_mod_cast Nat.div_mul_le_self _ _
    exact mul_le_mul_of_nonneg_right hle hpos.le
  have hnext : ((c : ℚ) + 1) * 10 ^ x ≤ ((c / 10 ^ k : ℕ) + 1) * 10 ^ (x + k) := by
    have hstep := hscale (c / 10 ^ k + 1)
    push_cast at hstep
    have hle : c + 1 ≤ (c / 10 ^ k + 1) * 10 ^ k :=
      Nat.lt_mul_of_div_lt (Nat.lt_succ_self _) (by positivity)
    have hcast : (c : ℚ) + 1 ≤ ((c / 10 ^ k : ℕ) + 1) * 10 ^ k := by exact_mod_cast hle
    rw [← hstep]
    exact mul_le_mul_of_nonneg_right hcast hpos.le
  have hown : (c : ℚ) * 10 ^ x < (c + 1) * 10 ^ x := by
    have hlt : (c : ℚ) < c + 1 := by linarith
    exact mul_lt_mul_of_pos_right hlt hpos
  rw [toRat_round hD, toRat, roundHalfUp_of_floor hlo hhi hlow (hown.trans_le hnext),
    roundHalfUp_of_floor hlo hhi (hlow.trans hcq) (hqc.trans_le hnext)]

theorem toRat_round_of_fits (hD : 1 ≤ D) (h : FitsDigits D d.toRat) :
    (d.round D).toRat = d.toRat := by
  rw [toRat_round hD, roundHalfUp_of_fits h]

end Decimal

/-! ## Powers that fit -/

theorem ten_dvd_of_pow {c n : ℕ} (h : 10 ∣ c ^ n) : 10 ∣ c := by
  have htwo : 2 ∣ c := Nat.Prime.dvd_of_dvd_pow Nat.prime_two ((by norm_num : 2 ∣ 10).trans h)
  have hfive : 5 ∣ c := Nat.Prime.dvd_of_dvd_pow Nat.prime_five ((by norm_num : 5 ∣ 10).trans h)
  exact (Nat.Coprime.mul_dvd_of_dvd_of_dvd (by norm_num) htwo hfive : 2 * 5 ∣ c)

theorem coeff_le_of_eq {c c' : ℕ} {x x' : ℤ} (hc : ¬10 ∣ c)
    (h : (c : ℚ) * 10 ^ x = c' * 10 ^ x') : c ≤ c' := by
  have hten : (10 : ℚ) ≠ 0 := by norm_num
  rcases le_or_gt x' x with hle | hlt
  · obtain ⟨k, hk⟩ : ∃ k : ℕ, x = x' + k := ⟨(x - x').toNat, by omega⟩
    rw [hk, zpow_add₀ hten, zpow_natCast, mul_left_comm, mul_comm (c' : ℚ)] at h
    have heq : (c : ℚ) * 10 ^ k = c' := mul_left_cancel₀ (by positivity) h
    have hnat : c * 10 ^ k = c' := by exact_mod_cast heq
    calc c ≤ c * 10 ^ k := Nat.le_mul_of_pos_right _ (by positivity)
      _ = c' := hnat
  · obtain ⟨k, hk⟩ : ∃ k : ℕ, x' = x + (k + 1 : ℕ) := ⟨(x' - x).toNat - 1, by omega⟩
    rw [hk, zpow_add₀ hten, zpow_natCast, mul_left_comm, mul_comm (c : ℚ)] at h
    have heq : (c : ℚ) = c' * 10 ^ (k + 1) := mul_left_cancel₀ (by positivity) h
    have hnat : c = c' * 10 ^ (k + 1) := by exact_mod_cast heq
    exact absurd ⟨c' * 10 ^ k, by rw [hnat]; ring⟩ hc

theorem FitsDigits.pow_of_le {D c n k : ℕ} {x : ℤ} (hc : c ≠ 0)
    (h : FitsDigits D (((c : ℚ) * 10 ^ x) ^ n)) (hk : k ≤ n) :
    FitsDigits D (((c : ℚ) * 10 ^ x) ^ k) := by
  obtain ⟨e, c₁, hndvd, rfl⟩ := Nat.exists_eq_pow_mul_and_not_dvd hc 10 (by norm_num)
  have hpow : ∀ m : ℕ, (((10 ^ e * c₁ : ℕ) : ℚ) * 10 ^ x) ^ m =
      ((c₁ ^ m : ℕ) : ℚ) * 10 ^ ((e + x) * m : ℤ) := by
    intro m
    rw [zpow_mul, zpow_natCast, zpow_add₀ (by norm_num), zpow_natCast, mul_pow]
    push_cast
    ring
  obtain ⟨c', x', hlt, heq⟩ := h
  have habs : |(((10 ^ e * c₁ : ℕ) : ℚ) * 10 ^ x) ^ n| = (((10 ^ e * c₁ : ℕ) : ℚ) * 10 ^ x) ^ n :=
    abs_of_nonneg (by positivity)
  rw [habs, hpow] at heq
  have hle := coeff_le_of_eq (fun hdvd => hndvd (ten_dvd_of_pow hdvd)) heq
  have hone : 1 ≤ c₁ := Nat.one_le_iff_ne_zero.mpr fun h0 => hndvd (h0 ▸ dvd_zero _)
  refine ⟨c₁ ^ k, (e + x) * k, ?_, ?_⟩
  · exact ((Nat.pow_le_pow_right hone hk).trans hle).trans_lt hlt
  · rw [← hpow]
    exact abs_of_nonneg (by positivity)

end DecimalRounding
