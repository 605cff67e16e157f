import LeooRexx.NumberString.Power

/-!
# Runs of the power loop

What the accumulator stands for while the bits of the exponent are shifted out.  Its leading digit
stays between the powers of ten around the base, it is the exact power as long as that fits in the
working precision, and its exponent stays in the range of a 32-bit integer.
-/

namespace LeooRexx

open Positional DecimalRounding SquareMultiply

namespace NumberString

/-! ## The accumulator as a decimal -/

structure PowerState (N : Nat) (base d : Decimal) (k : Nat) : Prop where
  pos : 1 ≤ k
  coeff_ne : d.coeff ≠ 0
  coeff_lt : d.coeff < 10 ^ N
  lower : (10 : ℚ) ^ (base.lead * k) ≤ d.toRat
  upper : d.toRat ≤ (10 : ℚ) ^ ((base.lead + 1) * k)
  exact : FitsDigits N (base.toRat ^ k) → d.toRat = base.toRat ^ k

/-- Nothing was rounded yet, or the leading digit was checked `excess` positions ago. -/
def Settled (N : Nat) (base : Decimal) (excess : Int) (d : Decimal) (k : Nat) : Prop :=
  d.exp ≤ base.lead * k ∨ 2 ≤ k ∧ 10 ^ (N - 1) ≤ d.coeff ∧ d.lead ≤ maxNum + excess

def PowerFault (N : Nat) (lead : Int) (n : Nat) : Fault → Prop
  | .raised (.overflowExpoverflow _ _) => maxNum < (|lead| + 1) * n + N
  | .raised (.overflowExpunderflow _ _) => maxNum < (|lead| + 1) * n + N
  | _ => False

variable {N n k j : Nat} {base d e : Decimal}

theorem powerState_base (h : base.coeff ≠ 0) (hlt : base.coeff < 10 ^ N) :
    PowerState N base base 1 where
  pos := le_rfl
  coeff_ne := h
  coeff_lt := hlt
  lower := by simpa using Decimal.zpow_lead_le h
  upper := by simpa using (Decimal.toRat_lt_zpow_lead base).le
  exact := fun _ => (pow_one _).symm

theorem PowerState.mul_bounds (hd : PowerState N base d k) (he : PowerState N base e j) :
    (10 : ℚ) ^ (base.lead * (k + j : ℕ)) ≤ (d.mul e).toRat ∧
      (d.mul e).toRat ≤ (10 : ℚ) ^ ((base.lead + 1) * (k + j : ℕ)) := by
  have hsplit : ∀ m : ℤ, (10 : ℚ) ^ (m * (k + j : ℕ)) = 10 ^ (m * k) * 10 ^ (m * j) := by
    intro m
    rw [← zpow_add₀ (by norm_num)]
    congr 1
    push_cast
    ring
  have hdpos := Decimal.toRat_pos hd.coeff_ne
  have hepos := Decimal.toRat_pos he.coeff_ne
  rw [hsplit, hsplit, Decimal.toRat_mul]
  exact ⟨mul_le_mul hd.lower he.lower (by positivity) hdpos.le,
    mul_le_mul hd.upper he.upper hepos.le (by positivity)⟩

theorem lead_mul_bounds {lead : Int} (hest : |lead| * n ≤ maxNum) (hk : k ≤ n) :
    -maxNum ≤ lead * k ∧ lead * k ≤ maxNum ∧ (lead + 1) * k ≤ (|lead| + 1) * n := by
  have habs : |lead * k| ≤ |lead| * n := by
    rw [abs_mul, Nat.abs_cast]
    exact mul_le_mul_of_nonneg_left (by exact_mod_cast hk) (abs_nonneg _)
  have hboth := abs_le.mp (habs.trans hest)
  refine ⟨hboth.1, hboth.2, ?_⟩
  have hlead : lead ≤ |lead| := le_abs_self lead
  have hkn : (k : Int) ≤ n := by exact_mod_cast hk
  nlinarith [abs_nonneg lead]

theorem PowerState.mul (hN : 1 ≤ N) (hbase : base.coeff ≠ 0) (hd : PowerState N base d k)
    (he : PowerState N base e j) : PowerState N base ((d.mul e).round N) (k + j) where
  pos := hd.pos.trans (Nat.le_add_right _ _)
  coeff_ne := Decimal.round_coeff_ne_zero hN (Nat.mul_ne_zero hd.coeff_ne he.coeff_ne)
  coeff_lt := by
    by_cases hlong : 10 ^ N ≤ (d.mul e).coeff
    · exact (Decimal.round_coeff_bounds hN hlong).2
    · rw [Decimal.round_of_lt (not_le.mp hlong)]
      exact not_le.mp hlong
  lower := Decimal.zpow_le_round hN (hd.mul_bounds he).1
  upper := Decimal.round_le_zpow hN (Nat.mul_ne_zero hd.coeff_ne he.coeff_ne)
    (hd.mul_bounds he).2
  exact := by
    intro hfits
    have hk := hd.exact (hfits.pow_of_le hbase (Nat.le_add_right k j))
    have hj := he.exact (hfits.pow_of_le hbase (Nat.le_add_left j k))
    have hproduct : (d.mul e).toRat = base.toRat ^ (k + j) := by
      rw [Decimal.toRat_mul, hk, hj, pow_add]
    rw [Decimal.toRat_round_of_fits hN (hproduct ▸ hfits), hproduct]

theorem lead_of_long (hN : 1 ≤ N) (hlo : 10 ^ (N - 1) ≤ d.coeff) (hlt : d.coeff < 10 ^ N) :
    d.lead = d.exp + N - 1 := by
  have hlog : Nat.log 10 d.coeff = N - 1 :=
    Nat.log_eq_of_pow_le_of_lt_pow hlo (by rwa [Nat.sub_add_cancel hN])
  unfold Decimal.lead
  omega

theorem checkExponent_ensures {exp lead : Int} {length : Nat}
    (hover : maxNum < exp + length - 1 → maxNum < (|lead| + 1) * n + N)
    (hunder : exp < -maxNum → maxNum < (|lead| + 1) * n + N) :
    Ensures (fun _ => exp + length - 1 ≤ maxNum ∧ -maxNum ≤ exp) (PowerFault N lead n)
      (checkExponent exp length) := by
  unfold checkExponent
  split_ifs with hhigh hlow
  · exact hover hhigh
  · exact hunder hlow
  · exact ⟨not_lt.mp hhigh, not_lt.mp hlow⟩

theorem roundProduct_ensures (hN : 1 ≤ N) (hbase : base.coeff ≠ 0)
    (hest : |base.lead| * n ≤ maxNum) (hd : PowerState N base d k) (he : PowerState N base e j)
    (hkj : k + j ≤ n) :
    Ensures (fun r => r = (d.mul e).round N ∧ (10 ^ N ≤ (d.mul e).coeff → r.lead ≤ maxNum))
      (PowerFault N base.lead n) (roundProduct N d e) := by
  have hstate := hd.mul hN hbase he
  unfold roundProduct
  by_cases hlong : 10 ^ N ≤ (d.mul e).coeff
  · rw [if_pos hlong]
    have hlead := lead_of_long hN (Decimal.round_coeff_bounds hN hlong).1 hstate.coeff_lt
    have hupper := Decimal.lead_le hstate.coeff_ne hstate.upper
    have hlower := Decimal.le_lead hstate.lower
    obtain ⟨-, -, hnext⟩ := lead_mul_bounds hest hkj
    have habs : |base.lead * (k + j : ℕ)| ≤ |base.lead| * n := by
      rw [abs_mul, Nat.abs_cast]
      exact mul_le_mul_of_nonneg_left (by exact_mod_cast hkj) (abs_nonneg _)
    have hmul : |base.lead| * n ≤ (|base.lead| + 1) * n :=
      mul_le_mul_of_nonneg_right (by omega) (Int.natCast_nonneg n)
    have hlow := (abs_le.mp habs).1
    refine Ensures.bind (checkExponent_ensures (by omega) (by omega)) ?_
    rintro - ⟨hhigh, -⟩
    exact ⟨rfl, fun _ => by omega⟩
  · rw [if_neg hlong]
    exact ⟨rfl, fun h => absurd h hlong⟩

/-! ## The exponents on the way -/

theorem settled_of_long (hN : 1 ≤ N) {excess : Int} (hlong : 10 ^ N ≤ d.coeff) (hk : 2 ≤ k)
    (hcheck : (d.round N).lead ≤ maxNum + excess) : Settled N base excess (d.round N) k :=
  Or.inr ⟨hk, (Decimal.round_coeff_bounds hN hlong).1, hcheck⟩

theorem Settled.square {excess : Int} (hN : 2 ≤ N) (hd : PowerState N base d k)
    (hs : Settled N base excess d k)
    (hcheck : 10 ^ N ≤ (d.mul d).coeff → ((d.mul d).round N).lead ≤ maxNum) :
    Settled N base 0 ((d.mul d).round N) (k + k) := by
  have hk := hd.pos
  by_cases hlong : 10 ^ N ≤ (d.mul d).coeff
  · exact settled_of_long (by omega) hlong (by omega) (by rw [add_zero]; exact hcheck hlong)
  · rw [Decimal.round_of_lt (not_le.mp hlong)]
    rcases hs with hexp | ⟨-, hfull, -⟩
    · left
      change d.exp + d.exp ≤ _
      push_cast
      rw [mul_add]
      omega
    · have hsquare : 10 ^ (N - 1) * 10 ^ (N - 1) ≤ d.coeff * d.coeff := Nat.mul_le_mul hfull hfull
      have hpow : 10 ^ N ≤ 10 ^ (N - 1) * 10 ^ (N - 1) := by
        rw [← pow_add]
        exact Nat.pow_le_pow_right (by norm_num) (by omega)
      exact absurd (hpow.trans hsquare) hlong

theorem lead_mul_le (hd : d.coeff ≠ 0) (he : e.coeff ≠ 0) :
    (d.mul e).lead ≤ d.lead + e.lead + 1 := by
  have hlow := Decimal.zpow_lead_le (d := d.mul e) (Nat.mul_ne_zero hd he)
  have hlt : (d.mul e).toRat < (10 : ℚ) ^ (d.lead + 1 + (e.lead + 1)) := by
    rw [Decimal.toRat_mul, zpow_add₀ (by norm_num)]
    exact mul_lt_mul'' (Decimal.toRat_lt_zpow_lead d) (Decimal.toRat_lt_zpow_lead e)
      (Decimal.toRat_pos hd).le (Decimal.toRat_pos he).le
  have hlead := (zpow_lt_zpow_iff_right₀ (by norm_num)).mp (hlow.trans_lt hlt)
  omega

theorem Settled.multiply (hN : 1 ≤ N) (hbase : base.coeff ≠ 0) (hd : PowerState N base d k)
    (hs : Settled N base 0 d k)
    (hcheck : 10 ^ N ≤ (d.mul base).coeff → ((d.mul base).round N).lead ≤ maxNum) :
    Settled N base (max (base.lead + 1) 0) ((d.mul base).round N) (k + 1) := by
  have hk := hd.pos
  by_cases hlong : 10 ^ N ≤ (d.mul base).coeff
  · exact settled_of_long hN hlong (by omega) ((hcheck hlong).trans (by omega))
  · rw [Decimal.round_of_lt (not_le.mp hlong)]
    rcases hs with hexp | ⟨-, hfull, hlead⟩
    · left
      have hle : base.exp ≤ base.lead := by
        unfold Decimal.lead
        omega
      change d.exp + base.exp ≤ _
      push_cast
      rw [mul_add, mul_one]
      omega
    · right
      have hmore : d.coeff ≤ d.coeff * base.coeff :=
        Nat.le_mul_of_pos_right _ (Nat.pos_of_ne_zero hbase)
      have hproduct := lead_mul_le hd.coeff_ne hbase
      exact ⟨by omega, hfull.trans hmore, by omega⟩

theorem Settled.mono {excess : Int} (hexcess : 0 ≤ excess) (hs : Settled N base 0 d k) :
    Settled N base excess d k :=
  hs.imp_right fun hall => ⟨hall.1, hall.2.1, by omega⟩

theorem lead_succ_mul_lt {lead : Int} (hn : n < 2 ^ 31) (hest : |lead| * n ≤ maxNum)
    (hk : k ≤ n) : (lead + 1) * k < 2 ^ 31 := by
  have hkn : (k : Int) ≤ n := by exact_mod_cast hk
  have hpos : (0 : Int) ≤ k := Int.natCast_nonneg _
  rcases lt_trichotomy lead 0 with hneg | hzero | hone
  · have hle : (lead + 1) * k ≤ 0 := mul_nonpos_of_nonpos_of_nonneg (by omega) hpos
    omega
  · rw [hzero, zero_add, one_mul]
    omega
  · have hn' : (n : Int) ≤ |lead| * n :=
      le_mul_of_one_le_left (by omega) (by rw [abs_of_pos hone]; omega)
    have hle : lead * k ≤ |lead| * n := by
      rw [abs_of_pos hone]
      exact mul_le_mul_of_nonneg_left hkn hone.le
    unfold maxNum at hest
    rw [add_mul, one_mul]
    omega

theorem cutExp_bounds (hN : 1 ≤ N) (hmemory : N ≤ 2 ^ 30) (hn : n < 2 ^ 31)
    (hest : |base.lead| * n ≤ maxNum) (hd : PowerState N base d k) (he : PowerState N base e j)
    (hkj : k + j ≤ n) : -2 ^ 31 ≤ cutExp N d e ∧ cutExp N d e < 2 ^ 31 := by
  have hc : d.coeff * e.coeff ≠ 0 := Nat.mul_ne_zero hd.coeff_ne he.coeff_ne
  have hlen := length_numeral (b := 10) (by norm_num) hc
  have hlead : (d.mul e).lead = d.exp + e.exp + Nat.log 10 (d.coeff * e.coeff) := rfl
  have hupper := Decimal.lead_le hc (hd.mul_bounds he).2
  have hlower := Decimal.le_lead (hd.mul_bounds he).1
  obtain ⟨hlow, -, -⟩ := lead_mul_bounds hest hkj
  have hhigh := lead_succ_mul_lt hn hest hkj
  unfold cutExp maxNum at *
  omega

theorem wrap32_of_range {i : Int} (hlow : -2 ^ 31 ≤ i) (hhigh : i < 2 ^ 31) : wrap32 i = i := by
  rw [wrap32, Int.bmod_def]
  split <;> omega

/-! ## The loop -/

def Accumulates (N : Nat) (left : NumberString) (base : Decimal) (excess : Int)
    (accum : NumberString) (k : Nat) : Prop :=
  ∃ d, accum = accumulated left (left.sign ^ k) d ∧ PowerState N base d k ∧
    Settled N base excess d k

variable {left : NumberString}

theorem accumulatePower_agree (left right : NumberString) (hN : 1 ≤ N) (hmemory : N ≤ 2 ^ 30)
    (hn : n < 2 ^ 31) (hbase : base.coeff ≠ 0) (hest : |base.lead| * n ≤ maxNum)
    (hd : PowerState N base d k) (he : PowerState N base e j) (hkj : k + j ≤ n) :
    Agree (fun r => r = accumulated left (left.sign ^ (k + j)) ((d.mul e).round N) ∧
        (10 ^ N ≤ (d.mul e).coeff → ((d.mul e).round N).lead ≤ maxNum))
      (PowerFault N base.lead n)
      (accumulatePower wrap32 N (accumulated left (left.sign ^ k) d)
        (accumulated right (left.sign ^ j) e))
      (accumulatePower id N (accumulated left (left.sign ^ k) d)
        (accumulated right (left.sign ^ j) e)) := by
  obtain ⟨hlow, hhigh⟩ := cutExp_bounds hN hmemory hn hest hd he hkj
  have hwrap : accumulatePower wrap32 N (accumulated left (left.sign ^ k) d)
      (accumulated right (left.sign ^ j) e) = _ :=
    accumulatePower_eq hN hd.coeff_ne he.coeff_ne hd.coeff_lt he.coeff_lt
      (wrap32_of_range hlow hhigh)
  have hexact : accumulatePower id N (accumulated left (left.sign ^ k) d)
      (accumulated right (left.sign ^ j) e) = _ :=
    accumulatePower_eq hN hd.coeff_ne he.coeff_ne hd.coeff_lt he.coeff_lt rfl
  have hensures := roundProduct_ensures hN hbase hest hd he hkj
  rw [hwrap, hexact, pow_add]
  refine ⟨rfl, ?_⟩
  cases hproduct : roundProduct N d e with
  | error fault =>
      rw [hproduct] at hensures
      exact hensures
  | ok r =>
      rw [hproduct] at hensures
      obtain ⟨rfl, hcheck⟩ := hensures
      exact ⟨rfl, hcheck⟩

theorem powerLoop_agree (hN : 2 ≤ N) (hmemory : N ≤ 2 ^ 30) (hn0 : 1 ≤ n) (hn : n < 2 ^ 31)
    (hleft : left = accumulated left left.sign base) (hbase : base.coeff ≠ 0)
    (hlt : base.coeff < 10 ^ N) (hest : |base.lead| * n ≤ maxNum) :
    Agree (Accumulates N left base (max (base.lead + 1) 0) · n) (PowerFault N base.lead n)
      (powerLoop wrap32 left n N) (powerLoop id left n N) := by
  obtain ⟨m, r, hm, hr, hnr, hcount, hclear⟩ :=
    firstBit_clear hn0 (hn.trans (by norm_num [longBits]) : n < 2 ^ longBits)
  have hstart : PowerState N base base 1 := powerState_base hbase hlt
  have hone : ∀ accum, accum = left → accum = accumulated left (left.sign ^ 1) base := by
    rintro accum rfl
    rw [pow_one]
    exact hleft
  unfold powerLoop
  dsimp only
  rw [hcount, hclear]
  refine bitLoop_agree (R := Accumulates N left base 0)
    (S := Accumulates N left base (max (base.lead + 1) 0)) ?_ ?_ ?_ m hm
    (by rw [pow_succ]; omega) (by rw [one_mul]; exact hnr.symm)
    ⟨base, hone left rfl, hstart, Or.inl (by
      unfold Decimal.lead
      push_cast
      omega)⟩
  · -- a multiplication by the base
    rintro accum k ⟨d, rfl, hd, hs⟩ hk
    have hagree := accumulatePower_agree left left (by omega) hmemory hn
      hbase hest hd hstart hk
    rw [← hone left rfl] at hagree
    refine ⟨hagree.1, hagree.2.mono ?_⟩
    rintro accum ⟨rfl, hcheck⟩
    exact ⟨_, rfl, hd.mul (by omega) hbase hstart, hs.multiply (by omega) hbase hd hcheck⟩
  · rintro accum k ⟨d, rfl, hd, hs⟩
    exact ⟨d, rfl, hd, hs.mono (le_max_right _ _)⟩
  · -- a squaring
    rintro accum k ⟨d, rfl, hd, hs⟩ hk
    rw [two_mul] at hk ⊢
    have hagree := accumulatePower_agree left left (by omega) hmemory hn hbase
      hest hd hd hk
    refine ⟨hagree.1, hagree.2.mono ?_⟩
    rintro accum ⟨rfl, hcheck⟩
    exact ⟨_, rfl, hd.mul (by omega) hbase hd, hs.square hN hd hcheck⟩

end NumberString

end LeooRexx
