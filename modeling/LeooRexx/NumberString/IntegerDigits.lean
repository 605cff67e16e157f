import LeooRexx.NumberString.Precision

/-!
# The digits of a whole number

The conversions to machine integers look at the digits that a precision keeps: how many there are,
the exponent behind the last of them and whether the first dropped digit carries into it.  The
number is whole when every kept digit behind the point is 0, or 9 under a carry.
-/

namespace LeooRexx

open Positional DecimalRounding

/-- `numlength`, `numexp` and `carry` of a conversion. -/
structure Kept where
  numlength : Nat
  numexp : Int
  carry : Bool
  deriving DecidableEq, Repr

namespace Kept

def compareChar (k : Kept) : Nat := if k.carry then 9 else 0

def integerLength (k : Kept) : Nat := (k.numlength + min k.numexp 0).toNat

def BelowOne (k : Kept) : Prop := k.numexp < 0 ∧ -k.numexp ≥ k.numlength

def CarriesOver (k : Kept) : Prop := k.carry = true ∧ k.numexp < 0 ∧ -k.numexp < k.numlength

instance (k : Kept) : Decidable k.BelowOne := by
  unfold BelowOne
  infer_instance

instance (k : Kept) : Decidable k.CarriesOver := by
  unfold CarriesOver
  infer_instance

end Kept

namespace NumberString

def keep (n : NumberString) (NumDigits : Nat) : Kept :=
  if n.length > NumDigits then
    ⟨NumDigits, n.exp + (n.length - NumDigits), n.number.getD NumDigits 0 ≥ 5⟩
  else ⟨n.length, n.exp, false⟩

def decimalsAre (n : NumberString) (k : Kept) (numpos : Nat) : Bool :=
  let decimals :=
    if numpos ≥ k.numlength then n.number.take k.numlength
    else (n.number.drop (k.numlength - numpos)).take numpos
  decimals.all (· == k.compareChar)

/-! ## What the kept digits are -/

def integerPart (n : NumberString) (k : Kept) : Nat :=
  value 10 (n.number.take k.integerLength) + k.carry.toNat

def magnitude (n : NumberString) (k : Kept) : Nat := integerPart n k * 10 ^ k.numexp.toNat

def DecimalsVanish (n : NumberString) (k : Kept) : Prop :=
  k.numexp < 0 → (k.carry = true → -k.numexp ≤ k.numlength) ∧
    decimalsAre n k (-k.numexp).toNat = true

instance (n : NumberString) (k : Kept) : Decidable (DecimalsVanish n k) := by
  unfold DecimalsVanish
  infer_instance

variable {n : NumberString} {D : Nat}

theorem numlength_keep (n : NumberString) (D : Nat) :
    (n.keep D).numlength ≤ n.number.length ∧ (n.keep D).numlength ≤ D := by
  have hlen : n.length = n.number.length := rfl
  unfold keep
  split
  · exact ⟨by dsimp only; omega, le_rfl⟩
  · exact ⟨le_rfl, by dsimp only; omega⟩

theorem numlength_keep_pos (h : n.Normalized) (hD : 1 ≤ D) :
    1 ≤ (n.keep D).numlength := by
  have hpos := h.length_pos
  unfold keep
  split
  · exact hD
  · exact hpos

/-! ## How large they are -/

theorem value_take_le (ds : List Nat) (i : Nat) : value 10 (ds.take i) ≤ value 10 ds := by
  have hsplit := value_split (b := 10) ds i
  have hpos : 0 < 10 ^ (ds.length - i) := by positivity
  calc value 10 (ds.take i) ≤ value 10 (ds.take i) * 10 ^ (ds.length - i) :=
        Nat.le_mul_of_pos_right _ hpos
    _ ≤ value 10 ds := by omega

theorem integerLength_le {k : Kept} : k.integerLength ≤ k.numlength := by
  unfold Kept.integerLength
  omega

theorem pow_integerLength_le (h : n.Normalized) (h0 : n.sign ≠ 0) {k : Kept}
    (hlen : k.numlength ≤ n.number.length) (hpos : 0 < k.integerLength) :
    10 ^ (k.integerLength - 1) ≤ value 10 (n.number.take k.integerLength) := by
  obtain ⟨d, ds, hds, hd⟩ := h.leading h0
  have hle := integerLength_le (k := k)
  have hcons : n.number.take k.integerLength = d :: ds.take (k.integerLength - 1) := by
    rw [hds, List.take_cons hpos]
  have hdlen : (ds.take (k.integerLength - 1)).length = k.integerLength - 1 := by
    have hlen' := congrArg List.length hds
    rw [List.length_cons] at hlen'
    rw [List.length_take]
    omega
  have hvalue := le_value_cons (b := 10) hd (ds.take (k.integerLength - 1))
  rwa [hdlen, ← hcons] at hvalue

theorem integerPart_le_magnitude (k : Kept) : integerPart n k ≤ magnitude n k :=
  Nat.le_mul_of_pos_right _ (by positivity)

theorem magnitude_of_belowOne {k : Kept} (hbelow : k.BelowOne) :
    magnitude n k = k.carry.toNat := by
  obtain ⟨hneg, hlen⟩ := hbelow
  have hint : k.integerLength = 0 := by
    unfold Kept.integerLength
    omega
  have hzeros : k.numexp.toNat = 0 := by omega
  rw [magnitude, integerPart, hint, hzeros, List.take_zero, value_nil, zero_add, pow_zero,
    mul_one]

/-! ## Rounding -/

theorem roundHalfUp_eq_keep (h : n.Normalized) (h0 : n.sign ≠ 0) :
    roundHalfUp D n.toRat = n.sign *
      (((value 10 (n.number.take (n.keep D).numlength) + (n.keep D).carry.toNat : ℕ) : ℚ) *
        10 ^ (n.keep D).numexp) := by
  have hlen : n.length = n.number.length := rfl
  have hsign := h.sign_eq h0
  obtain ⟨d, ds, hds, hd⟩ := h.leading h0
  rw [toRat, roundHalfUp_sign_mul _ hsign]
  congr 1
  by_cases hlong : n.length > D
  · have hkeep : n.keep D = ⟨D, n.exp + (n.length - D), n.number.getD D 0 ≥ 5⟩ := if_pos hlong
    have hlt : D < n.number.length := hlong
    have hnext : n.number.getD D 0 = n.number[D] := by simp [hlt]
    have hc := h.digits.take (D + 1)
    have hclen : (n.number.take (D + 1)).length = D + 1 := by
      rw [List.length_take]
      omega
    have htake : n.number.take (D + 1) = d :: ds.take D := by rw [hds, List.take_succ_cons]
    have hsplit := value_split (b := 10) n.number (D + 1)
    have hlow : value 10 (n.number.drop (D + 1)) < 10 ^ (n.number.length - (D + 1)) := by
      simpa using value_lt (b := 10) (by norm_num) (h.digits.drop (D + 1))
    have hlo : 10 ^ D ≤ value 10 (n.number.take (D + 1)) := by
      have hle := le_value_cons (b := 10) hd (ds.take D)
      have hdlen : (ds.take D).length = D := by
        have := congrArg List.length htake
        rw [hclen, List.length_cons] at this
        omega
      rw [htake]
      rwa [hdlen] at hle
    have hhi : value 10 (n.number.take (D + 1)) < 10 ^ (D + 1) := by
      have hbound := value_lt (b := 10) (by norm_num) hc
      rwa [hclen] at hbound
    obtain ⟨k, hk⟩ : ∃ k, n.number.length = D + 1 + k := ⟨n.number.length - (D + 1), by omega⟩
    have hpow : (10 : ℚ) ^ (n.exp + k) = 10 ^ k * 10 ^ n.exp := by
      rw [add_comm, zpow_add₀ (by norm_num), zpow_natCast]
    have hexp : (0 : ℚ) < 10 ^ n.exp := by positivity
    have hcut : n.number.length - (D + 1) = k := by omega
    rw [hcut] at hsplit hlow
    have hround := roundHalfUp_of_floor (x := n.exp + k) (q := n.decimal.toRat) hlo hhi
      (by
        rw [hpow, ← mul_assoc, Decimal.toRat, decimal, hsplit]
        push_cast
        gcongr
        simp)
      (by
        rw [hpow, ← mul_assoc, Decimal.toRat, decimal, hsplit]
        gcongr
        push_cast
        have hlow' : (value 10 (n.number.drop (D + 1)) : ℚ) < 10 ^ k := by exact_mod_cast hlow
        linarith)
    have hlast : value 10 (n.number.take (D + 1)) =
        value 10 (n.number.take D) * 10 + n.number[D] := by
      rw [List.take_succ_eq_append_getElem hlt, value_concat]
    have hdigit := h.digits n.number[D] (List.getElem_mem hlt)
    have hcarry : (value 10 (n.number.take (D + 1)) + 5) / 10 =
        value 10 (n.number.take D) + (n.keep D).carry.toNat := by
      rw [hlast, hkeep, hnext]
      dsimp only
      by_cases h5 : n.number[D] ≥ 5
      · simp only [h5, decide_true, Bool.toNat_true]
        omega
      · simp only [h5, decide_false, Bool.toNat_false]
        omega
    rw [hround, hcarry, hkeep]
    congr 2
    rw [hlen, hk]
    push_cast
    ring
  · have hkeep : n.keep D = ⟨n.length, n.exp, false⟩ := if_neg hlong
    have hc : value 10 n.number < 10 ^ D :=
      (value_lt (by norm_num) h.digits).trans_le
        (Nat.pow_le_pow_right (by norm_num) (not_lt.mp hlong))
    rw [hkeep, Decimal.toRat, decimal, roundHalfUp_of_lt n.exp hc, hlen, List.take_length]
    simp

theorem length_kept (n : NumberString) (D : Nat) :
    (n.number.take (n.keep D).numlength).length = (n.keep D).numlength := by
  rw [List.length_take, min_eq_left (numlength_keep n D).1]

theorem decimalsAre_iff {k : Kept} {m : Nat} :
    decimalsAre n k m = true ↔
      ∀ d ∈ (n.number.take k.numlength).drop (k.numlength - m), d = k.compareChar := by
  have hdigits : (if m ≥ k.numlength then n.number.take k.numlength
      else (n.number.drop (k.numlength - m)).take m) =
        (n.number.take k.numlength).drop (k.numlength - m) := by
    split
    · case isTrue hm => rw [Nat.sub_eq_zero_of_le hm, List.drop_zero]
    · case isFalse hm =>
      rw [List.drop_take]
      congr 1
      omega
  unfold decimalsAre
  simp only [hdigits, List.all_eq_true, beq_iff_eq]

theorem decimalsVanish_iff_dvd (h : n.Normalized) (h0 : n.sign ≠ 0) (hD : 1 ≤ D) {m : Nat}
    (hm : (n.keep D).numexp = -m) (hpos : 0 < m) :
    (DecimalsVanish n (n.keep D) ↔ 10 ^ m ∣
        value 10 (n.number.take (n.keep D).numlength) + (n.keep D).carry.toNat) ∧
      (DecimalsVanish n (n.keep D) →
        value 10 (n.number.take (n.keep D).numlength) + (n.keep D).carry.toNat =
          integerPart n (n.keep D) * 10 ^ m) := by
  have hlength := length_kept n D
  have hkpos := numlength_keep_pos h hD
  generalize hk : n.keep D = k at hm hlength hkpos ⊢
  have hdigits : IsDigits 10 (n.number.take k.numlength) := h.digits.take _
  have hlt := value_lt (b := 10) (by norm_num) hdigits
  rw [hlength] at hlt
  have hvanish : DecimalsVanish n k ↔ (k.carry = true → m ≤ k.numlength) ∧
      ∀ d ∈ (n.number.take k.numlength).drop (k.numlength - m), d = k.compareChar := by
    have hnat : (-k.numexp).toNat = m := by omega
    unfold DecimalsVanish
    rw [hnat, decimalsAre_iff]
    constructor
    · exact fun hall => ⟨fun hc => by have := (hall (by omega)).1 hc; omega, (hall (by omega)).2⟩
    · exact fun hall _ => ⟨fun hc => by have := hall.1 hc; omega, hall.2⟩
  rw [hvanish]
  by_cases hle : m ≤ k.numlength
  · -- the point stands among the kept digits or before the first of them
    have hint : k.integerLength = k.numlength - m := by
      unfold Kept.integerLength
      omega
    have hpart : integerPart n k =
        value 10 (n.number.take (k.numlength - m)) + k.carry.toNat := by
      rw [integerPart, hint]
    have hsplit := value_split (b := 10) (n.number.take k.numlength) (k.numlength - m)
    have hcut : k.numlength - (k.numlength - m) = m := by omega
    have hlow := hdigits.drop (k.numlength - m)
    have hlowlen : ((n.number.take k.numlength).drop (k.numlength - m)).length = m := by
      rw [List.length_drop, hlength, hcut]
    rw [hlength, hcut, List.take_take, min_eq_left (by omega)] at hsplit
    have hqlt := value_lt (b := 10) (by norm_num) hlow
    rw [hlowlen] at hqlt
    rw [hpart, hsplit]
    generalize (n.number.take k.numlength).drop (k.numlength - m) = low at hlow hlowlen hqlt ⊢
    generalize value 10 (n.number.take (k.numlength - m)) = high
    cases hcarry : k.carry with
    | false =>
        have hzeros : (∀ d ∈ low, d = k.compareChar) ↔ value 10 low = 0 := by
          rw [value_eq_zero_iff (by norm_num), Kept.compareChar, hcarry]
          rfl
        rw [hzeros]
        simp only [Bool.toNat_false, add_zero, Bool.false_eq_true, false_imp_iff, true_and]
        constructor
        · rw [Nat.dvd_add_right (Nat.dvd_mul_left _ _)]
          exact ⟨fun hz => hz ▸ dvd_zero _, fun hdvd => Nat.eq_zero_of_dvd_of_lt hdvd hqlt⟩
        · intro hz
          rw [hz, add_zero]
    | true =>
        have hnines : (∀ d ∈ low, d = k.compareChar) ↔ value 10 low + 1 = 10 ^ m := by
          rw [← hlowlen, value_add_one_eq_pow_iff (by norm_num) hlow, Kept.compareChar, hcarry]
          exact forall₂_congr fun d _ => by simp
        rw [hnines]
        simp only [Bool.toNat_true, forall_const, hle, true_and, add_assoc]
        constructor
        · rw [Nat.dvd_add_right (Nat.dvd_mul_left _ _)]
          exact ⟨fun hz => hz ▸ dvd_rfl, fun hdvd =>
            le_antisymm hqlt (Nat.le_of_dvd (Nat.succ_pos _) hdvd)⟩
        · intro hz
          rw [hz]
          ring
  · -- the number is smaller than a tenth, rounded or not
    have hbound : value 10 (n.number.take k.numlength) + k.carry.toNat < 10 ^ m := by
      have hpow : 10 ^ k.numlength * 10 ≤ 10 ^ m := by
        rw [← pow_succ]
        exact Nat.pow_le_pow_right (by norm_num) (by omega)
      have hone : k.carry.toNat ≤ 1 := Bool.toNat_le _
      omega
    have hvalue : 0 < value 10 (n.number.take k.numlength) := by
      obtain ⟨d, ds, hds, hd⟩ := h.leading h0
      have hcons : n.number.take k.numlength = d :: ds.take (k.numlength - 1) := by
        rw [hds, List.take_cons (by omega)]
      have hle' := le_value_cons (b := 10) hd (ds.take (k.numlength - 1))
      have hpow : 0 < 10 ^ (ds.take (k.numlength - 1)).length := by positivity
      rw [hcons]
      omega
    have hnone : ¬((k.carry = true → m ≤ k.numlength) ∧
        ∀ d ∈ (n.number.take k.numlength).drop (k.numlength - m), d = k.compareChar) := by
      rintro ⟨hc, hall⟩
      have hfalse : k.carry = false := by
        by_contra hne
        exact hle (hc (by simpa using hne))
      rw [Nat.sub_eq_zero_of_le (by omega), List.drop_zero, Kept.compareChar, hfalse] at hall
      exact absurd ((value_eq_zero_iff (by norm_num)).mpr hall) hvalue.ne'
    refine ⟨⟨fun hv => absurd hv hnone, fun hdvd => ?_⟩, fun hv => absurd hv hnone⟩
    have hzero := Nat.eq_zero_of_dvd_of_lt hdvd hbound
    omega

theorem roundHalfUp_of_vanish (h : n.Normalized) (h0 : n.sign ≠ 0) (hD : 1 ≤ D)
    (hvanish : DecimalsVanish n (n.keep D)) :
    roundHalfUp D n.toRat = ((n.sign * magnitude n (n.keep D) : ℤ) : ℚ) := by
  rw [roundHalfUp_eq_keep h h0, Int.cast_mul, Int.cast_natCast]
  congr 1
  by_cases hexp : (n.keep D).numexp < 0
  · obtain ⟨m, hm⟩ : ∃ m : Nat, (n.keep D).numexp = -m := ⟨(n.keep D).numexp.natAbs, by omega⟩
    have hpart := (decimalsVanish_iff_dvd h h0 hD hm (by omega)).2 hvanish
    have hnat : (n.keep D).numexp.toNat = 0 := by omega
    rw [magnitude, hnat, hpart, hm, zpow_neg, zpow_natCast]
    push_cast
    field_simp
  · obtain ⟨m, hm⟩ : ∃ m : Nat, (n.keep D).numexp = m := ⟨(n.keep D).numexp.toNat, by omega⟩
    have hint : (n.keep D).integerLength = (n.keep D).numlength := by
      unfold Kept.integerLength
      omega
    rw [magnitude, integerPart, hint, hm, zpow_natCast, Int.toNat_natCast]
    push_cast
    rfl

theorem not_whole_of_not_vanish (h : n.Normalized) (h0 : n.sign ≠ 0) (hD : 1 ≤ D)
    (hvanish : ¬DecimalsVanish n (n.keep D)) (z : ℤ) : roundHalfUp D n.toRat ≠ z := by
  have hexp : (n.keep D).numexp < 0 := by
    by_contra hexp
    exact hvanish fun hneg => absurd hneg hexp
  obtain ⟨m, hm⟩ : ∃ m : Nat, (n.keep D).numexp = -m := ⟨(n.keep D).numexp.natAbs, by omega⟩
  intro hz
  refine hvanish ((decimalsVanish_iff_dvd h h0 hD hm (by omega)).1.mpr ?_)
  have hsign := h.sign_eq h0
  rw [roundHalfUp_eq_keep h h0, hm, zpow_neg, zpow_natCast] at hz
  have hpow : (10 : ℚ) ^ m ≠ 0 := by positivity
  have hint : (value 10 (n.number.take (n.keep D).numlength) + (n.keep D).carry.toNat : ℤ) =
      n.sign * z * 10 ^ m := by
    have hsquare : (n.sign : ℚ) * n.sign = 1 := by
      rcases hsign with hs | hs <;> rw [hs] <;> norm_num
    have hrat : ((value 10 (n.number.take (n.keep D).numlength) + (n.keep D).carry.toNat : ℕ) : ℚ) =
        n.sign * z * 10 ^ m := by
      rw [← hz, ← mul_assoc, hsquare, one_mul, mul_assoc, inv_mul_cancel₀ hpow, mul_one]
    exact_mod_cast hrat
  have hdvd : ((10 ^ m : ℕ) : ℤ) ∣
      ((value 10 (n.number.take (n.keep D).numlength) + (n.keep D).carry.toNat : ℕ) : ℤ) := by
    push_cast
    rw [hint]
    exact Dvd.intro_left _ rfl
  exact_mod_cast hdvd

end NumberString

end LeooRexx
