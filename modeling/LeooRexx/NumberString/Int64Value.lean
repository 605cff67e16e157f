import LeooRexx.Foundation.Register
import LeooRexx.NumberString.IntegerDigits

/-!
# The value as a 64-bit integer

`int64Value` checks the digits behind the point, but what the check returns is not looked at.  The
digits before the point are read into an unsigned register, where a value below the one before it
is taken for a sign that the register wrapped.
-/

namespace LeooRexx

open Positional DecimalRounding Register

namespace NumberString

def digits64 : Nat := 20

def int64Max : Nat := 9223372036854775807

/-- What a `uint64_t` holds of a number. -/
def hold64 (v : Nat) : Nat := v % 2 ^ 64

def nextDigit64 (intNumber digit : Nat) : Nat := hold64 (hold64 (intNumber * 10) + digit)

def notSmaller (intNumber newNumber : Nat) : Bool := ¬newNumber < intNumber

def unlessSmaller (intNumber newNumber : Nat) : Option Nat :=
  if newNumber < intNumber then none else some newNumber

def exponentMultiplier : Nat → Nat
  | 0 => 1
  | exponent + 1 => hold64 (exponentMultiplier exponent * 10)

def addCarry (carry : Bool) (intNumber : Nat) : Option Nat :=
  if carry then unlessSmaller intNumber (hold64 (intNumber + 1)) else some intNumber

def applyExponent (exponent : Int) (intNumber : Nat) : Option Nat :=
  if exponent > 0 then
    unlessSmaller intNumber (hold64 (intNumber * exponentMultiplier exponent.toNat))
  else some intNumber

def createUnsignedInt64Value (thisnum : List Nat) (intlength : Nat) (carry : Bool)
    (exponent : Int) (maxValue : Nat) : Option Nat := do
  if exponent > digits64 then none
  else
    let intNumber ← accumulate nextDigit64 notSmaller 0 (thisnum.take intlength)
    let intNumber ← addCarry carry intNumber
    let intNumber ← applyExponent exponent intNumber
    if intNumber > maxValue then none else some intNumber

def checkIntegerDigits (n : NumberString) (numDigits : Nat) : Bool × Kept :=
  let k := n.keep numDigits
  if k.numexp < 0 then
    let decimalPos := (-k.numexp).toNat
    if k.carry ∧ decimalPos > k.numlength then (false, k) else (decimalsAre n k decimalPos, k)
  else (true, k)

def int64Value (n : NumberString) (numDigits : Nat) : Option Int :=
  if n.sign = 0 then some 0
  else if n.length ≤ numDigits ∧ n.exp ≥ 0 then do
    let intnum ← createUnsignedInt64Value n.number n.length false n.exp int64Max
    some (intnum * n.sign)
  else
    -- the outcome of the check is dropped
    let k := (checkIntegerDigits n numDigits).2
    if -k.numexp ≥ k.numlength then some (if k.carry then 1 else 0)
    else if k.numexp < 0 then do
      let intnum ← createUnsignedInt64Value n.number (k.numlength + k.numexp).toNat k.carry 0
        int64Max
      some (intnum * n.sign)
    else do
      let intnum ← createUnsignedInt64Value n.number k.numlength k.carry k.numexp int64Max
      some (intnum * n.sign)

/-! ## What the conversion should return -/

def InInt64 (z : Int) : Prop := -9223372036854775808 ≤ z ∧ z ≤ int64Max

instance (z : Int) : Decidable (InInt64 z) := by
  unfold InInt64
  infer_instance

/-- The register is given up when the digits the number leaves are worth more than it holds. -/
def DetectsOverflow (n : NumberString) (k : Kept) : Prop :=
  2 ^ 64 ≤ magnitude n k →
    createUnsignedInt64Value n.number k.integerLength k.carry (max k.numexp 0) (2 ^ 64 - 1) = none

instance (n : NumberString) (k : Kept) : Decidable (DetectsOverflow n k) := by
  unfold DetectsOverflow
  infer_instance

/-- The value is there for the rounded numbers of the range and is that number, and no overflow
goes unseen. -/
def Int64Correct (n : NumberString) (numDigits : Nat) : Prop :=
  let rounded := roundHalfUp numDigits n.toRat
  ((int64Value n numDigits).isSome = true ↔ ∃ z, InInt64 z ∧ rounded = z) ∧
    (∀ v, int64Value n numDigits = some v → rounded = v) ∧
    DetectsOverflow n (n.keep numDigits)

/-! ## When it does -/

def Passes64 (n : NumberString) (k : Kept) : Prop :=
  k.numexp ≤ digits64 ∧ Passes notSmaller 10 hold64 0 (n.number.take k.integerLength) ∧
    hold64 (value 10 (n.number.take k.integerLength)) ≤ hold64 (integerPart n k) ∧
    hold64 (integerPart n k) ≤ hold64 (magnitude n k)

instance (n : NumberString) (k : Kept) : Decidable (Passes64 n k) := by
  unfold Passes64
  infer_instance

/-- Nothing is behind the point or the number is too large anyway, a carry to one has a plus sign,
the number is not the lowest of the range, and an overflow makes some remainder fall. -/
def ReadsInt64 (n : NumberString) (numDigits : Nat) : Prop :=
  let k := n.keep numDigits
  n.sign ≠ 0 →
    (DecimalsVanish n k ∨ int64Max < magnitude n k) ∧
      (k.BelowOne → k.carry = true → n.sign = 1) ∧
      ¬(DecimalsVanish n k ∧ n.sign = -1 ∧ magnitude n k = int64Max + 1) ∧
      (2 ^ 64 ≤ magnitude n k → ¬Passes64 n k)

instance (n : NumberString) (numDigits : Nat) : Decidable (ReadsInt64 n numDigits) := by
  unfold ReadsInt64
  infer_instance

/-! ## The register -/

variable {n : NumberString}

theorem hold64_of_lt {v : Nat} (h : v < 2 ^ 64) : hold64 v = v := Nat.mod_eq_of_lt h

theorem nextDigit64_hold (v d : Nat) : nextDigit64 (hold64 v) d = hold64 (v * 10 + d) := by
  simp only [nextDigit64, hold64, Nat.mod_mul_mod, Nat.mod_add_mod]

theorem exponentMultiplier_eq (exponent : Nat) :
    exponentMultiplier exponent = hold64 (10 ^ exponent) := by
  induction exponent with
  | zero => rfl
  | succ exponent ih =>
      rw [exponentMultiplier, ih, hold64, hold64, hold64, Nat.mod_mul_mod, ← pow_succ]

theorem addCarry_hold (v : Nat) (carry : Bool) :
    addCarry carry (hold64 v) =
      if hold64 v ≤ hold64 (v + carry.toNat) then some (hold64 (v + carry.toNat)) else none := by
  cases carry with
  | false => simp [addCarry]
  | true =>
      have hnext : hold64 (hold64 v + 1) = hold64 (v + 1) := Nat.mod_add_mod ..
      rw [addCarry, if_pos rfl, hnext, unlessSmaller, Bool.toNat_true]
      simp only [← not_le, ite_not]

theorem applyExponent_hold (v : Nat) (exponent : Int) :
    applyExponent exponent (hold64 v) =
      if hold64 v ≤ hold64 (v * 10 ^ exponent.toNat) then some (hold64 (v * 10 ^ exponent.toNat))
      else none := by
  unfold applyExponent
  by_cases hpos : exponent > 0
  · have hproduct : hold64 (hold64 v * exponentMultiplier exponent.toNat) =
        hold64 (v * 10 ^ exponent.toNat) := by
      rw [exponentMultiplier_eq]
      exact (Nat.mul_mod ..).symm
    rw [if_pos hpos, hproduct, unlessSmaller]
    simp only [← not_le, ite_not]
  · have hzero : exponent.toNat = 0 := by omega
    rw [if_neg hpos, hzero, pow_zero, mul_one, if_pos le_rfl]

theorem createUnsignedInt64Value_eq (n : NumberString) (k : Kept) (maxValue : Nat) :
    createUnsignedInt64Value n.number k.integerLength k.carry (max k.numexp 0) maxValue =
      if Passes64 n k ∧ hold64 (magnitude n k) ≤ maxValue then some (hold64 (magnitude n k))
      else none := by
  have hread : accumulate nextDigit64 notSmaller (hold64 0) (n.number.take k.integerLength) = _ :=
    accumulate_eq nextDigit64_hold 0 _
  have hzero : hold64 0 = 0 := rfl
  have hexp : (max k.numexp 0).toNat = k.numexp.toNat := by omega
  rw [zero_mul, zero_add, hzero] at hread
  unfold createUnsignedInt64Value
  by_cases hcap : k.numexp ≤ digits64
  · rw [if_neg (by unfold digits64 at *; omega), hread]
    by_cases hdigits : Passes notSmaller 10 hold64 0 (n.number.take k.integerLength)
    · simp only [if_pos hdigits, Option.bind_eq_bind, Option.bind_some, addCarry_hold,
        ← integerPart.eq_1]
      by_cases hcarry :
          hold64 (value 10 (n.number.take k.integerLength)) ≤ hold64 (integerPart n k)
      · simp only [if_pos hcarry, Option.bind_some, applyExponent_hold, hexp, ← magnitude.eq_1]
        by_cases hmul : hold64 (integerPart n k) ≤ hold64 (magnitude n k)
        · have hall : Passes64 n k := ⟨hcap, hdigits, hcarry, hmul⟩
          simp only [if_pos hmul, Option.bind_some, hall, true_and, gt_iff_lt, ← not_le, ite_not]
        · rw [if_neg hmul, if_neg fun hall => hmul hall.1.2.2.2]
          rfl
      · rw [if_neg hcarry, if_neg fun hall => hcarry hall.1.2.2.1]
        rfl
    · rw [if_neg hdigits, if_neg fun hall => hdigits hall.1.2.1]
      rfl
  · rw [if_pos (by omega), if_neg fun hall => hcap hall.1.1]

/-! ## The branches of `int64Value` -/

theorem checkIntegerDigits_snd (n : NumberString) (numDigits : Nat) :
    (checkIntegerDigits n numDigits).2 = n.keep numDigits := by
  unfold checkIntegerDigits
  dsimp only
  split
  · split <;> rfl
  · rfl

variable {numDigits : Nat}

theorem int64Value_of_belowOne (h0 : n.sign ≠ 0) (hbelow : (n.keep numDigits).BelowOne) :
    int64Value n numDigits = some ((n.keep numDigits).carry.toNat : Int) := by
  have hslow : ¬(n.length ≤ numDigits ∧ n.exp ≥ 0) := by
    rintro ⟨hshort, hexp⟩
    rw [keep, if_neg (not_lt.mpr hshort)] at hbelow
    exact absurd hbelow.1 (not_lt.mpr hexp)
  unfold int64Value
  rw [if_neg h0, if_neg hslow]
  dsimp only
  rw [checkIntegerDigits_snd, if_pos hbelow.2]
  cases (n.keep numDigits).carry <;> rfl

theorem int64Value_of_digits (h : n.Normalized) (h0 : n.sign ≠ 0) (hD : 1 ≤ numDigits)
    (hbelow : ¬(n.keep numDigits).BelowOne) :
    int64Value n numDigits =
      if Passes64 n (n.keep numDigits) ∧ hold64 (magnitude n (n.keep numDigits)) ≤ int64Max then
        some (hold64 (magnitude n (n.keep numDigits)) * n.sign)
      else none := by
  have hread := createUnsignedInt64Value_eq n (n.keep numDigits) int64Max
  have hpos := numlength_keep_pos h hD
  unfold int64Value
  rw [if_neg h0]
  by_cases hfast : n.length ≤ numDigits ∧ n.exp ≥ 0
  · -- nothing is dropped, so these are the kept digits as well
    have hkeep : n.keep numDigits = ⟨n.length, n.exp, false⟩ := if_neg (not_lt.mpr hfast.1)
    have hint : (n.keep numDigits).integerLength = n.length := by
      rw [hkeep, Kept.integerLength, min_eq_right hfast.2, add_zero, Int.toNat_natCast]
    have hmax : max (n.keep numDigits).numexp 0 = n.exp := by
      rw [hkeep, max_eq_left hfast.2]
    have hcarry : (n.keep numDigits).carry = false := by rw [hkeep]
    rw [hint, hmax, hcarry] at hread
    rw [if_pos hfast, hread]
    split <;> rfl
  · rw [if_neg hfast]
    dsimp only
    rw [checkIntegerDigits_snd]
    generalize n.keep numDigits = k at hread hpos hbelow ⊢
    have hlong : ¬-k.numexp ≥ k.numlength := fun hge => hbelow ⟨by omega, hge⟩
    rw [if_neg hlong]
    by_cases hneg : k.numexp < 0
    · have hint : k.integerLength = (k.numlength + k.numexp).toNat := by
        rw [Kept.integerLength, min_eq_left hneg.le]
      rw [max_eq_right hneg.le, hint] at hread
      rw [if_pos hneg, hread]
      split <;> rfl
    · have hint : k.integerLength = k.numlength := by
        rw [Kept.integerLength, min_eq_right (not_lt.mp hneg), add_zero, Int.toNat_natCast]
      rw [max_eq_left (not_lt.mp hneg), hint] at hread
      rw [if_neg hneg, hread]
      split <;> rfl

theorem passes64_of_le (h : n.Normalized) (h0 : n.sign ≠ 0) {k : Kept}
    (hlen : k.numlength ≤ n.number.length) (hpos : 1 ≤ k.numlength) (hbelow : ¬k.BelowOne)
    (hmax : magnitude n k ≤ int64Max) : Passes64 n k := by
  unfold int64Max at hmax
  have hpart := integerPart_le_magnitude (n := n) k
  have hvalue : value 10 (n.number.take k.integerLength) ≤ integerPart n k :=
    Nat.le_add_right _ _
  have hheld : ∀ v ≤ magnitude n k, hold64 v = v := fun v hv => hold64_of_lt (by omega)
  have hint : 0 < k.integerLength := by
    unfold Kept.integerLength
    unfold Kept.BelowOne at hbelow
    omega
  refine ⟨?_, ?_, ?_, ?_⟩
  · by_contra hlong
    have hone : 1 ≤ integerPart n k :=
      ((Nat.one_le_pow _ _ (by norm_num)).trans (pow_integerLength_le h h0 hlen hint)).trans hvalue
    have hzeros : 10 ^ 20 ≤ 10 ^ k.numexp.toNat :=
      Nat.pow_le_pow_right (by norm_num) (by unfold digits64 at hlong; omega)
    have hlarge : 1 * 10 ^ 20 ≤ magnitude n k := Nat.mul_le_mul hone hzeros
    omega
  · intro i _
    have hbefore : value 10 ((n.number.take k.integerLength).take i) ≤
        value 10 ((n.number.take k.integerLength).take (i + 1)) := by
      have hle := value_take_le ((n.number.take k.integerLength).take (i + 1)) i
      rwa [List.take_take, min_eq_left (Nat.le_succ i)] at hle
    have hafter := value_take_le (n.number.take k.integerLength) (i + 1)
    simp only [zero_mul, zero_add, notSmaller, decide_eq_true_eq, not_lt]
    rw [hheld _ (by omega : _ ≤ magnitude n k), hheld _ (by omega : _ ≤ magnitude n k)]
    exact hbefore
  · rw [hheld _ hpart, hheld _ (by omega)]
    exact hvalue
  · rw [hheld _ hpart, hheld _ le_rfl]
    exact hpart

theorem detectsOverflow_iff (k : Kept) :
    DetectsOverflow n k ↔ (2 ^ 64 ≤ magnitude n k → ¬Passes64 n k) := by
  have hheld : hold64 (magnitude n k) ≤ 2 ^ 64 - 1 :=
    Nat.le_pred_of_lt (Nat.mod_lt _ (by norm_num))
  unfold DetectsOverflow
  rw [createUnsignedInt64Value_eq]
  refine forall_congr' fun _ => ?_
  by_cases hpasses : Passes64 n k
  · rw [if_pos ⟨hpasses, hheld⟩]
    simp [hpasses]
  · simp [hpasses]

theorem int64Value_of_le (h : n.Normalized) (h0 : n.sign ≠ 0) (hD : 1 ≤ numDigits)
    (hbelow : ¬(n.keep numDigits).BelowOne) (hmax : magnitude n (n.keep numDigits) ≤ int64Max) :
    int64Value n numDigits = some (magnitude n (n.keep numDigits) * n.sign) := by
  have hpasses := passes64_of_le h h0 (numlength_keep n numDigits).1
    (numlength_keep_pos h hD) hbelow hmax
  have hheld : hold64 (magnitude n (n.keep numDigits)) = magnitude n (n.keep numDigits) :=
    hold64_of_lt (by unfold int64Max at hmax; omega)
  rw [int64Value_of_digits h h0 hD hbelow, hheld, if_pos ⟨hpasses, hmax⟩]

theorem int64Value_of_gt (h : n.Normalized) (h0 : n.sign ≠ 0) (hD : 1 ≤ numDigits)
    (hbelow : ¬(n.keep numDigits).BelowOne) (hmax : int64Max < magnitude n (n.keep numDigits))
    (hdetects : DetectsOverflow n (n.keep numDigits)) : int64Value n numDigits = none := by
  rw [int64Value_of_digits h h0 hD hbelow]
  refine if_neg fun ⟨hpasses, hheld⟩ => ?_
  have hfits : magnitude n (n.keep numDigits) < 2 ^ 64 := by
    by_contra hlarge
    exact (detectsOverflow_iff _).mp hdetects (not_lt.mp hlarge) hpasses
  rw [hold64_of_lt hfits] at hheld
  exact absurd hmax (not_lt.mpr hheld)

/-! ## The conversion -/

theorem int64Correct_iff_of_not_vanish (h : n.Normalized) (h0 : n.sign ≠ 0) (hD : 1 ≤ numDigits)
    (hvanish : ¬DecimalsVanish n (n.keep numDigits)) :
    Int64Correct n numDigits ↔
      int64Value n numDigits = none ∧ DetectsOverflow n (n.keep numDigits) := by
  have hwhole := not_whole_of_not_vanish h h0 hD hvanish
  unfold Int64Correct
  dsimp only
  constructor
  · rintro ⟨-, hvalue, hdetects⟩
    refine ⟨Option.eq_none_iff_forall_ne_some.mpr fun v hv => hwhole v (hvalue v hv), hdetects⟩
  · rintro ⟨hnone, hdetects⟩
    rw [hnone]
    exact ⟨⟨fun hsome => absurd hsome (by simp), fun ⟨z, _, hz⟩ => absurd hz (hwhole z)⟩,
      fun v hv => absurd hv (by simp), hdetects⟩

theorem int64Correct_iff_of_vanish (h : n.Normalized) (h0 : n.sign ≠ 0) (hD : 1 ≤ numDigits)
    (hvanish : DecimalsVanish n (n.keep numDigits)) :
    Int64Correct n numDigits ↔
      (int64Value n numDigits =
        if InInt64 (n.sign * magnitude n (n.keep numDigits)) then
          some (n.sign * magnitude n (n.keep numDigits))
        else none) ∧ DetectsOverflow n (n.keep numDigits) := by
  have hround := roundHalfUp_of_vanish h h0 hD hvanish
  unfold Int64Correct
  dsimp only
  rw [hround, ← and_assoc]
  refine and_congr_left fun _ => ?_
  generalize n.sign * (magnitude n (n.keep numDigits) : Int) = z
  have hrange : (∃ w : Int, InInt64 w ∧ (z : ℚ) = w) ↔ InInt64 z :=
    ⟨fun ⟨w, hw, heq⟩ => Int.cast_injective heq ▸ hw, fun hz => ⟨z, hz, rfl⟩⟩
  rw [hrange]
  simp only [Int.cast_inj]
  by_cases hz : InInt64 z
  · rw [if_pos hz]
    constructor
    · rintro ⟨hsome, hvalue⟩
      obtain ⟨v, hv⟩ := Option.isSome_iff_exists.mp (hsome.mpr hz)
      rw [hv, hvalue v hv]
    · intro hv
      rw [hv]
      exact ⟨⟨fun _ => hz, fun _ => rfl⟩, fun v hv => by simpa using hv⟩
  · rw [if_neg hz]
    constructor
    · rintro ⟨hsome, -⟩
      exact Option.not_isSome_iff_eq_none.mp fun hv => hz (hsome.mp hv)
    · intro hnone
      rw [hnone]
      exact ⟨⟨fun hsome => absurd hsome (by simp), fun hv => absurd hv hz⟩,
        fun v hv => absurd hv (by simp)⟩

theorem inInt64_sign_mul_iff (h : n.Normalized) (h0 : n.sign ≠ 0) (M : Nat) :
    InInt64 (n.sign * M) ↔ M ≤ int64Max ∨ n.sign = -1 ∧ M = int64Max + 1 := by
  unfold InInt64 int64Max
  rcases h.sign_eq h0 with hs | hs <;> rw [hs] <;> omega

theorem int64Correct_zero (h : n.Normalized) (h0 : n.sign = 0) (hD : 1 ≤ numDigits) :
    Int64Correct n numDigits := by
  have hrat : n.toRat = 0 := (toRat_eq_zero_iff h).mpr h0
  have hvalue : int64Value n numDigits = some 0 := if_pos h0
  obtain ⟨hnumber, hexp⟩ := h.zero h0
  have hM : magnitude n (n.keep numDigits) = 0 := by
    have hkeep : n.keep numDigits = ⟨1, 0, false⟩ := by
      rw [keep, if_neg (by rw [length, hnumber]; exact not_lt.mpr hD), length, hnumber, hexp]
      rfl
    rw [hkeep, magnitude, integerPart, hnumber]
    rfl
  unfold Int64Correct
  dsimp only
  rw [hrat, roundHalfUp_zero, hvalue]
  refine ⟨⟨fun _ => ⟨0, by decide, by simp⟩, fun _ => rfl⟩, fun v hv => ?_,
    fun hlarge => absurd hlarge (by rw [hM]; norm_num)⟩
  rw [← Option.some_injective _ hv]
  simp

theorem int64Correct_iff (h : n.Normalized) (hD : 1 ≤ numDigits) :
    Int64Correct n numDigits ↔ ReadsInt64 n numDigits := by
  unfold ReadsInt64
  dsimp only
  by_cases h0 : n.sign = 0
  · exact ⟨fun _ hne => absurd h0 hne, fun _ => int64Correct_zero h h0 hD⟩
  · rw [← detectsOverflow_iff]
    simp only [h0, ne_eq, not_false_eq_true, forall_const]
    by_cases hbelow : (n.keep numDigits).BelowOne
    · have hM := magnitude_of_belowOne (n := n) hbelow
      have hone := Bool.toNat_le (n.keep numDigits).carry
      have hdetects : DetectsOverflow n (n.keep numDigits) :=
        fun hlarge => absurd hlarge (by omega)
      by_cases hvanish : DecimalsVanish n (n.keep numDigits)
      · rw [int64Correct_iff_of_vanish h h0 hD hvanish, int64Value_of_belowOne h0 hbelow, hM,
          if_pos ((inInt64_sign_mul_iff h h0 _).mpr (Or.inl (by unfold int64Max; omega)))]
        have hlow : (n.keep numDigits).carry.toNat ≠ int64Max + 1 := by
          unfold int64Max
          omega
        simp only [hdetects, hvanish, hbelow, hlow, and_true, and_false, not_false_eq_true,
          true_or, true_and, forall_const, Option.some_inj]
        cases (n.keep numDigits).carry with
        | false => simp
        | true =>
            simp only [Bool.toNat_true, Nat.cast_one, mul_one, forall_const]
            exact eq_comm
      · rw [int64Correct_iff_of_not_vanish h h0 hD hvanish, int64Value_of_belowOne h0 hbelow]
        have hsmall : ¬int64Max < magnitude n (n.keep numDigits) := by
          unfold int64Max
          omega
        simp [hvanish, hsmall]
    · simp only [hbelow, false_imp_iff, true_and]
      by_cases hmax : magnitude n (n.keep numDigits) ≤ int64Max
      · have hvalue := int64Value_of_le h h0 hD hbelow hmax
        have hdetects : DetectsOverflow n (n.keep numDigits) :=
          fun hlarge => absurd hlarge (by unfold int64Max at hmax; omega)
        by_cases hvanish : DecimalsVanish n (n.keep numDigits)
        · rw [int64Correct_iff_of_vanish h h0 hD hvanish, hvalue,
            if_pos ((inInt64_sign_mul_iff h h0 _).mpr (Or.inl hmax)), mul_comm]
          have hlow : magnitude n (n.keep numDigits) ≠ int64Max + 1 := by omega
          simp [hdetects, hvanish, hlow]
        · rw [int64Correct_iff_of_not_vanish h h0 hD hvanish, hvalue]
          simp [hvanish, not_lt.mpr hmax]
      · have hgt := not_le.mp hmax
        have hvalue := int64Value_of_gt h h0 hD hbelow hgt
        by_cases hvanish : DecimalsVanish n (n.keep numDigits)
        · rw [int64Correct_iff_of_vanish h h0 hD hvanish]
          simp only [hvanish, hgt, or_true, true_and]
          refine and_congr_left fun hdetects => ?_
          have hrange := inInt64_sign_mul_iff h h0 (magnitude n (n.keep numDigits))
          rw [or_iff_right hmax] at hrange
          rw [hvalue hdetects, ← hrange]
          split
          · case isTrue hlow => simp [hlow]
          · case isFalse hlow => simp [hlow]
        · rw [int64Correct_iff_of_not_vanish h h0 hD hvanish]
          simp only [hvanish, hgt, or_true, false_and, not_false_eq_true, true_and]
          exact ⟨fun hall => hall.2, fun hdetects => ⟨hvalue hdetects, hdetects⟩⟩

/-- `12.50` at two digits is 13. -/
theorem int64Correct_two_digits : Int64Correct ⟨1, -2, [1, 2, 5, 0], 9, true⟩ 2 :=
  (int64Correct_iff (by decide) (by decide)).mpr (by decide)

/-- `1.5` is converted to 1, the lowest number of the range is refused, and the overflow of
`25000000000000000000` is not seen. -/
theorem int64Value_misled :
    (int64Value ⟨1, -1, [1, 5], 9, true⟩ digits64 = some 1 ∧
      ¬Int64Correct ⟨1, -1, [1, 5], 9, true⟩ digits64) ∧
    (int64Value ⟨-1, 0, [9, 2, 2, 3, 3, 7, 2, 0, 3, 6, 8, 5, 4, 7, 7, 5, 8, 0, 8], 9, true⟩
        digits64 = none ∧
      ¬Int64Correct ⟨-1, 0, [9, 2, 2, 3, 3, 7, 2, 0, 3, 6, 8, 5, 4, 7, 7, 5, 8, 0, 8], 9, true⟩
        digits64) ∧
    (int64Value ⟨1, 18, [2, 5], 9, true⟩ digits64 = some 6553255926290448384 ∧
      ¬Int64Correct ⟨1, 18, [2, 5], 9, true⟩ digits64) := by
  refine ⟨⟨by decide, ?_⟩, ⟨by decide, ?_⟩, by decide, ?_⟩
  · rw [int64Correct_iff_of_not_vanish (by decide) (by decide) (by decide) (by decide)]
    decide
  · rw [int64Correct_iff_of_vanish (by decide) (by decide) (by decide) (by decide)]
    decide
  · rw [int64Correct_iff_of_vanish (by decide) (by decide) (by decide) (by decide)]
    decide

end NumberString

end LeooRexx
