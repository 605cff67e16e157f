import LeooRexx.Foundation.Register
import LeooRexx.NumberString.IntegerDigits
import LeooRexx.NumberString.Recognition

/-!
# The value as a long

`longValue` reads the kept digits into a 32-bit `long` and multiplies by ten for every position of
the exponent.  The loops look for a negative value, or for one at the last base that can be
multiplied, so a number that wraps past both is returned as the remainder it left.
-/

namespace LeooRexx

open Positional DecimalRounding Register

namespace NumberString

/-- `NO_LONG`, the lowest value of a `long`. -/
def noLong : Int := -2147483648

def maxNegNum : Int := 2147483647

def maxPosBase : Int := 429496729

def maxNegBase : Int := 214748365

/-- What a 32-bit `long` holds of a number. -/
def hold32 (v : Nat) : Int := wrap32 v

/-- The step and the test of the loop in `number_create_integer`. -/
def nextDigit32 (intnum : Int) (digit : Nat) : Int := wrap32 (wrap32 (intnum * 10) + digit)

def notNegative (_ intnum : Int) : Bool := 0 ≤ intnum

def numberCreateInteger (thisnum : List Nat) (intlength : Nat) (carry : Bool) (sign : Int) :
    Int :=
  if intlength > 10 then noLong
  else
    match accumulate nextDigit32 notNegative 0 (thisnum.take intlength) with
    | none => noLong
    | some intnum =>
        let intnum := if carry then wrap32 (intnum + 1) else intnum
        if intnum < 0 ∨ sign = -1 ∧ intnum > maxNegNum then noLong else intnum

def belowBase (sign intnum : Int) : Prop :=
  sign = 1 ∧ intnum < maxPosBase ∨ sign = -1 ∧ intnum < maxNegBase

instance (sign intnum : Int) : Decidable (belowBase sign intnum) := by
  unfold belowBase
  infer_instance

def appendZeros (sign : Int) : Nat → Int → Option Int
  | 0, intnum => some intnum
  | zeros + 1, intnum =>
      if belowBase sign intnum then appendZeros sign zeros (wrap32 (intnum * 10)) else none

def longResult (NumDigits : Nat) (sign intnum : Int) : Int :=
  if NumDigits ≤ 9 ∧ intnum ≥ 10 ^ NumDigits then noLong
  else if sign = -1 then wrap32 (-intnum) else intnum

/-- The precision of `longValue`, where `none` stands for `NO_LONG`. -/
def longDigits (s : Settings) (digits : Option Nat) : Nat := digits.getD (min s.digits 9)

def longValue (s : Settings) (n : NumberString) (digits : Option Nat) : Int :=
  if n.sign = 0 then 0
  else
    let NumDigits := longDigits s digits
    let k := n.keep NumDigits
    if k.numexp < 0 then
      let numpos := (-k.numexp).toNat
      if k.carry ∧ numpos ≠ k.numlength then noLong
      else if ¬decimalsAre n k numpos then noLong
      else if -k.numexp ≥ k.numlength then if k.carry then 1 else 0
      else
        let intnum :=
          numberCreateInteger n.number (k.numlength + k.numexp).toNat k.carry n.sign
        if intnum = noLong then noLong else longResult NumDigits n.sign intnum
    else
      let intnum := numberCreateInteger n.number k.numlength k.carry n.sign
      if intnum = noLong then noLong
      else
        match appendZeros n.sign k.numexp.toNat intnum with
        | none => noLong
        | some intnum => longResult NumDigits n.sign intnum

/-! ## What the conversion should return -/

/-- The magnitudes of the range: those of a `long` that nine digits or fewer can show. -/
def FitsLong (NumDigits magnitude : Nat) : Prop :=
  (magnitude : Int) ≤ maxNegNum ∧ (NumDigits ≤ 9 → magnitude < 10 ^ NumDigits)

instance (NumDigits magnitude : Nat) : Decidable (FitsLong NumDigits magnitude) := by
  unfold FitsLong
  infer_instance

def LongCorrect (s : Settings) (n : NumberString) (digits : Option Nat) : Prop :=
  let rounded := roundHalfUp (longDigits s digits) n.toRat
  (longValue s n digits ≠ noLong ↔
      ∃ z : Int, FitsLong (longDigits s digits) z.natAbs ∧ rounded = z) ∧
    (longValue s n digits ≠ noLong → rounded = longValue s n digits)

/-! ## When it does -/

def PassesLong (n : NumberString) (NumDigits : Nat) (k : Kept) : Prop :=
  k.integerLength ≤ 10 ∧
    Passes notNegative 10 hold32 0 (n.number.take k.integerLength) ∧
    0 ≤ hold32 (integerPart n k) ∧
    (∀ j < k.numexp.toNat, belowBase n.sign (hold32 (integerPart n k * 10 ^ j))) ∧
    (NumDigits ≤ 9 → hold32 (magnitude n k) < 10 ^ NumDigits)

instance (n : NumberString) (NumDigits : Nat) (k : Kept) :
    Decidable (PassesLong n NumDigits k) := by
  unfold PassesLong
  infer_instance

/-- Nines are carried only into the first digit and only with a plus sign, and no number past the
range leaves remainders that pass. -/
def ReadsLong (n : NumberString) (NumDigits : Nat) : Prop :=
  let k := n.keep NumDigits
  n.sign ≠ 0 → DecimalsVanish n k →
    if k.CarriesOver then ¬FitsLong NumDigits (magnitude n k)
    else if k.BelowOne then k.carry = true → n.sign = 1
    else FitsLong NumDigits (magnitude n k) ∨ ¬PassesLong n NumDigits k ∨
      hold32 (magnitude n k) = noLong

instance (n : NumberString) (NumDigits : Nat) : Decidable (ReadsLong n NumDigits) := by
  unfold ReadsLong
  infer_instance

/-! ## The remainders -/

theorem wrap32_le (x : Int) : wrap32 x ≤ maxNegNum := by
  have hlt : Int.bmod x (2 ^ 32) < ((2 ^ 32 : Nat) + 1) / 2 := Int.bmod_lt (by norm_num)
  exact Int.le_of_lt_add_one hlt

theorem wrap32_hold (v : Nat) : wrap32 (hold32 v) = hold32 v := by
  simp only [hold32, wrap32, Int.bmod_bmod]

theorem hold32_of_le {v : Nat} (h : (v : Int) ≤ maxNegNum) : hold32 v = v := by
  rw [maxNegNum] at h
  rw [hold32, wrap32, Int.bmod_def]
  split <;> omega

theorem nextDigit32_hold (v d : Nat) : nextDigit32 (hold32 v) d = hold32 (v * 10 + d) := by
  rw [nextDigit32, hold32, wrap32_mul_left, wrap32_add_left, hold32]
  push_cast
  rfl

theorem carry_hold (v : Nat) (carry : Bool) :
    (if carry then wrap32 (hold32 v + 1) else hold32 v) = hold32 (v + carry.toNat) := by
  cases carry with
  | false => simp
  | true =>
      rw [if_pos rfl, hold32, wrap32_add_left]
      rfl

theorem noLong_le_hold (v : Nat) : noLong ≤ hold32 v := by
  have hle : -(((2 ^ 32 : Nat) : Int) / 2) ≤ Int.bmod v (2 ^ 32) := Int.le_bmod (by norm_num)
  exact hle

theorem wrap32_sign_eq_noLong_iff {sign : Int} (hsign : sign = -1 ∨ sign = 1) (v : Nat) :
    wrap32 (sign * hold32 v) = noLong ↔ hold32 v = noLong := by
  have hlow := noLong_le_hold v
  have hhigh : hold32 v ≤ maxNegNum := wrap32_le v
  rcases hsign with hs | hs
  · rw [hs, neg_one_mul, wrap32, Int.bmod_def]
    unfold noLong maxNegNum at *
    split <;> omega
  · rw [hs, one_mul, wrap32_hold]

theorem wrap32_sign_mul {sign : Int} (hsign : sign = -1 ∨ sign = 1) {v : Nat}
    (h : (v : Int) ≤ maxNegNum) : wrap32 (sign * hold32 v) = sign * v := by
  have hheld := hold32_of_le h
  rcases hsign with hs | hs
  · rw [hs, neg_one_mul, neg_one_mul, hheld, wrap32, Int.bmod_def]
    unfold maxNegNum at h
    split <;> omega
  · rw [hs, one_mul, one_mul, wrap32_hold, hheld]

/-! ## The loops -/

theorem numberCreateInteger_eq (thisnum : List Nat) (intlength : Nat) (carry : Bool)
    (sign : Int) :
    numberCreateInteger thisnum intlength carry sign =
      if intlength ≤ 10 ∧ Passes notNegative 10 hold32 0 (thisnum.take intlength) ∧
          0 ≤ hold32 (value 10 (thisnum.take intlength) + carry.toNat) then
        hold32 (value 10 (thisnum.take intlength) + carry.toNat)
      else noLong := by
  unfold numberCreateInteger
  by_cases hlen : intlength ≤ 10
  · have hread : accumulate nextDigit32 notNegative (hold32 0) (thisnum.take intlength) = _ :=
      accumulate_eq nextDigit32_hold 0 _
    have hzero : hold32 0 = 0 := rfl
    rw [zero_mul, zero_add, hzero] at hread
    rw [if_neg (not_lt.mpr hlen), hread]
    by_cases hpasses : Passes notNegative 10 hold32 0 (thisnum.take intlength)
    · rw [if_pos hpasses]
      dsimp only
      rw [carry_hold]
      have hmax := wrap32_le ((value 10 (thisnum.take intlength) + carry.toNat : Nat) : Int)
      by_cases hneg : hold32 (value 10 (thisnum.take intlength) + carry.toNat) < 0
      · rw [if_pos (Or.inl hneg), if_neg fun hall => absurd hneg (not_lt.mpr hall.2.2)]
      · rw [if_neg, if_pos ⟨hlen, hpasses, not_lt.mp hneg⟩]
        rintro (hlow | ⟨-, hhigh⟩)
        · exact hneg hlow
        · exact absurd hmax (not_le.mpr hhigh)
    · rw [if_neg hpasses, if_neg fun hall => hpasses hall.2.1]
  · rw [if_pos (not_le.mp hlen), if_neg fun hall => hlen hall.1]

theorem appendZeros_eq (sign : Int) (zeros v : Nat) :
    appendZeros sign zeros (hold32 v) =
      if ∀ j < zeros, belowBase sign (hold32 (v * 10 ^ j)) then some (hold32 (v * 10 ^ zeros))
      else none := by
  induction zeros generalizing v with
  | zero => simp [appendZeros]
  | succ zeros ih =>
      have hten : wrap32 (hold32 v * 10) = hold32 (v * 10) := by
        rw [hold32, wrap32_mul_left, hold32]
        push_cast
        rfl
      have hall : (∀ j < zeros + 1, belowBase sign (hold32 (v * 10 ^ j))) ↔
          belowBase sign (hold32 v) ∧
            ∀ j < zeros, belowBase sign (hold32 (v * 10 * 10 ^ j)) := by
        rw [Nat.forall_lt_succ_left]
        simp only [pow_zero, mul_one, pow_succ', mul_assoc]
      rw [appendZeros, hten, ih, pow_succ', ← mul_assoc]
      by_cases hbase : belowBase sign (hold32 v)
      · rw [if_pos hbase]
        exact if_congr (by rw [hall, and_iff_right hbase]) rfl rfl
      · rw [if_neg hbase, if_neg fun h => hbase (hall.mp h).1]

/-! ## The branches of `longValue` -/

variable {s : Settings} {n : NumberString} {digits : Option Nat}

theorem longResult_eq {NumDigits : Nat} {sign intnum : Int} (hsign : sign = -1 ∨ sign = 1)
    (hheld : wrap32 intnum = intnum) :
    longResult NumDigits sign intnum =
      if NumDigits ≤ 9 → intnum < 10 ^ NumDigits then wrap32 (sign * intnum) else noLong := by
  unfold longResult
  by_cases hshort : NumDigits ≤ 9 → intnum < 10 ^ NumDigits
  · rw [if_pos hshort, if_neg fun hlong => absurd (hshort hlong.1) (not_lt.mpr hlong.2)]
    rcases hsign with hs | hs
    · rw [if_pos hs, hs, neg_one_mul]
    · rw [if_neg (by omega), hs, one_mul, hheld]
  · rw [if_neg hshort, if_pos (by simpa using hshort)]

theorem readDigits_eq {NumDigits : Nat} {k : Kept} (hsign : n.sign = -1 ∨ n.sign = 1) :
    (if numberCreateInteger n.number k.integerLength k.carry n.sign = noLong then noLong
      else
        match appendZeros n.sign k.numexp.toNat
            (numberCreateInteger n.number k.integerLength k.carry n.sign) with
        | none => noLong
        | some intnum => longResult NumDigits n.sign intnum) =
      if PassesLong n NumDigits k then wrap32 (n.sign * hold32 (magnitude n k)) else noLong := by
  rw [numberCreateInteger_eq]
  by_cases hdigits : k.integerLength ≤ 10 ∧
      Passes notNegative 10 hold32 0 (n.number.take k.integerLength) ∧ 0 ≤ hold32 (integerPart n k)
  · have hread : hold32 (integerPart n k) ≠ noLong := by
      have hpos := hdigits.2.2
      unfold noLong
      omega
    rw [← integerPart, if_pos hdigits, if_neg hread, appendZeros_eq, ← magnitude]
    by_cases hzeros :
        ∀ j < k.numexp.toNat, belowBase n.sign (hold32 (integerPart n k * 10 ^ j))
    · rw [if_pos hzeros]
      dsimp only
      rw [longResult_eq hsign (wrap32_hold _)]
      refine if_congr ?_ rfl rfl
      unfold PassesLong
      exact ⟨fun hlast => ⟨hdigits.1, hdigits.2.1, hdigits.2.2, hzeros, hlast⟩,
        fun hall => hall.2.2.2.2⟩
    · rw [if_neg hzeros, if_neg fun hall => hzeros hall.2.2.2.1]
  · rw [← integerPart, if_neg hdigits, if_pos rfl,
      if_neg fun hall => hdigits ⟨hall.1, hall.2.1, hall.2.2.1⟩]

theorem longValue_of_not_vanish (h0 : n.sign ≠ 0)
    (hvanish : ¬DecimalsVanish n (n.keep (longDigits s digits))) :
    longValue s n digits = noLong := by
  unfold longValue
  dsimp only
  rw [if_neg h0]
  generalize n.keep (longDigits s digits) = k at hvanish ⊢
  have hneg : k.numexp < 0 := by
    by_contra hpos
    exact hvanish fun hneg => absurd hneg hpos
  rw [if_pos hneg]
  by_cases hcarry : k.carry = true ∧ (-k.numexp).toNat ≠ k.numlength
  · rw [if_pos hcarry]
  · rw [if_neg hcarry]
    refine if_pos fun hdecimals => hvanish fun _ => ⟨fun hc => ?_, hdecimals⟩
    by_contra hlong
    exact hcarry ⟨hc, by omega⟩

theorem longValue_of_carriesOver (h0 : n.sign ≠ 0)
    (hover : (n.keep (longDigits s digits)).CarriesOver) : longValue s n digits = noLong := by
  unfold longValue
  dsimp only
  rw [if_neg h0]
  generalize n.keep (longDigits s digits) = k at hover ⊢
  obtain ⟨hcarry, hneg, hshort⟩ := hover
  rw [if_pos hneg, if_pos ⟨hcarry, by omega⟩]

theorem longValue_of_belowOne (h0 : n.sign ≠ 0)
    (hvanish : DecimalsVanish n (n.keep (longDigits s digits)))
    (hbelow : (n.keep (longDigits s digits)).BelowOne) :
    longValue s n digits = (n.keep (longDigits s digits)).carry.toNat := by
  unfold longValue
  dsimp only
  rw [if_neg h0]
  generalize n.keep (longDigits s digits) = k at hvanish hbelow ⊢
  obtain ⟨hcarry, hdecimals⟩ := hvanish hbelow.1
  have hfirst : ¬(k.carry = true ∧ (-k.numexp).toNat ≠ k.numlength) := by
    rintro ⟨hc, hne⟩
    have hle := hcarry hc
    have hge := hbelow.2
    omega
  rw [if_pos hbelow.1, if_neg hfirst, if_neg (not_not.mpr hdecimals), if_pos hbelow.2]
  cases k.carry <;> rfl

theorem longValue_of_digits (h : n.Normalized) (h0 : n.sign ≠ 0)
    (hvanish : DecimalsVanish n (n.keep (longDigits s digits)))
    (hover : ¬(n.keep (longDigits s digits)).CarriesOver)
    (hbelow : ¬(n.keep (longDigits s digits)).BelowOne) :
    longValue s n digits =
      if PassesLong n (longDigits s digits) (n.keep (longDigits s digits)) then
        wrap32 (n.sign * hold32 (magnitude n (n.keep (longDigits s digits))))
      else noLong := by
  have hsign := h.sign_eq h0
  rw [← readDigits_eq hsign]
  unfold longValue
  dsimp only
  rw [if_neg h0]
  generalize n.keep (longDigits s digits) = k at hvanish hover hbelow ⊢
  by_cases hneg : k.numexp < 0
  · have hlong : -k.numexp < k.numlength := not_le.mp fun hge => hbelow ⟨hneg, hge⟩
    have hcarry : k.carry = false := by
      by_contra hc
      exact hover ⟨by simpa using hc, hneg, hlong⟩
    have hint : k.integerLength = (k.numlength + k.numexp).toNat := by
      rw [Kept.integerLength, min_eq_left hneg.le]
    have hzeros : k.numexp.toNat = 0 := by omega
    rw [if_pos hneg, if_neg (by rw [hcarry]; simp), if_neg (not_not.mpr (hvanish hneg).2),
      if_neg (not_le.mpr hlong), hint, hzeros]
    rfl
  · have hint : k.integerLength = k.numlength := by
      rw [Kept.integerLength, min_eq_right (not_lt.mp hneg), add_zero, Int.toNat_natCast]
    rw [if_neg hneg, hint]

/-! ## The numbers of the range -/

theorem passesLong_of_fits (h : n.Normalized) (h0 : n.sign ≠ 0) {NumDigits : Nat} {k : Kept}
    (hlen : k.numlength ≤ n.number.length) (hfits : FitsLong NumDigits (magnitude n k)) :
    PassesLong n NumDigits k := by
  obtain ⟨hmax, hshort⟩ := hfits
  have hmagnitude := hold32_of_le hmax
  unfold maxNegNum at hmax
  have hpart := integerPart_le_magnitude (n := n) k
  have hvalue : value 10 (n.number.take k.integerLength) ≤ integerPart n k :=
    Nat.le_add_right _ _
  have hheld : ∀ v ≤ magnitude n k, hold32 v = v := fun v hv =>
    hold32_of_le (by unfold maxNegNum; omega)
  refine ⟨?_, ?_, ?_, ?_, ?_⟩
  · by_contra hlong
    have hpow := pow_integerLength_le h h0 hlen (by omega)
    have hten : 10 ^ 10 ≤ 10 ^ (k.integerLength - 1) :=
      Nat.pow_le_pow_right (by norm_num) (by omega)
    omega
  · intro i _
    have hprefix := value_take_le (n.number.take k.integerLength) (i + 1)
    simp only [zero_mul, zero_add, notNegative, decide_eq_true_eq]
    rw [hheld _ (by omega : _ ≤ magnitude n k)]
    omega
  · rw [hheld _ hpart]
    omega
  · intro j hj
    have hstep : integerPart n k * 10 ^ j * 10 ≤ magnitude n k := by
      rw [mul_assoc, ← pow_succ]
      exact Nat.mul_le_mul_left _ (Nat.pow_le_pow_right (by norm_num) hj)
    have hsign := h.sign_eq h0
    generalize integerPart n k * 10 ^ j = held at hstep
    rw [hheld held (by omega)]
    unfold belowBase maxPosBase maxNegBase
    omega
  · intro hnine
    rw [hmagnitude]
    exact_mod_cast hshort hnine

/-! ## The conversion -/

theorem sign_mul_ne_noLong (h : n.Normalized) (h0 : n.sign ≠ 0) {NumDigits M : Nat}
    (hfits : FitsLong NumDigits M) : n.sign * (M : Int) ≠ noLong := by
  have hmax := hfits.1
  have hsign := h.sign_eq h0
  unfold maxNegNum at hmax
  unfold noLong
  rcases hsign with hs | hs <;> rw [hs] <;> omega

theorem longCorrect_iff_of_vanish (h : n.Normalized) (h0 : n.sign ≠ 0)
    (hD : 1 ≤ longDigits s digits)
    (hvanish : DecimalsVanish n (n.keep (longDigits s digits))) :
    LongCorrect s n digits ↔
      if FitsLong (longDigits s digits) (magnitude n (n.keep (longDigits s digits))) then
        longValue s n digits = n.sign * magnitude n (n.keep (longDigits s digits))
      else longValue s n digits = noLong := by
  have hround := roundHalfUp_of_vanish h h0 hD hvanish
  unfold LongCorrect
  dsimp only
  rw [hround]
  generalize hM : magnitude n (n.keep (longDigits s digits)) = M
  have hsign := h.sign_eq h0
  have habs : (n.sign * (M : Int)).natAbs = M := by
    rcases hsign with hs | hs <;> rw [hs] <;> simp
  have hrange : (∃ z : Int, FitsLong (longDigits s digits) z.natAbs ∧
      ((n.sign * M : Int) : ℚ) = z) ↔ FitsLong (longDigits s digits) M := by
    constructor
    · rintro ⟨z, hz, heq⟩
      rw [← habs, Int.cast_injective heq]
      exact hz
    · exact fun hfits => ⟨n.sign * M, habs.symm ▸ hfits, rfl⟩
  rw [hrange, Int.cast_inj]
  by_cases hfits : FitsLong (longDigits s digits) M
  · have hvalue := sign_mul_ne_noLong h h0 hfits
    rw [if_pos hfits]
    exact ⟨fun hall => (hall.2 (hall.1.mpr hfits)).symm,
      fun heq => ⟨⟨fun _ => hfits, fun _ => heq ▸ hvalue⟩, fun _ => heq.symm⟩⟩
  · rw [if_neg hfits]
    exact ⟨fun hall => by_contra fun hne => hfits (hall.1.mp hne),
      fun heq => ⟨⟨fun hne => absurd heq hne, fun hf => absurd hf hfits⟩,
        fun hne => absurd heq hne⟩⟩

theorem longCorrect_iff (h : n.Normalized) (hD : 1 ≤ longDigits s digits) :
    LongCorrect s n digits ↔ ReadsLong n (longDigits s digits) := by
  unfold ReadsLong
  dsimp only
  by_cases h0 : n.sign = 0
  · -- zero is returned at once
    have hrat : n.toRat = 0 := (toRat_eq_zero_iff h).mpr h0
    have hvalue : longValue s n digits = 0 := if_pos h0
    have hfits : FitsLong (longDigits s digits) 0 := ⟨by decide, fun _ => by positivity⟩
    have hzero : LongCorrect s n digits := by
      unfold LongCorrect
      dsimp only
      rw [hvalue, hrat, roundHalfUp_zero]
      exact ⟨⟨fun _ => ⟨0, hfits, by simp⟩, fun _ => by decide⟩, fun _ => by simp⟩
    exact ⟨fun _ hne => absurd h0 hne, fun _ => hzero⟩
  · have hsign := h.sign_eq h0
    by_cases hvanish : DecimalsVanish n (n.keep (longDigits s digits))
    · rw [longCorrect_iff_of_vanish h h0 hD hvanish]
      simp only [h0, hvanish, ne_eq, not_false_eq_true, forall_const]
      by_cases hover : (n.keep (longDigits s digits)).CarriesOver
      · rw [if_pos hover, longValue_of_carriesOver h0 hover]
        split
        · case isTrue hfits =>
          exact ⟨fun heq => absurd heq.symm (sign_mul_ne_noLong h h0 hfits),
            fun hnot => absurd hfits hnot⟩
        · case isFalse hfits => exact ⟨fun _ => hfits, fun _ => rfl⟩
      · rw [if_neg hover]
        by_cases hbelow : (n.keep (longDigits s digits)).BelowOne
        · rw [if_pos hbelow, longValue_of_belowOne h0 hvanish hbelow,
            magnitude_of_belowOne hbelow]
          generalize (n.keep (longDigits s digits)).carry = carry
          have hfits : FitsLong (longDigits s digits) carry.toNat := by
            have hone := Bool.toNat_le carry
            have hpow : 10 ^ 1 ≤ 10 ^ longDigits s digits :=
              Nat.pow_le_pow_right (by norm_num) hD
            exact ⟨by unfold maxNegNum; omega, fun _ => by omega⟩
          rw [if_pos hfits]
          cases carry with
          | false => simp
          | true =>
              simp only [Bool.toNat_true, Nat.cast_one, mul_one, forall_const]
              exact eq_comm
        · rw [if_neg hbelow, longValue_of_digits h h0 hvanish hover hbelow]
          have hlen := (numlength_keep n (longDigits s digits)).1
          generalize n.keep (longDigits s digits) = k at hlen ⊢
          by_cases hfits : FitsLong (longDigits s digits) (magnitude n k)
          · rw [if_pos hfits, if_pos (passesLong_of_fits h h0 hlen hfits)]
            exact ⟨fun _ => Or.inl hfits, fun _ => wrap32_sign_mul hsign hfits.1⟩
          · rw [if_neg hfits]
            by_cases hpasses : PassesLong n (longDigits s digits) k
            · rw [if_pos hpasses, wrap32_sign_eq_noLong_iff hsign]
              simp [hfits, hpasses]
            · rw [if_neg hpasses]
              exact ⟨fun _ => Or.inr (Or.inl hpasses), fun _ => rfl⟩
    · have hwhole := not_whole_of_not_vanish h h0 hD hvanish
      have hright : LongCorrect s n digits := by
        unfold LongCorrect
        dsimp only
        rw [longValue_of_not_vanish h0 hvanish]
        exact ⟨⟨fun hne => absurd rfl hne, fun ⟨z, _, hz⟩ => absurd hz (hwhole z)⟩,
          fun hne => absurd rfl hne⟩
      exact ⟨fun _ _ hv => absurd hv hvanish, fun _ => hright⟩

/-- `1234.00` is 1234 at nine digits. -/
theorem longCorrect_hundredths :
    LongCorrect ⟨9, 0, .scientific⟩ ⟨1, -2, [1, 2, 3, 4, 0, 0], 9, true⟩ none :=
  (longCorrect_iff (by decide) (by decide)).mpr (by decide)

/-- `3E9` at nine digits is returned as -1294967296, and `1.99999999996` at ten digits, which is
rounded to 2, is refused. -/
theorem longValue_wraps :
    (longValue ⟨9, 0, .scientific⟩ ⟨1, 9, [3], 9, true⟩ none = -1294967296 ∧
      ¬LongCorrect ⟨9, 0, .scientific⟩ ⟨1, 9, [3], 9, true⟩ none) ∧
    (longValue ⟨9, 0, .scientific⟩ ⟨1, -11, [1, 9, 9, 9, 9, 9, 9, 9, 9, 9, 9, 6], 9, true⟩
        (some 10) = noLong ∧
      ¬LongCorrect ⟨9, 0, .scientific⟩ ⟨1, -11, [1, 9, 9, 9, 9, 9, 9, 9, 9, 9, 9, 6], 9, true⟩
        (some 10)) := by
  refine ⟨⟨by decide, ?_⟩, by decide, ?_⟩
  · rw [longCorrect_iff_of_vanish (by decide) (by decide) (by decide) (by decide)]
    decide
  · rw [longCorrect_iff_of_vanish (by decide) (by decide) (by decide) (by decide)]
    decide

end NumberString

end LeooRexx
