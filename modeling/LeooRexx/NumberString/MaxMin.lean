import LeooRexx.Classes.RexxInteger
import LeooRexx.Foundation.Selection

/-!
# Maximum and minimum

`maxMin` sets FUZZ to 0 in the current activation, compares every argument with the number found so
far and restores FUZZ where it returns or reports an argument.  Rounding an argument can leave it
as well: the rounded exponent can have too many digits, and the activation can trap LOSTDIGITS.
-/

namespace LeooRexx

open Positional DecimalRounding

namespace NumberString

/-- The activation in which `maxMin` runs. -/
structure NumericActivation where
  settings : Settings
  /-- `SIGNAL ON LOSTDIGITS` or `SIGNAL ON ANY` is in effect. -/
  trapsLostDigits : Bool
  deriving DecidableEq, Repr

namespace NumericActivation

def setFuzz (a : NumericActivation) (fuzz : Nat) : NumericActivation :=
  { a with settings := { a.settings with fuzz := fuzz } }

@[simp] theorem digits_setFuzz (a : NumericActivation) (fuzz : Nat) :
    (a.setFuzz fuzz).settings.digits = a.settings.digits := rfl

@[simp] theorem fuzz_setFuzz (a : NumericActivation) (fuzz : Nat) :
    (a.setFuzz fuzz).settings.fuzz = fuzz := rfl

end NumericActivation

/-- An argument: omitted, or an object with what its `numberString()` returns. -/
inductive Argument where
  | omitted
  | object (text : List UInt8) (numberString : Option NumberString)
  deriving DecidableEq, Repr

inductive Exit where
  | returned (number : NumberString)
  | raised (fault : Fault)
  | lostDigits (number : NumberString)
  deriving DecidableEq, Repr

/-- `prepareNumber(saveDigits, ROUND)` with the condition it raises. -/
def prepareOperand (a : NumericActivation) (n : NumberString) : Except Exit NumberString :=
  if n.length > a.settings.digits ∧ a.trapsLostDigits then .error (.lostDigits n)
  else
    match n.prepareNumber a.settings a.settings.digits true with
    | .ok n => .ok n
    | .error fault => .error (.raised fault)

/-- The loop over the arguments, from position `arg` on. -/
def selectLoop (a : NumericActivation) (saveFuzz : Nat) (operation : Extreme)
    (maxminobj : NumberString) (arg : Nat) : List Argument → Exit × NumericActivation
  | [] => (.returned maxminobj, a.setFuzz saveFuzz)
  | .omitted :: _ =>
      (.raised (.raised (.incorrectCallNoarg operation.name (arg + 1))), a.setFuzz saveFuzz)
  | .object text none :: _ =>
      (.raised (.raised (.incorrectMethodNumber (arg + 1) text)), a.setFuzz saveFuzz)
  | .object _ (some compobj) :: args =>
      match prepareOperand a compobj with
      | .error exit => (exit, a)
      | .ok compobj =>
          match exceeds a.settings operation compobj maxminobj with
          | .error fault => (.raised fault, a)
          | .ok found =>
              selectLoop a saveFuzz operation (if found then compobj else maxminobj) (arg + 1)
                args

/-- `maxMin` with the activation it leaves behind. -/
def runMaxMin (a : NumericActivation) (this : NumberString) (args : List Argument)
    (operation : Extreme) : Exit × NumericActivation :=
  if args = [] then (.returned this, a)
  else
    match prepareOperand (a.setFuzz 0) this with
    | .error exit => (exit, a.setFuzz 0)
    | .ok maxminobj => selectLoop (a.setFuzz 0) a.settings.fuzz operation maxminobj 0 args

/-! ## Lost differences by value -/

/--
A difference that a comparison at precision `D` loses: one magnitude is a power of ten, the other
is less than five units in the last of `D` places below it.
-/
def DifferenceLost (D : Nat) (u v : ℚ) : Prop :=
  SignType.sign u = SignType.sign v ∧ ∃ (m : ℤ) (j : ℕ), 1 ≤ j ∧ j < 5 ∧
    max |u| |v| = 10 ^ D * 10 ^ m ∧ min |u| |v| = (10 ^ D - j) * 10 ^ m

theorem abs_toRat_aligned {n : NumberString} (h : n.Normalized) (h0 : n.sign ≠ 0) {m : Int}
    (hm : m ≤ n.exp) : |n.toRat| = aligned m n * (10 : ℚ) ^ m := by
  rw [abs_toRat h h0, toRat_decimal_eq_aligned hm]

theorem value_lt_pow {n : NumberString} (h : n.Normalized) {D : Nat} (hlen : n.length ≤ D) :
    value 10 n.number < 10 ^ D :=
  (value_lt (by norm_num) h.digits).trans_le (Nat.pow_le_pow_right (by norm_num) hlen)

theorem coeff_of_exp_le {c d : Nat} {e m : ℤ} (h : e ≤ m)
    (heq : (c : ℚ) * 10 ^ e = d * 10 ^ m) : c = d * 10 ^ (m - e).toNat := by
  have hsplit : (10 : ℚ) ^ m = 10 ^ (m - e).toNat * 10 ^ e := by
    rw [← zpow_natCast, ← zpow_add₀ (by norm_num)]
    congr 1
    omega
  have hne : (10 : ℚ) ^ e ≠ 0 := by positivity
  rw [hsplit, ← mul_assoc] at heq
  exact_mod_cast mul_right_cancel₀ hne heq

theorem exp_of_differenceLost {high low : NumberString} {D j : Nat} {m : ℤ} (hD : 1 ≤ D)
    (hhigh : high.Normalized) (hlow : low.Normalized) (hlenh : high.length ≤ D)
    (hlenl : low.length ≤ D) (hj : 1 ≤ j) (hj5 : j < 5)
    (hh : (value 10 high.number : ℚ) * 10 ^ high.exp = 10 ^ D * 10 ^ m)
    (hl : (value 10 low.number : ℚ) * 10 ^ low.exp = (10 ^ D - j) * 10 ^ m) :
    m < high.exp ∧ low.exp = m := by
  have hpow : 10 ≤ 10 ^ D := by
    calc 10 = 10 ^ 1 := (pow_one 10).symm
      _ ≤ 10 ^ D := Nat.pow_le_pow_right (by norm_num) hD
  have hch := value_lt_pow hhigh hlenh
  have hcl := value_lt_pow hlow hlenl
  have hh' : (value 10 high.number : ℚ) * 10 ^ high.exp = ((10 ^ D : ℕ) : ℚ) * 10 ^ m := by
    rw [hh]
    push_cast
    rfl
  have hl' : (value 10 low.number : ℚ) * 10 ^ low.exp = ((10 ^ D - j : ℕ) : ℚ) * 10 ^ m := by
    rw [hl, Nat.cast_sub (by omega)]
    push_cast
    rfl
  constructor
  · by_contra hexp
    have hcoeff := coeff_of_exp_le (not_lt.mp hexp) hh'
    have hone : 1 ≤ 10 ^ (m - high.exp).toNat := Nat.one_le_pow _ _ (by norm_num)
    have hle : 10 ^ D ≤ 10 ^ D * 10 ^ (m - high.exp).toNat := Nat.le_mul_of_pos_right _ hone
    omega
  · rcases lt_trichotomy low.exp m with hlt | heq | hgt
    · have hcoeff := coeff_of_exp_le hlt.le hl'
      obtain ⟨k, hk⟩ : ∃ k, (m - low.exp).toNat = k + 1 := ⟨(m - low.exp).toNat - 1, by omega⟩
      have hone : 1 ≤ 10 ^ k := Nat.one_le_pow _ _ (by norm_num)
      have hle : (10 ^ D - j) * 10 ≤ (10 ^ D - j) * 10 ^ (m - low.exp).toNat := by
        rw [hk, pow_succ]
        exact Nat.mul_le_mul_left _ (by omega)
      omega
    · exact heq
    · have hcoeff := coeff_of_exp_le hgt.le hl'.symm
      obtain ⟨k, hk⟩ : ∃ k, (low.exp - m).toNat = k + 1 := ⟨(low.exp - m).toNat - 1, by omega⟩
      obtain ⟨i, hi⟩ : ∃ i, D = i + 1 := ⟨D - 1, by omega⟩
      have hone : 1 ≤ 10 ^ i := Nat.one_le_pow _ _ (by norm_num)
      rw [hk, pow_succ, ← mul_assoc, hi, pow_succ] at hcoeff
      omega

theorem sign_eq_iff {a b : NumberString} (ha : a.Normalized) (hb : b.Normalized) :
    SignType.sign a.toRat = SignType.sign b.toRat ↔ a.sign = b.sign := by
  rw [sign_toRat ha, sign_toRat hb]
  rcases ha.sign_cases with h | h | h <;> rcases hb.sign_cases with h' | h' | h' <;>
    rw [h, h'] <;> decide

theorem losesDifference_iff_values {a b : NumberString} {D : Nat} (hD : 1 ≤ D)
    (ha : a.Normalized) (hb : b.Normalized) (hla : a.length ≤ D) (hlb : b.length ≤ D) :
    LosesDifference D a b ↔ DifferenceLost D a.toRat b.toRat := by
  constructor
  · rintro ⟨hsign, ha0, hmax, hmin, hclose⟩
    have hb0 : b.sign ≠ 0 := hsign ▸ ha0
    generalize hm : min a.exp b.exp = m at hmax hmin hclose
    have hpos : (0 : ℚ) < 10 ^ m := by positivity
    have hva := abs_toRat_aligned ha ha0 (m := m) (by omega)
    have hvb := abs_toRat_aligned hb hb0 (m := m) (by omega)
    refine ⟨(sign_eq_iff ha hb).mpr hsign, m,
      10 ^ D - min (aligned m a) (aligned m b), by omega, by omega, ?_, ?_⟩
    · rw [hva, hvb, ← max_mul_of_nonneg _ _ hpos.le, ← Nat.cast_max, hmax]
      push_cast
      rfl
    · rw [hva, hvb, ← min_mul_of_nonneg _ _ hpos.le, ← Nat.cast_min, Nat.cast_sub hmin.le]
      push_cast
      ring
  · rintro ⟨hsign, m, j, hj, hj5, hmax, hmin⟩
    have hsign' := (sign_eq_iff ha hb).mp hsign
    have hpos : (0 : ℚ) < 10 ^ m := by positivity
    have ha0 : a.sign ≠ 0 := by
      intro h0
      have hzero : max |a.toRat| |b.toRat| = 0 := by
        rw [(toRat_eq_zero_iff ha).mpr h0, (toRat_eq_zero_iff hb).mpr (hsign' ▸ h0), abs_zero,
          max_self]
      have hpow : (0 : ℚ) < 10 ^ D * 10 ^ m := by positivity
      linarith
    have hb0 : b.sign ≠ 0 := hsign' ▸ ha0
    have hpow : 10 ≤ 10 ^ D := by
      calc 10 = 10 ^ 1 := (pow_one 10).symm
        _ ≤ 10 ^ D := Nat.pow_le_pow_right (by norm_num) hD
    -- the aligned coefficients, whichever of the two is the power of ten
    have hcoeff {high low : NumberString} (hh : high.Normalized) (hl : low.Normalized)
        (hh0 : high.sign ≠ 0) (hl0 : low.sign ≠ 0) (hlh : high.length ≤ D) (hll : low.length ≤ D)
        (hvh : |high.toRat| = 10 ^ D * 10 ^ m) (hvl : |low.toRat| = (10 ^ D - j) * 10 ^ m) :
        min high.exp low.exp = m ∧ aligned m high = 10 ^ D ∧ aligned m low = 10 ^ D - j := by
      rw [abs_toRat hh hh0] at hvh
      rw [abs_toRat hl hl0] at hvl
      obtain ⟨hexph, hexpl⟩ := exp_of_differenceLost hD hh hl hlh hll hj hj5 hvh hvl
      refine ⟨by omega, ?_, ?_⟩
      · rw [← abs_toRat hh hh0, abs_toRat_aligned hh hh0 hexph.le] at hvh
        exact_mod_cast mul_right_cancel₀ hpos.ne' hvh
      · rw [← abs_toRat hl hl0, abs_toRat_aligned hl hl0 hexpl.ge] at hvl
        have hcast : ((aligned m low : ℕ) : ℚ) = ((10 ^ D - j : ℕ) : ℚ) := by
          rw [mul_right_cancel₀ hpos.ne' hvl, Nat.cast_sub (by omega)]
          push_cast
          rfl
        exact_mod_cast hcast
    rcases le_total |a.toRat| |b.toRat| with hle | hle
    · rw [max_eq_right hle] at hmax
      rw [min_eq_left hle] at hmin
      obtain ⟨hexp, hhigh, hlow⟩ := hcoeff hb ha hb0 ha0 hlb hla hmax hmin
      rw [min_comm] at hexp
      refine ⟨hsign', ha0, ?_, ?_, ?_⟩ <;> rw [hexp, hhigh, hlow] <;> omega
    · rw [max_eq_left hle] at hmax
      rw [min_eq_right hle] at hmin
      obtain ⟨hexp, hhigh, hlow⟩ := hcoeff ha hb ha0 hb0 hla hlb hmax hmin
      refine ⟨hsign', ha0, ?_, ?_, ?_⟩ <;> rw [hexp, hhigh, hlow] <;> omega

/-! ## Rounding an operand -/

def LeavesEarly (a : NumericActivation) (n : NumberString) : Prop :=
  a.settings.digits < n.length ∧ (a.trapsLostDigits = true ∨
    maxNum < (n.decimal.round a.settings.digits).exp + a.settings.digits - 1)

instance (a : NumericActivation) (n : NumberString) : Decidable (LeavesEarly a n) := by
  unfold LeavesEarly
  infer_instance

structure RoundsTo (a : NumericActivation) (n r : NumberString) : Prop where
  prepared : prepareOperand a n = .ok r
  normalized : r.Normalized
  short : r.length ≤ a.settings.digits
  value : r.toRat = roundHalfUp a.settings.digits n.toRat

theorem prepareNumber_long {s : Settings} {n : NumberString} (hD : 1 ≤ s.digits)
    (h : n.Normalized) (hlong : s.digits < n.length) :
    n.prepareNumber s s.digits true =
      (do
        checkExponent (n.decimal.round s.digits).exp s.digits
        return ofDecimal s s.digits n.sign (n.decimal.round s.digits)) ∧
      10 ^ s.digits ≤ n.decimal.coeff ∧ n.sign ≠ 0 := by
  have hlen : n.length = n.number.length := rfl
  have h0 : n.sign ≠ 0 := by
    intro h0
    rw [hlen, (h.zero h0).1, List.length_singleton] at hlong
    omega
  obtain ⟨d, ds, hds, hd⟩ := h.leading h0
  have hdigits : n.number = numeral 10 (value 10 n.number) := by
    have hcons := eq_numeral (b := 10) (by norm_num) (hds ▸ h.digits) hd
    rwa [← hds] at hcons
  have hbig : 10 ^ s.digits ≤ value 10 n.number := by
    have hle := le_value_cons (b := 10) hd ds
    rw [hds, List.length_cons] at hlen
    rw [hds]
    exact (Nat.pow_le_pow_right (by norm_num) (by omega)).trans hle
  have hmath := mathRound_numeral (e := n.exp) (r := n.decimal.round s.digits) hD hbig rfl
  have hcoeff : (n.decimal.round s.digits).coeff ≠ 0 :=
    Decimal.round_coeff_ne_zero hD (h.value_ne_zero h0)
  rw [← hdigits, ← hlen] at hmath
  refine ⟨?_, hbig, h0⟩
  rw [prepareNumber, if_pos hlong]
  simp only [if_true, hmath, ofDecimal, if_neg hcoeff]
  cases checkExponent (n.decimal.round s.digits).exp s.digits <;> rfl

theorem roundsTo_of_stays {a : NumericActivation} {n : NumberString} (hD : 1 ≤ a.settings.digits)
    (h : n.Normalized) (hstays : ¬LeavesEarly a n) : ∃ r, RoundsTo a n r := by
  by_cases hlong : a.settings.digits < n.length
  · obtain ⟨hprepare, hbig, h0⟩ := prepareNumber_long hD h hlong
    have hkept : ¬a.trapsLostDigits = true ∧
        (n.decimal.round a.settings.digits).exp + a.settings.digits - 1 ≤ maxNum := by
      unfold LeavesEarly at hstays
      push Not at hstays
      exact hstays hlong |>.imp (by simp) id
    have hlow := (h.exp_lower).trans (Decimal.exp_le_round (D := a.settings.digits) n.decimal)
    have hcheck : checkExponent (n.decimal.round a.settings.digits).exp a.settings.digits =
        .ok () := checkExponent_eq_ok_iff.mpr ⟨hkept.2, hlow⟩
    have hlength := length_numeral_round hD hbig
    rw [hcheck] at hprepare
    have hsign := h.sign_eq h0
    refine ⟨ofDecimal a.settings a.settings.digits n.sign (n.decimal.round a.settings.digits),
      ?_, normalized_ofDecimal hsign (by rwa [hlength]), ?_, ?_⟩
    · rw [prepareOperand, if_neg fun hlost => hkept.1 hlost.2, hprepare]
      rfl
    · rw [length_ofDecimal (Decimal.round_coeff_ne_zero hD (h.value_ne_zero h0)), hlength]
    · rw [toRat_ofDecimal, Decimal.toRat_round hD, toRat, roundHalfUp_sign_mul _ hsign]
  · refine ⟨n.setNumericSettings a.settings.digits a.settings.form, ?_,
      h.congr (.inl rfl) rfl rfl, not_lt.mp hlong, ?_⟩
    · rw [prepareOperand, if_neg fun hlost => hlong hlost.1, prepareNumber, if_neg hlong]
      rfl
    · exact (roundHalfUp_of_fits (fitsDigits_toRat h (not_lt.mp hlong))).symm

theorem prepareOperand_of_leaves {a : NumericActivation} {n : NumberString}
    (hD : 1 ≤ a.settings.digits) (h : n.Normalized) (hleaves : LeavesEarly a n) :
    ∃ exit, prepareOperand a n = .error exit ∧ ∀ r, exit ≠ .returned r := by
  obtain ⟨hlong, hleaves⟩ := hleaves
  by_cases hlost : a.trapsLostDigits = true
  · exact ⟨.lostDigits n, if_pos ⟨hlong, hlost⟩, fun _ h => by cases h⟩
  · have hrange := hleaves.resolve_left hlost
    have hcheck : checkExponent (n.decimal.round a.settings.digits).exp a.settings.digits =
        .error (.raised (.overflowExpoverflow
          ((n.decimal.round a.settings.digits).exp + a.settings.digits - 1) 9)) :=
      if_pos hrange
    rw [prepareOperand, if_neg fun hboth => hlost hboth.2, (prepareNumber_long hD h hlong).1,
      hcheck]
    exact ⟨_, rfl, fun _ h => by cases h⟩

def rounded (a : NumericActivation) (n : NumberString) : NumberString :=
  match prepareOperand a n with
  | .ok r => r
  | .error _ => n

theorem roundsTo_rounded {a : NumericActivation} {n : NumberString} (hD : 1 ≤ a.settings.digits)
    (h : n.Normalized) (hstays : ¬LeavesEarly a n) : RoundsTo a n (rounded a n) := by
  obtain ⟨r, hr⟩ := roundsTo_of_stays hD h hstays
  rwa [rounded, hr.prepared]

/-! ## Comparing with the number found -/

def extremeKey : Extreme → ℚ → ℚ
  | .max, v => v
  | .min, v => -v

def roundedKey (a : NumericActivation) (operation : Extreme) (n : NumberString) : ℚ :=
  extremeKey operation (rounded a n).toRat

def Misses (a : NumericActivation) (x y : NumberString) : Prop :=
  LosesDifference a.settings.digits (rounded a x) (rounded a y)

instance (a : NumericActivation) : DecidableRel (Misses a) := fun x y => by
  unfold Misses
  infer_instance

theorem exceeds_eq {a : NumericActivation} {x y : NumberString} (hD : 1 ≤ a.settings.digits)
    (hfuzz : a.settings.fuzz = 0) (operation : Extreme) (hx : RoundsTo a x (rounded a x))
    (hy : RoundsTo a y (rounded a y)) :
    exceeds a.settings operation (rounded a x) (rounded a y) =
      .ok (decide (Selection.Beats (roundedKey a operation) (Misses a) x y)) := by
  have hs : { a.settings with fuzz := 0 } = a.settings := by rw [← hfuzz]
  obtain ⟨r, hr, hsign⟩ := comp_sign hD hx.normalized hy.normalized hx.short hy.short
  rw [hs] at hr
  have hpos : 0 < r ↔ (rounded a y).toRat < (rounded a x).toRat ∧ ¬Misses a x y := by
    rw [← sign_eq_one_iff, hsign, Misses]
    split
    · case isTrue hloses => simp [hloses]
    · case isFalse hkeeps => simp [hkeeps, sign_eq_one_iff]
  have hneg : r < 0 ↔ (rounded a x).toRat < (rounded a y).toRat ∧ ¬Misses a x y := by
    rw [← sign_eq_neg_one_iff, hsign, Misses]
    split
    · case isTrue hloses => simp [hloses]
    · case isFalse hkeeps => simp [hkeeps, sign_eq_neg_one_iff]
  rw [exceeds, hr, Outcome.ok_bind]
  cases operation with
  | max => exact congrArg Except.ok (decide_eq_decide.mpr hpos)
  | min =>
      exact congrArg Except.ok (decide_eq_decide.mpr
        (hneg.trans (and_congr_left' neg_lt_neg_iff.symm)))

/-! ## The loop -/

namespace Argument

def number : Argument → Option NumberString
  | .omitted => none
  | .object _ numberString => numberString

end Argument

def numbers (args : List Argument) : List NumberString := args.filterMap Argument.number

def reached : List Argument → List NumberString
  | .object _ (some n) :: args => n :: reached args
  | _ => []

def AllNumbers (args : List Argument) : Prop := ∀ arg ∈ args, arg.number ≠ none

instance (args : List Argument) : Decidable (AllNumbers args) := by
  unfold AllNumbers
  infer_instance

theorem reached_eq_numbers {args : List Argument} (h : AllNumbers args) :
    reached args = numbers args := by
  induction args with
  | nil => rfl
  | cons arg args ih =>
      have hrest : AllNumbers args := fun x hx => h x (List.mem_cons_of_mem arg hx)
      match arg, h arg List.mem_cons_self with
      | .object text (some n), _ =>
          simp only [reached, numbers, List.filterMap_cons, Argument.number]
          rw [ih hrest, numbers]

theorem reached_subset_numbers {args : List Argument} : reached args ⊆ numbers args := by
  induction args with
  | nil => exact List.Subset.refl _
  | cons arg args ih =>
      match arg with
      | .omitted => exact List.nil_subset _
      | .object text none => exact List.nil_subset _
      | .object text (some n) => exact List.cons_subset_cons n ih

section Loop

variable {a : NumericActivation} (hD : 1 ≤ a.settings.digits) (hfuzz : a.settings.fuzz = 0)
  (saveFuzz : Nat) (operation : Extreme)

include hD hfuzz

theorem selectLoop_step {found n : NumberString} (hfound : RoundsTo a found (rounded a found))
    (hn : RoundsTo a n (rounded a n)) (arg : Nat) (text : List UInt8) (args : List Argument) :
    selectLoop a saveFuzz operation (rounded a found) arg (.object text (some n) :: args) =
      selectLoop a saveFuzz operation (rounded a
        (if Selection.Beats (roundedKey a operation) (Misses a) n found then n else found))
        (arg + 1) args := by
  rw [selectLoop, hn.prepared]
  dsimp only
  rw [exceeds_eq hD hfuzz operation hn hfound]
  by_cases hbeats : Selection.Beats (roundedKey a operation) (Misses a) n found <;> simp [hbeats]

theorem selectLoop_numbers {found : NumberString} {args : List Argument}
    (hargs : AllNumbers args) (hrounds : ∀ n ∈ found :: numbers args, RoundsTo a n (rounded a n))
    (arg : Nat) :
    selectLoop a saveFuzz operation (rounded a found) arg args =
      (.returned (rounded a (Selection.select (roundedKey a operation) (Misses a) found
        (numbers args))), a.setFuzz saveFuzz) := by
  induction args generalizing found arg with
  | nil => rfl
  | cons x args ih =>
      have hrest : AllNumbers args := fun y hy => hargs y (List.mem_cons_of_mem x hy)
      match x, hargs x List.mem_cons_self, hrounds with
      | .object text (some n), _, hrounds =>
          have hcons : numbers (.object text (some n) :: args) = n :: numbers args := rfl
          rw [hcons] at hrounds ⊢
          have hfound := hrounds found List.mem_cons_self
          have hn := hrounds n (List.mem_cons_of_mem _ List.mem_cons_self)
          rw [selectLoop_step hD hfuzz saveFuzz operation hfound hn, ih hrest]
          · rfl
          · intro y hy
            rcases List.mem_cons.mp hy with rfl | hy
            · split
              · exact hn
              · exact hfound
            · exact hrounds y (List.mem_cons_of_mem _ (List.mem_cons_of_mem _ hy))

theorem selectLoop_fuzz {found : NumberString} {args : List Argument}
    (hnorm : ∀ n ∈ reached args, n.Normalized) (hfound : RoundsTo a found (rounded a found))
    (arg : Nat) :
    (selectLoop a saveFuzz operation (rounded a found) arg args).2.settings.fuzz =
      if ∃ n ∈ reached args, LeavesEarly a n then 0 else saveFuzz := by
  induction args generalizing found arg with
  | nil =>
      rw [if_neg (by simp [reached])]
      rfl
  | cons x args ih =>
      match x with
      | .omitted =>
          rw [if_neg (by simp [reached])]
          rfl
      | .object text none =>
          rw [if_neg (by simp [reached])]
          rfl
      | .object text (some n) =>
          have hn : n.Normalized := hnorm n (by simp [reached])
          by_cases hleaves : LeavesEarly a n
          · obtain ⟨exit, hexit, -⟩ := prepareOperand_of_leaves hD hn hleaves
            rw [if_pos ⟨n, by simp [reached], hleaves⟩, selectLoop, hexit]
            exact hfuzz
          · have hround := roundsTo_rounded hD hn hleaves
            have hiff : (∃ y ∈ reached (.object text (some n) :: args), LeavesEarly a y) ↔
                ∃ y ∈ reached args, LeavesEarly a y := by
              simp [reached, hleaves]
            rw [selectLoop_step hD hfuzz saveFuzz operation hfound hround,
              ih fun y hy => hnorm y (by simp [reached, hy])]
            · simp only [hiff]
            · split
              · exact hround
              · exact hfound

theorem selectLoop_of_leaves {found : NumberString} {args : List Argument}
    (hnorm : ∀ n ∈ reached args, n.Normalized) (hfound : RoundsTo a found (rounded a found))
    (hleaves : ∃ n ∈ reached args, LeavesEarly a n) (arg : Nat) (r : NumberString) :
    (selectLoop a saveFuzz operation (rounded a found) arg args).1 ≠ .returned r := by
  induction args generalizing found arg with
  | nil => simp [reached] at hleaves
  | cons x args ih =>
      match x with
      | .omitted => simp [reached] at hleaves
      | .object text none => simp [reached] at hleaves
      | .object text (some n) =>
          have hn : n.Normalized := hnorm n (by simp [reached])
          by_cases hfirst : LeavesEarly a n
          · obtain ⟨exit, hexit, hreturned⟩ := prepareOperand_of_leaves hD hn hfirst
            rw [selectLoop, hexit]
            exact hreturned r
          · have hround := roundsTo_rounded hD hn hfirst
            rw [selectLoop_step hD hfuzz saveFuzz operation hfound hround]
            refine ih (fun y hy => hnorm y (by simp [reached, hy])) ?_ ?_ _
            · split
              · exact hround
              · exact hfound
            · obtain ⟨y, hy, hyl⟩ := hleaves
              rcases List.mem_cons.mp hy with rfl | hy
              · exact absurd hyl hfirst
              · exact ⟨y, hy, hyl⟩

end Loop

/-! ## The results -/

section Runs

variable {a : NumericActivation} (hD : 1 ≤ a.settings.digits) {this : NumberString}
  {args : List Argument} (operation : Extreme) (hthis : this.Normalized) (hargs : args ≠ [])

include hD hthis hargs

theorem runMaxMin_fuzz (hnorm : ∀ n ∈ reached args, n.Normalized) :
    (runMaxMin a this args operation).2.settings.fuzz =
      if ∃ n ∈ this :: reached args, LeavesEarly a n then 0 else a.settings.fuzz := by
  rw [runMaxMin, if_neg hargs]
  by_cases hleaves : LeavesEarly (a.setFuzz 0) this
  · obtain ⟨exit, hexit, -⟩ := prepareOperand_of_leaves (a := a.setFuzz 0) hD hthis hleaves
    rw [hexit, if_pos ⟨this, List.mem_cons_self, hleaves⟩]
    rfl
  · have hround := roundsTo_rounded (a := a.setFuzz 0) hD hthis hleaves
    have hiff : (∃ n ∈ this :: reached args, LeavesEarly a n) ↔
        ∃ n ∈ reached args, LeavesEarly (a.setFuzz 0) n := by
      constructor
      · rintro ⟨n, hn, hnl⟩
        rcases List.mem_cons.mp hn with rfl | hn
        · exact absurd hnl hleaves
        · exact ⟨n, hn, hnl⟩
      · rintro ⟨n, hn, hnl⟩
        exact ⟨n, List.mem_cons_of_mem _ hn, hnl⟩
    rw [hround.prepared]
    dsimp only
    rw [selectLoop_fuzz (a := a.setFuzz 0) hD rfl _ operation hnorm hround]
    simp only [hiff]

theorem runMaxMin_of_leaves (hnorm : ∀ n ∈ reached args, n.Normalized)
    (hleaves : ∃ n ∈ this :: reached args, LeavesEarly a n) (r : NumberString) :
    (runMaxMin a this args operation).1 ≠ .returned r := by
  rw [runMaxMin, if_neg hargs]
  by_cases hfirst : LeavesEarly (a.setFuzz 0) this
  · obtain ⟨exit, hexit, hreturned⟩ := prepareOperand_of_leaves (a := a.setFuzz 0) hD hthis hfirst
    rw [hexit]
    exact hreturned r
  · have hround := roundsTo_rounded (a := a.setFuzz 0) hD hthis hfirst
    rw [hround.prepared]
    refine selectLoop_of_leaves (a := a.setFuzz 0) hD rfl _ operation hnorm hround ?_ 0 r
    obtain ⟨n, hn, hnl⟩ := hleaves
    rcases List.mem_cons.mp hn with rfl | hn
    · exact absurd hnl hfirst
    · exact ⟨n, hn, hnl⟩

theorem runMaxMin_numbers (hall : AllNumbers args) (hnorm : ∀ n ∈ numbers args, n.Normalized)
    (hstays : ∀ n ∈ this :: numbers args, ¬LeavesEarly a n) :
    (runMaxMin a this args operation).1 = .returned (rounded (a.setFuzz 0)
      (Selection.select (roundedKey (a.setFuzz 0) operation) (Misses (a.setFuzz 0)) this
        (numbers args))) := by
  have hrounds : ∀ n ∈ this :: numbers args,
      RoundsTo (a.setFuzz 0) n (rounded (a.setFuzz 0) n) := by
    intro n hn
    refine roundsTo_rounded (a := a.setFuzz 0) hD ?_ (hstays n hn)
    rcases List.mem_cons.mp hn with rfl | hn
    · exact hthis
    · exact hnorm n hn
  rw [runMaxMin, if_neg hargs, (hrounds this List.mem_cons_self).prepared]
  dsimp only
  rw [selectLoop_numbers (a := a.setFuzz 0) hD rfl _ operation hall hrounds]

end Runs

def keyOf (a : NumericActivation) (operation : Extreme) (n : NumberString) : ℚ :=
  extremeKey operation (roundHalfUp a.settings.digits n.toRat)

def SelectsExtreme (a : NumericActivation) (operation : Extreme) (this : NumberString)
    (args : List Argument) : Prop :=
  ∃ m ∈ this :: numbers args,
    (∀ n ∈ this :: numbers args, keyOf a operation n ≤ keyOf a operation m) ∧
    ∀ this' args', AllNumbers args' → (this' :: numbers args').Perm (this :: numbers args) →
      ∃ r, (runMaxMin a this' args' operation).1 = .returned r ∧
        r.length ≤ a.settings.digits ∧ r.toRat = roundHalfUp a.settings.digits m.toRat

/-- What `maxMin` is to do: restore FUZZ and, for numbers, return the extreme one. -/
def MaxMinCorrect (a : NumericActivation) (operation : Extreme) (this : NumberString)
    (args : List Argument) : Prop :=
  (runMaxMin a this args operation).2.settings.fuzz = a.settings.fuzz ∧
    (AllNumbers args → SelectsExtreme a operation this args)

/-- No operand is left early, and none is within a lost difference of the extreme one. -/
def NothingLost (a : NumericActivation) (operation : Extreme) (this : NumberString)
    (args : List Argument) : Prop :=
  (a.settings.fuzz = 0 ∨ ∀ n ∈ this :: reached args, ¬LeavesEarly a n) ∧
    (AllNumbers args → (∀ n ∈ this :: numbers args, ¬LeavesEarly a n) ∧
      ∀ m ∈ this :: numbers args,
        (∀ n ∈ this :: numbers args, keyOf a operation n ≤ keyOf a operation m) →
          ∀ x ∈ this :: numbers args,
            ¬DifferenceLost a.settings.digits (roundHalfUp a.settings.digits m.toRat)
              (roundHalfUp a.settings.digits x.toRat))

theorem extremeKey_inj {operation : Extreme} {u v : ℚ} :
    extremeKey operation u = extremeKey operation v ↔ u = v := by
  cases operation with
  | max => rfl
  | min => exact neg_inj

theorem DifferenceLost.ne {D : Nat} {u v : ℚ} (h : DifferenceLost D u v) : u ≠ v := by
  rintro rfl
  obtain ⟨-, m, j, hj, -, hmax, hmin⟩ := h
  have hpos : (0 : ℚ) < 10 ^ m := by positivity
  have hj0 : (0 : ℚ) < j := by exact_mod_cast hj
  rw [max_self] at hmax
  rw [min_self, hmax, sub_mul] at hmin
  have hzero : (j : ℚ) * 10 ^ m = 0 := by linarith
  exact absurd hzero (mul_pos hj0 hpos).ne'

section Values

variable {a : NumericActivation} {items : List NumberString} {operation : Extreme}
  (hD : 1 ≤ a.settings.digits) (hnorm : ∀ n ∈ items, n.Normalized)
  (hstays : ∀ n ∈ items, ¬LeavesEarly a n)

include hD hnorm hstays

theorem roundsTo_of_mem {n : NumberString} (hn : n ∈ items) :
    RoundsTo (a.setFuzz 0) n (rounded (a.setFuzz 0) n) :=
  roundsTo_rounded (a := a.setFuzz 0) hD (hnorm n hn) (hstays n hn)

theorem roundedKey_of_mem {n : NumberString} (hn : n ∈ items) :
    roundedKey (a.setFuzz 0) operation n = keyOf a operation n :=
  congrArg (extremeKey operation) (roundsTo_of_mem hD hnorm hstays hn).value

theorem misses_iff_of_mem {x y : NumberString} (hx : x ∈ items) (hy : y ∈ items) :
    Misses (a.setFuzz 0) x y ↔ DifferenceLost a.settings.digits
      (roundHalfUp a.settings.digits x.toRat) (roundHalfUp a.settings.digits y.toRat) := by
  have hrx := roundsTo_of_mem hD hnorm hstays hx
  have hry := roundsTo_of_mem hD hnorm hstays hy
  have hiff := losesDifference_iff_values hD hrx.normalized hry.normalized hrx.short hry.short
  rw [hrx.value, hry.value] at hiff
  exact hiff

end Values

theorem args_ne_nil_of_perm {this this' : NumberString} {args args' : List Argument}
    (hargs : args ≠ []) (hall : AllNumbers args)
    (hperm : (this' :: numbers args').Perm (this :: numbers args)) : args' ≠ [] := by
  rintro rfl
  obtain ⟨arg, rest, rfl⟩ := List.exists_cons_of_ne_nil hargs
  obtain ⟨n, hn⟩ := Option.ne_none_iff_exists'.mp (hall arg List.mem_cons_self)
  have hlength := hperm.length_eq
  simp [numbers, hn] at hlength

theorem numbers_objects (ns : List NumberString) :
    numbers (ns.map fun n => .object [] (some n)) = ns := by
  induction ns with
  | nil => rfl
  | cons n ns ih => exact congrArg (n :: ·) ih

theorem allNumbers_objects (ns : List NumberString) :
    AllNumbers (ns.map fun n => .object [] (some n)) := by
  intro arg harg
  obtain ⟨n, -, rfl⟩ := List.mem_map.mp harg
  exact Option.some_ne_none n

section Correct

variable {a : NumericActivation} (hD : 1 ≤ a.settings.digits) {operation : Extreme}
  {this : NumberString} {args : List Argument} (hthis : this.Normalized)
  (hnorm : ∀ n ∈ numbers args, n.Normalized) (hargs : args ≠ []) (hall : AllNumbers args)

include hthis hnorm

theorem normalized_operands : ∀ n ∈ this :: numbers args, n.Normalized := by
  intro n hn
  rcases List.mem_cons.mp hn with rfl | hn
  · exact hthis
  · exact hnorm n hn

include hD hargs hall

theorem selectsExtreme_of_nothingLost
    (hstays : ∀ n ∈ this :: numbers args, ¬LeavesEarly a n)
    (hseen : ∀ m ∈ this :: numbers args,
      (∀ n ∈ this :: numbers args, keyOf a operation n ≤ keyOf a operation m) →
        ∀ x ∈ this :: numbers args,
          ¬DifferenceLost a.settings.digits (roundHalfUp a.settings.digits m.toRat)
            (roundHalfUp a.settings.digits x.toRat)) :
    SelectsExtreme a operation this args := by
  have hoperands := normalized_operands hthis hnorm
  obtain ⟨m, hm, hmax⟩ := (this :: numbers args).toFinset.exists_max_image (keyOf a operation)
    ⟨this, by simp⟩
  rw [List.mem_toFinset] at hm
  replace hmax : ∀ n ∈ this :: numbers args, keyOf a operation n ≤ keyOf a operation m :=
    fun n hn => hmax n (List.mem_toFinset.mpr hn)
  refine ⟨m, hm, hmax, fun this' args' hall' hperm => ?_⟩
  have hmem {n : NumberString} (hn : n ∈ this' :: numbers args') : n ∈ this :: numbers args :=
    hperm.subset hn
  have hargs' := args_ne_nil_of_perm hargs hall hperm
  have hrun := runMaxMin_numbers hD operation (hoperands _ (hmem List.mem_cons_self)) hargs'
    hall' (fun n hn => hoperands n (hmem (List.mem_cons_of_mem _ hn)))
    (fun n hn => hstays n (hmem hn))
  have hselected : Selection.select (roundedKey (a.setFuzz 0) operation) (Misses (a.setFuzz 0))
      this' (numbers args') ∈ this' :: numbers args' := Selection.select_mem _ _
  have hround := roundsTo_of_mem hD hoperands hstays (hmem hselected)
  have hkeys {n : NumberString} (hn : n ∈ this' :: numbers args') :
      roundedKey (a.setFuzz 0) operation n = keyOf a operation n :=
    roundedKey_of_mem hD hoperands hstays (hmem hn)
  have htop : roundedKey (a.setFuzz 0) operation (Selection.select
      (roundedKey (a.setFuzz 0) operation) (Misses (a.setFuzz 0)) this' (numbers args')) =
        keyOf a operation m := by
    refine Selection.select_eq_top (fun n hn => (hkeys hn).trans_le (hmax n (hmem hn))) ?_
      ⟨m, hperm.symm.subset hm, hkeys (hperm.symm.subset hm)⟩
    intro x hx hkey y hy _ hmiss
    rw [hkeys hx] at hkey
    exact hseen x (hmem hx) (fun n hn => (hmax n hn).trans_eq hkey.symm) y (hmem hy)
      ((misses_iff_of_mem hD hoperands hstays (hmem hx) (hmem hy)).mp hmiss)
  refine ⟨_, hrun, hround.short, ?_⟩
  rw [hkeys hselected] at htop
  rw [hround.value]
  exact extremeKey_inj.mp htop

theorem nothingLost_of_selectsExtreme (h : SelectsExtreme a operation this args) :
    (∀ n ∈ this :: numbers args, ¬LeavesEarly a n) ∧
      ∀ m ∈ this :: numbers args,
        (∀ n ∈ this :: numbers args, keyOf a operation n ≤ keyOf a operation m) →
          ∀ x ∈ this :: numbers args,
            ¬DifferenceLost a.settings.digits (roundHalfUp a.settings.digits m.toRat)
              (roundHalfUp a.settings.digits x.toRat) := by
  have hoperands := normalized_operands hthis hnorm
  have hreached := reached_eq_numbers hall
  obtain ⟨m, hm, hmax, hruns⟩ := h
  have hstays : ∀ n ∈ this :: numbers args, ¬LeavesEarly a n := by
    intro n hn hleaves
    obtain ⟨r, hr, -⟩ := hruns this args hall (List.Perm.refl _)
    exact runMaxMin_of_leaves hD operation hthis hargs (hreached ▸ hnorm)
      ⟨n, hreached ▸ hn, hleaves⟩ r hr
  refine ⟨hstays, fun m' hm' hmax' x hx hlost => ?_⟩
  have hkeys {n : NumberString} (hn : n ∈ this :: numbers args) :
      roundedKey (a.setFuzz 0) operation n = keyOf a operation n :=
    roundedKey_of_mem hD hoperands hstays hn
  have hlt : keyOf a operation x < keyOf a operation m' :=
    lt_of_le_of_ne (hmax' x hx) fun heq => hlost.ne (extremeKey_inj.mp heq).symm
  have hmisled : ∃ f fs, (f :: fs).Perm (this :: numbers args) ∧
      roundedKey (a.setFuzz 0) operation (Selection.select
        (roundedKey (a.setFuzz 0) operation) (Misses (a.setFuzz 0)) f fs) <
          roundedKey (a.setFuzz 0) operation m' := by
    refine Selection.exists_perm_select_lt hx (by rwa [hkeys hx, hkeys hm'])
      (fun y hy => (hkeys hy).trans_le ((hmax' y hy).trans_eq (hkeys hm').symm)) ?_
    intro y hy hkey
    rw [hkeys hy, hkeys hm'] at hkey
    rw [misses_iff_of_mem hD hoperands hstays hy hx, extremeKey_inj.mp hkey]
    exact hlost
  obtain ⟨f, fs, hperm, hless⟩ := hmisled
  have hnumbers := numbers_objects fs
  have hall' := allNumbers_objects fs
  have hperm' : (f :: numbers (fs.map fun n => .object [] (some n))).Perm
      (this :: numbers args) := by rwa [hnumbers]
  have hmem {n : NumberString} (hn : n ∈ f :: fs) : n ∈ this :: numbers args := hperm.subset hn
  obtain ⟨r, hr, -, hvalue⟩ := hruns f _ hall' hperm'
  have hrun := runMaxMin_numbers hD operation (hoperands f (hmem List.mem_cons_self))
    (args_ne_nil_of_perm hargs hall hperm') hall'
    (fun n hn => hoperands n (hmem (List.mem_cons_of_mem f (hnumbers ▸ hn))))
    (fun n hn => hstays n (hmem (by rwa [hnumbers] at hn)))
  rw [hnumbers] at hrun
  rw [hrun] at hr
  have hselected := Exit.returned.inj hr
  rw [hkeys hm'] at hless
  have hreturned : roundedKey (a.setFuzz 0) operation (Selection.select
      (roundedKey (a.setFuzz 0) operation) (Misses (a.setFuzz 0)) f fs) = keyOf a operation m := by
    rw [roundedKey, hselected, hvalue, keyOf]
  exact absurd (hmax m' hm') (not_le.mpr (hreturned ▸ hless))

end Correct

theorem maxMinCorrect_iff {a : NumericActivation} (hD : 1 ≤ a.settings.digits)
    (operation : Extreme) {this : NumberString} {args : List Argument} (hthis : this.Normalized)
    (hnorm : ∀ n ∈ numbers args, n.Normalized) (hargs : args ≠ []) :
    MaxMinCorrect a operation this args ↔ NothingLost a operation this args := by
  have hreached : ∀ n ∈ reached args, n.Normalized := fun n hn =>
    hnorm n (reached_subset_numbers hn)
  have hfuzz : (runMaxMin a this args operation).2.settings.fuzz = a.settings.fuzz ↔
      a.settings.fuzz = 0 ∨ ∀ n ∈ this :: reached args, ¬LeavesEarly a n := by
    rw [runMaxMin_fuzz hD operation hthis hargs hreached]
    split
    · case isTrue hleaves =>
      obtain ⟨n, hn, hnl⟩ := hleaves
      exact ⟨fun h => .inl h.symm, fun h => h.elim Eq.symm fun hstays => absurd hnl (hstays n hn)⟩
    · case isFalse hstays =>
      exact ⟨fun _ => .inr fun n hn hnl => hstays ⟨n, hn, hnl⟩, fun _ => rfl⟩
  refine and_congr hfuzz (forall_congr' fun hall => ?_)
  exact ⟨nothingLost_of_selectsExtreme hD hthis hnorm hargs hall, fun h =>
    selectsExtreme_of_nothingLost hD hthis hnorm hargs hall h.1 h.2⟩

/--
`max(.999, 1)` is `.999` in three digits and `max(1, .999)` is `1`; a number that rounds up to an
exponent of ten digits leaves FUZZ at 0.
-/
theorem maxMin_misled :
    ¬MaxMinCorrect ⟨⟨3, 0, .scientific⟩, false⟩ .max ⟨1, -3, [9, 9, 9], 3, true⟩
        [.object [49] (some ⟨1, 0, [1], 3, true⟩)] ∧
      ¬MaxMinCorrect ⟨⟨9, 2, .scientific⟩, false⟩ .max ⟨1, 0, [1], 9, true⟩
        [.object [] (some ⟨1, 999999990, [9, 9, 9, 9, 9, 9, 9, 9, 9, 9], 9, true⟩)] := by
  constructor
  · rintro ⟨-, hselects⟩
    obtain ⟨m, -, -, hruns⟩ := hselects (by decide)
    obtain ⟨r, hr, -, hvalue⟩ := hruns ⟨1, -3, [9, 9, 9], 3, true⟩
      [.object [49] (some ⟨1, 0, [1], 3, true⟩)] (by decide) (List.Perm.refl _)
    obtain ⟨r', hr', -, hvalue'⟩ := hruns ⟨1, 0, [1], 3, true⟩
      [.object [] (some ⟨1, -3, [9, 9, 9], 3, true⟩)] (by decide) (List.Perm.swap ..)
    have hlow : r = ⟨1, -3, [9, 9, 9], 3, true⟩ := by
      apply Exit.returned.inj
      rw [← hr]
      decide
    have hhigh : r' = ⟨1, 0, [1], 3, true⟩ := by
      apply Exit.returned.inj
      rw [← hr']
      decide
    rw [hlow] at hvalue
    rw [hhigh, ← hvalue] at hvalue'
    norm_num [toRat, decimal, Decimal.toRat, value_cons] at hvalue'
  · rintro ⟨hfuzz, -⟩
    revert hfuzz
    decide

theorem maxMinCorrect_iff_one_half :
    MaxMinCorrect ⟨⟨3, 1, .scientific⟩, false⟩ .min ⟨1, 0, [1], 3, true⟩
        [.object [] (some ⟨1, -1, [5], 3, true⟩)] ↔
      NothingLost ⟨⟨3, 1, .scientific⟩, false⟩ .min ⟨1, 0, [1], 3, true⟩
        [.object [] (some ⟨1, -1, [5], 3, true⟩)] :=
  maxMinCorrect_iff (a := ⟨⟨3, 1, .scientific⟩, false⟩) (by decide) .min (by decide) (by decide)
    (by decide)

/-! ## The method without its activation -/

end NumberString

end LeooRexx
