import LeooRexx.Classes.RexxInteger
import LeooRexx.Runtime.CompoundTable

/-!
# Strict comparison

`RexxString::strictComp` compares two strings as they are, and `RexxInteger::strictComp` takes the
difference of two values.  A `long` has 32 bits.
-/

namespace LeooRexx

open Positional
open CompoundTail (memcmp)

namespace RexxString

/-- `memcmp` is called with the length of the shorter string. -/
def strictComp (this other : List UInt8) : Int :=
  if other.length ≤ this.length then
    let result := memcmp this other
    if result = 0 ∧ other.length < this.length then 1 else result
  else
    let result := memcmp this other
    if result = 0 then -1 else result

theorem strictComp_cons (a b : UInt8) (s t : List UInt8) :
    strictComp (a :: s) (b :: t) = if a = b then strictComp s t else (a.toNat : Int) - b.toNat := by
  by_cases hab : a = b
  · simp [strictComp, memcmp, hab]
  · have hne : (a.toNat : Int) - b.toNat ≠ 0 := by
      have := mt UInt8.toNat_inj.1 hab
      omega
    simp [strictComp, memcmp, hab, hne]

theorem strictComp_order (s t : List UInt8) :
    (strictComp s t < 0 ↔ s < t) ∧ (0 < strictComp s t ↔ t < s) ∧ (strictComp s t = 0 ↔ s = t) := by
  induction s generalizing t with
  | nil =>
      cases t with
      | nil => simp [strictComp, memcmp]
      | cons b t => simp [strictComp, memcmp]
  | cons a s ih =>
      cases t with
      | nil => simp [strictComp, memcmp]
      | cons b t =>
          rw [strictComp_cons, List.cons_lt_cons_iff, List.cons_lt_cons_iff, List.cons_eq_cons]
          by_cases hab : a = b
          · subst hab
            simpa using ih t
          · have hne := mt UInt8.toNat_inj.1 hab
            simp only [hab, Ne.symm hab, if_false, false_and, or_false, UInt8.lt_iff_toNat_lt,
              iff_false]
            omega

end RexxString

/-! ## The order of digits -/

namespace NumberString

/-- Digits are compared from the left, so that a number counts as a fraction. -/
def DigitsBefore (a m b n : Nat) : Prop :=
  a * 10 ^ n < b * 10 ^ m ∨ a * 10 ^ n = b * 10 ^ m ∧ m < n

theorem digitsBefore_cons {d e : Nat} {ds es : List Nat} (hds : IsDigits 10 ds)
    (hes : IsDigits 10 es) :
    DigitsBefore (value 10 (d :: ds)) (d :: ds).length (value 10 (e :: es)) (e :: es).length ↔
      d < e ∨ d = e ∧
        DigitsBefore (value 10 ds) ds.length (value 10 es) es.length := by
  have hA := value_lt (by norm_num) hds
  have hB := value_lt (by norm_num) hes
  rw [value_cons, value_cons, List.length_cons, List.length_cons]
  generalize value 10 ds = A at hA ⊢
  generalize value 10 es = B at hB ⊢
  generalize ds.length = m at hA ⊢
  generalize es.length = n at hB ⊢
  have hleft : (d * 10 ^ m + A) * 10 ^ (n + 1) = 10 * (d * (10 ^ m * 10 ^ n) + A * 10 ^ n) := by
    ring
  have hright : (e * 10 ^ n + B) * 10 ^ (m + 1) = 10 * (e * (10 ^ m * 10 ^ n) + B * 10 ^ m) := by
    ring
  have hAn : A * 10 ^ n < 10 ^ m * 10 ^ n := Nat.mul_lt_mul_of_pos_right hA (by positivity)
  have hBm : B * 10 ^ m < 10 ^ m * 10 ^ n := by
    rw [Nat.mul_comm (10 ^ m)]
    exact Nat.mul_lt_mul_of_pos_right hB (by positivity)
  simp only [DigitsBefore, hleft, hright]
  generalize 10 ^ m * 10 ^ n = P at hAn hBm ⊢
  generalize A * 10 ^ n = a at hAn ⊢
  generalize B * 10 ^ m = b at hBm ⊢
  rcases Nat.lt_trichotomy d e with hlt | rfl | hgt
  · have hstep : (d + 1) * P ≤ e * P := Nat.mul_le_mul_right P hlt
    rw [Nat.succ_mul] at hstep
    exact iff_of_true (.inl (by omega)) (.inl hlt)
  · simp only [Nat.lt_irrefl, false_or, true_and]
    constructor <;> intro h <;> omega
  · have hstep : (e + 1) * P ≤ d * P := Nat.mul_le_mul_right P hgt
    rw [Nat.succ_mul] at hstep
    refine iff_of_false (fun h => ?_) (by omega)
    omega

theorem digitChar_order : ∀ d < 10, ∀ e < 10, (digitChar d < digitChar e ↔ d < e) ∧
    (digitChar d = digitChar e ↔ d = e) := by
  decide

theorem digitText_lt {ds es : List Nat} (hds : IsDigits 10 ds) (hes : IsDigits 10 es) :
    digitText ds < digitText es ↔
      DigitsBefore (value 10 ds) ds.length (value 10 es) es.length := by
  induction ds generalizing es with
  | nil =>
      cases es with
      | nil => simp [digitText, DigitsBefore]
      | cons e es =>
          simp only [digitText, List.map_nil, List.map_cons, DigitsBefore, value_nil]
          simp
          omega
  | cons d ds ih =>
      rw [isDigits_cons] at hds
      cases es with
      | nil => simp [digitText, DigitsBefore]
      | cons e es =>
          rw [isDigits_cons] at hes
          rw [digitsBefore_cons hds.2 hes.2, ← ih hds.2 hes.2]
          change digitChar d :: digitText ds < digitChar e :: digitText es ↔ _
          obtain ⟨hlt, heq⟩ := digitChar_order d hds.1 e hes.1
          rw [List.cons_lt_cons_iff, hlt, heq]

end NumberString

/-! ## Integer objects -/

open NumberString

namespace RexxInteger

def strictComp (this other : RexxInteger) : Int := NumberString.wrap32 (this.value - other.value)

/-- The answers of the strict operators do not depend on how the numbers are held. -/
def StrictAgrees (this other : RexxInteger) : Prop :=
  (this.strictComp other).sign =
    (RexxString.strictComp this.stringValue other.stringValue).sign

/-- A value that a `long` holds. -/
def InLong (value : Int) : Prop := -2 ^ 31 ≤ value ∧ value < 2 ^ 31

instance (value : Int) : Decidable (InLong value) := by unfold InLong; infer_instance

def width (i : RexxInteger) : Nat :=
  if i.value < 0 then i.stringValue.length - 1 else i.stringValue.length

def TextBefore (i j : RexxInteger) : Prop :=
  if i.value < 0 then
    0 ≤ j.value ∨ DigitsBefore i.value.natAbs i.width j.value.natAbs j.width
  else 0 ≤ j.value ∧ DigitsBefore i.value.natAbs i.width j.value.natAbs j.width

/-! ## String values -/

theorem exists_digits (i : RexxInteger) : ∃ ds, IsDigits 10 ds ∧ ds ≠ [] ∧
    Positional.value 10 ds = i.value.natAbs ∧ ds.length = i.width ∧
    i.stringValue = (if i.value < 0 then [chMinus] else []) ++ digitText ds := by
  have hspells : Spells i.value i.stringValue := by
    rw [stringValue]
    split
    · next text htext => exact i.spells text htext
    · exact spells_ltoa i.value
  obtain ⟨zeros, hne, htext⟩ := hspells
  have hdigits : spelling zeros i.value = (if i.value < 0 then [chMinus] else []) ++
      digitText (List.replicate zeros 0 ++ numeral 10 i.value.natAbs) := by
    have hzeros : digitText (List.replicate zeros 0) = List.replicate zeros chZero :=
      List.map_replicate
    rw [spelling, ← hzeros]
    exact congrArg _ List.map_append.symm
  rw [hdigits] at htext
  refine ⟨List.replicate zeros 0 ++ numeral 10 i.value.natAbs, ?_, fun hnil => hne ?_, ?_, ?_, htext⟩
  · exact isDigits_append.2
      ⟨isDigits_replicate_zero (by norm_num) zeros, isDigits_numeral (by norm_num) _⟩
  · have hlength := congrArg List.length hnil
    rwa [List.length_append, List.length_replicate] at hlength
  · rw [value_append, value_replicate_zero, zero_mul, zero_add, value_numeral]
  · rw [width, htext]
    split <;> simp [digitText]

theorem stringValue_lt (i j : RexxInteger) : i.stringValue < j.stringValue ↔ TextBefore i j := by
  obtain ⟨ds, hds, hne, hvalue, hwidth, htext⟩ := exists_digits i
  obtain ⟨es, hes, hne', hvalue', hwidth', htext'⟩ := exists_digits j
  have hdigits := digitText_lt hds hes
  rw [hvalue, hvalue', hwidth, hwidth'] at hdigits
  have hminus (d : Nat) (hd : d < 10) : chMinus < digitChar d ∧ ¬ digitChar d < chMinus ∧
      chMinus ≠ digitChar d := by
    revert d
    decide
  rw [TextBefore, htext, htext', ← hdigits]
  by_cases hi : i.value < 0 <;> by_cases hj : j.value < 0
  · simp [hi, hj, Int.not_le.2 hj]
  · obtain ⟨e, es, rfl⟩ := List.exists_cons_of_ne_nil hne'
    have := hminus e (isDigits_cons.1 hes).1
    simp [hi, hj, Int.not_lt.1 hj, digitText, List.cons_lt_cons_iff, this]
  · obtain ⟨d, ds, rfl⟩ := List.exists_cons_of_ne_nil hne
    have := hminus d (isDigits_cons.1 hds).1
    simp [hi, hj, Int.not_le.2 hj, digitText, List.cons_lt_cons_iff, this, Ne.symm this.2.2]
  · simp [hi, hj, Int.not_lt.1 hj]

theorem value_eq_of_stringValue {i j : RexxInteger} (h : i.stringValue = j.stringValue) :
    i.value = j.value := by
  obtain ⟨ds, hds, hne, hvalue, -, htext⟩ := exists_digits i
  obtain ⟨es, hes, hne', hvalue', -, htext'⟩ := exists_digits j
  have hminus (d : Nat) (hd : d < 10) : chMinus ≠ digitChar d := by
    revert d
    decide
  have hinj : digitText ds = digitText es → ds = es := fun heq => by
    have := congrArg digitValues heq
    rwa [digitValues_digitText hds, digitValues_digitText hes] at this
  rw [htext, htext'] at h
  by_cases hi : i.value < 0 <;> by_cases hj : j.value < 0
  · have := hinj (by simpa [hi, hj] using h)
    rw [this, hvalue'] at hvalue
    omega
  · obtain ⟨e, es, rfl⟩ := List.exists_cons_of_ne_nil hne'
    simp [hi, hj, digitText, hminus e (isDigits_cons.1 hes).1] at h
  · obtain ⟨d, ds, rfl⟩ := List.exists_cons_of_ne_nil hne
    simp [hi, hj, digitText, Ne.symm (hminus d (isDigits_cons.1 hds).1)] at h
  · have := hinj (by simpa [hi, hj] using h)
    rw [this, hvalue'] at hvalue
    omega

/-! ## The two comparisons -/

theorem sign_eq_sign_iff (a b : Int) : a.sign = b.sign ↔ (a < 0 ↔ b < 0) ∧ (0 < a ↔ 0 < b) := by
  rcases Int.lt_trichotomy a 0 with ha | rfl | ha <;> rcases Int.lt_trichotomy b 0 with hb | rfl | hb <;>
    simp [Int.sign_eq_neg_one_of_neg, Int.sign_eq_one_of_pos, *] <;> omega

theorem wrap32_order {d : Int} (hlow : -2 ^ 32 < d) (hhigh : d < 2 ^ 32) :
    (-2 ^ 31 ≤ d ∧ d < 2 ^ 31 → wrap32 d = d) ∧
      (d < -2 ^ 31 → 0 < wrap32 d) ∧ (2 ^ 31 ≤ d → wrap32 d < 0) := by
  rw [wrap32, Int.bmod_def]
  split <;> omega

theorem strictAgrees_iff {i j : RexxInteger} (hi : InLong i.value) (hj : InLong j.value) :
    StrictAgrees i j ↔ i.stringValue = j.stringValue ∨ InLong (i.value - j.value) ∧
      (i.value < j.value ∧ TextBefore i j ∨ j.value < i.value ∧ TextBefore j i) := by
  obtain ⟨hlt, hgt, hsame⟩ := RexxString.strictComp_order i.stringValue j.stringValue
  obtain ⟨hilow, hihigh⟩ := hi
  obtain ⟨hjlow, hjhigh⟩ := hj
  obtain ⟨hfits, hbelow, habove⟩ := wrap32_order (d := i.value - j.value) (by omega) (by omega)
  have hvalues := fun h => value_eq_of_stringValue (hsame.1 h)
  rw [StrictAgrees, strictComp, sign_eq_sign_iff, ← stringValue_lt, ← stringValue_lt, ← hsame,
    ← hlt, ← hgt]
  rw [InLong]
  by_cases hlong : -2 ^ 31 ≤ i.value - j.value ∧ i.value - j.value < 2 ^ 31
  · rw [hfits hlong]
    omega
  · -- only values of different signs are too far apart, and their texts are in the right order
    rcases Int.lt_or_le (i.value - j.value) (-2 ^ 31) with hfar | hnear
    · have htext : i.stringValue < j.stringValue := (stringValue_lt i j).2 (by
        rw [TextBefore, if_pos (by omega)]
        exact .inl (by omega))
      have := hbelow hfar
      have := hlt.2 htext
      omega
    · have htext : j.stringValue < i.stringValue := (stringValue_lt j i).2 (by
        rw [TextBefore, if_pos (by omega)]
        exact .inl (by omega))
      have := habove (by omega)
      have := hgt.2 htext
      omega

/-- The integer 9 is less than 10, and the string `'9'` is behind `'10'`. -/
theorem strictAgrees_nine_ten : ¬ StrictAgrees (new 9) (new 10) := by
  rw [StrictAgrees]
  decide

theorem strictAgrees_iff_four_five : StrictAgrees (new 4) (new 5) :=
  (strictAgrees_iff (by decide) (by decide)).2
    (.inr ⟨by decide, .inl ⟨by decide, (stringValue_lt _ _).1 (by decide)⟩⟩)

end RexxInteger

end LeooRexx
