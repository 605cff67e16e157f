import LeooRexx.Classes.RexxInteger

/-!
# The fast paths of integers

The integer operators and the operators on number strings give equal numbers
at the default digits.
-/

namespace LeooRexx

open DecimalRounding NumberString

/-! ## The number string of an integer -/

namespace RexxInteger

theorem newInstance_stringValue (s : Settings) (x : RexxInteger) :
    newInstance s x.stringValue = some (newWholenumber s x.value) := by
  apply newInstance_spells
  unfold stringValue
  cases hrep : x.stringrep with
  | none => exact spells_ltoa x.value
  | some text => exact x.spells text hrep

theorem numberString_eq (s : Settings) (x : RexxInteger) :
    x.numberString s = some (newWholenumber s x.value) := by
  rw [← newInstance_stringValue]
  unfold numberString stringValue
  cases x.stringrep with
  | none => exact (newInstance_spells s (spells_ltoa x.value)).symm
  | some text => rfl

theorem number_integer (s : Settings) (failed : List UInt8 → Exception) (x : RexxInteger) :
    (RexxObject.integer x).number s failed = .ok (newWholenumber s x.value) := by
  simp only [RexxObject.number, numberString_eq]

theorem number_numberString (s : Settings) (failed : List UInt8 → Exception)
    (n : NumberString) : (RexxObject.numberString n).number s failed = .ok n := rfl

theorem forward_eq (s : Settings) (x : RexxInteger)
    (method : NumberString → Outcome NumberString) :
    x.forward s method = do
      return .numberString (← method (newWholenumber s x.value)) := by
  simp only [forward, numberString_eq]

end RexxInteger

/-! ## Agreement -/

def Agrees : Outcome RexxObject → Outcome NumberString → Prop
  | .ok r, .ok n => r.toRat = n.toRat
  | .error (.raised _), .error (.raised _) => True
  | _, _ => False

theorem agrees_exact {v : Int} {out : Outcome NumberString} (h : ExactWhenShort v out)
    (hv : |v| ≤ 999999999) : Agrees (.ok (.integer (.new v))) out := by
  cases out with
  | ok n => exact (h hv).symm
  | error e =>
      cases e with
      | raised exception => exact absurd hv (not_le.mpr h)
      | outOfBounds => exact h
      | outOfFuel => exact h

theorem agrees_forward {v : Int} {out : Outcome NumberString} (h : ExactWhenShort v out) :
    Agrees (do return .numberString (← out)) out := by
  cases out with
  | ok n => rfl
  | error e =>
      cases e with
      | raised exception => trivial
      | outOfBounds => exact h
      | outOfFuel => exact h

theorem wrap32_short {v : Int} (h : |v| ≤ 1999999998) : wrap32 v = v := by
  rw [abs_le] at h
  exact wrap32_of_le (by unfold maxNum; omega) (by unfold maxNum; omega)

theorem labs_short {v : Int} (h : |v| ≤ 999999999) : labs v = |v| :=
  wrap32_short (by rw [abs_abs]; omega)

/-! ## The arithmetic operators -/

section Operators

variable {s : Settings} {x y : RexxInteger}

theorem plus_agrees (hs : s.digits = defaultDigits) (hx : |x.value| ≤ 999999999)
    (hy : |y.value| ≤ 999999999) :
    Agrees (x.plus s (.integer y))
      ((newWholenumber s x.value).plus s (.numberString (newWholenumber s y.value))) := by
  have hexact := addSub_whole hs .plus hx hy
  have hwrap : wrap32 (x.value + y.value) = x.value + y.value := by
    apply wrap32_short
    rw [abs_le] at *
    omega
  simp only [RexxInteger.plus, if_neg (not_not.mpr hs), hwrap, RexxInteger.forward_eq,
    NumberString.plus, RexxInteger.number_integer, RexxInteger.number_numberString,
    Outcome.ok_bind]
  split_ifs with hrange
  · exact agrees_exact hexact (abs_le.mpr ⟨hrange.2, hrange.1⟩)
  · exact agrees_forward hexact

theorem minus_agrees (hs : s.digits = defaultDigits) (hx : |x.value| ≤ 999999999)
    (hy : |y.value| ≤ 999999999) :
    Agrees (x.minus s (.integer y))
      ((newWholenumber s x.value).minus s (.numberString (newWholenumber s y.value))) := by
  have hexact := addSub_whole hs .minus hx hy
  have hwrap : wrap32 (x.value - y.value) = x.value - y.value := by
    apply wrap32_short
    rw [abs_le] at *
    omega
  simp only [RexxInteger.minus, if_neg (not_not.mpr hs), hwrap, RexxInteger.forward_eq,
    NumberString.minus, RexxInteger.number_integer, RexxInteger.number_numberString,
    Outcome.ok_bind]
  split_ifs with hrange
  · exact agrees_exact hexact (abs_le.mpr ⟨hrange.2, hrange.1⟩)
  · exact agrees_forward hexact

theorem multiply_agrees (hs : s.digits = defaultDigits) (hx : |x.value| ≤ 999999999)
    (hy : |y.value| ≤ 999999999) :
    Agrees (x.multiply s (.integer y))
      ((newWholenumber s x.value).times s (.numberString (newWholenumber s y.value))) := by
  have hexact := multiply_whole hs hx hy
  simp only [RexxInteger.multiply, if_neg (not_not.mpr hs), RexxInteger.forward_eq,
    NumberString.times, RexxInteger.number_integer, RexxInteger.number_numberString,
    Outcome.ok_bind,
    labs_short hx, labs_short hy]
  split_ifs with hrange
  · have hshort : |x.value * y.value| ≤ 999999999 := by
      rw [abs_mul]
      calc |x.value| * |y.value| ≤ 99999 * 9999 :=
            mul_le_mul hrange.1 hrange.2 (abs_nonneg _) (by norm_num)
        _ ≤ 999999999 := by norm_num
    rw [wrap32_short (hshort.trans (by norm_num))]
    exact agrees_exact hexact hshort
  · exact agrees_forward hexact

theorem integerDivide_agrees (hs : s.digits = defaultDigits) (hx : |x.value| ≤ 999999999)
    (hy : |y.value| ≤ 999999999) :
    Agrees (x.integerDivide s (.integer y))
      ((newWholenumber s x.value).integerDivide s
        (.numberString (newWholenumber s y.value))) := by
  simp only [RexxInteger.integerDivide, if_neg (not_not.mpr hs), NumberString.integerDivide,
    RexxInteger.number_numberString, Outcome.ok_bind]
  split_ifs with hy0
  · obtain ⟨⟨q, hq, hqv⟩, -⟩ := division_whole_numbers hs hx hy hy0
    have hshort : |x.value.tdiv y.value| ≤ 1999999998 := by
      have := Int.natAbs_tdiv_le_natAbs x.value y.value
      rw [Int.abs_eq_natAbs] at *
      omega
    rw [hq, wrap32_short hshort]
    exact hqv.symm
  · have hsign : (newWholenumber s y.value).sign = 0 := by simpa using hy0
    rw [division, if_pos hsign]
    trivial

theorem remainder_agrees (hs : s.digits = defaultDigits) (hx : |x.value| ≤ 999999999)
    (hy : |y.value| ≤ 999999999) :
    Agrees (x.remainder s (.integer y))
      ((newWholenumber s x.value).remainder s
        (.numberString (newWholenumber s y.value))) := by
  simp only [RexxInteger.remainder, if_neg (not_not.mpr hs), NumberString.remainder,
    RexxInteger.number_numberString, Outcome.ok_bind]
  split_ifs with hy0
  · obtain ⟨-, ⟨r, hr, hrv⟩⟩ := division_whole_numbers hs hx hy hy0
    have hshort : |x.value.tmod y.value| ≤ 1999999998 := by
      have := Int.natAbs_tmod x.value y.value
      have := Nat.mod_le x.value.natAbs y.value.natAbs
      rw [Int.abs_eq_natAbs] at *
      omega
    rw [hr, wrap32_short hshort]
    exact hrv.symm
  · have hsign : (newWholenumber s y.value).sign = 0 := by simpa using hy0
    rw [division, if_pos hsign]
    trivial

end Operators

/-! ## Max and Min -/

def asIntegers (args : List (Option RexxInteger)) : List (Option RexxObject) :=
  args.map (·.map .integer)

def asNumbers (form : RexxInteger → NumberString) (args : List (Option RexxInteger)) :
    List (Option RexxObject) :=
  args.map (·.map fun y => .numberString (form y))

def Short (y : RexxInteger) : Prop := |y.value| ≤ 999999999

theorem prepareNumber_whole {s : Settings} (hs : s.digits = defaultDigits) {v : Int}
    (hv : |v| ≤ 999999999) :
    (newWholenumber s v).prepareNumber s s.digits true = .ok (newWholenumber s v) := by
  have hlen := length_newWholenumber s hv
  rw [prepareNumber, if_neg (by rw [hs]; exact not_lt.mpr hlen)]
  rw [newWholenumber_eq]
  split_ifs <;> rfl

theorem exceeds_whole {s : Settings} (hs : s.digits = defaultDigits) (operation : Extreme)
    {x y : Int} (hx : |x| ≤ 999999999) (hy : |y| ≤ 999999999) :
    exceeds { s with fuzz := 0 } operation (newWholenumber s x) (newWholenumber s y) =
      .ok (RexxInteger.exceeds operation x y) := by
  have hlen {v : Int} (hv : |v| ≤ 999999999) : (newWholenumber s v).length ≤ s.digits := by
    rw [hs]
    exact length_newWholenumber s hv
  have hnx := normalized_newWholenumber s hx
  have hny := normalized_newWholenumber s hy
  have hkeep : ¬ LosesDifference s.digits (newWholenumber s x) (newWholenumber s y) := by
    apply not_losesDifference_of_fits hnx hny
    rw [hs]
    exact fitsAligned_whole s hx hy
  obtain ⟨rc, hrc, hsign⟩ := comp_sign (s := s) (by rw [hs]; decide) hnx hny (hlen hx) (hlen hy)
  rw [if_neg hkeep, toRat_newWholenumber, toRat_newWholenumber, ← Int.cast_sub,
    sign_cast] at hsign
  have hpos : 0 < rc ↔ y < x := by
    rw [← sign_eq_one_iff, hsign, sign_eq_one_iff]
    omega
  have hneg : rc < 0 ↔ x < y := by
    rw [← sign_eq_neg_one_iff, hsign, sign_eq_neg_one_iff]
    omega
  rw [exceeds, hrc, Outcome.ok_bind]
  cases operation with
  | max => exact congrArg Except.ok (by simp [RexxInteger.exceeds, hpos])
  | min => exact congrArg Except.ok (by simp [RexxInteger.exceeds, hneg])

theorem maxMinLoop_agrees {s : Settings} (hs : s.digits = defaultDigits) (operation : Extreme)
    {args : List (Option RexxInteger)} (hargs : ∀ y, some y ∈ args → Short y) {found : Int}
    (hfound : |found| ≤ 999999999) (arg arg' : Nat) :
    (∃ m, |m| ≤ 999999999 ∧
        RexxInteger.maxMinLoop operation found arg (asIntegers args) = .ok (some m) ∧
        maxMinLoop { s with fuzz := 0 } operation (newWholenumber s found) arg'
          (asNumbers (fun y => newWholenumber s y.value) args) = .ok (newWholenumber s m)) ∨
      ∃ e e', RexxInteger.maxMinLoop operation found arg (asIntegers args) =
          .error (.raised e) ∧
        maxMinLoop { s with fuzz := 0 } operation (newWholenumber s found) arg'
          (asNumbers (fun y => newWholenumber s y.value) args) = .error (.raised e') := by
  induction args generalizing found arg arg' with
  | nil => exact .inl ⟨found, hfound, rfl, rfl⟩
  | cons y args ih =>
      have hrest : ∀ z, some z ∈ args → Short z := fun z hz =>
        hargs z (List.mem_cons_of_mem _ hz)
      cases y with
      | none => exact .inr ⟨_, _, rfl, rfl⟩
      | some y =>
          have hy : |y.value| ≤ 999999999 := hargs y List.mem_cons_self
          have hkept : |if RexxInteger.exceeds operation y.value found then y.value
              else found| ≤ 999999999 := by
            split_ifs <;> assumption
          have hprepare := prepareNumber_whole (s := { s with fuzz := 0 }) hs hy
          have hstep : maxMinLoop { s with fuzz := 0 } operation (newWholenumber s found) arg'
                (asNumbers (fun y => newWholenumber s y.value) (some y :: args)) =
              maxMinLoop { s with fuzz := 0 } operation (newWholenumber s
                  (if RexxInteger.exceeds operation y.value found then y.value else found))
                (arg' + 1) (asNumbers (fun y => newWholenumber s y.value) args) := by
            have hform : newWholenumber { s with fuzz := 0 } y.value =
                newWholenumber s y.value := rfl
            rw [hform] at hprepare
            simp only [asNumbers, List.map_cons, Option.map_some, maxMinLoop,
              RexxInteger.number_numberString, Outcome.ok_bind, hprepare,
              exceeds_whole hs operation hy hfound]
            split_ifs <;> rfl
          rw [hstep]
          exact ih hrest hkept (arg + 1) (arg' + 1)

theorem maxMin_agrees {s : Settings} (hs : s.digits = defaultDigits) (operation : Extreme)
    {x : RexxInteger} (hx : Short x) {args : List (Option RexxInteger)}
    (hargs : ∀ y, some y ∈ args → Short y) :
    Agrees (x.maxMin s (asIntegers args) operation)
      ((newWholenumber s x.value).maxMin s
        (asNumbers (fun y => newWholenumber s y.value) args) operation) := by
  cases args with
  | nil =>
      simp only [RexxInteger.maxMin, if_neg (not_not.mpr hs)]
      exact (toRat_newWholenumber s x.value).symm
  | cons y args =>
      have hprepare := prepareNumber_whole (s := { s with fuzz := 0 }) hs hx
      have hform : newWholenumber { s with fuzz := 0 } x.value = newWholenumber s x.value := rfl
      rw [hform] at hprepare
      have hslow : (newWholenumber s x.value).maxMin s
            (asNumbers (fun y => newWholenumber s y.value) (y :: args)) operation =
          maxMinLoop { s with fuzz := 0 } operation (newWholenumber s x.value) 0
            (asNumbers (fun y => newWholenumber s y.value) (y :: args)) := by
        rw [maxMin, if_neg (by simp [asNumbers])]
        simp only [hprepare, Outcome.ok_bind]
      have hcount : ¬ (asIntegers (y :: args)).length < 1 := by simp [asIntegers]
      rw [hslow, RexxInteger.maxMin, if_neg (not_not.mpr hs), if_neg hcount]
      rcases maxMinLoop_agrees hs operation hargs hx 0 0 with
        ⟨m, -, hfast, hnumber⟩ | ⟨e, e', hfast, hnumber⟩
      · rw [hfast, hnumber]
        exact (toRat_newWholenumber s m).symm
      · rw [hfast, hnumber]
        trivial

/-! ## The fast paths as a whole -/

/--
With `form` giving the number string of the string form of an integer, every
integer operator agrees with the one on number strings.
-/
def FastPathsAgree (s : Settings) (form : RexxInteger → NumberString) (x y : RexxInteger) :
    Prop :=
  Agrees (x.plus s (.integer y)) ((form x).plus s (.numberString (form y))) ∧
    Agrees (x.minus s (.integer y)) ((form x).minus s (.numberString (form y))) ∧
    Agrees (x.multiply s (.integer y)) ((form x).times s (.numberString (form y))) ∧
    Agrees (x.integerDivide s (.integer y))
      ((form x).integerDivide s (.numberString (form y))) ∧
    Agrees (x.remainder s (.integer y)) ((form x).remainder s (.numberString (form y)))

theorem fastPaths_agree {s : Settings} (hs : s.digits = defaultDigits) :
    ∃ form : RexxInteger → NumberString,
      (∀ x, newInstance s x.stringValue = some (form x)) ∧
        (∀ x y, Short x → Short y → FastPathsAgree s form x y) ∧
        ∀ x args, Short x → (∀ y, some y ∈ args → Short y) →
          Agrees (x.max s (asIntegers args)) ((form x).max s (asNumbers form args)) ∧
            Agrees (x.min s (asIntegers args)) ((form x).min s (asNumbers form args)) := by
  refine ⟨fun x => newWholenumber s x.value, RexxInteger.newInstance_stringValue s, ?_, ?_⟩
  · intro x y hx hy
    exact ⟨plus_agrees hs hx hy, minus_agrees hs hx hy, multiply_agrees hs hx hy,
      integerDivide_agrees hs hx hy, remainder_agrees hs hx hy⟩
  · intro x args hx hargs
    exact ⟨maxMin_agrees hs .max hx hargs, maxMin_agrees hs .min hx hargs⟩

theorem fastPaths_agree_default :
    ∃ form : RexxInteger → NumberString,
      (∀ x, newInstance ⟨9, 0, .scientific⟩ x.stringValue = some (form x)) ∧
        (∀ x y, Short x → Short y → FastPathsAgree ⟨9, 0, .scientific⟩ form x y) ∧
        ∀ x args, Short x → (∀ y, some y ∈ args → Short y) →
          Agrees (x.max ⟨9, 0, .scientific⟩ (asIntegers args))
              ((form x).max ⟨9, 0, .scientific⟩ (asNumbers form args)) ∧
            Agrees (x.min ⟨9, 0, .scientific⟩ (asIntegers args))
              ((form x).min ⟨9, 0, .scientific⟩ (asNumbers form args)) :=
  fastPaths_agree rfl

end LeooRexx
