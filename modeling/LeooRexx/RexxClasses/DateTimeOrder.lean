import LeooRexx.NumberString.LongDifference
import LeooRexx.Runtime.RexxDateTimeBase

/-!
# The order of DateTime and TimeSpan objects

Both classes keep a count of microseconds and compare at the nine digits that their
`compareTo` methods leave in force.  The comparison operators test what `compareTo`
returns, so they are right exactly when it keeps the sign of the difference.
-/

namespace LeooRexx

open NumberString Positional

def defaultSettings : Settings := ⟨9, 0, .scientific⟩

/-- A DateTime object: a count that `DATE` accepts in its `F` format. -/
structure DateTime where
  timestamp : Int
  nonneg : 0 ≤ timestamp
  le_max : timestamp ≤ RexxDateTime.maxBaseTime.getBaseTime

structure TimeSpan where
  timestamp : Int
  abs_le_max : |timestamp| ≤ RexxDateTime.maxBaseTime.getBaseTime

def countNumber (s : Settings) (timestamp : Int) : NumberString := newWholenumber s timestamp

/-- `RexxNumberString::Sign`. -/
def NumberString.signMethod (s : Settings) (n : NumberString) : Outcome Int := do
  let rounded ← n.setupNumber s
  return rounded.sign

def DateTime.compareTo (self other : DateTime) : Outcome Int := do
  let s := defaultSettings
  let difference ← addSub s (countNumber s self.timestamp) (countNumber s other.timestamp)
    .minus s.digits
  difference.signMethod s

def TimeSpan.compareTo (self other : TimeSpan) : Outcome Int := do
  let s := defaultSettings
  let timestamp := countNumber s self.timestamp
  let othertime := countNumber s other.timestamp
  if (← comp s timestamp othertime) < 0 then return -1
  else if (← comp s timestamp othertime) > 0 then return 1
  return 0

/-! ## The operators -/

inductive CompareMethod where
  | strictEqual
  | strictNotEqual
  | equal
  | notEqual
  | lessOrGreater
  | greaterOrLess
  | lessThan
  | lessThanOrEqual
  | notGreaterThan
  | strictLessThan
  | strictLessThanOrEqual
  | strictNotGreaterThan
  | greaterThan
  | greaterThanOrEqual
  | notLessThan
  | strictGreaterThan
  | strictGreaterThanOrEqual
  | strictNotLessThan
  deriving DecidableEq, Repr

namespace CompareMethod

/-- The test of a method on what `compareTo` returned. -/
def test (method : CompareMethod) (rc : Int) : Bool :=
  match method with
  | strictEqual | equal => rc == 0
  | strictNotEqual | notEqual | lessOrGreater | greaterOrLess => rc != 0
  | lessThan | strictLessThan => rc < 0
  | lessThanOrEqual | notGreaterThan | strictLessThanOrEqual | strictNotGreaterThan => rc ≤ 0
  | greaterThan | strictGreaterThan => rc > 0
  | greaterThanOrEqual | notLessThan | strictGreaterThanOrEqual | strictNotLessThan => rc ≥ 0

def holds (method : CompareMethod) (x y : Int) : Bool :=
  match method with
  | strictEqual | equal => x = y
  | strictNotEqual | notEqual | lessOrGreater | greaterOrLess => x ≠ y
  | lessThan | strictLessThan => x < y
  | lessThanOrEqual | notGreaterThan | strictLessThanOrEqual | strictNotGreaterThan => x ≤ y
  | greaterThan | strictGreaterThan => x > y
  | greaterThanOrEqual | notLessThan | strictGreaterThanOrEqual | strictNotLessThan => x ≥ y

theorem test_sign (method : CompareMethod) (x y : Int) :
    method.test (x - y).sign = method.holds x y := by
  rcases lt_trichotomy x y with h | rfl | h
  · have hsign : (x - y).sign = -1 := Int.sign_eq_neg_one_of_neg (by omega)
    rw [hsign]
    cases method <;> simp [test, holds, h, h.le, h.ne, h.not_ge, h.not_gt]
  · rw [sub_self, Int.sign_zero]
    cases method <;> simp [test, holds]
  · have hsign : (x - y).sign = 1 := Int.sign_eq_one_of_pos (by omega)
    rw [hsign]
    cases method <;> simp [test, holds, h, h.le, h.ne', h.not_ge, h.not_gt]

end CompareMethod

def DateTime.compare (method : CompareMethod) (self other : DateTime) : Outcome Bool := do
  return method.test (← self.compareTo other)

def TimeSpan.compare (method : CompareMethod) (self other : TimeSpan) : Outcome Bool := do
  return method.test (← self.compareTo other)

/-- `RexxString::generateHash` on the text of a count. -/
def generateHash (text : List UInt8) : Nat :=
  let last := (text.getLast?.getD 0).toNat
  if text.length = 0 then 1
  else if text.length ≥ 4 then
    ((text.getD 0 0).toNat + 256 * (text.getD 1 0).toNat + 65536 * (text.getD 2 0).toNat
      + 16777216 * (text.getD 3 0).toNat + text.length + last) % 2 ^ 32
  else (text.getD 0 0).toNat + 256 * (text.getD 1 0).toNat + text.length + last

def DateTime.hashCode (self : DateTime) : Nat := generateHash (ltoa self.timestamp)

def TimeSpan.hashCode (self : TimeSpan) : Nat := generateHash (ltoa self.timestamp)

/-! ## When the order is kept -/

def KeepsOrder (x y : Int) : Prop :=
  x = y ∨ x.sign ≠ y.sign ∨ ¬ LosesSign 9 x y

instance (x y : Int) : Decidable (KeepsOrder x y) := by
  unfold KeepsOrder
  infer_instance

theorem sign_of_signType {z w : Int} (hz : z = -1 ∨ z = 0 ∨ z = 1)
    (h : SignType.sign z = SignType.sign w) : z = w.sign := by
  rcases lt_trichotomy w 0 with hw | rfl | hw
  · rw [sign_neg hw] at h
    rw [Int.sign_eq_neg_one_of_neg hw]
    rcases hz with rfl | rfl | rfl
    · rfl
    · exact absurd h (by decide)
    · exact absurd h (by decide)
  · rw [sign_zero, sign_eq_zero_iff] at h
    rw [h, Int.sign_zero]
  · rw [sign_pos hw] at h
    rw [Int.sign_eq_one_of_pos hw]
    rcases hz with rfl | rfl | rfl
    · exact absurd h (by decide)
    · exact absurd h (by decide)
    · rfl

section Counts

variable {x y : Int}

noncomputable def expectedOrder (x y : Int) : SignType :=
  if KeepsOrder x y then SignType.sign (x - y) else 0

theorem expectedOrder_eq_iff : expectedOrder x y = SignType.sign (x - y) ↔ KeepsOrder x y := by
  rw [expectedOrder]
  split
  · rename_i h
    exact iff_of_true rfl h
  · rename_i h
    refine iff_of_false (fun hsign => ?_) h
    have hne : x ≠ y := fun heq => h (Or.inl heq)
    have hzero := sign_eq_zero_iff.mp hsign.symm
    omega

theorem expectedOrder_of_lost (hsign : x.sign = y.sign) :
    expectedOrder x y = if LosesSign 9 x y then 0 else SignType.sign (x - y) := by
  rw [expectedOrder]
  by_cases heq : x = y
  · subst heq
    rw [sub_self, sign_zero, ite_self, ite_self]
  · have hkeeps : KeepsOrder x y ↔ ¬ LosesSign 9 x y := by
      rw [KeepsOrder]
      exact (or_iff_right heq).trans (or_iff_right fun h => h hsign)
    by_cases h : LosesSign 9 x y
    · rw [if_pos h, if_neg fun hk => hkeeps.mp hk h]
    · rw [if_neg h, if_pos (hkeeps.mpr h)]

theorem countNumber_sign (s : Settings) (v : Int) : (countNumber s v).sign = v.sign :=
  newWholenumber_sign s v

theorem setupNumber_count {s : Settings} (hs : 1 ≤ s.digits) {v : Int}
    (hv : v.natAbs < 10 ^ 18) (sign : Int) :
    ∃ r, ({ countNumber s v with sign := sign }).setupNumber s = .ok r ∧ r.sign = sign := by
  by_cases hv0 : v = 0
  · subst hv0
    refine ⟨_, setupNumber_of_le ?_, rfl⟩
    exact hs
  · have hnumber : (countNumber s v).number = numeral 10 v.natAbs := by
      rw [countNumber, newWholenumber_eq, if_neg hv0]
      rfl
    have hlen := length_whole s (k := 18) (by decide) hv
    refine setupNumber_sign (n := { countNumber s v with sign := sign }) hs hnumber
      (Int.natAbs_ne_zero.mpr hv0) ?_ ?_
    · change -maxNum ≤ (newWholenumber s v).exp
      rw [newWholenumber_exp]
      decide
    · change (newWholenumber s v).exp + ((newWholenumber s v).length : Int) + 1 ≤ maxNum
      rw [newWholenumber_exp]
      unfold maxNum
      omega

theorem addSub_count (hx : x.natAbs < 10 ^ 18) (hy : y.natAbs < 10 ^ 18)
    (hsign : x.sign = y.sign ∨ x = 0 ∨ y = 0) :
    ∃ r, addSub defaultSettings (countNumber defaultSettings x) (countNumber defaultSettings y)
        .minus defaultSettings.digits = .ok r ∧ SignType.sign r.sign = expectedOrder x y := by
  let s := defaultSettings
  by_cases hx0 : x = 0
  · obtain ⟨r, hr, hrs⟩ := setupNumber_count (s := s) (by decide) hy (-y.sign)
    refine ⟨r, ?_, ?_⟩
    · rw [addSub]
      have hzero : (countNumber defaultSettings x).sign = 0 := by
        rw [countNumber_sign, hx0, Int.sign_zero]
      simp only [dominant, hzero, if_true, true_and]
      rw [countNumber_sign]
      exact hr
    · have hexact : SignType.sign (-y.sign) = SignType.sign (x - y) := by
        rw [hx0, zero_sub, Left.sign_neg, Left.sign_neg]
        rcases lt_trichotomy y 0 with h | rfl | h
        · rw [Int.sign_eq_neg_one_of_neg h, sign_neg h]
          rfl
        · rfl
        · rw [Int.sign_eq_one_of_pos h, sign_pos h]
          rfl
      rw [hrs, hexact]
      refine (expectedOrder_eq_iff.mpr ?_).symm
      by_cases hy0 : y = 0
      · exact Or.inl (hx0.trans hy0.symm)
      · right
        left
        rw [hx0, Int.sign_zero]
        exact fun h => hy0 (Int.sign_eq_zero_iff_zero.mp h.symm)
  · by_cases hy0 : y = 0
    · obtain ⟨r, hr, hrs⟩ := setupNumber_count (s := s) (by decide) hx x.sign
      have hself : ({ countNumber s x with sign := x.sign } : NumberString) = countNumber s x := by
        rw [← countNumber_sign s x]
      rw [hself] at hr
      refine ⟨r, ?_, ?_⟩
      · rw [addSub]
        have hzero : (countNumber defaultSettings y).sign = 0 := by
          rw [countNumber_sign, hy0, Int.sign_zero]
        have hne : (countNumber defaultSettings x).sign ≠ 0 := by
          rwa [countNumber_sign, Ne, Int.sign_eq_zero_iff_zero]
        simp only [dominant, hzero, hne, if_true, if_false, Bool.false_eq_true, false_and]
        exact hr
      · have hexact : SignType.sign x.sign = SignType.sign (x - y) := by
          rw [hy0, sub_zero]
          rcases lt_trichotomy x 0 with h | rfl | h
          · rw [Int.sign_eq_neg_one_of_neg h, sign_neg h]
            rfl
          · rfl
          · rw [Int.sign_eq_one_of_pos h, sign_pos h]
            rfl
        rw [hrs, hexact]
        refine (expectedOrder_eq_iff.mpr (Or.inr (Or.inl ?_))).symm
        rw [hy0, Int.sign_zero, Ne, Int.sign_eq_zero_iff_zero]
        exact hx0
    · have hsame : x.sign = y.sign := by
        rcases hsign with h | h | h
        · exact h
        · exact absurd h hx0
        · exact absurd h hy0
      obtain ⟨r, hr, hrs⟩ := addSub_sign_whole (s := s) (D := 9) (k := 18) (by decide)
        (by decide) (by decide) (by decide) hx hy hx0 hsame
      exact ⟨r, hr, hrs.trans (expectedOrder_of_lost hsame).symm⟩

end Counts

/-! ## The methods -/

theorem sign_cases (v : Int) : v.sign = -1 ∨ v.sign = 0 ∨ v.sign = 1 := by
  rcases lt_trichotomy v 0 with h | rfl | h
  · exact Or.inl (Int.sign_eq_neg_one_of_neg h)
  · exact Or.inr (Or.inl rfl)
  · exact Or.inr (Or.inr (Int.sign_eq_one_of_pos h))

/-- What `compareTo` of either class returns: the sign, or zero where it is lost. -/
def comparedSign (x y : Int) : Int := if KeepsOrder x y then (x - y).sign else 0

theorem comparedSign_of_signType {z x y : Int} (hz : z = -1 ∨ z = 0 ∨ z = 1)
    (h : SignType.sign z = expectedOrder x y) : z = comparedSign x y := by
  rw [expectedOrder] at h
  rw [comparedSign]
  split
  · rename_i hk
    rw [if_pos hk] at h
    exact sign_of_signType hz h
  · rename_i hk
    rw [if_neg hk, sign_eq_zero_iff] at h
    exact h

theorem maxBaseTime_lt : RexxDateTime.maxBaseTime.getBaseTime < 10 ^ 18 := by
  rw [RexxDateTime.maxBaseTime_eq]
  norm_num

theorem DateTime.natAbs_lt (d : DateTime) : d.timestamp.natAbs < 10 ^ 18 := by
  have hmax := maxBaseTime_lt
  have hle := d.le_max
  have hnonneg := d.nonneg
  omega

theorem TimeSpan.natAbs_lt (t : TimeSpan) : t.timestamp.natAbs < 10 ^ 18 := by
  have hmax := maxBaseTime_lt
  have hle := abs_le.mp t.abs_le_max
  omega

theorem DateTime.compareTo_eq (d e : DateTime) :
    d.compareTo e = .ok (comparedSign d.timestamp e.timestamp) := by
  have hsign : d.timestamp.sign = e.timestamp.sign ∨ d.timestamp = 0 ∨ e.timestamp = 0 := by
    by_cases hd : d.timestamp = 0
    · exact Or.inr (Or.inl hd)
    · by_cases he : e.timestamp = 0
      · exact Or.inr (Or.inr he)
      · left
        have hd0 := d.nonneg
        have he0 := e.nonneg
        rw [Int.sign_eq_one_of_pos (by omega), Int.sign_eq_one_of_pos (by omega)]
  obtain ⟨r, hr, hrs⟩ := addSub_count d.natAbs_lt e.natAbs_lt hsign
  obtain ⟨hlen, hbounds⟩ := addSub_bounds (by decide) hr
  have hx := sign_cases d.timestamp
  have hy := sign_cases e.timestamp
  rw [countNumber_sign, countNumber_sign] at hbounds
  have hz : r.sign = -1 ∨ r.sign = 0 ∨ r.sign = 1 := by omega
  rw [← comparedSign_of_signType hz hrs, compareTo]
  simp only [hr, Outcome.ok_bind, NumberString.signMethod, setupNumber_of_le hlen]
  rfl

theorem comp_count {x y : Int} (hx : x.natAbs < 10 ^ 18) (hy : y.natAbs < 10 ^ 18) :
    ∃ r, comp defaultSettings (countNumber defaultSettings x) (countNumber defaultSettings y) =
      .ok r ∧ SignType.sign r = expectedOrder x y := by
  let s := defaultSettings
  have hnx : (countNumber s x).Normalized :=
    normalized_whole s (k := 18) (by decide) (by decide) hx
  have hny : (countNumber s y).Normalized :=
    normalized_whole s (k := 18) (by decide) (by decide) hy
  by_cases hsign : x.sign = y.sign
  · by_cases hx0 : x = 0
    · have hy0 : y = 0 := by
        rw [hx0, Int.sign_zero] at hsign
        exact Int.sign_eq_zero_iff_zero.mp hsign.symm
      subst hx0 hy0
      refine ⟨0, rfl, ?_⟩
      rw [sign_zero, expectedOrder, sub_self, sign_zero, ite_self]
    · have hy0 : y ≠ 0 := by
        rintro rfl
        exact hx0 (Int.sign_eq_zero_iff_zero.mp hsign)
      have hcx : (countNumber s x).sign ≠ 0 := by
        rwa [countNumber_sign, Ne, Int.sign_eq_zero_iff_zero]
      have hcy : (countNumber s y).sign ≠ 0 := by
        rwa [countNumber_sign, Ne, Int.sign_eq_zero_iff_zero]
      have hcsign : (countNumber s x).sign = (countNumber s y).sign := by
        rw [countNumber_sign, countNumber_sign, hsign]
      have hcomp := comp_same_sign s hcx hcsign
      by_cases hfits : FitsAligned (s.digits - s.fuzz) (countNumber s x) (countNumber s y)
      · rw [if_pos hfits] at hcomp
        refine ⟨_, hcomp, ?_⟩
        have hexp : ∀ v, (countNumber s v).exp = 0 := newWholenumber_exp s
        have hlength : ∀ v, alignedLength 0 (countNumber s v) = (countNumber s v).length := by
          intro v
          rw [alignedLength, hexp, sub_zero, zero_add]
        have haligned : ∀ v, aligned 0 (countNumber s v) = v.natAbs := aligned_whole s
        have hkeeps : KeepsOrder x y := by
          have hshort : ∀ v, v ≠ 0 → alignedLength 0 (countNumber s v) ≤ 9 →
              v.natAbs < 10 ^ 9 := by
            intro v hv hle
            rw [hlength, countNumber, length_newWholenumber_eq s hv] at hle
            exact Nat.lt_pow_of_log_lt (by norm_num) (by omega)
          rw [FitsAligned, hexp, hexp, min_self] at hfits
          refine Or.inr (Or.inr fun hlost => ?_)
          have hx9 := hshort x hx0 hfits.1
          have hy9 := hshort y hy0 hfits.2
          have hbig := hlost.1
          omega
        rw [sign_compAligned hnx hny hcx hcy rfl, hexp, hexp, min_self, signDiff, haligned,
          haligned, countNumber_sign, sign_natAbs_sub hx0 hsign, expectedOrder, if_pos hkeeps]
      · rw [if_neg hfits] at hcomp
        obtain ⟨r, hr, hrs⟩ := addSub_count hx hy (Or.inl hsign)
        refine ⟨r.sign, ?_, hrs⟩
        rw [hcomp]
        change (do let result ← addSub s (countNumber s x) (countNumber s y) .minus s.digits
                   return result.sign : Outcome Int) = _
        rw [hr]
        rfl
  · have hcsign : (countNumber s x).sign ≠ (countNumber s y).sign := by
      rwa [countNumber_sign, countNumber_sign]
    obtain ⟨r, hr, hrs⟩ := comp_different_sign s hnx hny hcsign
    refine ⟨r, hr, ?_⟩
    have hrat : ∀ v, (countNumber s v).toRat = v := toRat_newWholenumber s
    rw [hrs, hrat, hrat, ← Int.cast_sub, sign_cast]
    exact (expectedOrder_eq_iff.mpr (Or.inr (Or.inl hsign))).symm

theorem TimeSpan.compareTo_eq (t u : TimeSpan) :
    t.compareTo u = .ok (comparedSign t.timestamp u.timestamp) := by
  obtain ⟨r, hr, hrs⟩ := comp_count t.natAbs_lt u.natAbs_lt
  rw [compareTo]
  simp only [hr, Outcome.ok_bind]
  rcases lt_trichotomy r 0 with h | rfl | h
  · rw [if_pos h, ← comparedSign_of_signType (z := -1) (Or.inl rfl)]
    · rfl
    · rw [← hrs, sign_neg h]
      rfl
  · rw [if_neg (lt_irrefl 0), if_neg (lt_irrefl 0),
      ← comparedSign_of_signType (z := 0) (Or.inr (Or.inl rfl)) hrs]
    rfl
  · rw [if_neg (not_lt.mpr h.le), if_pos h,
      ← comparedSign_of_signType (z := 1) (Or.inr (Or.inr rfl))]
    · rfl
    · rw [← hrs, sign_pos h]
      rfl

/-- The law of the order for two counts: `compareTo` is the sign of their difference, each
operator stands for its relation, and equal objects have equal hash codes. -/
def OrderLaw (compareTo : Outcome Int) (compare : CompareMethod → Outcome Bool)
    (hash₁ hash₂ : Nat) (x y : Int) : Prop :=
  compareTo = .ok (x - y).sign ∧
    (∀ method, compare method = .ok (method.holds x y)) ∧
    (compare .strictEqual = .ok true → hash₁ = hash₂)

theorem orderLaw_iff {compareTo : Outcome Int} {x y : Int}
    (h : compareTo = .ok (comparedSign x y)) :
    OrderLaw compareTo (fun method => do return method.test (← compareTo))
      (generateHash (ltoa x)) (generateHash (ltoa y)) x y ↔ KeepsOrder x y := by
  subst h
  constructor
  · rintro ⟨hsign, -⟩
    by_contra hk
    rw [comparedSign, if_neg hk] at hsign
    have hzero : (0 : Int) = (x - y).sign := Except.ok.inj hsign
    have hxy := Int.sign_eq_zero_iff_zero.mp hzero.symm
    exact hk (Or.inl (by omega))
  · intro hk
    have hmethods : ∀ method : CompareMethod,
        (do return method.test (← (.ok (comparedSign x y) : Outcome Int)) : Outcome Bool) =
          .ok (method.holds x y) := by
      intro method
      rw [comparedSign, if_pos hk, ← method.test_sign]
      rfl
    refine ⟨by rw [comparedSign, if_pos hk], hmethods, fun heq => ?_⟩
    have hholds := Except.ok.inj ((hmethods .strictEqual).symm.trans heq)
    have hxy : x = y := of_decide_eq_true hholds
    rw [hxy]

/-- DateTime and TimeSpan objects are ordered as their counts exactly when the order of the
counts is kept at nine digits. -/
theorem orderLaws_iff (d e : DateTime) (t u : TimeSpan) :
    (OrderLaw (d.compareTo e) (fun method => d.compare method e) d.hashCode e.hashCode
      d.timestamp e.timestamp ↔ KeepsOrder d.timestamp e.timestamp) ∧
    (OrderLaw (t.compareTo u) (fun method => t.compare method u) t.hashCode u.hashCode
      t.timestamp u.timestamp ↔ KeepsOrder t.timestamp u.timestamp) :=
  ⟨orderLaw_iff (d.compareTo_eq e), orderLaw_iff (t.compareTo_eq u)⟩

def thousandSeconds : DateTime where
  timestamp := 1000000000
  nonneg := by decide
  le_max := by decide

def thousandSecondsLater : DateTime where
  timestamp := 1000000001
  nonneg := by decide
  le_max := by decide

theorem compareTo_thousandSeconds :
    thousandSeconds.compareTo thousandSecondsLater = .ok 0 ∧
      thousandSeconds.compare .strictEqual thousandSecondsLater = .ok true ∧
      thousandSeconds.timestamp ≠ thousandSecondsLater.timestamp := by
  have h : thousandSeconds.compareTo thousandSecondsLater = .ok 0 := by
    rw [DateTime.compareTo_eq, comparedSign, if_neg (by decide)]
  refine ⟨h, ?_, by decide⟩
  rw [DateTime.compare, h]
  rfl

end LeooRexx
