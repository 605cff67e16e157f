import LeooRexx.NumberString.Precision

/-!
# Multiplication

`Multiply` forms the product digit by digit in an accumulator of
`2 * (digits + 1) + 1` cells.  A pointer into the accumulator is an index that
may leave it on either side; a read or write there is the fault `outOfBounds`.
-/

namespace LeooRexx

open Positional DecimalRounding

namespace NumberString

/-! ## The product -/

/--
The loop of `AddMultiplier`, over the digits of the top number from the last to
the first.  The result is the accumulator, the moved pointer and the carry.
-/
def addMultiplierLoop (multChar : Nat) :
    List Nat → List Nat → Int → Nat → Outcome (List Nat × Int × Nat)
  | [], accum, accumPtr, carry => .ok (accum, accumPtr, carry)
  | digit :: top, accum, accumPtr, carry => do
      let resultChar := carry + (← readAt accum accumPtr) + multChar * digit
      let carry := if resultChar ≥ 10 then resultChar / 10 else 0
      let accum ← writeAt accum accumPtr (resultChar - carry * 10)
      addMultiplierLoop multChar top accum (accumPtr - 1) carry

def addMultiplier (top accum : List Nat) (accumPtr : Int) (multChar : Nat) :
    Outcome (List Nat × Int) := do
  let (accum, accumPtr, carry) ←
    addMultiplierLoop multChar top.reverse accum accumPtr 0
  if carry ≠ 0 then
    let accum ← writeAt accum accumPtr carry
    return (accum, accumPtr)
  else return (accum, accumPtr + 1)

def multiplyLoop (largeNum : List Nat) :
    List Nat → List Nat → Int → Int → Outcome (List Nat × Int × Int)
  | [], accum, resultPtr, accumPtr => .ok (accum, resultPtr, accumPtr)
  | multChar :: current, accum, resultPtr, accumPtr =>
      if multChar ≠ 0 then do
        let (accum, accumPtr) ← addMultiplier largeNum accum resultPtr multChar
        multiplyLoop largeNum current accum (resultPtr - 1) accumPtr
      else multiplyLoop largeNum current accum (resultPtr - 1) accumPtr

/-- The part of `Multiply` after the longer number was put on top. -/
def multiplyNumbers (s : Settings) (largeNum smallNum : NumberString)
    (numberDigits : Nat) : Outcome NumberString := do
  let totalDigits := (numberDigits + 1) * 2 + 1
  let (accum, resultPtr, accumPtr) ←
    multiplyLoop largeNum.number smallNum.number.reverse
      (List.replicate totalDigits 0) (totalDigits - 1) 0
  let accumLen := (resultPtr + 1 - accumPtr + smallNum.length).toNat
  let (accumLen, extraDigit) :=
    if accumLen > numberDigits then
      (numberDigits + 1, accumLen - (numberDigits + 1))
    else (accumLen, 0)
  let exp := largeNum.exp + smallNum.exp + extraDigit
  (new s (largeNum.sign * smallNum.sign) exp []).adjustPrecisionFrom s
    (accum.drop accumPtr.toNat) accumLen numberDigits

def multiply (s : Settings) (this other : NumberString) :
    Outcome NumberString := do
  let numberDigits := s.digits
  let left ← this.checkNumber s (numberDigits + 1) false
  let right ← other.checkNumber s (numberDigits + 1) false
  if left.sign = 0 ∨ right.sign = 0 then return zero s
  if left.length > right.length then multiplyNumbers s left right numberDigits
  else multiplyNumbers s right left numberDigits

/-! ## The accumulator -/

theorem addMultiplierLoop_spec {multChar : Nat} {top accum : List Nat}
    {p carry : Nat} (hmult : multChar < 10) (htop : IsDigits 10 top)
    (haccum : IsDigits 10 accum) (hcarry : carry < 10) (hp : top.length ≤ p)
    (hlen : p ≤ accum.length) :
    ∃ accum' carry',
      addMultiplierLoop multChar top accum ((p : Int) - 1) carry =
          .ok (accum', (p - top.length : ℕ) - 1, carry') ∧
        IsDigits 10 accum' ∧ carry' < 10 ∧ accum'.length = accum.length ∧
        accum'.take (p - top.length) = accum.take (p - top.length) ∧
        value 10 accum' + carry' * 10 ^ (accum.length - (p - top.length)) =
          value 10 accum +
            (carry + multChar * value 10 top.reverse) * 10 ^ (accum.length - p) := by
  induction top generalizing accum p carry with
  | nil =>
      exact ⟨accum, carry, by simp [addMultiplierLoop], haccum, hcarry, rfl, rfl,
        by simp⟩
  | cons digit top ih =>
      obtain ⟨hdigit, htop⟩ := isDigits_cons.mp htop
      rw [List.length_cons] at hp
      obtain ⟨i, rfl⟩ : ∃ i, p = i + 1 := ⟨p - 1, by omega⟩
      have hi : i < accum.length := by omega
      have hcell : accum[i] < 10 := haccum _ (List.getElem_mem hi)
      have hprod : multChar * digit ≤ 9 * 9 :=
        Nat.mul_le_mul (by omega) (by omega)
      obtain ⟨r, hr⟩ : ∃ r, r = carry + accum[i] + multChar * digit := ⟨_, rfl⟩
      obtain ⟨c, hc⟩ : ∃ c, c = if r ≥ 10 then r / 10 else 0 := ⟨_, rfl⟩
      have hc' : c = r / 10 := by rw [hc]; split_ifs <;> omega
      have hdigit' : r - c * 10 < 10 := by omega
      have hc10 : c < 10 := by omega
      obtain ⟨accum', carry', hok, hdig, hcarry', hlen', hframe, hval⟩ :=
        ih (p := i) htop (haccum.set hdigit' i) hc10 (by omega) (by simp; omega)
      refine ⟨accum', carry', ?_, hdig, hcarry', by simpa using hlen', ?_, ?_⟩
      · subst hc hr
        rw [addMultiplierLoop, show ((i + 1 : ℕ) : Int) - 1 = i by omega,
          readAt_natCast hi]
        simp only [writeAt_natCast _ hi]
        rw [show i + 1 - (digit :: top).length = i - top.length by simp]
        exact hok
      · rw [show i + 1 - (digit :: top).length = i - top.length by simp, hframe,
          List.take_set_of_le (by omega)]
      · rw [List.length_set] at hval
        have hset := value_set (b := 10) accum hi (r - c * 10)
        rw [show accum.length - (i + 1) = accum.length - 1 - i by omega,
          show i + 1 - (digit :: top).length = i - top.length by simp, hval,
          value_reverse_cons, show accum.length - i = accum.length - 1 - i + 1 by omega,
          pow_succ]
        have hrc : r - c * 10 + c * 10 = r := by omega
        generalize 10 ^ (accum.length - 1 - i) = w at hset ⊢
        generalize value 10 top.reverse = v
        generalize value 10 (accum.set i (r - c * 10)) = x at hset ⊢
        have hexp : (r - c * 10 + c * 10) * w = r * w := by rw [hrc]
        have hr' : r * w = (carry + accum[i] + multChar * digit) * w := by rw [hr]
        linarith only [hset, hexp, hr']

def LeadsAt (accum : List Nat) (q : Nat) : Prop :=
  q ≤ accum.length ∧ 10 ^ (accum.length - q) ≤ 10 * value 10 accum ∧
    value 10 accum < 10 ^ (accum.length - q)

theorem addMultiplier_spec {multChar : Nat} {top accum : List Nat} {p : Nat}
    (hmult : multChar < 10) (hmult0 : multChar ≠ 0) (htop : IsDigits 10 top)
    (hlead : 10 ^ top.length ≤ 10 * value 10 top) (haccum : IsDigits 10 accum)
    (hp : top.length < p) (hlen : p ≤ accum.length)
    (hzero : value 10 accum < 10 ^ (accum.length - (p - top.length))) :
    ∃ accum' q,
      addMultiplier top accum ((p : Int) - 1) multChar = .ok (accum', (q : ℕ)) ∧
        IsDigits 10 accum' ∧ accum'.length = accum.length ∧
        value 10 accum' =
          value 10 accum + multChar * value 10 top * 10 ^ (accum.length - p) ∧
        LeadsAt accum' q := by
  obtain ⟨accum', carry, hok, hdig, hcarry, hlen', hframe, hval⟩ :=
    addMultiplierLoop_spec hmult (isDigits_reverse.mpr htop) haccum
      (by norm_num : 0 < 10) (by rw [List.length_reverse]; omega) hlen
  simp only [List.length_reverse, List.reverse_reverse, Nat.zero_add] at hok hframe hval
  obtain ⟨i, hi⟩ : ∃ i, p - top.length = i + 1 := ⟨p - top.length - 1, by omega⟩
  rw [hi] at hok hframe hval hzero
  have hi' : i < accum'.length := by omega
  have hsmall : value 10 accum' < 10 ^ (accum'.length - 1 - i) := by
    have hv := (value_take_eq_zero_iff (by norm_num) haccum (i + 1)).mpr hzero
    rw [← hframe] at hv
    have hlt := (value_take_eq_zero_iff (by norm_num) hdig (i + 1)).mp hv
    rwa [show accum'.length - (i + 1) = accum'.length - 1 - i by omega] at hlt
  have hw : accum.length - (i + 1) = accum'.length - 1 - i := by omega
  rw [hw] at hval
  by_cases hc : carry = 0
  · subst hc
    refine ⟨accum', i + 1, ?_, hdig, hlen', by simpa using hval, by omega, ?_, ?_⟩
    · rw [addMultiplier, hok]
      simp
      rfl
    · rw [show accum'.length - (i + 1) = accum.length - p + top.length by omega,
        pow_add]
      calc 10 ^ (accum.length - p) * 10 ^ top.length
          ≤ 10 ^ (accum.length - p) * (10 * value 10 top) := by gcongr
        _ ≤ 10 * (multChar * value 10 top * 10 ^ (accum.length - p)) := by
            have hone : 1 ≤ multChar := by omega
            have := Nat.mul_le_mul_right (value 10 top * 10 ^ (accum.length - p)) hone
            linarith only [this]
        _ ≤ 10 * value 10 accum' := by omega
    · rwa [show accum'.length - (i + 1) = accum'.length - 1 - i by omega]
  · have hset := value_set (b := 10) accum' hi' carry
    have hcell : accum'[i] = 0 := by
      have hle := getElem_mul_le_value (b := 10) accum' hi'
      by_contra h0
      have := Nat.mul_le_mul_right (10 ^ (accum'.length - 1 - i))
        (Nat.one_le_iff_ne_zero.mpr h0)
      omega
    rw [hcell, zero_mul, add_zero] at hset
    refine ⟨accum'.set i carry, i, ?_, hdig.set hcarry i, by simpa using hlen', ?_,
      by simp; omega, ?_, ?_⟩
    · rw [addMultiplier, hok]
      change (if carry ≠ 0 then _ else _) = _
      rw [if_pos hc, show ((i + 1 : ℕ) : Int) - 1 = i by omega, writeAt_natCast _ hi']
      rfl
    · rw [hset, hval]
    · rw [hset, List.length_set, show accum'.length - i = accum'.length - 1 - i + 1 by omega,
        pow_succ]
      have := Nat.mul_le_mul_right (10 ^ (accum'.length - 1 - i))
        (Nat.one_le_iff_ne_zero.mpr hc)
      omega
    · rw [hset, List.length_set, show accum'.length - i = accum'.length - 1 - i + 1 by omega,
        pow_succ]
      have := Nat.mul_le_mul_right (10 ^ (accum'.length - 1 - i)) (Nat.le_of_lt_succ hcarry)
      omega

theorem multiplyLoop_spec {largeNum current accum : List Nat} {p : Nat}
    (accumPtr : Int) (hlarge : IsDigits 10 largeNum)
    (hlead : 10 ^ largeNum.length ≤ 10 * value 10 largeNum)
    (hcurrent : IsDigits 10 current) (haccum : IsDigits 10 accum)
    (hp : largeNum.length + current.length ≤ p) (hlen : p ≤ accum.length)
    (hzero : value 10 accum < 10 ^ (accum.length - (p - largeNum.length))) :
    ∃ accum' accumPtr',
      multiplyLoop largeNum current accum ((p : Int) - 1) accumPtr =
          .ok (accum', (p : Int) - current.length - 1, accumPtr') ∧
        IsDigits 10 accum' ∧ accum'.length = accum.length ∧
        value 10 accum' = value 10 accum +
          value 10 largeNum * value 10 current.reverse * 10 ^ (accum.length - p) ∧
        ((∃ ds d, current = ds ++ [d] ∧ d ≠ 0) →
          ∃ q : Nat, accumPtr' = q ∧ LeadsAt accum' q) := by
  induction current generalizing accum p accumPtr with
  | nil =>
      refine ⟨accum, accumPtr, by simp [multiplyLoop], haccum, rfl, by simp, ?_⟩
      rintro ⟨ds, d, h, -⟩
      simp at h
  | cons multChar current ih =>
      obtain ⟨hmult, hrest⟩ := isDigits_cons.mp hcurrent
      rw [List.length_cons] at hp
      obtain ⟨i, rfl⟩ : ∃ i, p = i + 1 := ⟨p - 1, by omega⟩
      have hw : accum.length - i = accum.length - (i + 1) + 1 := by omega
      have hptr : ((i + 1 : ℕ) : Int) - 1 - 1 = (i : Int) - 1 := by omega
      have hend : ((i + 1 : ℕ) : Int) - (multChar :: current).length - 1 =
          (i : Int) - current.length - 1 := by
        simp only [List.length_cons]; push_cast; ring
      rw [multiplyLoop, hptr, hend, value_reverse_cons]
      have hbound : ∀ m, m < 10 →
          value 10 accum + m * value 10 largeNum * 10 ^ (accum.length - (i + 1)) <
            10 ^ (accum.length - (i - largeNum.length)) := by
        intro m hm
        have hl := value_lt (by norm_num) hlarge
        rw [show accum.length - (i + 1 - largeNum.length) =
          largeNum.length + (accum.length - (i + 1)) by omega, pow_add] at hzero
        rw [show accum.length - (i - largeNum.length) =
          1 + (largeNum.length + (accum.length - (i + 1))) by omega, pow_add, pow_add]
        calc value 10 accum + m * value 10 largeNum * 10 ^ (accum.length - (i + 1))
            ≤ value 10 accum +
                9 * 10 ^ largeNum.length * 10 ^ (accum.length - (i + 1)) := by
              gcongr
              omega
          _ < 10 ^ 1 * (10 ^ largeNum.length * 10 ^ (accum.length - (i + 1))) := by
              rw [pow_one, mul_assoc 9]
              omega
      by_cases h0 : multChar = 0
      · subst h0
        rw [if_neg (by simp)]
        obtain ⟨accum', ptr, hok, hdig, hlen', hval, hlast⟩ :=
          ih (p := i) accumPtr hrest haccum (by omega) (by omega)
            (by simpa using hbound 0 (by norm_num))
        refine ⟨accum', ptr, hok, hdig, hlen', ?_, ?_⟩
        · rw [hval, hw, pow_succ]
          ring
        · rintro ⟨_ | ⟨x, ds⟩, d, h, hd⟩
          · rw [List.nil_append, List.cons.injEq] at h
            exact absurd h.1.symm hd
          · rw [List.cons_append, List.cons.injEq] at h
            exact hlast ⟨ds, d, h.2, hd⟩
      · rw [if_pos h0]
        obtain ⟨accum₁, q, hok₁, hdig₁, hlen₁, hval₁, hleads⟩ :=
          addMultiplier_spec hmult h0 hlarge hlead haccum (by omega) hlen hzero
        rw [show ((i + 1 : ℕ) : Int) - 1 = (i : Int) by omega] at hok₁ ⊢
        obtain ⟨accum', ptr, hok, hdig, hlen', hval, hlast⟩ :=
          ih (p := i) q hrest hdig₁ (by omega) (by omega)
          (by rw [hlen₁, hval₁]; exact hbound multChar hmult)
        refine ⟨accum', ptr, by rw [hok₁]; exact hok, hdig, by omega, ?_, ?_⟩
        · rw [hval, hval₁, hlen₁, hw, pow_succ]
          ring
        · rintro ⟨_ | ⟨x, ds⟩, d, h, hd⟩
          · rw [List.nil_append, List.cons.injEq] at h
            obtain ⟨-, rfl⟩ := h
            rw [multiplyLoop] at hok
            cases hok
            exact ⟨q, rfl, hleads⟩
          · rw [List.cons_append, List.cons.injEq] at h
            exact hlast ⟨ds, d, h.2, hd⟩

theorem multiplyLoop_numeral {large small : List Nat} (total : Nat) (hl : IsDigits 10 large)
    (hs : IsDigits 10 small) (hl0 : 0 < large.headD 0) (hs0 : 0 < small.headD 0)
    (htotal : large.length + small.length ≤ total) :
    ∃ (accum : List Nat) (q : Nat),
      multiplyLoop large small.reverse (List.replicate total 0) (total - 1) 0 =
          .ok (accum, (total : Int) - small.length - 1, (q : Int)) ∧
        accum.drop q = numeral 10 (value 10 large * value 10 small) ∧
        (numeral 10 (value 10 large * value 10 small)).length + q = total := by
  obtain ⟨d, ds, rfl⟩ := List.exists_cons_of_ne_nil (l := large) (by rintro rfl; simp at hl0)
  obtain ⟨e, es, rfl⟩ := List.exists_cons_of_ne_nil (l := small) (by rintro rfl; simp at hs0)
  simp only [List.headD_cons] at hl0 hs0
  have hle := le_value_cons (b := 10) hl0 ds
  have hlead : 10 ^ (d :: ds).length ≤ 10 * value 10 (d :: ds) := by
    rw [List.length_cons, pow_succ, mul_comm]
    omega
  have hc : value 10 (d :: ds) * value 10 (e :: es) ≠ 0 := by
    have hle' := le_value_cons (b := 10) hs0 es
    have hpos : 0 < 10 ^ ds.length := by positivity
    have hpos' : 0 < 10 ^ es.length := by positivity
    exact Nat.mul_ne_zero (by omega) (by omega)
  obtain ⟨accum, ptr, hok, hdig, hlen, hval, hlast⟩ :=
    multiplyLoop_spec 0 (p := total) hl hlead (isDigits_reverse.mpr hs)
      (isDigits_replicate_zero (by norm_num) total) (by rwa [List.length_reverse])
      (by simp) (by simp)
  obtain ⟨q, rfl, hq, hlo, hhi⟩ := hlast ⟨es.reverse, e, by simp, by omega⟩
  simp only [List.length_replicate, Nat.sub_self, pow_zero, mul_one,
    value_replicate_zero, Nat.zero_add, List.reverse_reverse] at hval hlen
  rw [hval] at hlo hhi
  generalize value 10 (d :: ds) * value 10 (e :: es) = c at hval hlo hhi hc ⊢
  have hq' : q < accum.length := by
    by_contra h
    rw [show accum.length - q = 0 by omega] at hhi
    omega
  have hdrop : accum.drop q = numeral 10 c := by
    have hv : value 10 (accum.drop q) = c := by
      rw [value_drop (by norm_num) hdig, hval, Nat.mod_eq_of_lt hhi]
    rw [← hv]
    refine eq_numeral_of_le (by norm_num) (hdig.drop q) (by simp; omega) ?_
    rw [hv, List.length_drop]
    rw [show accum.length - q = accum.length - q - 1 + 1 by omega, pow_succ] at hlo
    omega
  have hnlen : (numeral 10 c).length = accum.length - q := by
    rw [← hdrop, List.length_drop]
  exact ⟨accum, q, by rw [hok, List.length_reverse], hdrop, by omega⟩

theorem multiplyNumbers_eq {s : Settings} {large small : NumberString} {D : Nat}
    (hD : 1 ≤ D) (hl : large.Normalized) (hs : small.Normalized)
    (hl0 : large.sign ≠ 0) (hs0 : small.sign ≠ 0)
    (hll : large.length ≤ D + 1) (hls : small.length ≤ D + 1) {r : Decimal}
    (hr : (⟨value 10 large.number * value 10 small.number,
      large.exp + small.exp⟩ : Decimal).round D = r) :
    multiplyNumbers s large small D = do
      checkExponent r.exp (numeral 10 r.coeff).length
      return ofDecimal s D (large.sign * small.sign) r := by
  obtain ⟨d, ds, hds, hd⟩ := hl.leading hl0
  obtain ⟨e, es, hes, he⟩ := hs.leading hs0
  have hc : value 10 large.number * value 10 small.number ≠ 0 :=
    Nat.mul_ne_zero (hl.value_ne_zero hl0) (hs.value_ne_zero hs0)
  obtain ⟨total, htotal⟩ : ∃ total, total = (D + 1) * 2 + 1 := ⟨_, rfl⟩
  obtain ⟨accum, q, hok, hdrop, hnlen⟩ := multiplyLoop_numeral total hl.digits
    hs.digits (by rw [hds]; exact hd) (by rw [hes]; exact he)
    (by simp only [length] at hll hls; omega)
  generalize value 10 large.number * value 10 small.number = c at hc hr hdrop hnlen
  have haccum : ((total : Int) - small.number.length - 1 + 1 - q +
      small.length).toNat = (numeral 10 c).length := by
    rw [length]
    omega
  have hmul : multiplyNumbers s large small D =
      (if (numeral 10 c).length > D then
        (new s (large.sign * small.sign) (large.exp + small.exp +
            ((numeral 10 c).length - (D + 1) : ℕ)) []).adjustPrecisionFrom s
          (numeral 10 c) (D + 1) D
      else (new s (large.sign * small.sign) (large.exp + small.exp) []
        ).adjustPrecisionFrom s (numeral 10 c) (numeral 10 c).length D) := by
    rw [multiplyNumbers, ← htotal, hok]
    simp only [Outcome.ok_bind, haccum, Int.toNat_natCast, hdrop]
    split_ifs <;> simp
  rw [hmul]
  split_ifs with hlong
  · rw [adjustPrecisionFrom_cut,
      show D + 1 + ((numeral 10 c).length - (D + 1)) = (numeral 10 c).length by omega]
    exact adjustPrecisionFrom_numeral s _ hD hc hr
  · exact adjustPrecisionFrom_numeral s _ hD hc hr

/-! ## The rounded product -/

def exactProduct (a b : NumberString) : Decimal :=
  ⟨value 10 a.number * value 10 b.number, a.exp + b.exp⟩

theorem exactProduct_comm (a b : NumberString) :
    exactProduct a b = exactProduct b a := by
  rw [exactProduct, exactProduct, mul_comm, add_comm]

theorem toRat_mul_toRat (a b : NumberString) :
    a.toRat * b.toRat = ((a.sign * b.sign : ℤ) : ℚ) * (exactProduct a b).toRat := by
  simp only [toRat, decimal, Decimal.toRat, exactProduct,
    zpow_add₀ (show (10 : ℚ) ≠ 0 by norm_num)]
  push_cast
  ring

theorem multiply_eq {s : Settings} {a b : NumberString} (hD : 1 ≤ s.digits)
    (ha : a.Normalized) (hb : b.Normalized) (ha0 : a.sign ≠ 0) (hb0 : b.sign ≠ 0)
    (hla : a.length ≤ s.digits + 1) (hlb : b.length ≤ s.digits + 1) {r : Decimal}
    (hr : (exactProduct a b).round s.digits = r) :
    multiply s a b = do
      checkExponent r.exp (numeral 10 r.coeff).length
      return ofDecimal s s.digits (a.sign * b.sign) r := by
  simp only [multiply, checkNumber_of_le false hla, checkNumber_of_le false hlb,
    Outcome.ok_bind, ha0, hb0, or_self, if_false]
  split_ifs
  · exact multiplyNumbers_eq hD ha hb ha0 hb0 hla hlb hr
  · rw [multiplyNumbers_eq (r := r) hD hb ha hb0 ha0 hlb hla
      (by rw [← hr, exactProduct_comm]; rfl), mul_comm]

def MultiplySpec (D : Nat) (a b : NumberString) : Outcome NumberString → Prop
  | .ok r =>
      InRange ((exactProduct a b).round D) ∧ Rounds D (a.toRat * b.toRat) r ∧
        r.sign = a.sign * b.sign
  | .error (.raised (.overflowExpoverflow _ _)) =>
      maxNum < ((exactProduct a b).round D).exp +
        (numeral 10 ((exactProduct a b).round D).coeff).length - 1
  | .error (.raised (.overflowExpunderflow _ _)) =>
      ((exactProduct a b).round D).exp < -maxNum
  | .error _ => False

/--
Multiplication rounds the exact product, in either order of the operands.  It
raises exactly when the rounded product is out of range, and no access leaves
the accumulator.
-/
theorem multiply_rounds {s : Settings} {a b : NumberString} (hD : 1 ≤ s.digits)
    (ha : a.Normalized) (hb : b.Normalized) (ha0 : a.sign ≠ 0) (hb0 : b.sign ≠ 0)
    (hla : a.length ≤ s.digits + 1) (hlb : b.length ≤ s.digits + 1) :
    MultiplySpec s.digits a b (multiply s a b) ∧
      multiply s a b = multiply s b a := by
  have hsign := sign_mul_sign ha hb ha0 hb0
  constructor
  · rw [multiply_eq hD ha hb ha0 hb0 hla hlb rfl]
    cases hcheck : checkExponent ((exactProduct a b).round s.digits).exp
        (numeral 10 ((exactProduct a b).round s.digits).coeff).length with
    | ok u =>
        refine ⟨(checkExponent_eq_ok_iff.mp hcheck).symm, ?_, ?_⟩
        · rw [toRat_mul_toRat]
          exact rounds_ofDecimal hD hsign hcheck
        · have hc : (exactProduct a b).coeff ≠ 0 :=
            Nat.mul_ne_zero (ha.value_ne_zero ha0) (hb.value_ne_zero hb0)
          have hr0 := Decimal.round_coeff_ne_zero hD hc
          simp [ofDecimal, hr0]
    | error e =>
        rcases checkExponent_error hcheck with ⟨rfl, hover⟩ | ⟨rfl, hunder⟩
        · exact hover
        · exact hunder
  · rw [multiply_eq hD ha hb ha0 hb0 hla hlb rfl,
      multiply_eq hD hb ha hb0 ha0 hlb hla rfl, exactProduct_comm, mul_comm a.sign]

theorem multiply_rounds_99 :
    MultiplySpec 2 ⟨1, 0, [9, 9], 2, true⟩ ⟨-1, 3, [9, 9], 2, true⟩
        (multiply ⟨2, 0, .scientific⟩ ⟨1, 0, [9, 9], 2, true⟩
          ⟨-1, 3, [9, 9], 2, true⟩) ∧
      multiply ⟨2, 0, .scientific⟩ ⟨1, 0, [9, 9], 2, true⟩ ⟨-1, 3, [9, 9], 2, true⟩ =
        multiply ⟨2, 0, .scientific⟩ ⟨-1, 3, [9, 9], 2, true⟩
          ⟨1, 0, [9, 9], 2, true⟩ :=
  multiply_rounds (s := ⟨2, 0, .scientific⟩) (a := ⟨1, 0, [9, 9], 2, true⟩)
    (b := ⟨-1, 3, [9, 9], 2, true⟩) (by decide) (by decide) (by decide)
    (by decide) (by decide) (by decide) (by decide)

end NumberString

end LeooRexx
