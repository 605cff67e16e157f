import Mathlib.Data.Sign.Basic
import LeooRexx.NumberString.AddSubRounding

/-!
# Numeric comparison

`comp` compares two numbers of one sign digit by digit when both fit in the
compare precision, and by the sign of their difference when they do not.  The
two ways agree where both are possible.  The difference loses its sign exactly
when a power of ten is compared with a number less than five units below it.
-/

namespace LeooRexx

open Positional DecimalRounding

namespace NumberString

/-! ## The comparison -/

def scanNonzero (scan : List Nat) : Bool := scan.any (· ≠ 0)

def compAligned (this right : NumberString) (aLlen aRlen : Int) : Int :=
  if aLlen > aRlen then this.sign
  else if aRlen > aLlen then -this.sign
  else if this.length = right.length then
    memcmp this.number right.number this.length * this.sign
  else if this.length > right.length then
    let rc := memcmp this.number right.number right.length * this.sign
    if rc = 0 then
      if scanNonzero (this.number.drop right.length) then this.sign else 0
    else rc
  else
    let rc := memcmp this.number right.number this.length * this.sign
    if rc = 0 then
      if scanNonzero (right.number.drop this.length) then -this.sign else 0
    else rc

def comp (s : Settings) (this right : NumberString) : Outcome Int :=
  if this.sign ≠ right.sign then .ok (if this.sign < right.sign then -1 else 1)
  else if right.sign = 0 then .ok this.sign
  else if this.sign = 0 then .ok right.sign
  else
    let minExp := if right.exp < this.exp then right.exp else this.exp
    let aLlen := this.exp - minExp + this.length
    let aRlen := right.exp - minExp + right.length
    let numberDigits := s.digits - s.fuzz
    if aLlen ≤ numberDigits ∧ aRlen ≤ numberDigits then
      .ok (compAligned this right aLlen aRlen)
    else do
      let result ← addSub s this right .minus numberDigits
      return result.sign

/-! ## The fast path -/

theorem scanNonzero_iff {ds : List Nat} (h : IsDigits 10 ds) :
    scanNonzero ds ↔ 0 < value 10 ds := by
  rw [Nat.pos_iff_ne_zero, ne_eq, scanNonzero]
  constructor
  · intro hany h0
    rw [eq_replicate_zero_of_value h h0] at hany
    simp at hany
  · intro h0
    by_contra hany
    have hzero : ds = List.replicate ds.length 0 := by
      rw [List.eq_replicate_iff]
      simpa using hany
    rw [hzero, value_replicate_zero] at h0
    exact h0 rfl

theorem memcmp_rest {xs ys : List Nat} (hx : IsDigits 10 xs) (hy : IsDigits 10 ys)
    (hlen : ys.length ≤ xs.length) :
    SignType.sign ((value 10 xs : Int) - (value 10 ys * 10 ^ (xs.length - ys.length) : ℕ)) =
      if memcmp xs ys ys.length = 0 then
        if scanNonzero (xs.drop ys.length) then 1 else 0
      else SignType.sign (memcmp xs ys ys.length) := by
  have hsplit := value_split (b := 10) xs ys.length
  have hlow := value_lt (b := 10) (by norm_num) (hx.drop ys.length)
  have hscan := scanNonzero_iff (hx.drop ys.length)
  obtain ⟨hgt, hlt, heq⟩ := memcmp_spec hx hy hlen le_rfl
  rw [List.take_length] at hgt hlt heq
  rw [List.length_drop] at hlow
  rcases lt_trichotomy (memcmp xs ys ys.length) 0 with hrc | hrc | hrc
  · have hstep := Nat.mul_le_mul_right (10 ^ (xs.length - ys.length))
      (Nat.succ_le_of_lt (hlt.mp hrc))
    rw [Nat.succ_mul] at hstep
    rw [if_neg hrc.ne, sign_neg hrc, sign_neg (by omega)]
  · rw [heq.mp hrc] at hsplit
    rw [if_pos hrc]
    by_cases hany : scanNonzero (xs.drop ys.length)
    · have hpos := hscan.mp hany
      rw [if_pos hany, sign_pos (by omega)]
    · have hzero : value 10 (xs.drop ys.length) = 0 := by
        by_contra h0
        exact hany (hscan.mpr (Nat.pos_of_ne_zero h0))
      rw [if_neg hany, sub_eq_zero.mpr (by omega), sign_zero]
  · have hstep := Nat.mul_le_mul_right (10 ^ (xs.length - ys.length))
      (Nat.succ_le_of_lt (hgt.mp hrc))
    have hpos : 0 < 10 ^ (xs.length - ys.length) := by positivity
    rw [Nat.succ_mul] at hstep
    rw [if_neg hrc.ne', sign_pos hrc, sign_pos (by omega)]

noncomputable def signDiff (m : Int) (a b : NumberString) : SignType :=
  SignType.sign ((aligned m a : Int) - aligned m b)

theorem signDiff_comm (m : Int) (a b : NumberString) :
    signDiff m b a = -signDiff m a b := by
  rw [signDiff, signDiff, ← Left.sign_neg, neg_sub]

theorem signDiff_of_length {m : Int} {a b : NumberString} (ha : a.Normalized)
    (hb : b.Normalized) (hm : m = min a.exp b.exp) (hlen : b.length ≤ a.length)
    (halign : alignedLength m a = alignedLength m b) :
    signDiff m a b =
      if memcmp a.number b.number b.length = 0 then
        if scanNonzero (a.number.drop b.length) then 1 else 0
      else SignType.sign (memcmp a.number b.number b.length) := by
  unfold alignedLength at halign
  have haexp : (a.exp - m).toNat = 0 := by omega
  have hbexp : (b.exp - m).toNat = a.number.length - b.number.length := by
    have h1 : a.length = a.number.length := rfl
    have h2 : b.length = b.number.length := rfl
    omega
  have hrest := memcmp_rest ha.digits hb.digits hlen
  rw [signDiff, aligned, aligned, haexp, hbexp, pow_zero, mul_one]
  exact hrest

theorem memcmp_comm (xs ys : List Nat) (count : Nat) :
    memcmp ys xs count = -memcmp xs ys count := by
  induction count generalizing xs ys with
  | zero => simp [memcmp]
  | succ count ih =>
      cases xs with
      | nil => cases ys <;> simp [memcmp]
      | cons x xs =>
          cases ys with
          | nil => simp [memcmp]
          | cons y ys =>
              rw [memcmp, memcmp]
              rcases lt_trichotomy x y with h | rfl | h
              · rw [if_neg h.not_gt, if_pos h, if_pos h]
                rfl
              · simpa using ih xs ys
              · rw [if_pos h, if_neg h.not_gt, if_pos h]

theorem sign_rc (rc : Int) {sign : Int} (rest : Bool) (h : sign ≠ 0) :
    SignType.sign (if rc * sign = 0 then if rest then sign else 0 else rc * sign) =
      SignType.sign sign *
        if rc = 0 then if rest then 1 else 0 else SignType.sign rc := by
  by_cases hrc : rc = 0
  · cases rest <;> simp [hrc]
  · rw [if_neg (mul_ne_zero hrc h), if_neg hrc, sign_mul, mul_comm]

theorem sign_compAligned {m : Int} {a b : NumberString} (ha : a.Normalized)
    (hb : b.Normalized) (ha0 : a.sign ≠ 0) (hb0 : b.sign ≠ 0)
    (hm : m = min a.exp b.exp) :
    SignType.sign (compAligned a b (alignedLength m a) (alignedLength m b)) =
      SignType.sign a.sign * signDiff m a b := by
  have hma : m ≤ a.exp := by omega
  have hmb : m ≤ b.exp := by omega
  unfold compAligned
  by_cases h1 : alignedLength m a > alignedLength m b
  · have hlt := aligned_lt_of_length hb ha hb0 ha0 hmb hma h1
    rw [if_pos h1, signDiff, sign_pos (a := (aligned m a : Int) - _) (by omega), mul_one]
  rw [if_neg h1]
  by_cases h2 : alignedLength m b > alignedLength m a
  · have hlt := aligned_lt_of_length ha hb ha0 hb0 hma hmb h2
    rw [if_pos h2, signDiff, sign_neg (a := (aligned m a : Int) - _) (by omega),
      mul_neg_one, Left.sign_neg]
  rw [if_neg h2]
  have halign : alignedLength m a = alignedLength m b := by omega
  by_cases h3 : a.length = b.length
  · have hcmp := signDiff_of_length ha hb hm h3.ge halign
    have hdrop : a.number.drop b.length = [] := List.drop_of_length_le h3.le
    rw [if_pos h3, hcmp, hdrop, ← h3, sign_mul, mul_comm]
    by_cases hrc : memcmp a.number b.number a.length = 0 <;> simp [hrc, scanNonzero]
  rw [if_neg h3]
  by_cases h4 : a.length > b.length
  · rw [if_pos h4, signDiff_of_length ha hb hm h4.le halign]
    exact sign_rc _ _ ha0
  · have hcmp := signDiff_of_length hb ha (hm.trans (min_comm _ _)) (not_lt.mp h4)
      halign.symm
    have hrc := sign_rc (memcmp b.number a.number a.length)
      (scanNonzero (b.number.drop a.length)) (neg_ne_zero.mpr ha0)
    rw [memcmp_comm a.number b.number, neg_mul_neg] at hrc
    rw [if_neg h4, signDiff_comm, hcmp, memcmp_comm a.number b.number, mul_neg,
      ← neg_mul, ← Left.sign_neg]
    exact hrc

/-! ## The slow path -/

/-- One magnitude is the power of ten, the other less than five units below it. -/
def LosesDifference (D : Nat) (a b : NumberString) : Prop :=
  a.sign = b.sign ∧ a.sign ≠ 0 ∧
    max (aligned (min a.exp b.exp) a) (aligned (min a.exp b.exp) b) = 10 ^ D ∧
    min (aligned (min a.exp b.exp) a) (aligned (min a.exp b.exp) b) < 10 ^ D ∧
    10 ^ D < min (aligned (min a.exp b.exp) a) (aligned (min a.exp b.exp) b) + 5

instance (D : Nat) (a b : NumberString) : Decidable (LosesDifference D a b) := by
  unfold LosesDifference
  infer_instance

@[simp] theorem sign_ofDecimal (s : Settings) (D : Nat) (sign : Int) (d : Decimal) :
    (ofDecimal s D sign d).sign = if d.coeff = 0 then 0 else sign := by
  unfold ofDecimal
  split <;> rfl

theorem adjustPrecisionFrom_sign (s : Settings) {digits : List Nat} (sign : Int) {m : Int} {W : Nat}
    (hW : 1 ≤ W) (hdig : IsDigits 10 digits) (hne : digits ≠ [])
    (hlen : digits.length ≤ W + 1) (hlow : -maxNum ≤ m)
    (hupp : m + digits.length - 1 ≤ maxNum)
    (hmax : value 10 digits + 5 < 10 ^ (W + 1)) :
    ∃ r, (new s sign m []).adjustPrecisionFrom s digits digits.length W = .ok r ∧
      r.sign = if value 10 digits = 0 ∨ digits.length = W + 1 ∧ value 10 digits < 5
        then 0 else sign := by
  by_cases hshort : digits.length ≤ W
  · refine ⟨_, adjustPrecisionFrom_short s _ hdig hne hshort hlow hupp, ?_⟩
    have hlong : ¬ digits.length = W + 1 := by omega
    simp [new, hlong]
  have hlong : digits.length = W + 1 := by omega
  by_cases hcancel : value 10 digits < 10 ^ W
  · refine ⟨_, adjustPrecisionFrom_leadingZero s (new s sign m []) hW hdig hlong hcancel
      hlow (by dsimp only [new]; omega), ?_⟩
    have hiff : (value 10 digits + 5) / 10 = 0 ↔
        value 10 digits = 0 ∨ digits.length = W + 1 ∧ value 10 digits < 5 := by
      omega
    simp only [sign_ofDecimal, hiff, new]
  · have hpos : 0 < 10 ^ (W - 1) := by positivity
    have hten : 10 ^ W = 10 * 10 ^ (W - 1) := by
      rw [← pow_succ', Nat.sub_add_cancel hW]
    have hnum : digits = numeral 10 (value 10 digits) :=
      eq_numeral_of_le (by norm_num) hdig (by omega)
        (by rw [hlong]; exact not_lt.mp hcancel)
    have hlog : Nat.log 10 (value 10 digits) = W :=
      Nat.log_eq_of_pow_le_of_lt_pow (not_lt.mp hcancel) (by omega)
    have hround : (⟨value 10 digits, m⟩ : Decimal).round W =
        ⟨(value 10 digits + 5) / 10, m + 1⟩ := by
      rw [pow_succ] at hmax
      simp only [Decimal.round, if_neg hcancel, hlog, Nat.sub_self, pow_zero, Nat.div_one]
      rw [if_neg (by omega)]
      simp
    have hlenr := length_numeral_round (d := ⟨value 10 digits, m⟩) hW (not_lt.mp hcancel)
    rw [hround] at hlenr
    have hcheck : checkExponent (m + 1) (numeral 10 ((value 10 digits + 5) / 10)).length =
        .ok () := by
      rw [checkExponent_eq_ok_iff, hlenr]
      omega
    have hadjust := adjustPrecisionFrom_numeral s (new s sign m []) hW
      (by omega) hround
    rw [← hnum] at hadjust
    refine ⟨_, hadjust.trans (by rw [hcheck]; rfl), ?_⟩
    rw [sign_ofDecimal, if_neg (by dsimp only; omega), if_neg (by omega)]
    rfl

theorem pow_le_aligned_iff {m : Int} {n : NumberString} {W : Nat} (hn : n.Normalized)
    (h0 : n.sign ≠ 0) (hm : m ≤ n.exp) (halign : alignedLength m n ≤ W + 1) :
    10 ^ W ≤ aligned m n ↔ alignedLength m n = W + 1 := by
  obtain ⟨hlo, hhi⟩ := aligned_bounds (m := m) hn h0
  unfold alignedLength at *
  constructor
  · intro hle
    have hlt := (Nat.pow_lt_pow_iff_right (by norm_num)).mp (hle.trans_lt hhi)
    omega
  · intro hlen
    have hexp : (n.exp - m).toNat + n.length - 1 = W := by omega
    rwa [hexp] at hlo

theorem ten_dvd_aligned {m : Int} {n : NumberString} {W : Nat} (hlen : n.length ≤ W)
    (halign : alignedLength m n = W + 1) : 10 ∣ aligned m n := by
  unfold alignedLength at halign
  have hexp : (n.exp - m).toNat = (n.exp - m).toNat - 1 + 1 := by omega
  rw [aligned, hexp, pow_succ, ← mul_assoc]
  exact Nat.dvd_mul_left ..

theorem aligned_add_lt {m : Int} {n : NumberString} {W : Nat} (hn : n.Normalized)
    (h0 : n.sign ≠ 0) (hlen : n.length ≤ W) (hm : m ≤ n.exp)
    (halign : alignedLength m n ≤ W + 1) : aligned m n + 5 < 10 ^ (W + 1) := by
  have hpos : 0 < 10 ^ W := by positivity
  have hten : 10 ^ (W + 1) = 10 * 10 ^ W := pow_succ' 10 W
  by_cases hle : 10 ^ W ≤ aligned m n
  · have hlong := (pow_le_aligned_iff hn h0 hm halign).mp hle
    have hdvd := ten_dvd_aligned hlen hlong
    have hhi := (aligned_bounds (m := m) hn h0).2
    have hexp : (n.exp - m).toNat + n.length = W + 1 := by
      unfold alignedLength at hlong
      omega
    rw [hexp] at hhi
    omega
  · omega

theorem losesDifference_iff {a b : NumberString} {W : Nat} {m : Int}
    (hm : m = min a.exp b.exp) (ha : a.Normalized) (hb : b.Normalized)
    (hla : a.length ≤ W) (hlb : b.length ≤ W) (ha0 : a.sign ≠ 0)
    (hsign : a.sign = b.sign) (haw : alignedLength m a ≤ W + 1)
    (hbw : alignedLength m b ≤ W + 1) :
    LosesDifference W a b ↔ 10 ^ W ≤ max (aligned m a) (aligned m b) ∧
      aligned m a ≠ aligned m b ∧
      max (aligned m a) (aligned m b) < min (aligned m a) (aligned m b) + 5 := by
  -- the larger number takes all positions, so the smaller one is its own coefficient
  have hlarger : ∀ x y : NumberString, x.Normalized → y.Normalized → x.sign ≠ 0 →
      y.sign ≠ 0 → m = min x.exp y.exp → x.length ≤ W → y.length ≤ W →
      alignedLength m x ≤ W + 1 → 10 ^ W ≤ aligned m x → aligned m x < aligned m y + 5 →
      aligned m y < 10 ^ W ∧ aligned m x = 10 ^ W := by
    intro x y hx hy hx0 hy0 hmin hxl hyl hxw hle hlt
    have hlong := (pow_le_aligned_iff hx hx0 (by omega) hxw).mp hle
    have hdvd := ten_dvd_aligned hxl hlong
    have hyexp : y.exp = m := by
      unfold alignedLength at hlong
      omega
    have hylt : aligned m y < 10 ^ W := by
      have hhi := (aligned_bounds (m := m) hy hy0).2
      rw [hyexp, sub_self, Int.toNat_zero, zero_add] at hhi
      exact hhi.trans_le (Nat.pow_le_pow_right (by norm_num) hyl)
    have hten : 10 ∣ 10 ^ W := dvd_pow_self 10 (by have := hx.length_pos; omega)
    omega
  have hb0 : b.sign ≠ 0 := hsign ▸ ha0
  unfold LosesDifference
  rw [← hm]
  constructor
  · rintro ⟨-, -, hmax, hmin, hlt⟩
    omega
  · rintro ⟨hmax, hne, hlt⟩
    refine ⟨hsign, ha0, ?_⟩
    rcases le_total (aligned m a) (aligned m b) with hle | hle
    · rw [max_eq_right hle, min_eq_left hle] at *
      obtain ⟨hy, hx⟩ := hlarger b a hb ha hb0 ha0 (hm.trans (min_comm _ _)) hlb hla hbw hmax hlt
      omega
    · rw [max_eq_left hle, min_eq_right hle] at *
      obtain ⟨hy, hx⟩ := hlarger a b ha hb ha0 hb0 hm hla hlb haw hmax hlt
      omega

theorem addSub_sign_window {s : Settings} {a b : NumberString} {W : Nat} {m : Int}
    (hW : 1 ≤ W) (hm : m = min a.exp b.exp) (ha : a.Normalized)
    (hb : b.Normalized) (hla : a.length ≤ W) (hlb : b.length ≤ W)
    (ha0 : a.sign ≠ 0) (hsign : a.sign = b.sign)
    (haw : alignedLength m a ≤ W + 1) (hbw : alignedLength m b ≤ W + 1) :
    ∃ r, addSub s a b .minus W = .ok r ∧ SignType.sign r.sign =
      if LosesDifference W a b then 0 else SignType.sign a.sign * signDiff m a b := by
  have hb0 : b.sign ≠ 0 := hsign ▸ ha0
  have hma : m ≤ a.exp := by omega
  have hmb : m ≤ b.exp := by omega
  have hright : rightSign .minus b = -a.sign := by rw [hsign]; rfl
  have hiff := losesDifference_iff hm ha hb hla hlb ha0 hsign haw hbw
  rcases addSub_opposite_sign (s := s) .minus hm ha hb (hla.trans W.le_succ)
    (hlb.trans W.le_succ) ha0 hb0 haw hbw
    (by omega) with ⟨heq, hok⟩ | ⟨digits, sign, hdiff, hok⟩
  · refine ⟨_, hok, ?_⟩
    rw [signDiff, heq, sub_self, sign_zero, mul_zero, ite_self]
    rfl
  · have hpa := pow_le_aligned_iff ha ha0 hma haw
    have hpb := pow_le_aligned_iff hb hb0 hmb hbw
    have hta := aligned_add_lt ha ha0 hla hma haw
    have htb := aligned_add_lt hb hb0 hlb hmb hbw
    have halo := ha.exp_lower
    have hblo := hb.exp_lower
    have hahi := ha.exp_upper
    have hbhi := hb.exp_upper
    have hpos := ha.length_pos
    obtain ⟨hdig, hlen, hval⟩ := hdiff
    have hne : digits ≠ [] := by
      rw [← List.length_pos_iff]
      unfold alignedLength at hlen
      omega
    obtain ⟨r, hr, hrsign⟩ := adjustPrecisionFrom_sign s sign hW hdig hne
      (by omega) (m := m) (by omega) (by unfold alignedLength at hlen; omega)
      (by rcases hval with ⟨-, -, hv⟩ | ⟨-, -, hv⟩ <;> omega)
    refine ⟨r, hok.trans hr, ?_⟩
    by_cases heq : aligned m a = aligned m b
    · have hzero : value 10 digits = 0 := by
        rcases hval with ⟨-, -, hv⟩ | ⟨-, -, hv⟩ <;> omega
      rw [hrsign, if_pos (.inl hzero), signDiff, heq, sub_self, sign_zero, mul_zero,
        ite_self]
    · have hlong : digits.length = W + 1 ↔
          10 ^ W ≤ max (aligned m a) (aligned m b) := by
        rw [le_max_iff, hpa, hpb]
        omega
      have hlost : (value 10 digits = 0 ∨ digits.length = W + 1 ∧ value 10 digits < 5) ↔
          LosesDifference W a b := by
        rw [hiff, hlong]
        rcases hval with ⟨hle, -, hv⟩ | ⟨hle, -, hv⟩
        · rw [max_eq_left hle, min_eq_right hle]
          omega
        · rw [max_eq_right hle, min_eq_left hle]
          omega
      simp only [hrsign, hlost]
      by_cases hloses : LosesDifference W a b
      · rw [if_pos hloses, if_pos hloses, sign_zero]
      · rw [if_neg hloses, if_neg hloses, signDiff]
        rcases hval with ⟨hle, hs, -⟩ | ⟨hle, hs, -⟩
        · rw [hs, sign_pos (a := (aligned m a : Int) - _) (by omega), mul_one]
        · rw [hs, hright, sign_neg (a := (aligned m a : Int) - _) (by omega),
            mul_neg_one, Left.sign_neg]

def cut (n : NumberString) (count : Nat) : NumberString :=
  { n with number := n.number.take (n.length - count), exp := n.exp + count }

theorem not_losesDifference_of_length {a b : NumberString} {W : Nat} {m : Int}
    (hm : m = min a.exp b.exp) (ha : a.Normalized) (ha0 : a.sign ≠ 0)
    (hlong : W + 1 < alignedLength m a) : ¬ LosesDifference W a b := by
  rintro ⟨-, -, hmax, -⟩
  rw [← hm] at hmax
  have hlo := (aligned_bounds (m := m) ha ha0).1
  have hpow : 10 ^ (W + 1) ≤ 10 ^ ((a.exp - m).toNat + a.length - 1) := by
    apply Nat.pow_le_pow_right (by norm_num)
    unfold alignedLength at hlong
    omega
  have hpos : 0 < 10 ^ W := by positivity
  have hten : 10 ^ (W + 1) = 10 * 10 ^ W := pow_succ' 10 W
  omega

theorem losesDifference_comm {a b : NumberString} {W : Nat} :
    LosesDifference W a b ↔ LosesDifference W b a := by
  unfold LosesDifference
  rw [min_comm a.exp b.exp, max_comm, min_comm (aligned _ a) (aligned _ b)]
  constructor <;> rintro ⟨hsign, h0, h⟩ <;> exact ⟨hsign.symm, hsign ▸ h0, h⟩

theorem length_cut {n : NumberString} {count : Nat} (h : count ≤ n.length) :
    ((n.cut count).length : Int) = n.length - count := by
  simp only [cut, length, List.length_take] at *
  omega

theorem digits_cut {n : NumberString} {m : Int} {count : Nat} (h : count ≤ n.length) :
    (Operand.at m (n.cut count)).digits n = (n.cut count).number.reverse := by
  have hlen := length_cut h
  have hnat : ((n.cut count).length : Int).toNat = n.length - count := by omega
  simp only [Operand.digits, Operand.at, hnat]
  rfl

theorem trim_at {high low : NumberString} {m : Int} {count : Nat} (hlow : count ≤ low.length)
    (hroom : (count : Int) < high.exp - m) :
    adjustOperands.trim (Operand.at m high) (Operand.at m low) count =
      (Operand.at (m + count) high, Operand.at (m + count) (low.cut count), 0) := by
  have hlen := length_cut hlow
  have hhigh : ({ Operand.at m high with aExp := (Operand.at m high).aExp - count } :
      Operand) = Operand.at (m + count) high := by
    simp only [Operand.at, Operand.mk.injEq, true_and, and_true]
    omega
  have hcut : (⟨low.exp + count, low.length - count, low.exp - m, low.length - count⟩ :
      Operand) = Operand.at (m + count) (low.cut count) := by
    simp only [Operand.at, hlen, Operand.mk.injEq, true_and, and_true]
    exact ⟨rfl, by simp only [cut]; omega⟩
  rw [adjustOperands.trim, if_pos (by exact hroom), hhigh]
  exact congrArg _ (congrArg (·, (0 : Int)) hcut)

theorem adjustOperands_cut_right {left right : NumberString} {W count : Nat} {m : Int}
    (hm : m = right.exp) (hl : left.length ≤ W) (hr : right.length ≤ W)
    (hpos : 1 ≤ count) (hle : count ≤ right.length)
    (hcount : (count : Int) = left.exp - m + left.length - (W + 1)) :
    adjustOperands (Operand.at m left) (Operand.at m right) (W + 1) =
      (Operand.at (m + count) left, Operand.at (m + count) (right.cut count)) := by
  have hl' : (left.length : Int) + (left.exp - m) - (W + 1 : Nat) = count := by omega
  have hmax : (if (count : Int) ≥ right.length + (right.exp - m) - (W + 1 : Nat) then
      (count : Int) else right.length + (right.exp - m) - (W + 1 : Nat)) = count :=
    if_pos (by omega)
  have hexp : left.exp - m ≠ 0 := by omega
  simp only [adjustOperands, Operand.at_aExp, Operand.at_length, hl', hmax]
  rw [if_pos (by omega)]
  simp only [if_pos hexp, trim_at hle (show (count : Int) < left.exp - m by omega)]
  rfl

theorem adjustOperands_cut_left {left right : NumberString} {W count : Nat} {m : Int}
    (hm : m = left.exp) (hl : left.length ≤ W) (hr : right.length ≤ W)
    (hpos : 1 ≤ count) (hle : count ≤ left.length)
    (hcount : (count : Int) = right.exp - m + right.length - (W + 1)) :
    adjustOperands (Operand.at m left) (Operand.at m right) (W + 1) =
      (Operand.at (m + count) (left.cut count), Operand.at (m + count) right) := by
  have hr' : (right.length : Int) + (right.exp - m) - (W + 1 : Nat) = count := by omega
  have hmax : (if left.length + (left.exp - m) - (W + 1 : Nat) ≥ (count : Int) then
      left.length + (left.exp - m) - (W + 1 : Nat) else (count : Int)) = count :=
    if_neg (by omega)
  have hexp : ¬ left.exp - m ≠ 0 := by omega
  have hexp' : right.exp - m ≠ 0 := by omega
  simp only [adjustOperands, Operand.at_aExp, Operand.at_length, hr', hmax]
  rw [if_pos (by omega)]
  simp only [if_neg hexp, if_pos hexp',
    trim_at hle (show (count : Int) < right.exp - m by omega)]
  rfl

theorem subtractNumbers_cut {high low : NumberString} {W : Nat} {m : Int} {count : Nat}
    (hW : 1 ≤ W) (hhigh : high.Normalized) (hlow : low.Normalized) (h0 : high.sign ≠ 0)
    (hlen : low.length ≤ W) (hcount : 1 ≤ count) (hle : count ≤ low.length)
    (hm : m = low.exp + count) (hmh : m < high.exp)
    (halign : alignedLength m high = W + 1) :
    ∃ digits,
      subtractNumbers high.number.reverse (high.exp - m).toNat
          (low.cut count).number.reverse 0 = .ok digits ∧
        IsDigits 10 digits ∧ digits.length = W + 1 ∧ 5 ≤ value 10 digits ∧
        value 10 digits ≤ aligned m high := by
  have hcutlen := length_cut hle
  have hexp : ((low.cut count).exp - m).toNat = 0 := by
    simp only [cut]
    omega
  have hbig := (pow_le_aligned_iff hhigh h0 hmh.le halign.le).mpr halign
  have hsmall : aligned m (low.cut count) < 10 ^ (W - 1) := by
    have hdig : IsDigits 10 (low.cut count).number := hlow.digits.take _
    have hlt := value_lt (b := 10) (by norm_num) hdig
    rw [aligned, hexp, pow_zero, mul_one]
    exact hlt.trans_le (Nat.pow_le_pow_right (by norm_num)
      (by simp only [length] at hcutlen hlen; omega))
  have hten : 10 ^ W = 10 * 10 ^ (W - 1) := by
    rw [← pow_succ', Nat.sub_add_cancel hW]
  obtain ⟨digits, hok, hdig, hdlen, hval⟩ := subtractNumbers_at
    (by simp only [cut]; omega : m = min high.exp (low.cut count).exp) hhigh.digits
    (hlow.digits.take _) (by unfold alignedLength at *; simp only [cut] at *; omega) (by omega)
  rw [hexp] at hok
  exact ⟨digits, hok, hdig, by omega, by omega, by omega⟩

theorem adjustPrecisionFrom_cut_sign (s : Settings) {high : NumberString} {W : Nat}
    {m : Int} (sign : Int) {digits : List Nat} (hW : 1 ≤ W) (hhigh : high.Normalized)
    (h0 : high.sign ≠ 0) (hlen : high.length ≤ W) (hlow : -maxNum ≤ m) (hm : m ≤ high.exp)
    (halign : alignedLength m high = W + 1) (hdig : IsDigits 10 digits)
    (hdlen : digits.length = W + 1) (hlo : 5 ≤ value 10 digits)
    (hhi : value 10 digits ≤ aligned m high) :
    ∃ r, (new s sign m []).adjustPrecisionFrom s digits digits.length W = .ok r ∧
      r.sign = sign := by
  have hlt := aligned_add_lt hhigh h0 hlen hm halign.le
  have hupp := hhigh.exp_upper
  obtain ⟨r, hr, hsign⟩ := adjustPrecisionFrom_sign s sign hW hdig
    (by rw [← List.length_pos_iff]; omega) hdlen.le hlow
    (by unfold alignedLength at halign; omega) (by omega)
  exact ⟨r, hr, by rw [hsign, if_neg (by omega)]⟩

theorem addSub_sign_left {s : Settings} {a b : NumberString} {W : Nat} {m : Int}
    (hW : 1 ≤ W) (hs : W ≤ s.digits) (hm : m = min a.exp b.exp) (ha : a.Normalized)
    (hb : b.Normalized) (hla : a.length ≤ W) (hlb : b.length ≤ W)
    (ha0 : a.sign ≠ 0) (hsign : a.sign = b.sign)
    (hlong : W + 1 < alignedLength m a) :
    ∃ r, addSub s a b .minus W = .ok r ∧ r.sign = a.sign := by
  have hb0 : b.sign ≠ 0 := hsign ▸ ha0
  have hright : rightSign .minus b ≠ a.sign := by
    simp only [rightSign, if_true]
    omega
  unfold alignedLength at hlong
  have hbexp : m = b.exp := by omega
  rw [addSub_at .minus hm (hla.trans W.le_succ) (hlb.trans W.le_succ)]
  by_cases hdom : a.exp - m + a.length > b.length + W
  · have hd : dominant a b (Operand.at m a) (Operand.at m b) W = some false := by
      rw [dominant, if_neg ha0, if_neg hb0, if_pos]
      exact hdom
    rw [hd]
    simp only [Bool.false_eq_true, if_false, false_and]
    exact ⟨_, setupNumber_of_le (hla.trans hs), rfl⟩
  · have hd : dominant a b (Operand.at m a) (Operand.at m b) W = none := by
      rw [dominant, if_neg ha0, if_neg hb0, if_neg, if_neg]
      · simp only [Operand.at_aExp, Operand.at_length]
        omega
      · exact hdom
    obtain ⟨count, hcount⟩ : ∃ count : Nat,
        (count : Int) = a.exp - m + a.length - (W + 1) :=
      ⟨_, Int.toNat_of_nonneg (by omega)⟩
    have hle : count ≤ b.length := by omega
    have hlow := ha.exp_lower
    have hlow' := hb.exp_lower
    obtain ⟨digits, hok, hdig, hdlen, hlo, hhi⟩ := subtractNumbers_cut
      (m := m + count) hW ha hb ha0 hlb (by omega) hle (by omega) (by omega)
      (by unfold alignedLength; omega)
    obtain ⟨r, hr, hrsign⟩ := adjustPrecisionFrom_cut_sign s (m := m + count)
      a.sign hW ha ha0 hla (by omega) (by omega)
      (by unfold alignedLength; omega) hdig hdlen hlo hhi
    refine ⟨r, ?_, hrsign⟩
    have hlen := length_cut hle
    have hsub : subtractOperands a b (Operand.at (m + count) a)
        (Operand.at (m + count) (b.cut count)) (rightSign .minus b) =
          .ok (digits, m + count, a.sign) := by
      have hcutexp : (b.cut count).exp = m + count := by
        simp only [cut]
        omega
      have hexp : a.exp - (m + count) ≠ 0 := by omega
      simp only [subtractOperands, Operand.digits_at, digits_cut hle, Operand.at_aExp,
        Operand.at_length, Operand.at_exp, hcutexp, sub_self, Int.toNat_zero, hok, hlen]
      rw [if_pos (by omega), if_pos hexp]
      rfl
    rw [hd]
    simp only [adjustOperands_cut_right hbexp hla hlb (by omega) hle hcount, hsub]
    rw [if_pos hright, if_neg (by omega)]
    exact hr

theorem addSub_sign_right {s : Settings} {a b : NumberString} {W : Nat} {m : Int}
    (hW : 1 ≤ W) (hs : W ≤ s.digits) (hm : m = min a.exp b.exp) (ha : a.Normalized)
    (hb : b.Normalized) (hla : a.length ≤ W) (hlb : b.length ≤ W)
    (ha0 : a.sign ≠ 0) (hsign : a.sign = b.sign)
    (hlong : W + 1 < alignedLength m b) :
    ∃ r, addSub s a b .minus W = .ok r ∧ r.sign = -a.sign := by
  have hb0 : b.sign ≠ 0 := hsign ▸ ha0
  have hright : rightSign .minus b = -a.sign := by
    rw [hsign]
    rfl
  unfold alignedLength at hlong
  have haexp : m = a.exp := by omega
  rw [addSub_at .minus hm (hla.trans W.le_succ) (hlb.trans W.le_succ)]
  by_cases hdom : b.exp - m + b.length > a.length + W
  · have hd : dominant a b (Operand.at m a) (Operand.at m b) W = some true := by
      rw [dominant, if_neg ha0, if_neg hb0, if_neg, if_pos]
      · exact hdom
      · simp only [Operand.at_aExp, Operand.at_length]
        omega
    rw [hd]
    simp only [if_true, true_and]
    exact ⟨_, setupNumber_of_le (hlb.trans hs), congrArg (-·) hsign.symm⟩
  · have hd : dominant a b (Operand.at m a) (Operand.at m b) W = none := by
      rw [dominant, if_neg ha0, if_neg hb0, if_neg, if_neg]
      · exact hdom
      · simp only [Operand.at_aExp, Operand.at_length]
        omega
    obtain ⟨count, hcount⟩ : ∃ count : Nat,
        (count : Int) = b.exp - m + b.length - (W + 1) :=
      ⟨_, Int.toNat_of_nonneg (by omega)⟩
    have hle : count ≤ a.length := by omega
    have hlow := ha.exp_lower
    have hlow' := hb.exp_lower
    obtain ⟨digits, hok, hdig, hdlen, hlo, hhi⟩ := subtractNumbers_cut
      (m := m + count) hW hb ha hb0 hla (by omega) hle (by omega) (by omega)
      (by unfold alignedLength; omega)
    obtain ⟨r, hr, hrsign⟩ := adjustPrecisionFrom_cut_sign s (m := m + count)
      (-a.sign) hW hb hb0 hlb (by omega) (by omega)
      (by unfold alignedLength; omega) hdig hdlen hlo hhi
    refine ⟨r, ?_, hrsign⟩
    have hlen := length_cut hle
    have hsub : subtractOperands a b (Operand.at (m + count) (a.cut count))
        (Operand.at (m + count) b) (rightSign .minus b) =
          .ok (digits, m + count, -a.sign) := by
      have hcutexp : (a.cut count).exp = m + count := by
        simp only [cut]
        omega
      simp only [subtractOperands, Operand.digits_at, digits_cut hle, Operand.at_aExp,
        Operand.at_length, Operand.at_exp, hcutexp, sub_self, Int.toNat_zero, hok, hlen,
        hright]
      rw [if_neg (by omega), if_pos (by omega)]
      rfl
    rw [hd]
    simp only [adjustOperands_cut_left haexp hla hlb (by omega) hle hcount, hsub]
    rw [if_pos (by omega), if_neg (by omega)]
    exact hr

theorem addSub_sign {s : Settings} {a b : NumberString} {W : Nat} {m : Int}
    (hW : 1 ≤ W) (hs : W ≤ s.digits) (hm : m = min a.exp b.exp) (ha : a.Normalized)
    (hb : b.Normalized) (hla : a.length ≤ W) (hlb : b.length ≤ W)
    (ha0 : a.sign ≠ 0) (hsign : a.sign = b.sign) :
    ∃ r, addSub s a b .minus W = .ok r ∧ SignType.sign r.sign =
      if LosesDifference W a b then 0 else SignType.sign a.sign * signDiff m a b := by
  have hb0 : b.sign ≠ 0 := hsign ▸ ha0
  by_cases haw : alignedLength m a ≤ W + 1
  · by_cases hbw : alignedLength m b ≤ W + 1
    · exact addSub_sign_window hW hm ha hb hla hlb ha0 hsign haw hbw
    · have hlong := not_le.mp hbw
      obtain ⟨r, hr, hrsign⟩ :=
        addSub_sign_right hW hs hm ha hb hla hlb ha0 hsign hlong
      have hlt : aligned m a < aligned m b :=
        aligned_lt_of_length ha hb ha0 hb0 (by omega) (by omega)
          (by unfold alignedLength at *; omega)
      have hkeep := not_losesDifference_of_length (hm.trans (min_comm _ _)) hb hb0 hlong
      refine ⟨r, hr, ?_⟩
      rw [hrsign, if_neg (mt losesDifference_comm.mp hkeep), signDiff,
        sign_neg (a := (aligned m a : Int) - _) (by omega), mul_neg_one, Left.sign_neg]
  · have hlong := not_le.mp haw
    obtain ⟨r, hr, hrsign⟩ := addSub_sign_left hW hs hm ha hb hla hlb ha0 hsign hlong
    have hlt : aligned m b < aligned m a :=
      aligned_lt_of_length hb ha hb0 ha0 (by omega) (by omega)
        (by unfold alignedLength at *; omega)
    have hkeep := not_losesDifference_of_length hm ha ha0 hlong
    refine ⟨r, hr, ?_⟩
    rw [hrsign, if_neg hkeep, signDiff,
      sign_pos (a := (aligned m a : Int) - _) (by omega), mul_one]

/-! ## The comparison as a whole -/

def FitsAligned (W : Nat) (a b : NumberString) : Prop :=
  alignedLength (min a.exp b.exp) a ≤ W ∧ alignedLength (min a.exp b.exp) b ≤ W

instance (W : Nat) (a b : NumberString) : Decidable (FitsAligned W a b) := by
  unfold FitsAligned
  infer_instance

theorem not_losesDifference_of_fits {a b : NumberString} {W : Nat} (ha : a.Normalized)
    (hb : b.Normalized) (hfits : FitsAligned W a b) : ¬ LosesDifference W a b := by
  rintro ⟨hsign, ha0, hmax, -⟩
  have hlt : ∀ n : NumberString, n.Normalized → n.sign ≠ 0 → min a.exp b.exp ≤ n.exp →
      alignedLength (min a.exp b.exp) n ≤ W → aligned (min a.exp b.exp) n < 10 ^ W := by
    intro n hn h0 hle hlen
    refine (aligned_bounds hn h0).2.trans_le (Nat.pow_le_pow_right (by norm_num) ?_)
    unfold alignedLength at hlen
    omega
  have hlta := hlt a ha ha0 (min_le_left _ _) hfits.1
  have hltb := hlt b hb (hsign ▸ ha0) (min_le_right _ _) hfits.2
  omega

theorem comp_same_sign (s : Settings) {a b : NumberString} (ha0 : a.sign ≠ 0)
    (hsign : a.sign = b.sign) :
    comp s a b =
      if FitsAligned (s.digits - s.fuzz) a b then
        .ok (compAligned a b (alignedLength (min a.exp b.exp) a)
          (alignedLength (min a.exp b.exp) b))
      else do
        let result ← addSub s a b .minus (s.digits - s.fuzz)
        return result.sign := by
  have hmin : (if b.exp < a.exp then b.exp else a.exp) = min a.exp b.exp := by
    split <;> omega
  simp only [comp, hmin]
  rw [if_neg (by simpa using hsign), if_neg (hsign ▸ ha0), if_neg ha0]
  rfl

theorem sign_cast (z : Int) : SignType.sign (z : ℚ) = SignType.sign z := by
  rcases lt_trichotomy z 0 with h | rfl | h
  · rw [sign_neg h, sign_neg (by exact_mod_cast h)]
  · simp
  · rw [sign_pos h, sign_pos (by exact_mod_cast h)]

theorem sign_toRat {n : NumberString} (h : n.Normalized) :
    SignType.sign n.toRat = SignType.sign n.sign := by
  by_cases h0 : n.sign = 0
  · simp [toRat, h0]
  · rw [toRat, sign_mul, sign_pos (h.decimal_pos h0), mul_one, sign_cast]

theorem sign_sub_toRat {a b : NumberString} (hsign : a.sign = b.sign) :
    SignType.sign (a.toRat - b.toRat) =
      SignType.sign a.sign * signDiff (min a.exp b.exp) a b := by
  have hexact := exact_eq_aligned .minus (min_le_left a.exp b.exp) (min_le_right a.exp b.exp)
  have hfactor : a.toRat - b.toRat = (a.sign : ℚ) *
      (((aligned (min a.exp b.exp) a : Int) - aligned (min a.exp b.exp) b : Int) : ℚ) *
        10 ^ min a.exp b.exp := by
    rw [← show Operation.exact .minus a.toRat b.toRat = a.toRat - b.toRat from rfl, hexact,
      rightSign, if_pos rfl, ← hsign]
    push_cast
    ring
  have hpos : (0 : ℚ) < 10 ^ min a.exp b.exp := by positivity
  rw [hfactor, sign_mul, sign_mul, sign_pos hpos, mul_one, sign_cast, sign_cast]
  rfl

theorem toRat_lt_of_sign_lt {a b : NumberString} (ha : a.Normalized) (hb : b.Normalized)
    (hlt : a.sign < b.sign) : a.toRat < b.toRat := by
  have hneg {n : NumberString} (h : n.Normalized) : n.sign < 0 ↔ n.toRat < 0 := by
    rw [← sign_eq_neg_one_iff, ← sign_toRat h, sign_eq_neg_one_iff]
  have hpos {n : NumberString} (h : n.Normalized) : 0 < n.sign ↔ 0 < n.toRat := by
    rw [← sign_eq_one_iff, ← sign_toRat h, sign_eq_one_iff]
  by_cases h0 : a.sign < 0
  · have hcb := hb.sign_cases
    by_cases hb0 : b.sign < 0
    · have hca := ha.sign_cases
      omega
    · exact ((hneg ha).mp h0).trans_le (not_lt.mp (mt (hneg hb).mpr hb0))
  · have hbpos : 0 < b.sign := by omega
    have hcb := hb.sign_cases
    exact (not_lt.mp (mt (hpos ha).mpr (by omega))).trans_lt ((hpos hb).mp hbpos)

theorem comp_different_sign (s : Settings) {a b : NumberString} (ha : a.Normalized)
    (hb : b.Normalized) (hsign : a.sign ≠ b.sign) :
    ∃ r, comp s a b = .ok r ∧ SignType.sign r = SignType.sign (a.toRat - b.toRat) := by
  refine ⟨_, if_pos hsign, ?_⟩
  rcases lt_or_gt_of_ne hsign with hlt | hgt
  · rw [if_pos hlt, sign_neg (sub_neg.mpr (toRat_lt_of_sign_lt ha hb hlt))]
    rfl
  · rw [if_neg hgt.not_gt, sign_pos (sub_pos.mpr (toRat_lt_of_sign_lt hb ha hgt))]
    rfl

theorem comp_sign {s : Settings} {a b : NumberString} (hD : 1 ≤ s.digits)
    (ha : a.Normalized) (hb : b.Normalized) (hla : a.length ≤ s.digits)
    (hlb : b.length ≤ s.digits) :
    ∃ r, comp { s with fuzz := 0 } a b = .ok r ∧ SignType.sign r =
      if LosesDifference s.digits a b then 0
      else SignType.sign (a.toRat - b.toRat) := by
  by_cases hsign : a.sign = b.sign
  · by_cases ha0 : a.sign = 0
    · have hkeep : ¬ LosesDifference s.digits a b := fun h => h.2.1 ha0
      have hb0 : b.sign = 0 := hsign ▸ ha0
      have hzero : comp { s with fuzz := 0 } a b = .ok a.sign := by
        rw [comp, if_neg (by simpa using hsign), if_pos hb0]
      refine ⟨_, hzero, ?_⟩
      rw [if_neg hkeep, (toRat_eq_zero_iff ha).mpr ha0, (toRat_eq_zero_iff hb).mpr hb0, ha0]
      simp
    · have hb0 : b.sign ≠ 0 := hsign ▸ ha0
      rw [comp_same_sign _ ha0 hsign, sign_sub_toRat hsign]
      by_cases hfits : FitsAligned s.digits a b
      · refine ⟨_, if_pos hfits, ?_⟩
        rw [if_neg (not_losesDifference_of_fits ha hb hfits)]
        exact sign_compAligned ha hb ha0 hb0 rfl
      · obtain ⟨r, hr, hrsign⟩ := addSub_sign (s := { s with fuzz := 0 }) hD le_rfl rfl ha hb hla
          hlb ha0 hsign
        refine ⟨r.sign, (if_neg hfits).trans ?_, hrsign⟩
        simp only [Nat.sub_zero, hr]
        rfl
  · have hkeep : ¬ LosesDifference s.digits a b := fun h => hsign h.1
    rw [if_neg hkeep]
    exact comp_different_sign _ ha hb hsign

def PathsAgree (s : Settings) (a b : NumberString) : Prop :=
  a.sign = b.sign → a.sign ≠ 0 → ∀ fuzz, fuzz < s.digits →
    FitsAligned (s.digits - fuzz) a b →
      ∃ r, addSub { s with fuzz := fuzz } a b .minus (s.digits - fuzz) = .ok r ∧
        comp { s with fuzz := fuzz } a b =
          .ok (compAligned a b (alignedLength (min a.exp b.exp) a)
            (alignedLength (min a.exp b.exp) b)) ∧
        SignType.sign (compAligned a b (alignedLength (min a.exp b.exp) a)
          (alignedLength (min a.exp b.exp) b)) = SignType.sign r.sign

theorem pathsAgree {s : Settings} {a b : NumberString} (ha : a.Normalized)
    (hb : b.Normalized) : PathsAgree s a b := by
  intro hsign ha0 fuzz hfuzz hfits
  have hb0 : b.sign ≠ 0 := hsign ▸ ha0
  have hla : a.length ≤ s.digits - fuzz := by
    have := hfits.1
    unfold alignedLength at this
    omega
  have hlb : b.length ≤ s.digits - fuzz := by
    have := hfits.2
    unfold alignedLength at this
    omega
  obtain ⟨r, hr, hrsign⟩ := addSub_sign (s := { s with fuzz := fuzz }) (W := s.digits - fuzz)
    (by omega) (by dsimp only; omega) rfl ha hb hla hlb ha0 hsign
  refine ⟨r, hr, ?_, ?_⟩
  · rw [comp_same_sign _ ha0 hsign]
    exact if_pos hfits
  · rw [hrsign, if_neg (not_losesDifference_of_fits ha hb hfits)]
    exact sign_compAligned ha hb ha0 hb0 rfl

/--
The comparison of `a` with `b`: the two paths agree for every `FUZZ`, and
without one the result is the sign of `a - b`.
-/
def ComparesExactly (s : Settings) (a b : NumberString) : Prop :=
  PathsAgree s a b ∧ ∃ r, comp { s with fuzz := 0 } a b = .ok r ∧
    SignType.sign r = SignType.sign (a.toRat - b.toRat)

theorem comp_exact_iff {s : Settings} {a b : NumberString} (hD : 1 ≤ s.digits)
    (ha : a.Normalized) (hb : b.Normalized) (hla : a.length ≤ s.digits)
    (hlb : b.length ≤ s.digits) :
    ComparesExactly s a b ↔ ¬ LosesDifference s.digits a b := by
  obtain ⟨r, hr, hsign⟩ := comp_sign hD ha hb hla hlb
  constructor
  · rintro ⟨-, r', hr', hsign'⟩ hloses
    obtain rfl : r = r' := by
      rw [hr] at hr'
      injection hr'
    rw [if_pos hloses, hsign', sign_sub_toRat hloses.1] at hsign
    obtain ⟨-, ha0, hmax, hmin, -⟩ := hloses
    rcases mul_eq_zero.mp hsign with hzero | hzero
    · exact ha0 (sign_eq_zero_iff.mp hzero)
    · have hdiff := sign_eq_zero_iff.mp hzero
      have heq : aligned (min a.exp b.exp) a = aligned (min a.exp b.exp) b := by omega
      rw [heq, max_self] at hmax
      rw [heq, min_self] at hmin
      omega
  · intro hkeep
    rw [if_neg hkeep] at hsign
    exact ⟨pathsAgree ha hb, r, hr, hsign⟩

theorem comp_exact_iff_one_half :
    ComparesExactly ⟨3, 0, .scientific⟩ ⟨1, 0, [1], 3, true⟩ ⟨1, -1, [5], 3, true⟩ ↔
      ¬ LosesDifference 3 ⟨1, 0, [1], 3, true⟩ ⟨1, -1, [5], 3, true⟩ :=
  comp_exact_iff (s := ⟨3, 0, .scientific⟩) (by decide) (by decide) (by decide) (by decide)
    (by decide)

/-- In three digits `1 = .999`, `.999 > .998` and `.998 = 1`. -/
theorem comp_one_999 :
    comp ⟨3, 0, .scientific⟩ ⟨1, 0, [1], 3, true⟩ ⟨1, -3, [9, 9, 9], 3, true⟩ = .ok 0 ∧
      comp ⟨3, 0, .scientific⟩ ⟨1, -3, [9, 9, 9], 3, true⟩ ⟨1, -3, [9, 9, 8], 3, true⟩ =
        .ok 1 ∧
      comp ⟨3, 0, .scientific⟩ ⟨1, -3, [9, 9, 8], 3, true⟩ ⟨1, 0, [1], 3, true⟩ = .ok 0 ∧
      (⟨1, 0, [1], 3, true⟩ : NumberString).Normalized ∧
      (⟨1, -3, [9, 9, 9], 3, true⟩ : NumberString).Normalized ∧
      ¬ ComparesExactly ⟨3, 0, .scientific⟩ ⟨1, 0, [1], 3, true⟩
        ⟨1, -3, [9, 9, 9], 3, true⟩ := by
  have hcomp : comp ⟨3, 0, .scientific⟩ ⟨1, 0, [1], 3, true⟩
      ⟨1, -3, [9, 9, 9], 3, true⟩ = .ok 0 := by decide
  refine ⟨hcomp, by decide, by decide, by decide, by decide, ?_⟩
  rintro ⟨-, r, hr, hsign⟩
  rw [hcomp] at hr
  obtain rfl : 0 = r := by injection hr
  have hzero := sign_eq_zero_iff.mp (hsign.symm.trans sign_zero)
  simp [toRat, decimal, Decimal.toRat, value_cons] at hzero
  norm_num at hzero

end NumberString

end LeooRexx
