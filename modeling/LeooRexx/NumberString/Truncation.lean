import LeooRexx.NumberString.StringValue
import Mathlib.Algebra.Order.Floor.Semifield

/-!
# Truncation

`truncInternal` computes the length of its result before it fills the string from the front, in
four layouts: a number without decimals, one with digits on both sides of the point, one that
begins so far behind the point that nothing is left of it, and one that begins behind the point.
-/

namespace LeooRexx

open Positional DecimalRounding

structure RawCursor where
  result : RawString
  resultPtr : Int

namespace RawCursor

def write (c : RawCursor) (text : List UInt8) : Outcome RawCursor := do
  let result ← c.result.put c.resultPtr text
  return ⟨result, c.resultPtr + text.length⟩

def filledTo (text : List UInt8) (gap : Nat) : RawCursor :=
  ⟨RawString.filled text gap [], text.length⟩

theorem write_filledTo (done text rest : List UInt8) :
    (filledTo done (text ++ rest).length).write text =
      .ok (filledTo (done ++ text) rest.length) := by
  have hcells : (RawString.filled done (text ++ rest).length []).cells =
      done.map some ++ (List.replicate text.length none ++ List.replicate rest.length none) := by
    simp only [RawString.filled, List.map_nil, List.append_nil, List.length_append]
    rw [List.replicate_add]
  have hput : (RawString.filled done (text ++ rest).length []).put done.length text =
      .ok (RawString.filled (done ++ text) rest.length []) := by
    have hpos : (done.length : Int).toNat = (done.map (some : UInt8 → _)).length := by simp
    rw [RawString.put, hcells, if_pos, hpos, List.take_left, ← List.drop_drop, List.drop_left,
      List.drop_left' (by simp)]
    · simp [RawString.filled]
    · simp
  rw [write, filledTo]
  dsimp only
  rw [hput, Outcome.ok_bind, filledTo, List.length_append, Nat.cast_add]
  rfl

end RawCursor

namespace NumberString

def fillDigits (c : RawCursor) (number : List Nat) : Outcome RawCursor :=
  c.write (number.map digitChar)

/-- `memset(resultPtr, '0', count)`. -/
def fillZeros (c : RawCursor) (count : Int) : Outcome RawCursor :=
  c.write (List.replicate count.toNat chZero)

/-- The size of the result and the sign that is written; none for `IntegerZero`. -/
def truncSize (n : NumberString) (neededDigits : Nat) : Option (Int × Int) :=
  let decimals : Int := if neededDigits ≠ 0 then neededDigits + 1 else 0
  let sized :=
    if n.exp > 0 then some (n.length + n.exp + decimals, n.sign)
    else
      let integerDigits := n.length + n.exp
      if integerDigits > 0 then some (integerDigits + decimals, n.sign)
      else if neededDigits = 0 then none
      else if neededDigits ≤ -integerDigits then some ((neededDigits : Int) + 2, 0)
      else some ((neededDigits : Int) + 2, n.sign)
  sized.map fun (size, sign) => (if sign < 0 then size + 1 else size, sign)

def truncFill (n : NumberString) (neededDigits : Nat) (c : RawCursor) : Outcome RawCursor :=
  if n.exp > 0 then do
    let c ← fillDigits c n.number
    let c ← fillZeros c n.exp
    if neededDigits ≠ 0 then
      let c ← c.write [chPeriod]
      fillZeros c neededDigits
    else pure c
  else
    let integerDigits := n.length + n.exp
    if integerDigits > 0 then do
      let c ← fillDigits c (n.number.take integerDigits.toNat)
      if neededDigits ≠ 0 then
        let c ← c.write [chPeriod]
        let temp := min (neededDigits : Int) (n.length - integerDigits)
        let c ← fillDigits c ((n.number.drop integerDigits.toNat).take temp.toNat)
        fillZeros c (neededDigits - temp)
      else pure c
    else do
      -- the NUL that `strcpy` adds is overwritten, as there are decimals
      let c ← c.write [chZero, chPeriod]
      if neededDigits ≤ -integerDigits then fillZeros c neededDigits
      else
        let c ← fillZeros c (-integerDigits)
        let neededDigits := neededDigits + integerDigits
        let temp := min neededDigits n.length
        let c ← fillDigits c (n.number.take temp.toNat)
        fillZeros c (neededDigits - temp)

/-- The string value of `IntegerZero`. -/
def integerZero : RawString := RawString.filled [chZero] 0 []

/-- `if (sign < 0) *resultPtr++ = '-'`. -/
def putMinus (c : RawCursor) (sign : Int) : Outcome RawCursor :=
  if sign < 0 then c.write [chMinus] else .ok c

def truncInternal (n : NumberString) (neededDigits : Nat) : Outcome RawString :=
  if n.sign = 0 then
    if neededDigits = 0 then .ok integerZero
    else do
      let c : RawCursor := ⟨RawString.new (neededDigits + 2), 0⟩
      let c ← c.write [chZero, chPeriod]
      let c ← fillZeros c neededDigits
      return c.result
  else
    match n.truncSize neededDigits with
    | none => .ok integerZero
    | some (size, sign) => do
        let c : RawCursor := ⟨RawString.new size, 0⟩
        let c ← putMinus c sign
        let c ← n.truncFill neededDigits c
        return c.result

/-! ## What the string is filled with -/

theorem fillDigits_filledTo (done rest : List UInt8) (ds : List Nat) :
    fillDigits (.filledTo done (digitText ds ++ rest).length) ds =
      .ok (.filledTo (done ++ digitText ds) rest.length) :=
  RawCursor.write_filledTo done (digitText ds) rest

theorem fillZeros_filledTo (done rest : List UInt8) {count : Int} {k : Nat} (h : count = k) :
    fillZeros (.filledTo done (digitText (List.replicate k 0) ++ rest).length) count =
      .ok (.filledTo (done ++ digitText (List.replicate k 0)) rest.length) := by
  have hzeros : digitText (List.replicate k 0) = List.replicate k chZero := by
    rw [digitText, List.map_replicate]
    rfl
  rw [hzeros, fillZeros, h, Int.toNat_natCast]
  exact RawCursor.write_filledTo done _ rest

def fixedText (whole fraction : List Nat) : List UInt8 :=
  digitText whole ++ if fraction = [] then [] else chPeriod :: digitText fraction

def minusText (sign : Int) : List UInt8 := if sign < 0 then [chMinus] else []

theorem truncInternal_of_fill {n : NumberString} (k : Nat) (sign : Int)
    {whole fraction : List Nat} (h0 : n.sign ≠ 0)
    (hsize : n.truncSize k =
      some (((minusText sign ++ fixedText whole fraction).length : Int), sign))
    (hfill : ∀ done, n.truncFill k (.filledTo done (fixedText whole fraction).length) =
      .ok (.filledTo (done ++ fixedText whole fraction) 0)) :
    ∃ out, n.truncInternal k = .ok out ∧ out.Complete ∧
      out.chars = minusText sign ++ fixedText whole fraction := by
  refine ⟨.filled (minusText sign ++ fixedText whole fraction) 0 [], ?_,
    RawString.complete_filled _ _, by rw [RawString.chars_filled, List.append_nil]⟩
  have hnew : (⟨.new ((minusText sign ++ fixedText whole fraction).length : Int), 0⟩ : RawCursor) =
      .filledTo [] (minusText sign ++ fixedText whole fraction).length := by
    rw [RawString.new_natCast]
    rfl
  have hminus :
      putMinus (.filledTo [] (minusText sign ++ fixedText whole fraction).length) sign =
        .ok (.filledTo (minusText sign) (fixedText whole fraction).length) := by
    unfold putMinus minusText
    split
    · exact RawCursor.write_filledTo [] [chMinus] _
    · rfl
  rw [truncInternal, if_neg h0, hsize]
  dsimp only
  rw [hnew, hminus, Outcome.ok_bind, hfill, Outcome.ok_bind]
  rfl

/-! ## The layouts -/

theorem isDigits_zeros (k : Nat) : IsDigits 10 (List.replicate k 0) :=
  isDigits_replicate_zero (by norm_num) k

theorem truncFill_whole {n : NumberString} {k z : Nat} (hexp : n.exp = z) (hz : 0 < z)
    (done : List UInt8) :
    n.truncFill k (.filledTo done (fixedText (n.number ++ List.replicate z 0)
      (List.replicate k 0)).length) =
      .ok (.filledTo (done ++ fixedText (n.number ++ List.replicate z 0)
        (List.replicate k 0)) 0) := by
  have htext : fixedText (n.number ++ List.replicate z 0) (List.replicate k 0) =
      digitText n.number ++ (digitText (List.replicate z 0) ++
        if k = 0 then [] else [chPeriod] ++ (digitText (List.replicate k 0) ++ [])) := by
    simp [fixedText, digitText]
  rw [htext, truncFill, if_pos (by omega), fillDigits_filledTo, Outcome.ok_bind,
    fillZeros_filledTo _ _ hexp, Outcome.ok_bind]
  by_cases hk : k = 0
  · simp only [hk, if_true, ne_eq, not_true_eq_false, if_false, List.append_nil,
      List.append_assoc]
    rfl
  · simp only [hk, if_false, ne_eq, not_false_eq_true, if_true]
    rw [RawCursor.write_filledTo, Outcome.ok_bind, fillZeros_filledTo _ _ rfl]
    simp only [List.append_nil, List.append_assoc]
    rfl

def cutText (ds : List Nat) (k : Nat) : List Nat :=
  ds.take k ++ List.replicate (k - ds.length) 0

theorem length_cutText (ds : List Nat) (k : Nat) : (cutText ds k).length = k := by
  simp [cutText]
  omega

theorem cutText_eq_nil_iff {ds : List Nat} {k : Nat} : cutText ds k = [] ↔ k = 0 := by
  rw [← List.length_eq_zero_iff, length_cutText]

theorem isDigits_cutText {ds : List Nat} (h : IsDigits 10 ds) (k : Nat) :
    IsDigits 10 (cutText ds k) :=
  isDigits_append.mpr ⟨h.take k, isDigits_zeros _⟩

theorem fillCut_filledTo (done : List UInt8) (ds : List Nat) {k : Nat} {temp count : Int}
    (htemp : temp = min (k : Int) ds.length) (hcount : count = k - temp) :
    (fillDigits (.filledTo done (digitText (cutText ds k)).length) (ds.take temp.toNat) >>=
        fun c => fillZeros c count) =
      .ok (.filledTo (done ++ digitText (cutText ds k)) 0) := by
  have htake : ds.take temp.toNat = ds.take k := by
    rcases le_total k ds.length with hk | hk
    · congr 1
      omega
    · rw [List.take_of_length_le hk, List.take_of_length_le (by omega)]
  have hzeros : count = (k - ds.length : Nat) := by omega
  have htext : digitText (cutText ds k) = digitText (ds.take k) ++
      (digitText (List.replicate (k - ds.length) 0) ++ []) := by
    simp [cutText, digitText]
  rw [htake, htext, fillDigits_filledTo, Outcome.ok_bind, fillZeros_filledTo _ _ hzeros,
    List.append_nil, List.append_assoc]
  rfl

theorem truncFill_split {n : NumberString} {k i : Nat} (hexp : n.exp ≤ 0)
    (hi : (n.length : Int) + n.exp = i) (hpos : 0 < i) (done : List UInt8) :
    n.truncFill k (.filledTo done
        (fixedText (n.number.take i) (cutText (n.number.drop i) k)).length) =
      .ok (.filledTo
        (done ++ fixedText (n.number.take i) (cutText (n.number.drop i) k)) 0) := by
  have hlen : n.length = n.number.length := rfl
  have htext : fixedText (n.number.take i) (cutText (n.number.drop i) k) =
      digitText (n.number.take i) ++
        if k = 0 then [] else [chPeriod] ++ digitText (cutText (n.number.drop i) k) := by
    simp only [fixedText, cutText_eq_nil_iff, List.singleton_append]
  rw [htext, truncFill, if_neg (by omega)]
  simp only [hi]
  rw [if_pos (by omega), Int.toNat_natCast, fillDigits_filledTo, Outcome.ok_bind]
  by_cases hk : k = 0
  · simp only [hk, if_true, ne_eq, not_true_eq_false, if_false, List.append_nil]
    rfl
  · simp only [hk, if_false, ne_eq, not_false_eq_true, if_true]
    rw [RawCursor.write_filledTo, Outcome.ok_bind,
      fillCut_filledTo _ (n.number.drop i) (by rw [List.length_drop]; omega) rfl]
    simp only [List.append_assoc]

theorem truncFill_vanished {n : NumberString} {k : Nat} (hexp : n.exp ≤ 0)
    (hzeros : (k : Int) ≤ -(n.length + n.exp)) (hk : k ≠ 0) (done : List UInt8) :
    n.truncFill k (.filledTo done (fixedText [0] (List.replicate k 0)).length) =
      .ok (.filledTo (done ++ fixedText [0] (List.replicate k 0)) 0) := by
  have htext : fixedText [0] (List.replicate k 0) =
      [chZero, chPeriod] ++ (digitText (List.replicate k 0) ++ []) := by
    simp only [fixedText, List.replicate_eq_nil_iff, hk, if_false, List.append_nil]
    rfl
  rw [htext, truncFill, if_neg (by omega)]
  dsimp only
  rw [if_neg (by omega), RawCursor.write_filledTo, Outcome.ok_bind, if_pos hzeros,
    fillZeros_filledTo _ _ rfl]
  simp only [List.append_nil, List.append_assoc]
  rfl

theorem truncFill_behind {n : NumberString} {k z : Nat} (hexp : n.exp ≤ 0)
    (hz : -((n.length : Int) + n.exp) = z) (hk : z < k) (done : List UInt8) :
    n.truncFill k (.filledTo done
        (fixedText [0] (List.replicate z 0 ++ cutText n.number (k - z))).length) =
      .ok (.filledTo
        (done ++ fixedText [0] (List.replicate z 0 ++ cutText n.number (k - z))) 0) := by
  have hlen : n.length = n.number.length := rfl
  have hne : List.replicate z 0 ++ cutText n.number (k - z) ≠ [] := by
    rw [← List.length_pos_iff, List.length_append, length_cutText]
    omega
  have htext : fixedText [0] (List.replicate z 0 ++ cutText n.number (k - z)) =
      [chZero, chPeriod] ++
        (digitText (List.replicate z 0) ++ digitText (cutText n.number (k - z))) := by
    rw [fixedText, if_neg hne]
    simp [digitText]
    rfl
  rw [htext, truncFill, if_neg (by omega)]
  dsimp only
  rw [if_neg (by omega), RawCursor.write_filledTo, Outcome.ok_bind, if_neg (by omega),
    fillZeros_filledTo _ _ hz, Outcome.ok_bind,
    fillCut_filledTo _ n.number (k := k - z) (by omega) (by omega)]
  simp only [List.append_assoc]

/-! ## What a truncation is -/

/--
The text of the number truncated at `k` decimals: whole digits without leading zeros, `k` digits
behind a point, and a minus sign when a negative number is not truncated to zero.
-/
def IsTruncation (n : NumberString) (k : Nat) (text : List UInt8) : Prop :=
  ∃ whole fraction, IsDigits 10 whole ∧ IsDigits 10 fraction ∧
    (whole = [0] ∨ ∃ d ds, whole = d :: ds ∧ 0 < d) ∧ fraction.length = k ∧
    value 10 (whole ++ fraction) = ⌊|n.toRat| * 10 ^ k⌋₊ ∧
    text = (if n.sign < 0 ∧ value 10 (whole ++ fraction) ≠ 0 then [chMinus] else []) ++
      fixedText whole fraction

theorem floor_whole {n : NumberString} {z : Nat} (h : n.Normalized) (h0 : n.sign ≠ 0)
    (hexp : n.exp = z) (k : Nat) :
    ⌊|n.toRat| * 10 ^ k⌋₊ = value 10 n.number * 10 ^ (z + k) := by
  have hscaled : |n.toRat| * 10 ^ k = (value 10 n.number * 10 ^ (z + k) : ℕ) := by
    rw [abs_toRat h h0, decimal, Decimal.toRat, hexp, zpow_natCast]
    push_cast
    rw [pow_add, mul_assoc]
  rw [hscaled, Nat.floor_natCast]

theorem floor_split {n : NumberString} {m : Nat} (h : n.Normalized) (h0 : n.sign ≠ 0)
    (hexp : n.exp = -m) (k : Nat) :
    ⌊|n.toRat| * 10 ^ k⌋₊ = value 10 n.number * 10 ^ k / 10 ^ m := by
  have hscaled : |n.toRat| * 10 ^ k =
      ((value 10 n.number * 10 ^ k : ℕ) : ℚ) / ((10 ^ m : ℕ) : ℚ) := by
    rw [abs_toRat h h0, decimal, Decimal.toRat, hexp, zpow_neg, zpow_natCast]
    push_cast
    ring
  rw [hscaled, Nat.floor_div_eq_div]

theorem value_append_cutText {pre post : List Nat} (hpre : IsDigits 10 pre)
    (hpost : IsDigits 10 post) (k : Nat) :
    value 10 (pre ++ cutText post k) =
      value 10 (pre ++ post) * 10 ^ k / 10 ^ post.length := by
  have hdigits : IsDigits 10 (pre ++ post) := isDigits_append.mpr ⟨hpre, hpost⟩
  rcases le_total k post.length with hk | hk
  · have htake : pre ++ cutText post k = (pre ++ post).take (pre.length + k) := by
      rw [cutText, Nat.sub_eq_zero_of_le hk, List.take_length_add_append]
      simp
    have hcut : (pre ++ post).length - (pre.length + k) = post.length - k := by
      rw [List.length_append]
      omega
    have hpow : 10 ^ post.length = 10 ^ (post.length - k) * 10 ^ k := by
      rw [← pow_add, Nat.sub_add_cancel hk]
    rw [htake, value_take (by norm_num) hdigits, hcut, hpow,
      Nat.mul_div_mul_right _ _ (by positivity)]
  · have hpow : 10 ^ k = 10 ^ (k - post.length) * 10 ^ post.length := by
      rw [← pow_add, Nat.sub_add_cancel hk]
    rw [cutText, List.take_of_length_le hk, ← List.append_assoc, value_append_zeros, hpow,
      ← mul_assoc, Nat.mul_div_cancel _ (by positivity)]

theorem cutText_leading (d : Nat) (ds : List Nat) {k : Nat} (hk : 0 < k) :
    ∃ rest, cutText (d :: ds) k = d :: rest := by
  obtain ⟨j, rfl⟩ := Nat.exists_eq_add_of_lt hk
  exact ⟨_, rfl⟩

theorem value_ne_zero_of_leading {d : Nat} (hd : 0 < d) (ds : List Nat) :
    value 10 (d :: ds) ≠ 0 := by
  have hle := le_value_cons (b := 10) hd ds
  have hpos : 0 < 10 ^ ds.length := by positivity
  omega

theorem minusText_of_ne {n : NumberString} {v : Nat} (hv : v ≠ 0) :
    minusText n.sign = if n.sign < 0 ∧ v ≠ 0 then [chMinus] else [] := by
  simp only [minusText, hv, ne_eq, not_false_eq_true, and_true]

/-! ## The results -/

section Layouts

variable {n : NumberString} (h : n.Normalized) (h0 : n.sign ≠ 0)

include h h0

theorem truncInternal_whole (k : Nat) (hexp : 0 < n.exp) :
    ∃ out, n.truncInternal k = .ok out ∧ out.Complete ∧ n.IsTruncation k out.chars := by
  obtain ⟨z, hz⟩ : ∃ z : Nat, n.exp = z := ⟨n.exp.toNat, by omega⟩
  obtain ⟨d, ds, hds, hd⟩ := h.leading h0
  have hlen : n.length = n.number.length := rfl
  obtain ⟨out, hout, hcomplete, hchars⟩ := truncInternal_of_fill k n.sign h0
    (by
      rw [truncSize, if_pos hexp, Option.map_some]
      congr 2
      simp only [minusText, fixedText, List.replicate_eq_nil_iff]
      split_ifs <;> simp_all <;> omega)
    (truncFill_whole (k := k) hz (by omega))
  refine ⟨out, hout, hcomplete, _, _, isDigits_append.mpr ⟨h.digits, isDigits_zeros z⟩,
    isDigits_zeros k, .inr ⟨d, ds ++ List.replicate z 0, by rw [hds]; rfl, hd⟩,
    List.length_replicate, ?_, ?_⟩
  · rw [List.append_assoc, ← List.replicate_add, value_append_zeros, floor_whole h h0 hz]
  · rw [hchars, ← minusText_of_ne]
    rw [hds, List.append_assoc]
    exact value_ne_zero_of_leading hd _

theorem truncInternal_split (k : Nat) (hexp : n.exp ≤ 0) (hpos : 0 < (n.length : Int) + n.exp) :
    ∃ out, n.truncInternal k = .ok out ∧ out.Complete ∧ n.IsTruncation k out.chars := by
  obtain ⟨i, hi⟩ : ∃ i : Nat, (n.length : Int) + n.exp = i :=
    ⟨_, (Int.toNat_of_nonneg hpos.le).symm⟩
  obtain ⟨d, ds, hds, hd⟩ := h.leading h0
  have hlen : n.length = n.number.length := rfl
  obtain ⟨out, hout, hcomplete, hchars⟩ := truncInternal_of_fill k n.sign h0
    (by
      rw [truncSize, if_neg (by omega)]
      simp only [hi]
      rw [if_pos (by omega), Option.map_some]
      congr 2
      simp only [minusText, fixedText, cutText_eq_nil_iff]
      split_ifs <;> simp_all [length_cutText] <;> omega)
    (truncFill_split (k := k) hexp hi (by omega))
  have htake : n.number.take i = d :: ds.take (i - 1) := by
    rw [hds, List.take_cons (by omega)]
  refine ⟨out, hout, hcomplete, _, _, h.digits.take i, isDigits_cutText (h.digits.drop i) k,
    .inr ⟨d, _, htake, hd⟩, length_cutText _ _, ?_, ?_⟩
  · rw [value_append_cutText (h.digits.take i) (h.digits.drop i), List.take_append_drop,
      List.length_drop, floor_split h h0 (m := n.number.length - i) (by omega)]
  · rw [hchars, ← minusText_of_ne]
    rw [htake, List.cons_append]
    exact value_ne_zero_of_leading hd _

theorem truncInternal_vanished (k : Nat) (hzeros : (k : Int) ≤ -(n.length + n.exp)) :
    ∃ out, n.truncInternal k = .ok out ∧ out.Complete ∧ n.IsTruncation k out.chars := by
  have hlen : n.length = n.number.length := rfl
  have hlength := h.length_pos
  obtain ⟨m, hm⟩ : ∃ m : Nat, n.exp = -m := ⟨n.exp.natAbs, by omega⟩
  have hvalue : value 10 ([0] ++ List.replicate k 0) = ⌊|n.toRat| * 10 ^ k⌋₊ := by
    have hlt := value_lt (b := 10) (by norm_num) h.digits
    have hsmall : value 10 n.number * 10 ^ k < 10 ^ m := by
      calc value 10 n.number * 10 ^ k < 10 ^ n.number.length * 10 ^ k := by gcongr
        _ = 10 ^ (n.number.length + k) := (pow_add ..).symm
        _ ≤ 10 ^ m := Nat.pow_le_pow_right (by norm_num) (by omega)
    rw [floor_split h h0 hm, Nat.div_eq_of_lt hsmall, value_append_zeros]
    simp
  have hzero : value 10 ([0] ++ List.replicate k 0) = 0 := by simp
  by_cases hk : k = 0
  · subst hk
    refine ⟨integerZero, ?_, RawString.complete_filled _ _, [0], [], by simp, by simp, .inl rfl,
      rfl, hvalue, ?_⟩
    · rw [truncInternal, if_neg h0, truncSize, if_neg (by omega)]
      simp only [if_neg (show ¬ (n.length : Int) + n.exp > 0 by omega), if_true]
      rfl
    · rw [if_neg fun hneg => hneg.2 hzero]
      rfl
  · obtain ⟨out, hout, hcomplete, hchars⟩ := truncInternal_of_fill k 0 h0
      (by
        rw [truncSize, if_neg (by omega)]
        simp only [if_neg (show ¬ (n.length : Int) + n.exp > 0 by omega), if_neg hk, if_pos hzeros]
        simp [minusText, fixedText, hk]
        omega)
      (truncFill_vanished (by omega) hzeros hk)
    refine ⟨out, hout, hcomplete, [0], _, by simp, isDigits_zeros k, .inl rfl,
      List.length_replicate, hvalue, ?_⟩
    rw [hchars, if_neg fun hneg => hneg.2 hzero]
    rfl

theorem truncInternal_behind (k : Nat) (hexp : n.exp ≤ 0) (hpos : (n.length : Int) + n.exp ≤ 0)
    (hk : -((n.length : Int) + n.exp) < k) :
    ∃ out, n.truncInternal k = .ok out ∧ out.Complete ∧ n.IsTruncation k out.chars := by
  obtain ⟨z, hz⟩ : ∃ z : Nat, -((n.length : Int) + n.exp) = z :=
    ⟨_, (Int.toNat_of_nonneg (by omega)).symm⟩
  obtain ⟨d, ds, hds, hd⟩ := h.leading h0
  have hlen : n.length = n.number.length := rfl
  have hne : List.replicate z 0 ++ cutText n.number (k - z) ≠ [] := by
    rw [← List.length_pos_iff, List.length_append, length_cutText]
    omega
  obtain ⟨out, hout, hcomplete, hchars⟩ := truncInternal_of_fill k n.sign h0
    (by
      rw [truncSize, if_neg (by omega)]
      simp only [if_neg (show ¬ (n.length : Int) + n.exp > 0 by omega),
        if_neg (show ¬ k = 0 by omega), if_neg (show ¬ (k : Int) ≤ -(n.length + n.exp) by omega)]
      rw [Option.map_some]
      congr 2
      simp only [minusText, fixedText, if_neg hne]
      split_ifs <;> simp_all [length_cutText] <;> omega)
    (truncFill_behind hexp hz (by omega))
  have hvalue : value 10 ([0] ++ (List.replicate z 0 ++ cutText n.number (k - z))) =
      value 10 (cutText n.number (k - z)) := by
    rw [value_append, value_append]
    simp
  refine ⟨out, hout, hcomplete, [0], List.replicate z 0 ++ cutText n.number (k - z), by simp,
    isDigits_append.mpr ⟨isDigits_zeros z, isDigits_cutText h.digits _⟩, .inl rfl, ?_, ?_, ?_⟩
  · rw [List.length_append, length_cutText, List.length_replicate]
    omega
  · have hcut := value_append_cutText (isDigits_nil (b := 10)) h.digits (k - z)
    have hscale : value 10 n.number * 10 ^ k / 10 ^ (n.number.length + z) =
        value 10 n.number * 10 ^ (k - z) / 10 ^ n.number.length := by
      have hpow : 10 ^ k = 10 ^ (k - z) * 10 ^ z := by
        rw [← pow_add, Nat.sub_add_cancel (by omega)]
      rw [pow_add, hpow, ← mul_assoc, Nat.mul_div_mul_right _ _ (by positivity)]
    rw [hvalue, floor_split h h0 (m := n.number.length + z) (by omega), hscale]
    simpa using hcut
  · rw [hchars, ← minusText_of_ne]
    obtain ⟨rest, hrest⟩ := cutText_leading d ds (show 0 < k - z by omega)
    rw [hvalue, hds, hrest]
    exact value_ne_zero_of_leading hd rest

end Layouts

theorem truncInternal_zero {n : NumberString} (h0 : n.sign = 0) (k : Nat) :
    ∃ out, n.truncInternal k = .ok out ∧ out.Complete ∧ n.IsTruncation k out.chars := by
  have hfloor : ⌊|n.toRat| * 10 ^ k⌋₊ = 0 := by simp [toRat, h0]
  have hsign : ¬(n.sign < 0 ∧ value 10 ([0] ++ List.replicate k 0) ≠ 0) := by omega
  by_cases hk : k = 0
  · subst hk
    refine ⟨integerZero, ?_, RawString.complete_filled _ _, [0], [], by simp, by simp, .inl rfl,
      rfl, ?_, ?_⟩
    · rw [truncInternal, if_pos h0, if_pos rfl]
    · rw [hfloor]
      rfl
    · rw [if_neg (by omega)]
      rfl
  · have htext : fixedText [0] (List.replicate k 0) =
        [chZero, chPeriod] ++ (digitText (List.replicate k 0) ++ []) := by
      simp only [fixedText, List.replicate_eq_nil_iff, hk, if_false, List.append_nil]
      rfl
    have hnew : (⟨.new ((k : Int) + 2), 0⟩ : RawCursor) =
        .filledTo [] (fixedText [0] (List.replicate k 0)).length := by
      have hsize : (k : Int) + 2 = ((fixedText [0] (List.replicate k 0)).length : Nat) := by
        rw [htext]
        simp
        omega
      rw [hsize, RawString.new_natCast]
      rfl
    refine ⟨.filled (fixedText [0] (List.replicate k 0)) 0 [], ?_, RawString.complete_filled _ _,
      [0], _, by simp, isDigits_zeros k, .inl rfl, List.length_replicate, ?_, ?_⟩
    · rw [truncInternal, if_pos h0, if_neg hk]
      dsimp only
      rw [hnew, htext, RawCursor.write_filledTo, Outcome.ok_bind, fillZeros_filledTo _ _ rfl]
      simp only [Outcome.ok_bind, List.append_nil]
      rfl
    · rw [hfloor]
      simp
    · rw [if_neg hsign, RawString.chars_filled, List.append_nil]
      rfl

theorem truncInternal_truncates {n : NumberString} (h : n.Normalized) (k : Nat) :
    ∃ out, n.truncInternal k = .ok out ∧ out.Complete ∧ n.IsTruncation k out.chars := by
  by_cases h0 : n.sign = 0
  · exact truncInternal_zero h0 k
  · rcases lt_or_ge 0 n.exp with hexp | hexp
    · exact truncInternal_whole h h0 k hexp
    · rcases lt_or_ge 0 ((n.length : Int) + n.exp) with hpos | hpos
      · exact truncInternal_split h h0 k hexp hpos
      · rcases le_or_gt (k : Int) (-(n.length + n.exp)) with hzeros | hk
        · exact truncInternal_vanished h h0 k hzeros
        · exact truncInternal_behind h h0 k hexp hpos hk

/-- `trunc(-0.0375, 3)` is `-0.037`. -/
theorem truncInternal_truncates_fraction :
    ∃ out, (⟨-1, -4, [3, 7, 5], 9, true⟩ : NumberString).truncInternal 3 = .ok out ∧
      out.Complete ∧ (⟨-1, -4, [3, 7, 5], 9, true⟩ : NumberString).IsTruncation 3 out.chars :=
  truncInternal_truncates (by decide) 3

end NumberString

end LeooRexx
