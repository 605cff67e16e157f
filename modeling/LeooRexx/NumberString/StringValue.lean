import Mathlib
import LeooRexx.NumberString.Recognition

/-!
# The string value of a number

`stringValue` computes the size of the string and the position of the point
before it fills the string, mostly from its end.  A string under construction
keeps which of its characters are still missing and counts the characters
written, so that a size that does not fit shows.
-/

namespace LeooRexx

open Positional DecimalRounding

/-- `RexxString` as `raw_string` makes it. -/
structure RawString where
  cells : List (Option UInt8)
  written : Nat
  deriving DecidableEq, Repr

namespace RawString

def new (size : Int) : RawString := ⟨List.replicate size.toNat none, 0⟩

def put (out : RawString) (pos : Int) (text : List UInt8) : Outcome RawString :=
  if 0 ≤ pos ∧ pos + text.length ≤ out.cells.length then
    .ok ⟨out.cells.take pos.toNat ++
        (text.map some ++ out.cells.drop (pos.toNat + text.length)),
      out.written + text.length⟩
  else .error .outOfBounds

def putChar (out : RawString) (pos : Int) (ch : UInt8) : Outcome RawString :=
  out.put pos [ch]

def set (out : RawString) (pos : Int) (ch : UInt8) (count : Int) : Outcome RawString :=
  out.put pos (List.replicate count.toNat ch)

def chars (out : RawString) : List UInt8 := out.cells.map (·.getD 0)

def Complete (out : RawString) : Prop :=
  none ∉ out.cells ∧ out.written = out.cells.length

def filled (pre : List UInt8) (gap : Nat) (suf : List UInt8) : RawString :=
  ⟨pre.map some ++ (List.replicate gap none ++ suf.map some), pre.length + suf.length⟩

theorem new_natCast (size : Nat) : new size = filled [] size [] := by
  simp [new, filled]

theorem put_back {pre : List UInt8} {pos : Int} {full : Nat} (text suf : List UInt8)
    (gap : Nat) (hpos : pos = pre.length + gap) (hfull : full = gap + text.length) :
    (filled pre full suf).put pos text = .ok (filled pre gap (text ++ suf)) := by
  have hcells : (filled pre full suf).cells =
      (pre.map some ++ List.replicate gap none) ++
        (List.replicate text.length none ++ suf.map some) := by
    simp only [filled, List.append_assoc, hfull]
    rw [List.replicate_add, List.append_assoc]
  have hnat : pos.toNat = (pre.map some ++ List.replicate gap none).length := by
    simp
    omega
  rw [put, hcells, if_pos, hnat, List.take_left, ← List.drop_drop, List.drop_left,
    List.drop_left' (by simp)]
  · simp [filled]
    omega
  · simp
    omega

theorem put_front (pre suf : List UInt8) (gap : Nat) (ch : UInt8) :
    (filled pre (gap + 1) suf).putChar pre.length ch =
      .ok (filled (pre ++ [ch]) gap suf) := by
  have hcells : (filled pre (gap + 1) suf).cells =
      pre.map some ++ ([none] ++ (List.replicate gap none ++ suf.map some)) := by
    simp [filled, List.replicate_succ]
  have hpos : (pre.length : Int).toNat = (pre.map (some : UInt8 → _)).length := by simp
  rw [putChar, put, hcells, if_pos, hpos, List.take_left, ← List.drop_drop,
    List.drop_left, List.drop_left' (by simp)]
  · simp [filled]
    omega
  · simp
    omega

theorem set_back {pre : List UInt8} {pos : Int} {full : Nat} (ch : UInt8) (count : Nat)
    (suf : List UInt8) (gap : Nat) (hpos : pos = pre.length + gap)
    (hfull : full = gap + count) :
    (filled pre full suf).set pos ch count =
      .ok (filled pre gap (List.replicate count ch ++ suf)) := by
  rw [RawString.set, Int.toNat_natCast]
  exact put_back _ suf gap hpos (by rwa [List.length_replicate])

theorem putChar_back {pre : List UInt8} {pos : Int} (ch : UInt8) (suf : List UInt8)
    (gap : Nat) (hpos : pos = pre.length + gap) :
    (filled pre (gap + 1) suf).putChar pos ch = .ok (filled pre gap (ch :: suf)) :=
  put_back [ch] suf gap hpos rfl

theorem chars_filled (pre suf : List UInt8) : (filled pre 0 suf).chars = pre ++ suf := by
  simp [filled, chars, Function.comp_def]

theorem complete_filled (pre suf : List UInt8) : (filled pre 0 suf).Complete := by
  simp [filled, Complete]

end RawString

namespace NumberString

open RawString

/-! ## The conversion -/

def chE : UInt8 := 69

/-- `number[numindex] + ch_ZERO`. -/
def digitChar (digit : Nat) : UInt8 := UInt8.ofNat digit + chZero

def ltoa (i : Int) : List UInt8 :=
  if i = 0 then [chZero]
  else if i < 0 then chMinus :: (numeral 10 i.natAbs).map digitChar
  else (numeral 10 i.natAbs).map digitChar

/-- The loops that step back from `charpos`, over the digits from the last on. -/
def putDigits (out : RawString) (charpos : Int) :
    List Nat → Outcome (RawString × Int)
  | [] => .ok (out, charpos)
  | digit :: digits => do
      let out ← out.putChar (charpos - 1) (digitChar digit)
      putDigits out (charpos - 1) digits

def putDigitsForward (out : RawString) (charpos : Int) :
    List Nat → Outcome RawString
  | [] => .ok out
  | digit :: digits => do
      let out ← out.putChar charpos (digitChar digit)
      putDigitsForward out (charpos + 1) digits

/-- `expstring`, which is only filled for an exponent other than 0. -/
def expstring (temp : Int) : List UInt8 :=
  if temp < 0 then chE :: ltoa temp
  else if temp > 0 then chE :: chPlus :: ltoa temp
  else []

def exponentFactor (n : NumberString) : Outcome Int :=
  let temp := n.exp + n.length - 1
  if temp ≥ n.numDigits ∨ |n.exp| > n.numDigits * 2 then
    let temp :=
      if n.numFormScientific then temp
      else (if temp < 0 then temp - 2 else temp).tdiv 3 * 3
    if |temp| > maxNum then
      if temp > maxNum then .error (.raised (.overflowExpoverflow temp 9))
      else .error (.raised (.overflowExpunderflow temp 9))
    else .ok temp
  else .ok 0

def maxNumSize (n : NumberString) (expValue : Int) (expFactor : Int) : Int :=
  let size :=
    if expValue ≥ 0 then expValue + n.length
    else if |expValue| ≥ n.length then |expValue| + 2
    else n.length + 1
  let size := if expFactor ≠ 0 then size + (expstring expFactor).length else size
  if n.sign < 0 then size + 1 else size

def putNumber (n : NumberString) (out : RawString) (charpos temp : Int) :
    Outcome RawString :=
  if temp ≤ 0 then do
    let (out, charpos) ← putDigits out charpos n.number.reverse
    let temp := -temp
    let (out, charpos) ←
      if temp ≠ 0 then do
        let out ← out.set (charpos - temp) chZero temp
        .ok (out, charpos - temp)
      else .ok (out, charpos)
    let out ← out.putChar (charpos - 1) chPeriod
    out.putChar (charpos - 1 - 1) chZero
  else if temp ≥ n.length then do
    let temp := temp - n.length
    let out ← out.set (charpos - temp) chZero temp
    let (out, _) ← putDigits out (charpos - temp) n.number.reverse
    .ok out
  else do
    let (out, charpos) ← putDigits out charpos (n.number.drop temp.toNat).reverse
    let out ← out.putChar (charpos - 1) chPeriod
    let (out, _) ← putDigits out (charpos - 1) (n.number.take temp.toNat).reverse
    .ok out

def putSign (n : NumberString) (out : RawString) : Outcome RawString :=
  if n.sign < 0 then out.putChar 0 chMinus else .ok out

def putExponent (out : RawString) (charpos expFactor : Int) : Outcome RawString :=
  if expFactor ≠ 0 then out.put charpos (expstring expFactor) else .ok out

def stringValue (n : NumberString) : Outcome RawString :=
  if n.sign = 0 then .ok ⟨[some chZero], 1⟩
  else if n.exp = 0 then do
    let out := RawString.new (if n.sign < 0 then n.length + 1 else n.length)
    let out ← n.putSign out
    putDigitsForward out (if n.sign < 0 then 1 else 0) n.number
  else if n.exp + n.length - 1 > maxNum ∨ n.exp < -maxNum then
    .error (.raised (.conversionOperator n))
  else do
    let expFactor ← n.exponentFactor
    let expValue := n.exp - expFactor
    let size := n.maxNumSize expValue expFactor
    let out ← n.putSign (RawString.new size)
    let charpos := size - (expstring expFactor).length
    let out ← putExponent out charpos expFactor
    n.putNumber out charpos (expValue + n.length)

/-! ## What the loops write -/

def digitText (ds : List Nat) : List UInt8 := ds.map digitChar

theorem putDigits_back (pre suf : List UInt8) (gap : Nat) (ds : List Nat) :
    putDigits (filled pre (gap + ds.length) suf) (pre.length + gap + ds.length) ds =
      .ok (filled pre gap (digitText ds.reverse ++ suf), pre.length + gap) := by
  induction ds generalizing suf with
  | nil => simp [putDigits, digitText]
  | cons d ds ih =>
      have hpos : (pre.length : Int) + gap + (d :: ds).length - 1 =
          pre.length + gap + ds.length := by
        simp only [List.length_cons]
        omega
      rw [putDigits, hpos, putChar,
        put_back [digitChar d] suf (gap + ds.length) (by omega) (by simp; omega),
        Outcome.ok_bind, ih]
      simp [digitText]

theorem putDigits_reverse {pre : List UInt8} {charpos : Int} {full : Nat}
    (suf : List UInt8) (gap : Nat) (ds : List Nat)
    (hpos : charpos = pre.length + gap + ds.length) (hfull : full = gap + ds.length) :
    putDigits (filled pre full suf) charpos ds.reverse =
      .ok (filled pre gap (digitText ds ++ suf), pre.length + gap) := by
  have h := putDigits_back pre suf gap ds.reverse
  rwa [List.length_reverse, List.reverse_reverse, ← hfull, ← hpos] at h

theorem putDigitsForward_front (pre : List UInt8) (ds : List Nat) :
    putDigitsForward (filled pre ds.length []) pre.length ds =
      .ok (filled (pre ++ digitText ds) 0 []) := by
  induction ds generalizing pre with
  | nil => simp [putDigitsForward, digitText]
  | cons d ds ih =>
      have h := ih (pre ++ [digitChar d])
      rw [List.length_append, List.length_singleton, Nat.cast_add, Nat.cast_one] at h
      rw [putDigitsForward, List.length_cons, put_front, Outcome.ok_bind, h]
      simp [digitText]

/-! ## The layouts -/

def wholeText (n : NumberString) (temp : Int) : List UInt8 :=
  if temp ≤ 0 then [chZero]
  else if temp ≥ n.length then
    digitText n.number ++ List.replicate (temp - n.length).toNat chZero
  else digitText (n.number.take temp.toNat)

def fractionText (n : NumberString) (temp : Int) : Option (List UInt8) :=
  if temp ≤ 0 then some (List.replicate (-temp).toNat chZero ++ digitText n.number)
  else if temp ≥ n.length then none
  else some (digitText (n.number.drop temp.toNat))

def bodyText (n : NumberString) (temp : Int) : List UInt8 :=
  n.wholeText temp ++ Literal.pointText (n.fractionText temp)

def signText (n : NumberString) : List UInt8 := if n.sign < 0 then [chMinus] else []

@[simp] theorem length_digitText (ds : List Nat) : (digitText ds).length = ds.length :=
  List.length_map ..

theorem length_signText (n : NumberString) :
    (n.signText.length : Int) = if n.sign < 0 then 1 else 0 := by
  unfold signText
  split <;> rfl

theorem putSign_filled (n : NumberString) (gap : Nat) (suf : List UInt8) :
    n.putSign (filled [] (n.signText.length + gap) suf) =
      .ok (filled n.signText gap suf) := by
  unfold putSign signText
  split
  · rw [List.length_singleton, add_comm]
    exact put_front [] suf gap chMinus
  · rw [List.length_nil, zero_add]

theorem putExponent_filled (pre : List UInt8) (gap : Nat) (expFactor : Int) :
    putExponent (filled pre (gap + (expstring expFactor).length) [])
        (pre.length + gap) expFactor =
      .ok (filled pre gap (expstring expFactor)) := by
  unfold putExponent
  by_cases hf : expFactor = 0
  · simp [hf, expstring]
  · rw [if_pos hf, put_back _ _ _ rfl rfl, List.append_nil]

theorem putNumber_filled (n : NumberString) (pre suf : List UInt8) (temp : Int) :
    n.putNumber (filled pre (n.bodyText temp).length suf)
        (pre.length + (n.bodyText temp).length) temp =
      .ok (filled pre 0 (n.bodyText temp ++ suf)) := by
  have hlen : (n.length : Int) = n.number.length := rfl
  unfold putNumber bodyText wholeText fractionText
  split
  · case isTrue h =>
    obtain ⟨k, rfl⟩ : ∃ k : Nat, temp = -k := ⟨(-temp).toNat, by omega⟩
    have hpoint (suf : List UInt8) :
        ((filled pre 2 suf).putChar ((pre.length : Int) + 2 - 1) chPeriod >>= fun out =>
          out.putChar ((pre.length : Int) + 2 - 1 - 1) chZero) =
            .ok (filled pre 0 (chZero :: chPeriod :: suf)) := by
      rw [putChar_back chPeriod _ 1 (by omega), Outcome.ok_bind,
        putChar_back chZero _ 0 (by omega)]
    rw [putDigits_reverse suf (2 + k) n.number (by simp [Literal.pointText]; omega)
      (by simp [Literal.pointText]; omega), Outcome.ok_bind]
    by_cases hk : k = 0
    · subst hk
      simpa [Literal.pointText] using hpoint (digitText n.number ++ suf)
    · have hback : (pre.length : Int) + (2 + k : Nat) - k = pre.length + 2 := by omega
      simp only [neg_neg, hback]
      rw [if_pos (by omega), set_back chZero k _ 2 (by omega) rfl, Outcome.ok_bind,
        Outcome.ok_bind]
      simpa [Literal.pointText] using
        hpoint (List.replicate k chZero ++ (digitText n.number ++ suf))
  · case isFalse h =>
    obtain ⟨k, rfl⟩ : ∃ k : Nat, temp = k := ⟨temp.toNat, by omega⟩
    split
    · case isTrue hle =>
      obtain ⟨z, hz⟩ : ∃ z : Nat, (k : Int) - n.length = z := ⟨k - n.length, by omega⟩
      simp only [hz, Int.toNat_natCast]
      rw [set_back chZero z suf n.number.length (by simp [Literal.pointText]; omega)
        (by simp [Literal.pointText]), Outcome.ok_bind,
        putDigits_reverse _ 0 n.number (by simp [Literal.pointText]; omega) (by simp)]
      simp [Literal.pointText]
    · case isFalse hle =>
      simp only [Int.toNat_natCast]
      rw [putDigits_reverse suf (k + 1) (n.number.drop k)
        (by simp [Literal.pointText]; omega) (by simp [Literal.pointText]; omega),
        Outcome.ok_bind]
      simp only
      rw [putChar_back chPeriod _ k (by omega), Outcome.ok_bind,
        putDigits_reverse _ 0 (n.number.take k) (by simp; omega) (by simp; omega)]
      simp [Literal.pointText]

theorem expstring_zero : expstring 0 = [] := by simp [expstring]

theorem maxNumSize_eq {n : NumberString} (h : n.Normalized) (expValue expFactor : Int) :
    n.maxNumSize expValue expFactor =
      n.signText.length + (n.bodyText (expValue + n.length)).length +
        (expstring expFactor).length := by
  have hpos := h.length_pos
  have hlen : n.length = n.number.length := rfl
  have hbody : ((n.bodyText (expValue + n.length)).length : Int) =
      if expValue ≥ 0 then expValue + n.length
      else if |expValue| ≥ n.length then |expValue| + 2
      else n.length + 1 := by
    unfold bodyText wholeText fractionText
    split
    · case isTrue hle =>
      rw [if_neg (by omega), abs_of_neg (by omega), if_pos (by omega)]
      simp [Literal.pointText]
      omega
    · case isFalse hle =>
      split
      · case isTrue hge =>
        rw [if_pos (by omega)]
        simp [Literal.pointText]
        omega
      · case isFalse hge =>
        rw [if_neg (by omega), abs_of_neg (by omega), if_neg (by omega)]
        simp [Literal.pointText]
        omega
  have hexp (size : Int) : (if expFactor ≠ 0 then size + (expstring expFactor).length
      else size) = size + (expstring expFactor).length := by
    by_cases hf : expFactor = 0
    · simp [hf, expstring_zero]
    · rw [if_pos hf]
  simp only [maxNumSize, hexp]
  rw [hbody, length_signText]
  by_cases hneg : n.sign < 0
  · rw [if_pos hneg, if_pos hneg]
    omega
  · rw [if_neg hneg, if_neg hneg]
    omega

theorem exponentFactor_ok {n : NumberString} (h : n.Normalized) :
    ∃ expFactor, n.exponentFactor = .ok expFactor ∧ |expFactor| ≤ maxNum := by
  have hlo := h.exp_lower
  have hhi := h.exp_upper
  have hlen := h.length_pos
  have hrange (t : Int) (htlo : -maxNum ≤ t) (hthi : t ≤ maxNum) :
      |if n.numFormScientific then t
        else (if t < 0 then t - 2 else t).tdiv 3 * 3| ≤ maxNum := by
    simp only [maxNum] at *
    rw [abs_le]
    split
    · exact ⟨htlo, hthi⟩
    · split
      · have h3 : Int.sign 3 = 1 := rfl
        rw [Int.tdiv_eq_ediv, h3]
        split <;> omega
      · rw [Int.tdiv_eq_ediv_of_nonneg (by omega)]
        omega
  have hfactor := hrange (n.exp + n.length - 1) (by omega) (by omega)
  simp only [exponentFactor]
  by_cases hexp : n.exp + n.length - 1 ≥ n.numDigits ∨ |n.exp| > n.numDigits * 2
  · rw [if_pos hexp, if_neg (not_lt.mpr hfactor)]
    exact ⟨_, rfl, hfactor⟩
  · rw [if_neg hexp]
    exact ⟨0, rfl, by decide⟩

theorem stringValue_spec {n : NumberString} (h : n.Normalized) (h0 : n.sign ≠ 0) :
    ∃ expFactor out, |expFactor| ≤ maxNum ∧ n.stringValue = .ok out ∧ out.Complete ∧
      out.chars = n.signText ++
        (n.bodyText (n.exp - expFactor + n.length) ++ expstring expFactor) := by
  have hpos := h.length_pos
  have hlen : n.length = n.number.length := rfl
  by_cases hexp : n.exp = 0
  · refine ⟨0, filled (n.signText ++ digitText n.number) 0 [], by decide, ?_,
      complete_filled _ _, ?_⟩
    · have hsize : (if n.sign < 0 then (n.length : Int) + 1 else n.length) =
          (n.signText.length + n.length : Nat) := by
        rw [Nat.cast_add, length_signText]
        split <;> omega
      rw [stringValue, if_neg h0, if_pos hexp]
      simp only [hsize, RawString.new_natCast]
      rw [putSign_filled, Outcome.ok_bind, ← length_signText]
      exact putDigitsForward_front n.signText n.number
    · rw [chars_filled, hexp, expstring_zero, bodyText, wholeText, fractionText,
        if_neg (by omega), if_pos (by omega), if_neg (by omega), if_pos (by omega)]
      simp [Literal.pointText]
  · obtain ⟨expFactor, hfactor, hrange⟩ := exponentFactor_ok h
    refine ⟨expFactor, filled n.signText 0
      (n.bodyText (n.exp - expFactor + n.length) ++ expstring expFactor), hrange, ?_,
      complete_filled _ _, chars_filled _ _⟩
    have hlo := h.exp_lower
    have hhi := h.exp_upper
    have hsize := maxNumSize_eq h (n.exp - expFactor) expFactor
    have hnew : RawString.new (n.maxNumSize (n.exp - expFactor) expFactor) =
        filled [] (n.signText.length + ((n.bodyText (n.exp - expFactor + n.length)).length +
          (expstring expFactor).length)) [] := by
      rw [hsize, ← RawString.new_natCast]
      push_cast
      rw [add_assoc]
    rw [stringValue, if_neg h0, if_neg hexp, if_neg (by omega), hfactor, Outcome.ok_bind]
    dsimp only
    rw [hnew, putSign_filled, Outcome.ok_bind, hsize, add_sub_cancel_right,
      putExponent_filled, Outcome.ok_bind, putNumber_filled]

/-! ## Reading the text back -/

theorem isDigit_digitChar {d : Nat} (hd : d < 10) : isDigit (digitChar d) := by
  interval_cases d <;> decide

theorem digitValue_digitChar {d : Nat} (hd : d < 10) : digitValue (digitChar d) = d := by
  interval_cases d <;> decide

theorem isDigit_digitText {ds : List Nat} (h : IsDigits 10 ds) :
    ∀ c ∈ digitText ds, isDigit c := by
  intro c hc
  obtain ⟨d, hd, rfl⟩ := List.mem_map.mp hc
  exact isDigit_digitChar (h d hd)

theorem digitValues_digitText {ds : List Nat} (h : IsDigits 10 ds) :
    digitValues (digitText ds) = ds := by
  rw [digitValues, digitText, List.map_map]
  conv_rhs => rw [← List.map_id ds]
  exact List.map_congr_left fun d hd => digitValue_digitChar (h d hd)

theorem isDigit_zeros (k : Nat) : ∀ c ∈ List.replicate k chZero, isDigit c := by
  intro c hc
  rw [List.eq_of_mem_replicate hc]
  decide

def signMark (n : NumberString) : SignMark := if n.sign < 0 then .minus else .absent

def exponentPart (expFactor : Int) (h : expFactor ≠ 0) : ExponentPart where
  mark := chE
  sign := if expFactor < 0 then .minus else .plus
  digits := digitText (numeral 10 expFactor.natAbs)
  mark_valid := by decide
  digits_valid := isDigit_digitText (isDigits_numeral (by norm_num) _)
  digits_ne := by
    rw [← List.length_pos_iff, length_digitText, length_numeral (by norm_num) (by omega)]
    omega

theorem text_exponentPart {expFactor : Int} (h : expFactor ≠ 0) :
    (exponentPart expFactor h).text = expstring expFactor := by
  unfold expstring ltoa
  rw [if_neg h]
  by_cases hneg : expFactor < 0
  · rw [if_pos hneg, if_pos hneg]
    simp only [ExponentPart.text, exponentPart, if_pos hneg]
    rfl
  · rw [if_neg hneg, if_neg hneg, if_pos (by omega)]
    simp only [ExponentPart.text, exponentPart, if_neg hneg]
    rfl

theorem value_exponentPart {expFactor : Int} (h : expFactor ≠ 0) :
    (exponentPart expFactor h).value = expFactor := by
  simp only [ExponentPart.value, exponentPart,
    digitValues_digitText (isDigits_numeral (by norm_num) _), value_numeral]
  by_cases hneg : expFactor < 0
  · rw [if_pos hneg, SignMark.value]
    omega
  · rw [if_neg hneg]
    simp only [SignMark.value]
    omega

theorem wholeText_digits {n : NumberString} (h : n.Normalized) (temp : Int) :
    ∀ c ∈ n.wholeText temp, isDigit c := by
  unfold wholeText
  split
  · exact List.all_eq_true.mp rfl
  · split
    · intro c hc
      rcases List.mem_append.mp hc with hc | hc
      · exact isDigit_digitText h.digits c hc
      · exact isDigit_zeros _ c hc
    · exact isDigit_digitText (h.digits.take _)

theorem fractionText_digits {n : NumberString} (h : n.Normalized) (temp : Int) :
    ∀ c ∈ (n.fractionText temp).getD [], isDigit c := by
  unfold fractionText
  split
  · intro c hc
    rcases List.mem_append.mp hc with hc | hc
    · exact isDigit_zeros _ c hc
    · exact isDigit_digitText h.digits c hc
  · split
    · simp
    · exact isDigit_digitText (h.digits.drop _)

theorem wholeText_ne {n : NumberString} (h : n.Normalized) (temp : Int) :
    n.wholeText temp ≠ [] := by
  have hpos := h.length_pos
  have hlen : n.length = n.number.length := rfl
  rw [← List.length_pos_iff]
  unfold wholeText
  split
  · decide
  · split <;> simp <;> omega

/-- The parse of what `stringValue` writes. -/
def literal (n : NumberString) (h : n.Normalized) (expFactor : Int) : Literal where
  leading := []
  sign := n.signMark
  gap := []
  whole := n.wholeText (n.exp - expFactor + n.length)
  fraction := n.fractionText (n.exp - expFactor + n.length)
  exponent := if h0 : expFactor = 0 then none else some (exponentPart expFactor h0)
  trailing := []
  leading_blank := nil_isBlank
  gap_blank := nil_isBlank
  whole_digits := wholeText_digits h _
  fraction_digits := fractionText_digits h _
  digits_ne := by simp [wholeText_ne h]
  trailing_blank := nil_isBlank

theorem text_literal {n : NumberString} (h : n.Normalized) (expFactor : Int) :
    (n.literal h expFactor).text =
      n.signText ++ (n.bodyText (n.exp - expFactor + n.length) ++ expstring expFactor) := by
  have hsign : n.signMark.text = n.signText := by
    unfold signMark signText
    split <;> rfl
  have hexp : Literal.exponentText (n.literal h expFactor).exponent =
      expstring expFactor := by
    by_cases h0 : expFactor = 0
    · simp [literal, h0, Literal.exponentText, expstring_zero]
    · simp only [literal, dif_neg h0, Literal.exponentText, text_exponentPart]
  rw [Literal.text, Literal.body, Literal.rest, hexp]
  simp [literal, hsign, bodyText]

theorem exponentValue_literal {n : NumberString} (h : n.Normalized) (expFactor : Int) :
    (n.literal h expFactor).exponentValue = expFactor := by
  by_cases h0 : expFactor = 0
  · simp [literal, Literal.exponentValue, h0]
  · simp only [literal, Literal.exponentValue, dif_neg h0, Option.elim, value_exponentPart]

theorem coeff_literal {n : NumberString} (h : n.Normalized) (expFactor : Int) :
    ∃ front back, digitValues (n.literal h expFactor).coeff =
        List.replicate front 0 ++ (n.number ++ List.replicate back 0) ∧
      (n.literal h expFactor).exp = n.exp - back ∧
      min n.exp expFactor ≤ (n.literal h expFactor).exp := by
  have hlen : n.length = n.number.length := rfl
  have hpos := h.length_pos
  have hexp : (n.literal h expFactor).exp = expFactor -
      ((n.fractionText (n.exp - expFactor + n.length)).getD []).length := by
    rw [Literal.exp, exponentValue_literal]
    rfl
  have hcoeff : (n.literal h expFactor).coeff =
      n.wholeText (n.exp - expFactor + n.length) ++
        (n.fractionText (n.exp - expFactor + n.length)).getD [] := rfl
  have hzeros (k : Nat) : digitValues (List.replicate k chZero) = List.replicate k 0 := by
    rw [digitValues, List.map_replicate]
    rfl
  have happ (xs ys : List UInt8) :
      digitValues (xs ++ ys) = digitValues xs ++ digitValues ys := List.map_append
  have hnum := digitValues_digitText h.digits
  rw [hexp, hcoeff, happ]
  unfold wholeText fractionText
  split
  · case isTrue hle =>
    refine ⟨1 + (-(n.exp - expFactor + n.length)).toNat, 0, ?_, ?_, ?_⟩
    · simp only [Option.getD_some, happ, hzeros, hnum, List.replicate_add]
      simp [digitValues, digitValue, chZero]
    · simp
      omega
    · simp
      omega
  · split
    · case isTrue hge =>
      refine ⟨0, (n.exp - expFactor + n.length - n.length).toNat, ?_, ?_, ?_⟩
      · simp only [Option.getD_none, happ, hzeros, hnum]
        simp [digitValues]
      · simp
        omega
      · simp
    · case isFalse hge =>
      refine ⟨0, 0, ?_, ?_, ?_⟩
      · rw [Option.getD_some, digitValues_digitText (h.digits.take _),
          digitValues_digitText (h.digits.drop _), List.take_append_drop]
        simp
      · simp
        omega
      · simp
        omega

theorem significant_literal {n : NumberString} (h : n.Normalized) (h0 : n.sign ≠ 0)
    (expFactor : Int) :
    ∃ back, (n.literal h expFactor).significant = n.number ++ List.replicate back 0 ∧
      (n.literal h expFactor).exp = n.exp - back ∧
      min n.exp expFactor ≤ (n.literal h expFactor).exp := by
  obtain ⟨front, back, hcoeff, hexp⟩ := coeff_literal h expFactor
  refine ⟨back, ?_, hexp⟩
  obtain ⟨d, ds, hds, hd⟩ := h.leading h0
  have hvalue : value 10 (n.literal h expFactor).significant =
      value 10 (n.number ++ List.replicate back 0) := by
    rw [Literal.value_significant, hcoeff, value_append, value_replicate_zero, zero_mul,
      zero_add]
  have hright := eq_numeral (b := 10) (by norm_num)
    (by
      have hdig := h.digits
      rw [hds] at hdig
      rw [← List.cons_append, isDigits_append]
      exact ⟨hdig, isDigits_replicate_zero (by norm_num) back⟩) hd
  rw [← List.cons_append, ← hds] at hright
  have hne : (n.literal h expFactor).significant ≠ [] := by
    intro hnil
    have hzero := h.value_ne_zero h0
    rw [hnil, value_nil, value_append_zeros] at hvalue
    have hpow : 0 < 10 ^ back := by positivity
    exact absurd hvalue.symm (Nat.mul_ne_zero hzero hpow.ne')
  obtain ⟨d', ds', hds', hd'⟩ := Literal.significant_leading hne
  have hleft := eq_numeral (b := 10) (by norm_num)
    (hds' ▸ (n.literal h expFactor).isDigits_significant) hd'
  rw [← hds'] at hleft
  rw [hleft, hvalue, ← hright]

theorem toRat_literal {n : NumberString} (h : n.Normalized) (h0 : n.sign ≠ 0)
    (expFactor : Int) : (n.literal h expFactor).toRat = n.toRat := by
  obtain ⟨back, hsig, hexp, -⟩ := significant_literal h h0 expFactor
  have hsign : (n.literal h expFactor).sign.value = n.sign := by
    have hcases := h.sign_cases
    simp only [literal, signMark]
    split <;> simp only [SignMark.value] <;> omega
  rw [Literal.toRat, ← Literal.value_significant, hsig, value_append_zeros, hexp, hsign,
    toRat, decimal, Decimal.toRat]
  push_cast
  rw [zpow_sub₀ (by norm_num), zpow_natCast]
  field_simp

theorem inRange_literal {n : NumberString} (h : n.Normalized) (h0 : n.sign ≠ 0)
    {expFactor : Int} (hfactor : |expFactor| ≤ maxNum) :
    (n.literal h expFactor).InRange := by
  obtain ⟨back, hsig, hexp, hmin⟩ := significant_literal h h0 expFactor
  have hlo := h.exp_lower
  have hhi := h.exp_upper
  have hpos := h.length_pos
  have hlen : n.length = n.number.length := rfl
  have hback : (n.literal h expFactor).significant.length = n.number.length + back := by
    rw [hsig, List.length_append, List.length_replicate]
  rw [abs_le] at hfactor
  constructor
  · intro _
    rw [exponentValue_literal, abs_le, abs_le]
    omega
  · intro _
    rw [hback]
    omega

/--
Reading back what `stringValue` writes gives the value of the number; every
character that was allowed for is written, and once.
-/
theorem stringValue_roundTrip (s : Settings) {n : NumberString} (h : n.Normalized)
    (h0 : n.sign ≠ 0) :
    ∃ out n', n.stringValue = .ok out ∧ out.Complete ∧
      newInstance s out.chars = some n' ∧ n'.Normalized ∧ n'.toRat = n.toRat := by
  obtain ⟨expFactor, out, hfactor, hout, hcomplete, hchars⟩ := stringValue_spec h h0
  have hrange := inRange_literal h h0 hfactor
  refine ⟨out, (n.literal h expFactor).number s, hout, hcomplete, ?_,
    Literal.normalized_number s hrange, ?_⟩
  · rw [hchars, ← text_literal h, newInstance_text,
      if_pos (Literal.accepted_of_inRange hrange)]
  · rw [Literal.toRat_number s hrange, toRat_literal h h0]

/-- `-150E+9`, the engineering form of -1.5E+11. -/
theorem stringValue_roundTrip_engineering :
    ∃ out n', (⟨-1, 10, [1, 5], 9, false⟩ : NumberString).stringValue = .ok out ∧
      out.Complete ∧ newInstance ⟨9, 0, .scientific⟩ out.chars = some n' ∧
      n'.Normalized ∧ n'.toRat = (⟨-1, 10, [1, 5], 9, false⟩ : NumberString).toRat :=
  stringValue_roundTrip ⟨9, 0, .scientific⟩ (by decide) (by decide)

end NumberString

end LeooRexx
