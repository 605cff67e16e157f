import LeooRexx.Classes.RawString
import LeooRexx.Classes.StringArguments
import Mathlib.Tactic.Common

/-!
# Editing strings

`delstr`, `insert` and `overlay` of the string class.  Each computes the lengths of the
parts of its result first, allocates their sum and copies the parts one after the other.
-/

namespace LeooRexx

namespace StringSub

open StringArguments

def delstr (this : List UInt8) (position : ℤ) (length : Option ℤ) :
    Except StringArgumentError Written := do
  let stringLen := this.length
  let deletePos ← getPosition position
  -- where the default wraps, the string is left alone
  let deleteLen ← optionalLength length (stringLen - deletePos + 1)
  if deletePos > stringLen then return ⟨stringLen, this⟩
  else
    let deletePos := deletePos - 1
    let backLen :=
      if deleteLen ≥ stringLen - deletePos then 0 else stringLen - (deletePos + deleteLen)
    let current := if deletePos ≠ 0 then this.take deletePos else []
    let current :=
      if backLen ≠ 0 then current ++ (this.drop (deletePos + deleteLen)).take backLen
      else current
    return ⟨deletePos + backLen, current⟩

def insert (this newStr : List UInt8) (position length : Option ℤ)
    (pad : Option (List UInt8)) : Except StringArgumentError Written := do
  let tCharLen := this.length
  let nCharLen := newStr.length
  let nChar ← optionalLength position 0
  let reqLenChar ← optionalLength length nCharLen
  let padChar ← getPad pad 32
  let (reqLeadPad, fCharLen, bCharLen) :=
    if nChar = 0 then (0, 0, tCharLen)
    else if nChar ≥ tCharLen then (nChar - tCharLen, tCharLen, 0)
    else (0, nChar, tCharLen - nChar)
  let nCharLen := min nCharLen reqLenChar
  let reqPadChar := reqLenChar - nCharLen
  let buffSiz := nCharLen + tCharLen + reqPadChar + reqLeadPad
  let current := if fCharLen ≠ 0 then this.take fCharLen else []
  let current :=
    if reqLeadPad ≠ 0 then current ++ List.replicate reqLeadPad padChar else current
  let current := if nCharLen ≠ 0 then current ++ newStr.take nCharLen else current
  let current :=
    if reqPadChar ≠ 0 then current ++ List.replicate reqPadChar padChar else current
  let current :=
    if bCharLen ≠ 0 then current ++ (this.drop fCharLen).take bCharLen else current
  return ⟨buffSiz, current⟩

def overlay (this newStr : List UInt8) (position length : Option ℤ)
    (pad : Option (List UInt8)) : Except StringArgumentError Written := do
  let targetLen := this.length
  let newLen := newStr.length
  let overlayPos ← optionalPosition position 1
  let overlayLen ← optionalLength length newLen
  let padChar ← getPad pad 32
  let (newLen, backPad) :=
    if overlayLen > newLen then (newLen, overlayLen - newLen) else (overlayLen, 0)
  let (frontPad, frontLen) :=
    if overlayPos > targetLen then (overlayPos - targetLen - 1, targetLen)
    else (0, overlayPos - 1)
  let backLen :=
    if overlayPos + overlayLen > targetLen then 0
    else targetLen - (overlayPos + overlayLen - 1)
  let current := if frontLen ≠ 0 then this.take frontLen else []
  let current := if frontPad ≠ 0 then current ++ List.replicate frontPad padChar else current
  let current := if newLen ≠ 0 then current ++ newStr.take newLen else current
  let current := if backPad ≠ 0 then current ++ List.replicate backPad padChar else current
  let current :=
    if backLen ≠ 0 then current ++ (this.drop (overlayPos + overlayLen - 1)).take backLen
    else current
  return ⟨frontLen + backLen + frontPad + overlayLen, current⟩

/-! ## The parts of the results -/

variable (this newStr : List UInt8)

def fitted (newStr : List UInt8) (count : ℕ) (padChar : UInt8) : List UInt8 :=
  newStr.take count ++ List.replicate (count - newStr.length) padChar

@[simp] theorem length_fitted (count : ℕ) (padChar : UInt8) :
    (fitted newStr count padChar).length = count := by
  simp only [fitted, List.length_append, List.length_take, List.length_replicate]
  omega

/-- The string up to `start`, padded if it is shorter. -/
def upTo (this : List UInt8) (start : ℕ) (padChar : UInt8) : List UInt8 :=
  this.take start ++ List.replicate (start - this.length) padChar

theorem append_guarded (current part : List UInt8) {n : ℕ} (h : n = 0 → part = []) :
    (if n ≠ 0 then current ++ part else current) = current ++ part := by
  split
  case isTrue _ => rfl
  case isFalse hzero => rw [h (not_not.mp hzero), List.append_nil]

theorem take_guarded (n : ℕ) : (if n ≠ 0 then this.take n else []) = this.take n := by
  split
  case isTrue _ => rfl
  case isFalse hzero => rw [not_not.mp hzero, List.take_zero]

theorem rest_guarded (current : List UInt8) {start count : ℕ} (h : start + count = this.length ∨
    count = 0 ∧ this.length ≤ start) :
    (if count ≠ 0 then current ++ (this.drop start).take count else current) =
      current ++ this.drop start := by
  have hrest : (this.drop start).take count = this.drop start :=
    List.take_of_length_le (by rw [List.length_drop]; omega)
  rw [hrest]
  exact append_guarded _ _ fun hzero => List.drop_of_length_le (by omega)

theorem insert_eq (position length : Option ℕ) (pad : Option UInt8) :
    ∃ w, insert this newStr (position.map Nat.cast) (length.map Nat.cast)
        (pad.map fun c => [c]) = .ok w ∧ w.Exact ∧
      w.bytes = upTo this (position.getD 0) (pad.getD 32) ++
        fitted newStr (length.getD newStr.length) (pad.getD 32) ++
          this.drop (position.getD 0) := by
  simp only [insert, optionalLength_cast, getPad_char, bind, Except.bind, pure, Except.pure]
  generalize position.getD 0 = start
  generalize length.getD newStr.length = count
  generalize pad.getD 32 = padChar
  have hparts : (if start = 0 then (0, 0, this.length)
      else if start ≥ this.length then (start - this.length, this.length, 0)
      else (0, start, this.length - start)) =
        (start - this.length, min start this.length, this.length - start) := by
    split_ifs <;> simp only [Prod.mk.injEq, and_true, true_and] <;> omega
  have hnew : newStr.take (min newStr.length count) = newStr.take count := by
    rw [Nat.min_comm, ← List.take_take, List.take_length]
  have hpads : count - min newStr.length count = count - newStr.length := by omega
  have hfront : this.take (min start this.length) = this.take start := by
    rw [← List.take_take, List.take_length]
  have hback : this.drop (min start this.length) = this.drop start := by
    rcases Nat.le_total start this.length with hle | hle
    · rw [Nat.min_eq_left hle]
    · rw [Nat.min_eq_right hle, List.drop_length, List.drop_of_length_le hle]
  simp only [hparts, hpads, take_guarded]
  rw [rest_guarded this _ (by omega), append_guarded _ _ fun hzero => by rw [hzero]; rfl,
    append_guarded _ _ fun hzero => by rw [hzero]; rfl,
    append_guarded _ _ fun hzero => by rw [hzero]; rfl, hnew, hfront, hback]
  refine ⟨_, rfl, ?_, ?_⟩
  · simp only [Written.Exact, List.length_append, List.length_take, List.length_replicate,
      List.length_drop]
    omega
  · simp only [upTo, fitted, List.append_assoc]

theorem overlay_eq (position length : Option ℕ) (pad : Option UInt8) :
    ∃ w, overlay this newStr (position.map positive) (length.map Nat.cast)
        (pad.map fun c => [c]) = .ok w ∧ w.Exact ∧
      w.bytes = upTo this (position.getD 0) (pad.getD 32) ++
        fitted newStr (length.getD newStr.length) (pad.getD 32) ++
          this.drop (position.getD 0 + length.getD newStr.length) := by
  have hposition : position.elim 1 (· + 1) = position.getD 0 + 1 := by cases position <;> rfl
  simp only [overlay, optionalPosition_positive, hposition, optionalLength_cast, getPad_char, bind,
    Except.bind, pure, Except.pure]
  generalize position.getD 0 = start
  generalize length.getD newStr.length = count
  generalize pad.getD 32 = padChar
  have hfitted : (if count > newStr.length then (newStr.length, count - newStr.length)
      else (count, 0)) = (min newStr.length count, count - newStr.length) := by
    split_ifs <;> simp only [Prod.mk.injEq, and_true, true_and] <;> omega
  have hparts : (if start + 1 > this.length then (start + 1 - this.length - 1, this.length)
      else (0, start + 1 - 1)) = (start - this.length, min start this.length) := by
    split_ifs <;> simp only [Prod.mk.injEq, and_true, true_and] <;> omega
  have hnew : newStr.take (min newStr.length count) = newStr.take count := by
    rw [Nat.min_comm, ← List.take_take, List.take_length]
  have hfront : this.take (min start this.length) = this.take start := by
    rw [← List.take_take, List.take_length]
  have hbehind : start + 1 + count - 1 = start + count := by omega
  have hrest : (if start + 1 + count > this.length then 0 else this.length - (start + count)) =
      this.length - (start + count) := by
    split <;> omega
  simp only [hfitted, hparts, hbehind, hrest, take_guarded]
  rw [rest_guarded this _ (by omega), append_guarded _ _ fun hzero => by rw [hzero]; rfl,
    append_guarded _ _ fun hzero => by rw [hzero]; rfl,
    append_guarded _ _ fun hzero => by rw [hzero]; rfl, hnew, hfront]
  refine ⟨_, rfl, ?_, ?_⟩
  · simp only [Written.Exact, List.length_append, List.length_take, List.length_replicate,
      List.length_drop]
    omega
  · simp only [upTo, fitted, List.append_assoc]

theorem delstr_eq (position : ℕ) (length : Option ℕ) :
    ∃ w, delstr this (positive position) (length.map Nat.cast) = .ok w ∧ w.Exact ∧
      w.bytes = this.take position ++
        this.drop (position + length.getD (this.length - position)) := by
  simp only [delstr, getPosition_positive, optionalLength_cast, bind, Except.bind, pure,
    Except.pure]
  split
  case isTrue hpast =>
      refine ⟨_, rfl, rfl, ?_⟩
      rw [List.take_of_length_le (by omega), List.drop_of_length_le (by omega), List.append_nil]
  case isFalse hwithin =>
      have hdefault : length.getD (this.length - (position + 1) + 1) =
          length.getD (this.length - position) := by
        rw [show this.length - (position + 1) + 1 = this.length - position by omega]
      rw [hdefault, Nat.add_sub_cancel]
      generalize length.getD (this.length - position) = count
      have hback : (if count ≥ this.length - position then 0
          else this.length - (position + count)) = this.length - (position + count) := by
        split <;> omega
      simp only [hback, take_guarded]
      rw [rest_guarded this _ (by omega)]
      refine ⟨_, rfl, ?_, rfl⟩
      simp only [Written.Exact, List.length_append, List.length_take, List.length_drop]
      omega

end StringSub

end LeooRexx
