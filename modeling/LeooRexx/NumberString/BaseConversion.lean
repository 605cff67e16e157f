import LeooRexx.Classes.StringConversion
import LeooRexx.Foundation.Accumulator
import LeooRexx.NumberString.Basic

/-!
# Base conversion

`AddToBaseSixteen`, `MultiplyBaseSixteen`, `AddToBaseTen` and `MultiplyBaseTen`, with
which `D2X`, `D2C`, `X2D` and `C2D` convert a number digit by digit.  They work in
the buffer from `Accumulator` towards its front, and `HighDigit` is the cell in front
of the highest digit.
-/

namespace LeooRexx

open Positional

/-- The conditions the four conversions raise, and a write in front of the buffer. -/
inductive RadixFault where
  | d2c (number : NumberString)
  | d2x (number : NumberString)
  | d2xd2c
  | c2dbig (digits : Nat)
  | x2dbig (digits : Nat)
  | invalid (error : ConversionError)
  | outOfBounds
  deriving DecidableEq

abbrev RadixOutcome := Except RadixFault

namespace RadixOutcome

@[simp] theorem ok_bind {α β : Type} (a : α) (f : α → RadixOutcome β) :
    (Except.ok a : RadixOutcome α) >>= f = f a := rfl

@[simp] theorem error_bind {α β : Type} (e : RadixFault) (f : α → RadixOutcome β) :
    (Except.error e : RadixOutcome α) >>= f = .error e := rfl

def inBuffer {α : Type} : Option α → RadixOutcome α
  | some a => .ok a
  | none => .error .outOfBounds

end RadixOutcome

/-- The cells from `Accumulator` to the front of the buffer, and
`Accumulator - HighDigit`. -/
structure RadixNumber where
  cells : List Nat
  high : Nat

namespace RadixNumber

/-- `memset` of the cells, with the initial high position. -/
def cleared (len : Nat) : RadixNumber := ⟨List.replicate len 0, 1⟩

/-- The loop of `AddToBaseSixteen`: the cells and how far `Value` has moved. -/
def addSixteenLoop : Nat → List Nat → RadixOutcome (List Nat × Nat)
  | 0, value => .ok (value, 0)
  | _ + 1, [] => .error .outOfBounds
  | digit + 1, c :: value =>
      let digit := digit + 1 + c
      if digit > 15 then do
        let (value, moved) ← addSixteenLoop 1 value
        return ((digit - 16) :: value, moved + 1)
      else .ok (digit :: value, 1)

def addToBaseSixteen (digit : Nat) (n : RadixNumber) : RadixOutcome RadixNumber := do
  let (cells, moved) ← addSixteenLoop digit n.cells
  return ⟨cells, if moved > n.high then moved else n.high⟩

/-- The loop of `MultiplyBaseSixteen` over the cells that are left, and the carry
out of it. -/
def multiplySixteenLoop : Nat → Nat → List Nat → RadixOutcome (List Nat × Nat)
  | carry, 0, accum =>
      if carry ≠ 0 then
        match accum with
        | [] => .error .outOfBounds
        | _ :: accum => .ok (carry :: accum, 1)
      else .ok (accum, 0)
  | _, _ + 1, [] => .error .outOfBounds
  | carry, left + 1, c :: accum =>
      let digit := c * 10 + carry
      if digit > 15 then do
        let (accum, moved) ← multiplySixteenLoop (digit / 16) left accum
        return ((digit &&& 0xf) :: accum, moved + 1)
      else do
        let (accum, moved) ← multiplySixteenLoop 0 left accum
        return (digit :: accum, moved + 1)

def multiplyBaseSixteen (n : RadixNumber) : RadixOutcome RadixNumber := do
  let (cells, moved) ← multiplySixteenLoop 0 n.high n.cells
  return ⟨cells, moved⟩

/-- The loop of `AddToBaseTen`. -/
def addTenLoop : Nat → Nat → List Nat → RadixOutcome (List Nat × Nat)
  | digit, carry, [] => if digit = 0 ∧ carry = 0 then .ok ([], 0) else .error .outOfBounds
  | digit, carry, c :: accum =>
      if digit = 0 ∧ carry = 0 then .ok (c :: accum, 0)
      else
        let digit := digit + (c + carry)
        if digit > 9 then do
          let (accum, moved) ← addTenLoop 0 (digit / 10) accum
          return (digit % 10 :: accum, moved + 1)
        else do
          let (accum, moved) ← addTenLoop 0 0 accum
          return (digit :: accum, moved + 1)

def addToBaseTen (digit : Nat) (n : RadixNumber) : RadixOutcome RadixNumber := do
  let (cells, moved) ← addTenLoop digit 0 n.cells
  return ⟨cells, if moved > n.high then moved else n.high⟩

/-- `while (Carry)`, after the digits. -/
def carryLoop : Nat → List Nat → RadixOutcome (List Nat × Nat)
  | 0, accum => .ok (accum, 0)
  | _ + 1, [] => .error .outOfBounds
  | carry + 1, _ :: accum => do
      let (accum, moved) ← carryLoop ((carry + 1) / 10) accum
      return ((carry + 1) % 10 :: accum, moved + 1)

/-- The loop of `MultiplyBaseTen` over the cells that are left. -/
def multiplyTenLoop : Nat → Nat → List Nat → RadixOutcome (List Nat × Nat)
  | carry, 0, accum => carryLoop carry accum
  | _, _ + 1, [] => .error .outOfBounds
  | carry, left + 1, c :: accum =>
      let digit := c * 16 + carry
      if digit > 9 then do
        let (accum, moved) ← multiplyTenLoop (digit / 10) left accum
        return (digit % 10 :: accum, moved + 1)
      else do
        let (accum, moved) ← multiplyTenLoop 0 left accum
        return (digit :: accum, moved + 1)

def multiplyBaseTen (n : RadixNumber) : RadixOutcome RadixNumber := do
  let (cells, moved) ← multiplyTenLoop 0 n.high n.cells
  return ⟨cells, moved⟩

/-! ## The routines on a number -/

def of (b len n : Nat) : RadixNumber := ⟨Accumulator.cells b len n, Accumulator.width b n⟩

open RadixOutcome

theorem inBuffer_map {α β : Type} (x : Option α) (f : α → β) :
    inBuffer (x.map f) = (do let a ← inBuffer x; return f a) := by
  cases x <;> rfl

theorem addSixteenLoop_eq {digit : Nat} {value : List Nat} (hdigit : digit < 16)
    (hvalue : IsDigits 16 value) :
    addSixteenLoop digit value = inBuffer (Accumulator.add 16 digit value) := by
  induction value generalizing digit with
  | nil => cases digit <;> rfl
  | cons c value ih =>
      have hc := isDigits_cons.mp hvalue
      cases digit with
      | zero => rfl
      | succ digit =>
          rw [addSixteenLoop, Accumulator.add, inBuffer_map]
          dsimp only
          split
          · rename_i hcarry
            have hquot : (digit + 1 + c) / 16 = 1 := by omega
            have hrem : (digit + 1 + c) % 16 = digit + 1 + c - 16 := by omega
            rw [hquot, hrem, ih (by norm_num) hc.2]
          · rename_i hcarry
            have hquot : (digit + 1 + c) / 16 = 0 := by omega
            have hrem : (digit + 1 + c) % 16 = digit + 1 + c := by omega
            rw [hquot, hrem]
            cases value <;> rfl

theorem addTenLoop_eq (digit carry : Nat) (accum : List Nat) :
    addTenLoop digit carry accum = inBuffer (Accumulator.add 10 (digit + carry) accum) := by
  induction accum generalizing digit carry with
  | nil =>
      rw [addTenLoop]
      cases h : digit + carry with
      | zero => exact if_pos (by omega)
      | succ t => exact if_neg (by omega)
  | cons c accum ih =>
      rw [addTenLoop]
      cases h : digit + carry with
      | zero => exact if_pos (by omega)
      | succ t =>
          have hsum : digit + (c + carry) = t + 1 + c := by omega
          rw [if_neg (by omega), hsum, Accumulator.add, inBuffer_map]
          dsimp only
          split
          · rw [ih, Nat.zero_add]
          · rename_i hcarry
            have hquot : (t + 1 + c) / 10 = 0 := by omega
            have hrem : (t + 1 + c) % 10 = t + 1 + c := by omega
            rw [ih, hquot, hrem]

theorem multiplySixteenLoop_eq {carry left : Nat} {accum : List Nat} (hcarry : carry < 16)
    (haccum : IsDigits 16 accum) :
    multiplySixteenLoop carry left accum =
      inBuffer (Accumulator.scale 16 10 carry left accum) := by
  induction left generalizing carry accum with
  | zero =>
      cases accum with
      | nil => cases carry <;> rfl
      | cons c accum =>
          cases carry with
          | zero => rfl
          | succ carry =>
              have hquot : (carry + 1) / 16 = 0 := by omega
              have hrem : (carry + 1) % 16 = carry + 1 := by omega
              rw [multiplySixteenLoop, if_pos (Nat.succ_ne_zero carry), Accumulator.scale,
                Accumulator.spill, hquot, hrem]
              cases accum <;> rfl
  | succ left ih =>
      cases accum with
      | nil => rfl
      | cons c accum =>
          have hc := isDigits_cons.mp haccum
          have hmask := Nat.and_two_pow_sub_one_eq_mod (c * 10 + carry) 4
          rw [multiplySixteenLoop, Accumulator.scale, inBuffer_map]
          dsimp only
          split
          · rw [ih (by omega) hc.2, hmask]
          · rename_i hsmall
            have hquot : (c * 10 + carry) / 16 = 0 := by omega
            have hrem : (c * 10 + carry) % 16 = c * 10 + carry := by omega
            rw [ih (by norm_num) hc.2, hquot, hrem]

theorem carryLoop_eq (carry : Nat) (accum : List Nat) :
    carryLoop carry accum = inBuffer (Accumulator.spill 10 carry accum) := by
  induction accum generalizing carry with
  | nil => cases carry <;> rfl
  | cons c accum ih =>
      cases carry with
      | zero => rfl
      | succ carry => rw [carryLoop, Accumulator.spill, inBuffer_map, ih]

theorem multiplyTenLoop_eq (carry left : Nat) (accum : List Nat) :
    multiplyTenLoop carry left accum =
      inBuffer (Accumulator.scale 10 16 carry left accum) := by
  induction left generalizing carry accum with
  | zero => exact carryLoop_eq carry accum
  | succ left ih =>
      cases accum with
      | nil => rfl
      | cons c accum =>
          rw [multiplyTenLoop, Accumulator.scale, inBuffer_map]
          dsimp only
          split
          · rw [ih]
          · rename_i hsmall
            have hquot : (c * 16 + carry) / 10 = 0 := by omega
            have hrem : (c * 16 + carry) % 10 = c * 16 + carry := by omega
            rw [ih, hquot, hrem]

theorem cleared_eq_of {b : Nat} (hb : 1 < b) (len : Nat) : cleared len = of b len 0 := by
  rw [cleared, of, Accumulator.cells_zero, Accumulator.width_of_lt (Nat.zero_lt_of_lt hb)]

theorem high_eq_max (moved high : Nat) : (if moved > high then moved else high) = max moved high := by
  split <;> omega

theorem addToBaseSixteen_of {len n digit : Nat} (hdigit : digit < 16)
    (h : n + digit < 16 ^ len) :
    addToBaseSixteen digit (of 16 len n) = .ok (of 16 len (n + digit)) := by
  have hadd := Accumulator.add_cells (by norm_num) h
  cases hadd with
  | intro moved hmoved =>
      rw [addToBaseSixteen, of,
        addSixteenLoop_eq hdigit (Accumulator.isDigits_cells (by norm_num) len n), hmoved.1,
        of, ← hmoved.2.1, ← high_eq_max]
      rfl

theorem width_le_of_mul {b m len n : Nat} (hb : 1 < b) (hm : 0 < m) (hlen : 0 < len)
    (h : m * n < b ^ len) : Accumulator.width b n ≤ len :=
  (Accumulator.width_le_iff hb hlen).mpr (lt_of_le_of_lt (Nat.le_mul_of_pos_left n hm) h)

theorem multiplyBaseSixteen_of {len n : Nat} (hlen : 0 < len) (h : 10 * n < 16 ^ len) :
    multiplyBaseSixteen (of 16 len n) = .ok (of 16 len (10 * n)) := by
  have hwidth := width_le_of_mul (by norm_num) (by norm_num) hlen h
  rw [multiplyBaseSixteen, of, multiplySixteenLoop_eq (by norm_num)
    (Accumulator.isDigits_cells (by norm_num) len n),
    Accumulator.scale_cells (by norm_num) (by norm_num) hwidth h]
  rfl

theorem addToBaseTen_of {len n digit : Nat} (h : n + digit < 10 ^ len) :
    addToBaseTen digit (of 10 len n) = .ok (of 10 len (n + digit)) := by
  have hadd := Accumulator.add_cells (by norm_num) h
  cases hadd with
  | intro moved hmoved =>
      rw [addToBaseTen, of, addTenLoop_eq, Nat.add_zero, hmoved.1, of, ← hmoved.2.1,
        ← high_eq_max]
      rfl

theorem multiplyBaseTen_of {len n : Nat} (hlen : 0 < len) (h : 16 * n < 10 ^ len) :
    multiplyBaseTen (of 10 len n) = .ok (of 10 len (16 * n)) := by
  have hwidth := width_le_of_mul (by norm_num) (by norm_num) hlen h
  rw [multiplyBaseTen, of, multiplyTenLoop_eq,
    Accumulator.scale_cells (by norm_num) (by norm_num) hwidth h]
  rfl

end RadixNumber

end LeooRexx
