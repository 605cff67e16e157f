import Mathlib
import LeooRexx.Foundation.Moves

/-!
# `SysStemDelete`, `SysStemInsert` and `SysStemCopy`

The functions fetch and set the elements of a stem one at a time through the variable pool.
Numbers are unsigned longs of 32 bits, which `scanf` and `sprintf` treat as signed ones.
-/

namespace LeooRexx

namespace SysStem

open Moves

abbrev Text := List Char

abbrev VariablePool := Text × ℕ → Option Text

def ULONG_MAX : ℕ := 2 ^ 32 - 1

def isVariable (name : Text × ℕ) : Bool := decide (name.2 < 2 ^ 31)

inductive Return where
  | zero
  | minusOne
  | invalidRoutine
  deriving DecidableEq

/-! ## Texts and numbers -/

def isspace (c : Char) : Bool := c == ' ' || (9 ≤ c.toNat && c.toNat ≤ 13)

/-- The value of a `long` in an unsigned one, the greatest and the least long being kept. -/
def signed (negative : Bool) (n : ℕ) : ℕ :=
  if negative then (2 ^ 32 - min n (2 ^ 31)) % 2 ^ 32 else min n (2 ^ 31 - 1)

def scanDigits (negative : Bool) (text : Text) : Option ℕ :=
  let digits := text.takeWhile Char.isDigit
  if digits = [] then none else some (signed negative (Nat.ofDigitChars 10 digits 0))

/-- `sscanf` with `%ld`. -/
def sscanf (text : Text) : Option ℕ :=
  match text.dropWhile isspace with
  | '-' :: rest => scanDigits true rest
  | '+' :: rest => scanDigits false rest
  | rest => scanDigits false rest

/-- `sprintf` with `%ld`. -/
def sprintf (n : ℕ) : Text :=
  if n < 2 ^ 31 then Nat.toDigits 10 n else '-' :: Nat.toDigits 10 (2 ^ 32 - n)

/-! ## The arguments -/

def validString (args : List (Option Text)) (i : ℕ) : Option Text :=
  args[i]?.join.filter (· ≠ [])

def stemName (text : Text) : Text :=
  (if text.getLast? = some '.' then text else text ++ ['.']).map Char.toUpper

structure DeleteArguments where
  stem : Text
  ulFirst : ℕ
  ulItems : ℕ

def deleteArguments (args : List (Option Text)) : Option DeleteArguments := do
  guard (2 ≤ args.length ∧ args.length ≤ 3)
  let stem ← validString args 0
  let first ← validString args 1
  let ulFirst ← sscanf first
  if args.length = 3 then
    let items ← validString args 2
    let ulItems ← sscanf items
    guard (ulItems ≠ 0)
    return ⟨stemName stem, ulFirst, ulItems⟩
  else return ⟨stemName stem, ulFirst, 1⟩

structure InsertArguments where
  stem : Text
  ulPosition : ℕ
  value : Text

def insertArguments (args : List (Option Text)) : Option InsertArguments := do
  guard (args.length = 3)
  let stem ← validString args 0
  let position ← validString args 1
  let value ← args[2]?.join
  return ⟨stemName stem, ← sscanf position, value⟩

structure CopyArguments where
  fromStem : Text
  toStem : Text
  ulFrom : ℕ
  ulTo : ℕ
  ulCopyCount : ℕ
  fInsert : Bool

def numberArgument (args : List (Option Text)) (i omitted : ℕ) : Option ℕ :=
  match validString args i with
  | none => some omitted
  | some text => sscanf text

def copyType (text : Text) : Option Bool :=
  if text.head? = some 'I' ∨ text.head? = some 'i' then some true
  else if text.head? = some 'O' ∨ text.head? = some 'o' then some false
  else none

def insertArgument (args : List (Option Text)) : Option Bool :=
  if args.length = 6 then (validString args 5).bind copyType else some false

def copyArguments (args : List (Option Text)) : Option CopyArguments := do
  guard (2 ≤ args.length ∧ args.length ≤ 6)
  let fromStem ← validString args 0
  let toStem ← validString args 1
  let ulFrom ← numberArgument args 2 1
  let ulTo ← numberArgument args 3 1
  let ulCopyCount ← numberArgument args 4 0
  let fInsert ← insertArgument args
  return ⟨stemName fromStem, stemName toStem, ulFrom, ulTo, ulCopyCount, fInsert⟩

/-! ## The functions -/

def fetchCount (p : VariablePool) (stem : Text) : Except Return ℕ :=
  match p (stem, 0) with
  | none => .error .minusOne
  | some text =>
      if 255 < text.length then .error .minusOne
      else match sscanf text with
        | none => .error .invalidRoutine
        | some ulCount => .ok ulCount

def fetchToCount (p : VariablePool) (stem : Text) : Except Return ℕ :=
  if p (stem, 0) = none then .ok 0 else fetchCount p stem

def setCount (p : VariablePool) (stem : Text) (ulCount : ℕ) : VariablePool :=
  Function.update p (stem, 0) (some (sprintf ulCount))

def deleteMoves (c : DeleteArguments) (ulCount : ℕ) : List ((Text × ℕ) × (Text × ℕ)) :=
  let next := (c.ulFirst + c.ulItems) % 2 ^ 32
  (List.range (ulCount + 1 - next)).map fun i =>
    ((c.stem, next + i), (c.stem, (c.ulFirst + i) % 2 ^ 32))

def deletedElements (c : DeleteArguments) (ulCount : ℕ) : List (Text × ℕ) :=
  let start := (ulCount + 2 ^ 32 - c.ulItems + 1) % 2 ^ 32
  (List.range (ulCount + 1 - start)).map fun i => (c.stem, start + i)

def deleteElements (p : VariablePool) (c : DeleteArguments) (ulCount : ℕ) :
    VariablePool × Return :=
  let moved := move isVariable (deleteMoves c ulCount) p
  let dropped := drop isVariable (deletedElements c ulCount) moved.1
  if moved.2 = false then (moved.1, .minusOne)
  else if dropped.2 = false then (dropped.1, .minusOne)
  else (setCount dropped.1 c.stem ((ulCount + 2 ^ 32 - c.ulItems) % 2 ^ 32), .zero)

def SysStemDelete (args : List (Option Text)) (p : VariablePool) : VariablePool × Return :=
  match deleteArguments args with
  | none => (p, .invalidRoutine)
  | some c =>
      match fetchCount p c.stem with
      | .error r => (p, r)
      | .ok ulCount =>
          if ulCount < (c.ulFirst + c.ulItems + ULONG_MAX) % 2 ^ 32 then (p, .invalidRoutine)
          else deleteElements p c ulCount

/-- The elements from a position on, the last one first, with `room` places between. -/
def roomMoves (stem : Text) (room position ulCount : ℕ) : List ((Text × ℕ) × (Text × ℕ)) :=
  (List.range' position (ulCount + 1 - position)).reverse.map fun i =>
    ((stem, i), (stem, (i + room) % 2 ^ 32))

def insertElement (p : VariablePool) (c : InsertArguments) (ulCount : ℕ) :
    VariablePool × Return :=
  let moved := move isVariable (roomMoves c.stem 1 c.ulPosition ulCount) p
  if moved.2 = false then (moved.1, .minusOne)
  else if isVariable (c.stem, c.ulPosition) = false then (moved.1, .minusOne)
  else
    (setCount (Function.update moved.1 (c.stem, c.ulPosition) (some c.value)) c.stem
      ((ulCount + 1) % 2 ^ 32), .zero)

def SysStemInsert (args : List (Option Text)) (p : VariablePool) : VariablePool × Return :=
  match insertArguments args with
  | none => (p, .invalidRoutine)
  | some c =>
      match fetchCount p c.stem with
      | .error r => (p, r)
      | .ok ulCount =>
          if c.ulPosition = 0 ∨ (ulCount + 1) % 2 ^ 32 < c.ulPosition then (p, .invalidRoutine)
          else insertElement p c ulCount

def copyMoves (c : CopyArguments) (ulCopyCount : ℕ) : List ((Text × ℕ) × (Text × ℕ)) :=
  (List.range ulCopyCount).map fun ulIdx =>
    ((c.fromStem, (c.ulFrom + ulIdx) % 2 ^ 32), (c.toStem, (c.ulTo + ulIdx) % 2 ^ 32))

def overwriteElements (p : VariablePool) (c : CopyArguments) (ulCopyCount ulToCount : ℕ) :
    VariablePool × Return :=
  let copied := move isVariable (copyMoves c ulCopyCount) p
  let last := (c.ulTo + ulCopyCount + ULONG_MAX) % 2 ^ 32
  if copied.2 = false then (copied.1, .minusOne)
  else if ulToCount < last then (setCount copied.1 c.toStem last, .zero)
  else (copied.1, .zero)

def copyElements (p : VariablePool) (c : CopyArguments) (ulCopyCount ulToCount : ℕ) :
    VariablePool × Return :=
  if c.fInsert then
    let moved := move isVariable (roomMoves c.toStem ulCopyCount c.ulTo ulToCount) p
    if moved.2 = false then (moved.1, .minusOne)
    -- the index goes on with the greatest number after zero
    else if c.ulTo = 0 then (moved.1, .minusOne)
    else
      let ulToCount := (ulToCount + ulCopyCount) % 2 ^ 32
      overwriteElements (setCount moved.1 c.toStem ulToCount) c ulCopyCount ulToCount
  else overwriteElements p c ulCopyCount ulToCount

def CopyArguments.count (c : CopyArguments) (ulFromCount : ℕ) : ℕ :=
  if c.ulCopyCount = 0 then ulFromCount else c.ulCopyCount

def SysStemCopy (args : List (Option Text)) (p : VariablePool) : VariablePool × Return :=
  match copyArguments args with
  | none => (p, .invalidRoutine)
  | some c =>
      match fetchCount p c.fromStem with
      | .error r => (p, r)
      | .ok ulFromCount =>
          if ulFromCount < c.ulCopyCount ∨ ulFromCount = 0 then (p, .invalidRoutine)
          else match fetchToCount p c.toStem with
            | .error r => (p, r)
            | .ok ulToCount =>
                if (ulToCount + 1) % 2 ^ 32 < c.ulTo then (p, .invalidRoutine)
                else copyElements p c (c.count ulFromCount) ulToCount

/-! ## What the numbers are -/

theorem signed_lt (negative : Bool) (n : ℕ) : signed negative n < 2 ^ 32 := by
  rw [signed]
  split <;> omega

theorem scanDigits_lt {negative : Bool} {text : Text} {n : ℕ}
    (h : scanDigits negative text = some n) : n < 2 ^ 32 := by
  simp only [scanDigits, Option.ite_none_left_eq_some] at h
  obtain ⟨-, h⟩ := h
  rw [← Option.some.inj h]
  exact signed_lt _ _

theorem sscanf_lt {text : Text} {n : ℕ} (h : sscanf text = some n) : n < 2 ^ 32 := by
  rw [sscanf] at h
  split at h <;> exact scanDigits_lt h

theorem scanDigits_toDigits (negative : Bool) (n : ℕ) :
    scanDigits negative (Nat.toDigits 10 n) = some (signed negative n) := by
  have hdigits : (Nat.toDigits 10 n).takeWhile Char.isDigit = Nat.toDigits 10 n :=
    List.takeWhile_eq_self_iff.mpr fun _ hc =>
      Nat.isDigit_of_mem_toDigits (by decide) (by decide) hc
  simp only [scanDigits]
  rw [hdigits, if_neg Nat.toDigits_ne_nil, Nat.ofDigitChars_ten_toDigits]

theorem sscanf_sprintf {n : ℕ} (h : n < 2 ^ 32) : sscanf (sprintf n) = some n := by
  rw [sprintf]
  split
  next hlt =>
    have hne : Nat.toDigits 10 n ≠ [] := Nat.toDigits_ne_nil
    obtain ⟨c, rest, hc⟩ := List.exists_cons_of_ne_nil hne
    have hdigit : c.isDigit = true :=
      Nat.isDigit_of_mem_toDigits (by decide) (by decide) (hc ▸ List.mem_cons_self)
    have hspace : isspace c = false := by
      simp only [Char.isDigit, Bool.and_eq_true, decide_eq_true_eq, ge_iff_le,
        UInt32.le_iff_toNat_le] at hdigit
      have hlow : 48 ≤ c.toNat := hdigit.1
      have hblank : c ≠ ' ' := by
        rintro rfl
        exact absurd hlow (by decide)
      simp only [isspace, Bool.or_eq_false_iff, beq_eq_false_iff_ne, Bool.and_eq_false_iff,
        decide_eq_false_iff_not]
      exact ⟨hblank, .inr (by omega)⟩
    have hsign : c ≠ '-' ∧ c ≠ '+' := by
      constructor
      · rintro rfl
        exact absurd hdigit (by decide)
      · rintro rfl
        exact absurd hdigit (by decide)
    have hscan := scanDigits_toDigits false n
    rw [signed, if_neg Bool.false_ne_true, Nat.min_eq_left (by omega)] at hscan
    rw [sscanf, hc, List.dropWhile_cons_of_neg (by simp [hspace])]
    split
    next heq => exact absurd (List.cons.inj heq).1 hsign.1
    next heq => exact absurd (List.cons.inj heq).1 hsign.2
    next => rw [← hc, hscan]
  next hge =>
    have hscan := scanDigits_toDigits true (2 ^ 32 - n)
    rw [signed, if_pos rfl, Nat.min_eq_left (by omega)] at hscan
    rw [sscanf, List.dropWhile_cons_of_neg (by decide)]
    simp only
    rw [hscan]
    congr 1
    omega

end SysStem

end LeooRexx
