import LeooRexx.Classes.StringConversion

/-!
# Literal strings of the source

A literal ends at a delimiter that is not doubled.  An `X` or a `B` right behind it that
is not the start of a symbol makes it a hexadecimal or a binary literal, which is checked
for its groups and packed into bytes: `packLiteral` goes over the text once to count the
digits of each group and a second time to build the bytes.
-/

namespace LeooRexx.RexxSource

open StringConversion

/-- The entry of `lookup` for a character, 0 when it is no symbol character; lower case
letters are mapped to upper case. -/
def lookup (c : UInt8) : UInt8 :=
  if 97 ≤ c ∧ c ≤ 122 then c - 32
  else if 65 ≤ c ∧ c ≤ 90 ∨ 48 ≤ c ∧ c ≤ 57 ∨ c = 33 ∨ c = 46 ∨ c = 63 ∨ c = 95 then c
  else 0

/-- `'\t'`. -/
def tab : UInt8 := 9

def isBlank (c : UInt8) : Bool := c = space ∨ c = tab

inductive LiteralType where
  | hex
  | bin
  deriving DecidableEq

inductive LiteralError where
  | unmatchedQuote (delimiter : UInt8)
  | hexblank (m : Nat)
  | binblank (m : Nat)
  | invhex (c : UInt8)
  | invbin (c : UInt8)
  deriving DecidableEq

/-! ## The groups of a literal -/

structure Grouping where
  first : Bool
  blanks : Bool
  count : Nat
  real_length : Nat

namespace LiteralType

def residue (type : LiteralType) (count : Nat) : Nat :=
  match type with
  | hex => count &&& 1
  | bin => count &&& 3

def blankError (type : LiteralType) (m : Nat) : LiteralError :=
  match type with
  | hex => .hexblank m
  | bin => .binblank m

end LiteralType

section Scan

variable (type : LiteralType)

def misplaced (g : Grouping) : Bool := !g.first && type.residue g.count ≠ 0

def groupChar (i : Nat) (g : Grouping) (c : UInt8) : Except LiteralError Grouping :=
  if isBlank c then
    if i = 0 ∨ misplaced type g then .error (type.blankError (i + 1))
    else .ok { g with blanks := true, count := 0, real_length := g.real_length - 1 }
  else .ok { g with first := g.first && !g.blanks, blanks := false, count := g.count + 1 }

/-- The loop through the string, from the position `i` on. -/
def groupLoop : Nat → Grouping → List UInt8 → Except LiteralError Grouping
  | _, g, [] => .ok g
  | i, g, c :: text => do
      let g ← groupChar type i g c
      groupLoop (i + 1) g text

end Scan

/-! ## Packing -/

def nextDigit : List UInt8 → UInt8 × List UInt8
  | [] => (0, [])
  | c :: source => if isBlank c then nextDigit source else (c, source)

def hexNibble (nibble : UInt8) : Except LiteralError Nat :=
  if 48 ≤ nibble ∧ nibble ≤ 57 then .ok (nibble.toNat - 48)
  else if 97 ≤ nibble ∧ nibble ≤ 102 then .ok (nibble.toNat - 97 + 10)
  else if 65 ≤ nibble ∧ nibble ≤ 70 then .ok (nibble.toNat - 65 + 10)
  else .error (.invhex nibble)

def binNibble (nibble : UInt8) : Except LiteralError Nat :=
  if nibble = 49 then .ok 1
  else if nibble ≠ 48 then .error (.invbin nibble)
  else .ok 0

section Pack

variable (nibbleOf : UInt8 → Except LiteralError Nat) (shift width : Nat)

def digitLoop : Nat → Nat → List UInt8 → Except LiteralError (Nat × List UInt8)
  | 0, byte, source => .ok (byte, source)
  | k + 1, byte, source => do
      let nibble ← nibbleOf (nextDigit source).1
      digitLoop k ((byte <<< shift) + nibble) (nextDigit source).2

def byteLoop : Nat → Nat → List UInt8 → Except LiteralError (List UInt8)
  | 0, _, _ => .ok []
  | j + 1, odd, source => do
      let (byte, source) ← digitLoop nibbleOf shift (width - odd) 0 source
      let bytes ← byteLoop j 0 source
      return UInt8.ofNat byte :: bytes

end Pack

def packLiteral (current : List UInt8) (start length : Nat) (type : LiteralType) :
    Except LiteralError Written :=
  if length = 0 then .ok ⟨0, []⟩
  else do
    let g ← groupLoop type 0 ⟨true, false, 0, length⟩ ((current.drop start).take length)
    if g.blanks ∨ misplaced type g then .error (type.blankError (length - 1))
    else
      match type with
      | .hex =>
          let oddhex := g.real_length &&& 1
          let i := (g.real_length >>> 1) + oddhex
          return ⟨i, ← byteLoop hexNibble 4 2 i oddhex (current.drop start)⟩
      | .bin =>
          let oddhex := if g.real_length &&& 7 ≠ 0 then 8 - (g.real_length &&& 7) else 0
          let i := (g.real_length + oddhex) >>> 3
          return ⟨i, ← byteLoop binNibble 1 8 i oddhex (current.drop start)⟩

/-! ## The token -/

/-- What the scan of a literal finds: the place and the length of its text, how many
delimiters are doubled in it, and where the line goes on. -/
structure LiteralScan where
  start : Nat
  length : Nat
  dot_count : Nat
  line_offset : Nat
  deriving DecidableEq

/-- The loop through a literal from `start` on; the scan stands at `line_offset`, before
the rest of the line. -/
def literalLoop (delimiter : UInt8) (start : Nat) (dot_count line_offset : Nat) :
    List UInt8 → Except LiteralError LiteralScan
  | [] => .error (.unmatchedQuote delimiter)
  | inch :: rest =>
      if inch = delimiter then
        match rest with
        | [] => .ok ⟨start, line_offset - start, dot_count, line_offset + 1⟩
        | next :: rest' =>
            if next ≠ delimiter then
              .ok ⟨start, line_offset - start, dot_count, line_offset + 1⟩
            else literalLoop delimiter start (dot_count + 1) (line_offset + 2) rest'
      else literalLoop delimiter start dot_count (line_offset + 1) rest

def literalType (current : List UInt8) (line_offset : Nat) : Option LiteralType × Nat :=
  let symbolFollows := (current[line_offset + 1]?).any fun c => lookup c ≠ 0
  match current[line_offset]? with
  | none => (none, line_offset)
  | some inch =>
      if inch = 120 ∨ inch = 88 then
        if symbolFollows then (none, line_offset) else (some .hex, line_offset + 1)
      else if inch = 98 ∨ inch = 66 then
        if symbolFollows then (none, line_offset) else (some .bin, line_offset + 1)
      else (none, line_offset)

def copyLiteral (delimiter : UInt8) : List UInt8 → List UInt8
  | [] => []
  | inch :: text =>
      if inch = delimiter then inch :: copyLiteral delimiter text.tail
      else inch :: copyLiteral delimiter text
termination_by text => text.length

/-- The literal token whose delimiter stands at `offset`: its value and where the line
goes on. -/
def literalToken (current : List UInt8) (offset : Nat) : Except LiteralError (Written × Nat) := do
  let delimiter := current.getD offset 0
  let scan ← literalLoop delimiter (offset + 1) 0 (offset + 1) (current.drop (offset + 1))
  let (type, line_offset) := literalType current scan.line_offset
  let value ← match type with
    | some type => packLiteral current scan.start scan.length type
    | none => .ok ⟨scan.length - scan.dot_count,
        copyLiteral delimiter ((current.drop scan.start).take scan.length)⟩
  return (value, line_offset)

end LeooRexx.RexxSource
