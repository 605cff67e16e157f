import LeooRexx.Classes.RawString
import LeooRexx.Foundation.Groups
import Mathlib.Data.Nat.Basic

/-!
# Hexadecimal and binary strings

`C2X`, `X2C`, `B2X` and `X2B`.  A string of digits may have blanks between its
groups, of two hexadecimal or four binary digits, and its first group may be
short; `ValidateSet` checks that, and `ChGetSm` gathers the digits over the blanks.
-/

namespace LeooRexx

/-- The conditions raised by `ValidateSet`, of its two versions. -/
inductive ConversionError where
  | hexblank (position : Nat)
  | binblank (position : Nat)
  | invhex (c : UInt8)
  | invbin (c : UInt8)
  deriving DecidableEq

namespace StringConversion

/-- `ch_SPACE`. -/
def space : UInt8 := 32

/-- `'0'`. -/
def zero : UInt8 := 48

def bytes (s : String) : List UInt8 := s.toList.map fun ch => UInt8.ofNat ch.toNat

def hexSet : List UInt8 := bytes "0123456789ABCDEFabcdef"

def binSet : List UInt8 := bytes "01"

def hextab : List UInt8 := bytes "0123456789ABCDEF"

/-- `c != '\0' && strchr(Set, c) != NULL`. -/
def inSet (set : List UInt8) (c : UInt8) : Bool := c ≠ 0 ∧ c ∈ set

/-! ## Digits -/

def isdigit (c : UInt8) : Bool := 48 ≤ c ∧ c ≤ 57

def toupper (c : UInt8) : UInt8 := if 97 ≤ c ∧ c ≤ 122 then c - 32 else c

def hexDigitToInt (ch : UInt8) : Nat :=
  if isdigit ch then ch.toNat - 48 else (toupper ch).toNat - 65 + 10

def intToHexDigit (n : Nat) : UInt8 := hextab.getD n 0

/-- The loop over the eight places of `PackByte`. -/
def packByte (string : List UInt8) : Nat :=
  (List.range 8).foldl
    (fun result i => if string.getD i 0 = 49 then result ||| 1 <<< (7 - i) else result) 0

def packNibble (string : List UInt8) : UInt8 :=
  intToHexDigit (packByte (List.replicate 4 zero ++ string.take 4))

def packByte2 (byte : List UInt8) : UInt8 :=
  UInt8.ofNat ((hexDigitToInt (byte.getD 0 0) <<< 4) ||| hexDigitToInt (byte.getD 1 0))

def unpackNibble (val : Nat) : List UInt8 :=
  [if val &&& 8 ≠ 0 then 49 else 48,
   if val &&& 4 ≠ 0 then 49 else 48,
   if val &&& 2 ≠ 0 then 49 else 48,
   if val &&& 1 ≠ 0 then 49 else 48]

/-! ## Validation -/

/-- `Error_Incorrect_method_hexblank` or its binary version. -/
def blankError (hex : Bool) (position : Nat) : ConversionError :=
  if hex then .hexblank position else .binblank position

/-- `Error_Incorrect_method_invhex` or its binary version. -/
def charError (hex : Bool) (c : UInt8) : ConversionError :=
  if hex then .invhex c else .invbin c

structure Validation where
  count : Nat
  current : Nat
  spaceLocation : Nat
  residue : Option Nat

section Validate

variable (set : List UInt8) (modulus : Nat) (hex : Bool)

def validateChar (v : Validation) (c : UInt8) : Except ConversionError Validation :=
  let v := { v with current := v.current + 1 }
  if inSet set c then .ok { v with count := v.count + 1 }
  else if c = space then
    let v := { v with spaceLocation := v.current }
    match v.residue with
    | none => .ok { v with residue := some (v.count % modulus) }
    | some residue =>
        if residue ≠ v.count % modulus then .error (blankError hex v.spaceLocation) else .ok v
  else .error (charError hex c)

def validateLoop (v : Validation) : List UInt8 → Except ConversionError Validation
  | [] => .ok v
  | c :: string => do
      let v ← validateChar set modulus hex v c
      validateLoop v string

def validateSet (string : List UInt8) : Except ConversionError Nat := do
  if string.head? = some space then .error (blankError hex 1)
  else
    let v ← validateLoop set modulus hex ⟨0, 0, 0, none⟩ string
    let misplaced : Bool := match v.residue with
      | none => false
      | some residue => v.count % modulus ≠ residue
    if string.getLast? = some space ∨ misplaced then .error (blankError hex v.spaceLocation)
    else .ok v.count

end Validate

/-! ## Conversions -/

/-- `ChGetSm`: the next `count` members of the set and how many characters they were
found in. -/
def chGetSm (set : List UInt8) : List UInt8 → Nat → List UInt8 × Nat
  | [], _ => ([], 0)
  | c :: source, count =>
      if inSet set c then
        if count = 1 then ([c], 1)
        else
          let (found, scanned) := chGetSm set source (count - 1)
          (c :: found, scanned + 1)
      else
        let (found, scanned) := chGetSm set source count
        (found, scanned + 1)

def overlay (buf : List UInt8) (offset : Nat) (source : List UInt8) : List UInt8 :=
  buf.take offset ++ source ++ buf.drop (offset + source.length)

/-- The loop that `PackHex` and `b2x` share: `count` members of the set are left, and
the next group goes to the right end of `buf`. -/
def packLoop (set : List UInt8) (m : Nat) (pack : List UInt8 → UInt8) :
    Nat → List UInt8 → List UInt8 → Nat → List UInt8
  | 0, _, _, _ => []
  | fuel + 1, buf, source, count =>
      if count > 0 then
        let excess := if count % m = 0 then m else count % m
        let buf := if count % m = 0 then buf else List.replicate m zero
        let (found, scanned) := chGetSm set source excess
        let buf := overlay buf (m - excess) found
        pack buf :: packLoop set m pack fuel buf (source.drop scanned) (count - excess)
      else []

def packHex (string : List UInt8) : Except ConversionError Written :=
  if string = [] then .ok ⟨0, []⟩
  else do
    let nibbles ← validateSet hexSet 2 true string
    return ⟨(nibbles + 1) / 2,
      packLoop hexSet 2 packByte2 nibbles (List.replicate 8 0) string nibbles⟩

def x2c (string : List UInt8) : Except ConversionError Written :=
  if string = [] then .ok ⟨0, []⟩ else packHex string

def b2x (string : List UInt8) : Except ConversionError Written :=
  if string = [] then .ok ⟨0, []⟩
  else do
    let bits ← validateSet binSet 4 false string
    return ⟨(bits + 3) / 4,
      packLoop binSet 4 packNibble bits (List.replicate 4 0) string bits⟩

def c2x (string : List UInt8) : Written :=
  if string = [] then ⟨0, []⟩
  else
    ⟨string.length * 2, string.flatMap fun ch =>
      [intToHexDigit ((ch.toNat >>> 4) &&& 0xF), intToHexDigit (ch.toNat &&& 0xF)]⟩

def unpackLoop : List UInt8 → Nat → List UInt8
  | _, 0 => []
  | [], _ => []
  | ch :: source, nibbles + 1 =>
      if ch ≠ space then unpackNibble (hexDigitToInt ch) ++ unpackLoop source nibbles
      else unpackLoop source (nibbles + 1)

def x2b (string : List UInt8) : Except ConversionError Written :=
  if string = [] then .ok ⟨0, []⟩
  else do
    let nibbles ← validateSet hexSet 2 true string
    return ⟨nibbles * 4, unpackLoop string nibbles⟩

/-! ## Well grouped strings -/

/-- Digits of the set in groups of `m`, of which the first may be short, with blanks
only between the groups: what follows a blank is whole groups. -/
structure WellGrouped (set : List UInt8) (m : Nat) (string : List UInt8) : Prop where
  chars : ∀ c ∈ string, c ∈ set ∨ c = space
  no_leading : string.head? ≠ some space
  no_trailing : string.getLast? ≠ some space
  groups : ∀ before after, string = before ++ space :: after →
    m ∣ (after.filter (· ≠ space)).length

end StringConversion

end LeooRexx
