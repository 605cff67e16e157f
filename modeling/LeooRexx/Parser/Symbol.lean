import LeooRexx.Parser.Literal

/-!
# Symbols of the source

A symbol is a run of symbol characters.  A state machine runs along to find the exponent
of a number: a sign behind its `E` belongs to the symbol when only digits follow, and
else the scan backs up to the sign.
-/

namespace LeooRexx.RexxSource

open StringConversion

inductive ExpState where
  | start
  | excluded
  | digit
  | spoint
  | point
  | e
  | esign
  | edigit
  deriving DecidableEq

/-- `'.'`. -/
def period : UInt8 := 46

/-- `tran == 'E'`. -/
def isE (inch : UInt8) : Bool := lookup inch = 69

/-- `inch == '+' || inch == '-'`. -/
def isSign (inch : UInt8) : Bool := inch = 43 ∨ inch = 45

def nextState (inch : UInt8) : ExpState → ExpState
  | .start => if isdigit inch then .digit else if inch = period then .spoint else .excluded
  | .digit =>
      if inch = period then .point
      else if isE inch then .e
      -- no character is below '0' and above '9' at once, so a letter stays here
      else if inch < 48 ∧ inch > 57 then .excluded
      else .digit
  | .spoint => if inch < 48 ∨ inch > 57 then .excluded else .point
  | .point =>
      if isE inch then .e else if inch < 48 ∨ inch > 57 then .excluded else .point
  -- nothing but a digit leaves the state behind an exponent's `E`
  | .e => if isdigit inch then .edigit else .e
  | .esign => if isdigit inch then .edigit else .excluded
  | .edigit => if inch < 48 ∨ inch > 57 then .excluded else .edigit
  | .excluded => .excluded

structure SymbolScan where
  state : ExpState
  eoffset : Nat
  dot_count : Nat
  line_offset : Nat
  deriving DecidableEq

def symbolLoop (state : ExpState) (eoffset dot_count line_offset : Nat) :
    List UInt8 → SymbolScan
  | [] => ⟨state, eoffset, dot_count, line_offset⟩
  | [inch] =>
      let dot_count := if inch = period then dot_count + 1 else dot_count
      let state := nextState inch state
      if eoffset ≠ 0 ∧ state = .excluded then ⟨state, eoffset, dot_count, eoffset⟩
      else ⟨state, eoffset, dot_count, line_offset + 1⟩
  | inch :: next :: rest =>
      let dot_count := if inch = period then dot_count + 1 else dot_count
      let state := nextState inch state
      let line_offset := line_offset + 1
      if eoffset ≠ 0 ∧ state = .excluded then ⟨state, eoffset, dot_count, eoffset⟩
      else if lookup next ≠ 0 then symbolLoop state eoffset dot_count line_offset (next :: rest)
      else if state = .e ∧ isSign next then
        -- the sign is stepped over, and taken back unless a symbol character follows
        if (rest.head?).any fun inch => lookup inch ≠ 0 then
          symbolLoop .esign line_offset dot_count (line_offset + 1) rest
        else ⟨.excluded, line_offset, dot_count, line_offset + 1⟩
      else ⟨state, eoffset, dot_count, line_offset⟩

inductive SymbolClass where
  | dummy
  | constant
  | dotsymbol
  | variable
  | stem
  | compound
  deriving DecidableEq

structure SymbolToken where
  value : List UInt8
  subclass : SymbolClass
  /-- `INTEGER_CONSTANT` is recorded. -/
  numeric : Bool
  line_offset : Nat
  deriving DecidableEq

def maxSymbolLength : Nat := 250

def defaultDigits : Nat := 9

def symbolClass (first second : UInt8) (dot_count : Nat) (value : List UInt8) : SymbolClass :=
  if value.length = 1 ∧ first = period then .dummy
  else if isdigit first then .constant
  else if first = period then if isdigit second then .constant else .dotsymbol
  else if dot_count > 0 then
    if dot_count = 1 ∧ value.getLast? = some period then .stem else .compound
  else .variable

/-- The symbol token at `start`, or the value of one that is too long. -/
def symbolToken (current : List UInt8) (start : Nat) : Except (List UInt8) SymbolToken :=
  let scan := symbolLoop .start 0 0 start (current.drop start)
  let line_offset :=
    if scan.eoffset ≠ 0 ∧ scan.state ≠ .edigit then scan.eoffset else scan.line_offset
  let length := line_offset - start
  let value := ((current.drop start).take length).map fun inch =>
    if lookup inch ≠ 0 then lookup inch else inch
  if length > maxSymbolLength then .error value
  else
    let first := current.getD start 0
    .ok ⟨value, symbolClass first (current.getD (start + 1) 0) scan.dot_count value,
      isdigit first && scan.state = .digit && length < defaultDigits &&
        (first ≠ 48 || length = 1), line_offset⟩

end LeooRexx.RexxSource
