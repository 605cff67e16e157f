import LeooRexx.Parser.Symbol

/-!
# Strings that are symbols

`isSymbol` finds out whether a string is a symbol and of which kind, with a scan of its
own.  A retriever of a variable is made from the kind.
-/

namespace LeooRexx

open StringConversion RexxSource

/-- The types of `isSymbol`. -/
inductive StringType where
  | badVariable
  | stem
  | compoundName
  | literal
  | literalDot
  | numeric
  | name
  deriving DecidableEq

namespace StringMisc

def symbolEnd (this : List UInt8) : Nat := (this.takeWhile fun c => lookup c ≠ 0).length

def periods (this : List UInt8) : Nat := ((this.takeWhile fun c => lookup c ≠ 0)).count period

def exponentSign (this : List UInt8) (scan : Nat) : Bool :=
  scan + 1 < this.length && isSign (this.getD scan 0) &&
    (isdigit (this.getD 0 0) || this.getD scan 0 = period) &&
    toupper (this.getD (scan - 1) 0) = 69

/-- `STRING_NUMERIC` or `STRING_LITERAL`, for a string that may be a number. -/
def numberType (this : List UInt8) : StringType :=
  let rest := this.dropWhile fun c => isdigit c || c = period
  match rest with
  | [] => .numeric
  | c :: exponent =>
      if exponent ≠ [] ∧ toupper c = 69 then
        if isSign (exponent.headD 0) then .numeric
        else if exponent.all isdigit then .numeric
        else .literal
      else .literal

def symbolType (this : List UInt8) (compound : Nat) : StringType :=
  let first := this.headD 0
  if first = period ∨ isdigit first then
    if compound = 1 ∧ this.length = 1 then .literalDot
    else if compound > 1 then .literal
    else numberType this
  else if compound = 0 then .name
  else if compound = 1 ∧ this.getLast? = some period then .stem
  else .compoundName

def isSymbol (this : List UInt8) : StringType :=
  if this.length > maxSymbolLength ∨ this.length = 0 then .badVariable
  else
    let scan := symbolEnd this
    if exponentSign this scan then
      if (this.drop (scan + 1)).all isdigit then symbolType this (periods this) else .badVariable
    else if scan < this.length then .badVariable
    else symbolType this (periods this)

end StringMisc

inductive Retriever where
  | literal
  | dotVariable
  | stem
  | compound
  | simple
  deriving DecidableEq

/-- The retriever for a type, `none` for a name that is no symbol. -/
def StringType.retriever : StringType → Option Retriever
  | badVariable => none
  | literalDot | numeric => some .literal
  | literal => some .dotVariable
  | stem => some .stem
  | compoundName => some .compound
  | name => some .simple

def getVariableRetriever (name : List UInt8) : Option Retriever :=
  (StringMisc.isSymbol name).retriever

/-- `addText`, the retriever of a symbol token. -/
def addText : SymbolClass → Retriever
  | .dummy | .constant => .literal
  | .dotsymbol => .dotVariable
  | .variable => .simple
  | .stem => .stem
  | .compound => .compound

end LeooRexx
