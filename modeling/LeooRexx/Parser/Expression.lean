import Mathlib
import LeooRexx.Parser.Symbol

/-!
# Parsing expressions

An expression is read from the tokens of a clause.  Its terms wait on a stack until the
operators behind them bind them, the operators on another one, above a fence for each expression
that is being read.  The arguments of a call are handed on in a queue that all calls share.  A
token is taken back by stepping the position back.
-/

namespace LeooRexx.RexxSource

inductive Operator where
  | plus | subtract | multiply | divide | intdiv | remainder | power
  | abuttal | concatenate | blank
  | equal | backslashEqual | greaterthan | backslashGreaterthan | lessthan | backslashLessthan
  | greaterthanEqual | lessthanEqual
  | strictEqual | strictBackslashEqual | strictGreaterthan | strictBackslashGreaterthan
  | strictLessthan | strictBackslashLessthan | strictGreaterthanEqual | strictLessthanEqual
  | lessthanGreaterthan | greaterthanLessthan
  | and | or | xor | backslash
  deriving DecidableEq, Repr

def precedence : Operator → ℕ
  | .or | .xor => 1
  | .and => 2
  | .equal | .backslashEqual | .greaterthan | .backslashGreaterthan | .lessthan
  | .backslashLessthan | .greaterthanEqual | .lessthanEqual | .strictEqual
  | .strictBackslashEqual | .strictGreaterthan | .strictBackslashGreaterthan | .strictLessthan
  | .strictBackslashLessthan | .strictGreaterthanEqual | .strictLessthanEqual
  | .lessthanGreaterthan | .greaterthanLessthan => 3
  | .abuttal | .concatenate | .blank => 4
  | .plus | .subtract => 5
  | .multiply | .divide | .intdiv | .remainder => 6
  | .power => 7
  | .backslash => 8

/-- The tokens of a clause; the blank operator has a token class of its own, and `other` are the
tokens that no expression has. -/
inductive Token where
  | blank
  | symbol (value : List UInt8) (subclass : SymbolClass)
  | literal (value : List UInt8)
  | operator (subclass : Operator) (written : subclass ≠ .blank := by decide)
  | assignment (subclass : Operator)
  | comma | left | right | sqleft | sqright | colon | tilde | dtilde
  | eoc
  | other
  deriving DecidableEq

def Operator.token (subclass : Operator) : Token :=
  if h : subclass = .blank then .blank else .operator subclass h

inductive SubKeyword where
  | to | by | for | while | until | with | then
  deriving DecidableEq

def SubKeyword.text : SubKeyword → List UInt8
  | .to => [84, 79]
  | .by => [66, 89]
  | .for => [70, 79, 82]
  | .while => [87, 72, 73, 76, 69]
  | .until => [85, 78, 84, 73, 76]
  | .with => [87, 73, 84, 72]
  | .then => [84, 72, 69, 78]

def subKeyword (value : List UInt8) : Option SubKeyword :=
  [SubKeyword.to, .by, .for, .while, .until, .with, .then].find? (·.text = value)

structure Terminators where
  right : Bool := false
  sqright : Bool := false
  comma : Bool := false
  keyword : Bool := false
  keywords : SubKeyword → Bool := fun _ => false

namespace Terminators

/-- `TERM_EOC`. -/
def eoc : Terminators := {}

/-- `(terminators | TERM_RIGHT) & ~TERM_SQRIGHT`. -/
def inParens (terminators : Terminators) : Terminators :=
  { terminators with right := true, sqright := false }

/-- `(terminators | TERM_SQRIGHT) & ~TERM_RIGHT`. -/
def inBrackets (terminators : Terminators) : Terminators :=
  { terminators with sqright := true, right := false }

def ends (terminators : Terminators) : Token → Bool
  | .eoc => true
  | .right => terminators.right
  | .sqright => terminators.sqright
  | .comma => terminators.comma
  | .symbol value _ => terminators.keyword && (subKeyword value).any terminators.keywords
  | _ => false

end Terminators

inductive SyntaxError where
  | invalidExpressionGeneral (token : Token)
  | invalidExpressionPrefix (token : Token)
  | unmatchedParenthesisParen
  | unmatchedParenthesisSquare
  | unexpectedCommaComma
  | unexpectedCommaParen
  | unexpectedCommaBracket
  | symbolOrStringTilde
  | symbolExpectedColon
  /-- The model has no steps left. -/
  | outOfFuel

inductive Expression where
  /-- What `addText` finds for the token. -/
  | text (token : Token)
  | unary (op : Operator) (term : Expression)
  | binary (op : Operator) (left right : Expression)
  | function (name : Token) (arguments : List (Option Expression))
  | message (target : Expression) (messagename : List UInt8) (super : Option Token)
      (arguments : List (Option Expression)) (doubleTilde : Bool)

/-- The stacks and the queue from their tops on; `none` is `OREF_NULL` among the terms and the
fence among the operators. -/
structure Parser where
  clause : List Token
  current : ℕ
  terms : List (Option Expression)
  operators : List (Option Operator)
  subTerms : List (Option Expression)
  currentstack : ℕ
  maxstack : ℕ

abbrev Parse := StateT Parser (Except SyntaxError)

def report {α : Type} (error : SyntaxError) : Parse α := fun _ => .error error

/-! ## Tokens -/

/-- The clause ends with an end-of-clause token. -/
def nextToken : Parse Token := fun s =>
  .ok (s.clause.getD s.current .eoc, { s with current := s.current + 1 })

def previousToken : Parse Unit := fun s => .ok ((), { s with current := s.current - 1 })

/-- The position behind the blanks from `current` on. -/
def skipBlanks (clause : List Token) (current : ℕ) : ℕ :=
  current + ((clause.drop current).takeWhile (· = .blank)).length

def nextReal : Parse Token := fun s =>
  nextToken { s with current := skipBlanks s.clause s.current }

/-- A token that ends the expression is taken back. -/
def terminator (terminators : Terminators) (token : Token) : Parse Bool := do
  if terminators.ends token then
    previousToken
    return true
  else return false

def getToken (terminators : Terminators) (errorcode : Option SyntaxError) :
    Parse (Option Token) := do
  let token ← nextToken
  if ← terminator terminators token then
    match errorcode with
    | some error => report error
    | none => return none
  else return some token

/-! ## Stacks -/

def pushTerm (term : Option Expression) : Parse Unit := fun s =>
  .ok ((), { s with
    terms := term :: s.terms
    currentstack := s.currentstack + 1
    maxstack := max s.maxstack (s.currentstack + 1) })

def popTerm : Parse (Option Expression) := fun s =>
  .ok (s.terms.headD none, { s with terms := s.terms.tail, currentstack := s.currentstack - 1 })

def popNTerms (count : ℕ) : Parse Unit := fun s =>
  .ok ((), { s with terms := s.terms.drop count, currentstack := s.currentstack - count })

def pushOperator (operatorToken : Option Operator) : Parse Unit := fun s =>
  .ok ((), { s with operators := operatorToken :: s.operators })

def popOperator : Parse Unit := fun s => .ok ((), { s with operators := s.operators.tail })

def popArguments (argCount : ℕ) : Parse (List (Option Expression)) := fun s =>
  .ok ((s.subTerms.take argCount).reverse, { s with subTerms := s.subTerms.drop argCount })

/-! ## Calls -/

section Calls

-- how the expressions inside are read
variable (subExpression : Terminators → Parse (Option Expression))

/-- The loop of `argList`, up to the token that is no comma. -/
def argLoop (terminators : Terminators) : ℕ → ℕ → ℕ → Parse (ℕ × ℕ × Token)
  | 0, _, _ => report .outOfFuel
  | steps + 1, total, realcount => do
      let subexpr ← subExpression { terminators with comma := true }
      modify fun s => { s with subTerms := subexpr :: s.subTerms }
      pushTerm subexpr
      let realcount := if subexpr.isSome then total + 1 else realcount
      let token ← nextToken
      if token = .comma then argLoop terminators steps (total + 1) realcount
      else return (total + 1, realcount, token)

/-- The arguments are left in the queue, without the omitted ones at the end. -/
def argList (terminators : Terminators) : Parse ℕ := do
  let _ ← nextReal
  previousToken
  let steps := (← get).clause.length + 1
  let (total, realcount, token) ← argLoop subExpression terminators steps 0 0
  if terminators.right ∧ token ≠ .right then report .unmatchedParenthesisParen
  else if terminators.sqright ∧ token ≠ .sqright then report .unmatchedParenthesisSquare
  else
    popNTerms total
    modify fun s => { s with subTerms := s.subTerms.drop (total - realcount) }
    return realcount

def function (name : Token) (terminators : Terminators) : Parse Expression := do
  let argCount ← argList subExpression terminators.inParens
  let arguments ← popArguments argCount
  return .function name arguments

/-- `OREF_BRACKETS` is the name of the message. -/
def collectionMessage (target : Expression) (terminators : Terminators) : Parse Expression := do
  let argCount ← argList subExpression terminators.inBrackets
  let arguments ← popArguments argCount
  return .message target [91, 93] none arguments false

def messageSuper (terminators : Terminators) :
    Option Token → Parse (Option Token × Option Token)
  | some .colon => do
      match ← getToken terminators (some .symbolExpectedColon) with
      | some (.symbol value subclass) =>
          if subclass ∈ [SymbolClass.variable, .stem, .compound, .dotsymbol] then
            let token ← getToken terminators none
            return (some (.symbol value subclass), token)
          else report .symbolExpectedColon
      | _ => report .symbolExpectedColon
  | token => return (none, token)

def messageArguments (terminators : Terminators) : Option Token → Parse ℕ
  | some .left => argList subExpression terminators.inParens
  | some _ => do
      previousToken
      return 0
  | none => return 0

def message (target : Expression) (doubleTilde : Bool) (terminators : Terminators) :
    Parse Expression := do
  pushTerm (some target)
  match ← getToken terminators (some .symbolOrStringTilde) with
  | some (.symbol messagename _) | some (.literal messagename) =>
      let token ← getToken terminators none
      let (super, token) ← messageSuper terminators token
      let argCount ← messageArguments subExpression terminators token
      let _ ← popTerm
      let arguments ← popArguments argCount
      return .message target messagename super arguments doubleTilde
  | _ => report .symbolOrStringTilde

/-! ## Terms -/

def subTerm (terminators : Terminators) : Parse (Option Expression) := do
  let token ← nextToken
  if ← terminator terminators token then return none
  match token with
  | .left =>
      match ← subExpression terminators.inParens with
      | none => report (.invalidExpressionGeneral token)
      | some term =>
          let second ← nextToken
          if second = .right then return some term else report .unmatchedParenthesisParen
  | .symbol _ _ | .literal _ =>
      let second ← nextToken
      if second = .left then return some (← function subExpression token terminators)
      else
        previousToken
        return some (.text token)
  | .right => report .unexpectedCommaParen
  | .comma => report .unexpectedCommaComma
  | .sqright => report .unexpectedCommaBracket
  | .operator .plus _ | .operator .subtract _ | .operator .backslash _ =>
      previousToken
      return none
  | _ => report (.invalidExpressionGeneral token)

def cascade : ℕ → Expression → Parse Expression
  | 0, _ => report .outOfFuel
  | steps + 1, term => do
      let token ← nextToken
      match token with
      | .sqleft => cascade steps (← collectionMessage subExpression term .eoc)
      | .tilde => cascade steps (← message subExpression term false .eoc)
      | .dtilde => cascade steps (← message subExpression term true .eoc)
      | _ =>
          previousToken
          return term

def messageSubterm (terminators : Terminators) : ℕ → Parse (Option Expression)
  | 0 => report .outOfFuel
  | steps + 1 => do
      let token ← nextToken
      if ← terminator terminators token then return none
      match token with
      | .operator subclass _ =>
          if subclass = .plus ∨ subclass = .subtract ∨ subclass = .backslash then
            match ← messageSubterm terminators steps with
            | none => report (.invalidExpressionPrefix token)
            | some term => return some (.unary subclass term)
          else report (.invalidExpressionGeneral token)
      | _ =>
          previousToken
          -- here a term begins, so that there is one
          match ← subTerm subExpression .eoc with
          | none => return none
          | some term =>
              let steps := (← get).clause.length + 1
              return some (← cascade subExpression steps term)

/-! ## Operators -/

def reduceLoop (subclass : Operator) : List (Option Operator) → Parse Unit
  | some second :: operators => do
      if precedence subclass > precedence second then return ()
      let right ← popTerm
      let left ← popTerm
      match left, right with
      | some left, some right =>
          popOperator
          pushTerm (some (.binary second left right))
          reduceLoop subclass operators
      | _, _ => report (.invalidExpressionGeneral subclass.token)
  | _ => return ()

def finishLoop : List (Option Operator) → Parse Unit
  | some op :: operators => do
      popOperator
      let right ← popTerm
      let left ← popTerm
      match left, right with
      | some left, some right =>
          pushTerm (some (.binary op left right))
          finishLoop operators
      | _, _ => report (.invalidExpressionGeneral op.token)
  | _ => popOperator

def dyadic (terminators : Terminators) (subclass : Operator) : Parse Unit := do
  if subclass = .backslash then report (.invalidExpressionGeneral subclass.token)
  reduceLoop subclass (← get).operators
  pushOperator (some subclass)
  let steps := (← get).clause.length + 1
  let right ← messageSubterm subExpression terminators steps
  if right.isNone ∧ subclass ≠ .blank then
    report (.invalidExpressionGeneral subclass.token)
  pushTerm right

/-- A concatenation without an operator, unless only blanks are left. -/
def concatenation (terminators : Terminators) (subclass : Operator) : Parse Unit := do
  let second ← nextReal
  if ← terminator terminators second then return ()
  previousToken
  dyadic subExpression terminators subclass

/-- What `subExpression` does with a token that does not end the expression. -/
def operation (terminators : Terminators) (token : Token) : Parse Unit := do
  match token with
  | .tilde | .dtilde =>
      match ← popTerm with
      | none => report (.invalidExpressionGeneral token)
      | some left =>
          pushTerm (some (← message subExpression left (token = .dtilde) terminators))
  | .sqleft =>
      match ← popTerm with
      | none => report (.invalidExpressionGeneral token)
      | some left => pushTerm (some (← collectionMessage subExpression left terminators))
  | .symbol _ _ | .literal _ | .left =>
      previousToken
      concatenation subExpression terminators .abuttal
  | .blank => concatenation subExpression terminators .blank
  | .operator subclass _ => dyadic subExpression terminators subclass
  | .comma => report .unexpectedCommaComma
  | .right => report .unexpectedCommaParen
  | .sqright => report .unexpectedCommaBracket
  | _ => report (.invalidExpressionGeneral token)

def operatorLoop (terminators : Terminators) : ℕ → Parse Unit
  | 0 => report .outOfFuel
  | steps + 1 => do
      let token ← nextToken
      if ← terminator terminators token then return ()
      operation subExpression terminators token
      operatorLoop terminators steps

def expressionOf (terminators : Terminators) : Parse (Option Expression) := do
  let steps := (← get).clause.length + 1
  match ← messageSubterm subExpression terminators steps with
  | none => return none
  | some left =>
      pushTerm (some left)
      pushOperator none
      operatorLoop subExpression terminators steps
      finishLoop (← get).operators
      popTerm

end Calls

def subExpression : ℕ → Terminators → Parse (Option Expression)
  | 0, _ => report .outOfFuel
  | depth + 1, terminators => expressionOf (subExpression depth) terminators

def expression (depth : ℕ) (terminators : Terminators) : Parse (Option Expression) := do
  let _ ← nextReal
  previousToken
  subExpression depth terminators

end LeooRexx.RexxSource
