import Mathlib.Data.List.Basic

/-!
# Argument lists

The parser collects the arguments of a call in a queue that all calls being parsed share,
and on the term stack.  The node of the call takes its arguments from the queue, last one
first, and notes their count in a field of its own: eight bits in a function call, sixteen
with a sign in a message.  At run time the node evaluates as many arguments as the field
says and passes that count on.
-/

namespace LeooRexx

/-- An expression as it is written; an argument that is omitted is `none`, so that `f()`
has one.  A message without a list has no arguments at all. -/
inductive SourceExpr (τ : Type) where
  | term (t : τ)
  | binary (op : List UInt8) (left right : SourceExpr τ)
  | function (name : List UInt8) (args : List (Option (SourceExpr τ)))
  | message (target : SourceExpr τ) (name : List UInt8) (args : List (Option (SourceExpr τ)))
      (doubleTilde : Bool)
  | collection (target : SourceExpr τ) (args : List (Option (SourceExpr τ)))

inductive ExprNode (τ : Type) where
  | term (t : τ)
  | binary (op : List UInt8) (left right : ExprNode τ)
  | function (u_name : List UInt8) (argument_count : Nat) (arguments : List (Option (ExprNode τ)))
  | message (target : ExprNode τ) (u_name : List UInt8) (argumentCount : Int)
      (arguments : List (Option (ExprNode τ))) (doubleTilde : Bool)

/-- `OREF_BRACKETS`. -/
def brackets : List UInt8 := [91, 93]

namespace ArgumentList

variable {τ : Type}

/-! ## Parsing -/

/-- The queue of subterms, from its first item on, and the term stack from its top on. -/
structure Parser (τ : Type) where
  subTerms : List (Option (ExprNode τ))
  terms : List (Option (ExprNode τ))

def Parser.pushTerm (p : Parser τ) (term : Option (ExprNode τ)) : Parser τ :=
  { p with terms := term :: p.terms }

/-- The argument `subexpr` is added to the list. -/
def Parser.addArgument (p : Parser τ) (subexpr : Option (ExprNode τ)) : Parser τ :=
  { subTerms := subexpr :: p.subTerms, terms := subexpr :: p.terms }

def popTerm (p : Parser τ) : Option (ExprNode τ × Parser τ) :=
  match p.terms with
  | some term :: terms => some (term, { p with terms := terms })
  | _ => none

/-- `arguments[--argCount] = arglist->pop()` as long as there are any. -/
def popArguments : Nat → List (Option (ExprNode τ)) → Parser τ →
    Option (List (Option (ExprNode τ)) × Parser τ)
  | 0, arguments, p => some (arguments, p)
  | argCount + 1, arguments, p =>
      match p.subTerms with
      | [] => none
      | item :: subTerms => popArguments argCount (item :: arguments) { p with subTerms := subTerms }

/-- `(UCHAR)argCount`. -/
def functionCount (argCount : Nat) : Nat := argCount % 256

/-- `(SHORT)argCount`. -/
def messageCount (argCount : Nat) : Int := (argCount : Int).bmod 65536

/-- What `argList` does behind its loop: the terms are popped, and the trailing omitted
arguments. -/
def endList (p : Parser τ) (total realcount : Nat) : Nat × Parser τ :=
  (realcount,
    { subTerms := p.subTerms.drop (total - realcount), terms := p.terms.drop total })

mutual

def subExpression : SourceExpr τ → Parser τ → Option (ExprNode τ × Parser τ)
  | .term t, p => some (.term t, p)
  | .binary op left right, p => do
      let (left, p) ← subExpression left p
      let (right, p) ← subExpression right (p.pushTerm (some left))
      let (right, p) ← popTerm (p.pushTerm (some right))
      let (left, p) ← popTerm p
      return (.binary op left right, p)
  | .function name args, p => do
      let (p, total, realcount) ← argLoop args p 0 0
      let (argCount, p) := endList p total realcount
      let (arguments, p) ← popArguments argCount [] p
      return (.function name (functionCount argCount) arguments, p)
  | .message target name args doubleTilde, p => do
      let (target, p) ← subExpression target p
      let (p, total, realcount) ← argLoop args (p.pushTerm (some target)) 0 0
      let (argCount, p) := endList p total realcount
      let (target, p) ← popTerm p
      let (arguments, p) ← popArguments argCount [] p
      return (.message target name (messageCount argCount) arguments doubleTilde, p)
  | .collection target args, p => do
      let (target, p) ← subExpression target p
      let (p, total, realcount) ← argLoop args p 0 0
      let (argCount, p) := endList p total realcount
      let (arguments, p) ← popArguments argCount [] p
      return (.message target brackets (messageCount argCount) arguments false, p)

/-- The loop of `argList`. -/
def argLoop : List (Option (SourceExpr τ)) → Parser τ → Nat → Nat → Option (Parser τ × Nat × Nat)
  | [], p, total, realcount => some (p, total, realcount)
  | arg :: args, p, total, realcount => do
      let (subexpr, p) ← argExpression arg p
      argLoop args (p.addArgument subexpr) (total + 1)
        (if subexpr.isSome then total + 1 else realcount)

/-- An argument, `OREF_NULL` when the expression ends at once. -/
def argExpression : Option (SourceExpr τ) → Parser τ → Option (Option (ExprNode τ) × Parser τ)
  | none, p => some (none, p)
  | some expression, p => do
      let (subexpr, p) ← subExpression expression p
      return (some subexpr, p)

end

/-! ## Evaluation -/

/-- What the terms, the operators and the callees do to a state; an omitted argument is
`none` to them. -/
structure Machine (τ σ V : Type) where
  term : τ → σ → V × σ
  binary : List UInt8 → V → V → σ → V × σ
  call : List UInt8 → List (Option V) → σ → V × σ
  send : V → List UInt8 → List (Option V) → σ → V × σ

section Evaluate

variable {σ V : Type} (m : Machine τ σ V)

mutual

/-- The value of a node, the evaluation stack from its top on with the value pushed, and
the state; `none` when the arguments end before the count does. -/
def evaluate : ExprNode τ → List (Option V) → σ → Option (V × List (Option V) × σ)
  | .term t, stack, s =>
      let (result, s) := m.term t s
      some (result, some result :: stack, s)
  | .binary op left right, stack, s => do
      let (left, stack', s) ← evaluate left stack s
      let (right, _, s) ← evaluate right stack' s
      let (result, s) := m.binary op left right s
      return (result, some result :: stack, s)
  | .function u_name argument_count arguments, stack, s => do
      let (stack', s) ← evaluateArguments argument_count arguments stack s
      let (result, s) := m.call u_name (stack'.take argument_count).reverse s
      return (result, some result :: stack, s)
  | .message target u_name argumentCount arguments doubleTilde, stack, s => do
      let (target, stack', s) ← evaluate target stack s
      -- the loop compares with the count as a size_t, of 32 bits
      let (stack', s) ← evaluateArguments (argumentCount % 4294967296).toNat arguments stack' s
      let (result, s) := m.send target u_name (stack'.take argumentCount.toNat).reverse s
      let stack' := stack'.drop argumentCount.toNat
      if doubleTilde then return (target, stack', s)
      else return (result, some result :: stack'.tail, s)

def evaluateArguments : Nat → List (Option (ExprNode τ)) → List (Option V) → σ →
    Option (List (Option V) × σ)
  | 0, _, stack, s => some (stack, s)
  | _ + 1, [], _, _ => none
  | argcount + 1, argument :: arguments, stack, s => do
      let (stack, s) ← evaluateArgument argument stack s
      evaluateArguments argcount arguments stack s

def evaluateArgument : Option (ExprNode τ) → List (Option V) → σ → Option (List (Option V) × σ)
  | none, stack, s => some (none :: stack, s)
  | some argument, stack, s => do
      let (_, stack, s) ← evaluate argument stack s
      return (stack, s)

end

end Evaluate

end ArgumentList

end LeooRexx
