import Mathlib

/-!
# The regular expression automaton

`automaton::parse` builds the states of a pattern while it reads it: a construct is
appended at `freeState`, and a later operator changes the links of states that are
there already.  `automaton::match` runs the states with a double ended queue, in which
a marker separates the states of the current character from those of the next one.

A pattern is read up to its terminator.  The states are a function on positions, so
that what a reallocation leaves in the positions not set yet is some arbitrary content.
-/

namespace LeooRexx.Rxregexp

inductive ReError where
  | unexpectedSymbol
  | missingParenClose
  | illegalSet
  | unexpectedEop
  | illegalNumber
  | illegalSymbolicName
  deriving DecidableEq, Repr

inductive ParseFault where
  | thrown (error : ReError)
  | endless
  | outOfFuel
  deriving DecidableEq, Repr

abbrev Parsed := Except ParseFault

def SCAN : Nat := 0xf0000000
def EPSILON : Nat := 0x10000000
def NOT : Nat := 0x20000000
def ANY : Nat := 0x40000000
def SET : Nat := 0x80000000
def EOP : Nat := 0

def ch (c : Char) : UInt8 := UInt8.ofNat c.toNat

/-- `(int) c`, of a signed character in 32 bits. -/
def charInt (c : UInt8) : Nat := if c.toNat < 128 then c.toNat else 0xffffff00 + c.toNat

/-- `c` as a signed character. -/
def signedChar (c : UInt8) : Int := if c.toNat < 128 then c.toNat else (c.toNat : Int) - 256

structure State where
  ch : Nat
  next1 : Nat
  next2 : Nat
  deriving DecidableEq, Repr

structure Automaton where
  states : Nat → State
  freeState : Nat
  setArray : List (List UInt8)

namespace Automaton

def setState (a : Automaton) (position transition state1 state2 : Nat) : Automaton :=
  { a with states := fun j => if j = position then ⟨transition, state1, state2⟩ else a.states j }

/-- `next1[position] = state`. -/
def setNext1 (a : Automaton) (position state : Nat) : Automaton :=
  a.setState position (a.states position).ch state (a.states position).next2

/-- `setState(freeState, ...)` and `freeState++`. -/
def append (a : Automaton) (transition state1 state2 : Nat) : Automaton :=
  { a.setState a.freeState transition state1 state2 with freeState := a.freeState + 1 }

end Automaton

structure Parser where
  automaton : Automaton
  text : List UInt8

/-- `regexp[currentPos]`. -/
def Parser.current (p : Parser) : UInt8 := p.text.headD 0

/-- `currentPos++`. -/
def Parser.next (p : Parser) : Parser := { p with text := p.text.tail }

def letter (c : UInt8) : Bool :=
  c ∉ [ch '(', ch ')', ch '{', ch '}', ch '|', ch '*', ch '+', ch '[', ch ']', 0]

/-! ## Sets -/

/-- The `<ctype.h>` functions that symbolic names stand for. -/
inductive CType where
  | alpha | lower | upper | alnum | digit | xdigit | space | cntrl | print | punct | graph
  deriving DecidableEq, Repr

def between (lo hi : Char) (c : UInt8) : Bool := ch lo ≤ c ∧ c ≤ ch hi

def CType.test : CType → UInt8 → Bool
  | alpha, c => between 'a' 'z' c || between 'A' 'Z' c
  | lower, c => between 'a' 'z' c
  | upper, c => between 'A' 'Z' c
  | alnum, c => between 'a' 'z' c || between 'A' 'Z' c || between '0' '9' c
  | digit, c => between '0' '9' c
  | xdigit, c => between '0' '9' c || between 'a' 'f' c || between 'A' 'F' c
  | space, c => c = ch ' ' || (9 ≤ c ∧ c ≤ 13)
  | cntrl, c => c < 32 || c = 127
  | print, c => 32 ≤ c ∧ c < 127
  | punct, c => (32 < c ∧ c < 127) &&
      !(between 'a' 'z' c || between 'A' 'Z' c || between '0' '9' c)
  | graph, c => 32 < c ∧ c < 127

inductive Symbolic where
  | blank
  | func (f : CType)
  deriving DecidableEq, Repr

def bytes (s : String) : List UInt8 := s.toList.map ch

def toupper (c : UInt8) : UInt8 := if between 'a' 'z' c then c - 32 else c

def keyword (name : List UInt8) : Option Symbolic :=
  if name = bytes "ALPHA" then some (.func .alpha)
  else if name = bytes "LOWER" then some (.func .lower)
  else if name = bytes "UPPER" then some (.func .upper)
  else if name = bytes "ALNUM" then some (.func .alnum)
  else if name = bytes "DIGIT" then some (.func .digit)
  else if name = bytes "XDIGIT" then some (.func .xdigit)
  else if name = bytes "BLANK" then some .blank
  else if name = bytes "SPACE" then some (.func .space)
  else if name = bytes "CNTRL" then some (.func .cntrl)
  else if name = bytes "PRINT" then some (.func .print)
  else if name = bytes "PUNCT" then some (.func .punct)
  else if name = bytes "GRAPH" then some (.func .graph)
  else none

/-- `if (checkRange(range,i,c)) range[i++] = c`. -/
def addToRange (range : List UInt8) (c : UInt8) : List UInt8 :=
  if c ∈ range then range else range ++ [c]

/-- `for (char c=b+1;c<=e;c++)`, which does not end where every character is `<= e`. -/
def fillRange (range : List UInt8) (b e : UInt8) : Parsed (List UInt8) :=
  if e = 127 then .error .endless
  else .ok <| ((List.range (signedChar e - signedChar b).toNat).map fun k =>
    b + 1 + UInt8.ofNat k).foldl addToRange range

/-- The `-` operator: the ends are swapped where they are in descending order. -/
def addRange (range : List UInt8) (b e : UInt8) : Parsed (List UInt8) :=
  if signedChar b > signedChar e then fillRange range e b else fillRange range b e

/-- `for (j=0;j<256;j++) if ( (*func)(j) )`. -/
def addFunc (range : List UInt8) (func : CType) : List UInt8 :=
  (((List.range 256).map UInt8.ofNat).filter func.test).foldl addToRange range

def addSymbolic (range : List UInt8) (func : Option CType) :
    Symbolic → List UInt8 × Option CType
  | .func f => (addFunc range f, some f)
  | .blank =>
      let range := addToRange (addToRange range (ch ' ')) 9
      match func with
      | none => (range, none)
      | some f => (addFunc range f, some f)

def symbolicName (text : List UInt8) : List UInt8 :=
  (text.takeWhile fun c => c ≠ 0 ∧ c ≠ ch ':').take 15

/-- The loop of `set`: `last` is the character before `ptr`. -/
def setLoop (text : List UInt8) (last : UInt8) (range : List UInt8) (func : Option CType) :
    Parsed (List UInt8 × List UInt8) :=
  match text with
  | [] => .ok (range, [])
  | c :: text =>
      if c = 0 ∨ c = ch ']' then .ok (range, c :: text)
      else if c = ch '-' ∧ range ≠ [] then
        match text with
        | [] => .error (.thrown .illegalSet)
        | e :: text =>
            if e = 0 ∨ e = ch ']' then .error (.thrown .illegalSet)
            else do
              let range ← addRange range last e
              setLoop text e range func
      else if c = ch '\\' then
        match text with
        | [] => .error (.thrown .illegalSet)
        | d :: text =>
            if d = 0 then .error (.thrown .illegalSet)
            else setLoop text d (addToRange range d) func
      else if c = ch ':' then
        let name := symbolicName text
        if (text.drop name.length).headD 0 ≠ ch ':' then .error (.thrown .illegalSymbolicName)
        else
          match keyword (name.map toupper) with
          | none => .error (.thrown .illegalSymbolicName)
          | some symbolic =>
              let (range, func) := addSymbolic range func symbolic
              setLoop (text.drop (name.length + 1)) (ch ':') range func
      else setLoop text c (addToRange range c) func
termination_by text.length
decreasing_by all_goals simp only [List.length_cons, List.length_drop]; omega

/-- `insertSet`: the characters up to a null character. -/
def insertSet (a : Automaton) (range : List UInt8) : Automaton × Nat :=
  ({ a with setArray := a.setArray ++ [range.takeWhile (· ≠ 0)] }, a.setArray.length)

def set (p : Parser) : Parsed (Nat × Parser) := do
  let negated := p.current = ch '^'
  let transition := if negated then SET ||| NOT else SET
  let p := if negated then p.next else p
  let (range, text) ← setLoop p.text 0 [] none
  if range = [] then .error (.thrown .illegalSet)
  else
    let (a, number) := insertSet p.automaton range
    return (a.freeState,
      ⟨a.append ((transition ||| number <<< 16) % 2 ^ 32) (a.freeState + 1) (a.freeState + 1),
        text⟩)

/-! ## Repetition -/

def atoi (text : List UInt8) : Int :=
  let text := text.dropWhile (CType.test .space)
  let negative : Bool := text.head? = some (ch '-')
  let text := if negative ∨ text.head? = some (ch '+') then text.tail else text
  let number : Nat := (text.takeWhile (CType.test .digit)).foldl
    (fun n c => n * 10 + (c.toNat - 48)) 0
  if negative then -(number : Int) else number

/-- The loop over the states that are copied, from state `j` on. -/
def copyStates (size : Nat) : Nat → Nat → Automaton → Automaton
  | 0, _, a => a
  | count + 1, j, a =>
      copyStates size count (j + 1)
        (a.append (a.states j).ch ((a.states j).next1 + size) ((a.states j).next2 + size))

/-- `while (i--)`. -/
def repeatStates (size : Nat) (orExpression : Bool) : Nat → Nat → Nat → Automaton → Automaton
  | 0, _, _, a => a
  | i + 1, t1, t2, a =>
      let k := a.freeState
      if orExpression then
        let t2 := t2 + size
        repeatStates size orExpression i (t1 + size) t2
          (copyStates size (k - t1) t1 (a.append EPSILON t2 t2))
      else repeatStates size orExpression i (t1 + size) t2 (copyStates size (k - t1) t1 a)

/-- The operators behind an operand that starts at `t1` and is entered at `t2`. -/
def postfixOperators (t1 t2 : Nat) (p : Parser) : Parsed (Nat × Parser) :=
  let a := p.automaton
  if p.current = ch '*' then
    let s := a.freeState
    .ok (s, ⟨(a.append EPSILON (s + 1) t2).setNext1 (t1 - 1) s, p.next.text⟩)
  else if p.current = ch '+' then
    .ok (t1, ⟨a.append EPSILON t1 (a.freeState + 1), p.next.text⟩)
  else if p.current = ch '{' then
    let digits := p.next.text.takeWhile fun c => c ≠ 0 ∧ c ≠ ch '}'
    let text := p.next.text.drop digits.length
    if text.headD 0 = 0 then .error (.thrown .unexpectedEop)
    else
      let i := atoi (digits.take 62) - 1
      if i ≤ 0 then .error (.thrown .illegalNumber)
      else
        let orExpression : Bool := t1 ≠ t2
        let size := if orExpression then a.freeState - t1 + 1 else a.freeState - t1
        .ok (t2, ⟨repeatStates size orExpression i.toNat t1 t2 a, text.tail⟩)
  else .ok (t2, p)

/-! ## Parsing -/

def single (transition : Nat) (p : Parser) : Nat × Parser :=
  let a := p.automaton
  (a.freeState, ⟨a.append transition (a.freeState + 1) (a.freeState + 1), p.next.text⟩)

mutual

def expression : Nat → Parser → Parsed (Nat × Parser)
  | 0, _ => .error .outOfFuel
  | fuel + 1, p => do
      let (t1, p) ← term fuel p
      if p.current = ch '|' then
        let t2 := p.automaton.freeState + 1
        let (e, p) ← expression fuel
          ⟨{ p.automaton with freeState := t2 + 1 }, p.next.text⟩
        let a := p.automaton.setState t2 EPSILON e t1
        let a := a.setState (t2 - 1) EPSILON a.freeState a.freeState
        return (t2, ⟨a.setNext1 (t1 - 1) t2, p.text⟩)
      else return (t1, p)

def term : Nat → Parser → Parsed (Nat × Parser)
  | 0, _ => .error .outOfFuel
  | fuel + 1, p => do
      let (r, p) ← factor fuel p
      if p.current = ch '(' then
        let t1 := p.automaton.freeState
        let (t2, p) ← term fuel ⟨{ p.automaton with freeState := t1 + 1 }, p.text⟩
        return (r, ⟨p.automaton.setState t1 EPSILON t2 t2, p.text⟩)
      else if p.current = ch '[' ∨ letter p.current then
        let (_, p) ← term fuel p
        return (r, p)
      else return (r, p)

def factor : Nat → Parser → Parsed (Nat × Parser)
  | 0, _ => .error .outOfFuel
  | fuel + 1, p => do
      let t1 := p.automaton.freeState
      if p.current = ch '?' then
        let (t2, p) := single ANY p
        postfixOperators t1 t2 p
      else if p.current = ch '\\' then
        let p := p.next
        if p.current = 0 then .error (.thrown .unexpectedEop)
        else
          let (t2, p) := single (charInt p.current) p
          postfixOperators t1 t2 p
      else if p.current = ch '[' then
        let (t2, p) ← set p.next
        if p.current = ch ']' then postfixOperators t1 t2 p.next
        else .error (.thrown .illegalSet)
      else if p.current = ch '(' then
        let (t2, p) ← expression fuel p.next
        if p.current = ch ')' then postfixOperators t1 t2 p.next
        else .error (.thrown .missingParenClose)
      else if letter p.current then
        let (t2, p) := single (charInt p.current) p
        postfixOperators t1 t2 p
      else .error (.thrown .unexpectedSymbol)

end

def fuelFor (text : List UInt8) : Nat := 3 * text.length + 3

def finish (minimal : Bool) (start : Nat) (a : Automaton) : Automaton :=
  let a := a.setState 0 EPSILON start start
  let a := if minimal then a.append EPSILON EOP EOP
    else a.append 0 (a.freeState + 1) (a.freeState + 1)
  a.setState a.freeState EPSILON EOP EOP

/-- `automaton::parse`; `memory` is what the arrays hold at first. -/
def parse (minimal : Bool) (memory : Nat → State) (regexp : List UInt8) : Parsed Automaton := do
  let (start, p) ← expression (fuelFor regexp) ⟨⟨memory, 1, []⟩, regexp⟩
  return finish minimal start p.automaton

/-! ## Matching -/

inductive Entry where
  | scan
  | state (n : Nat)
  deriving DecidableEq, Repr

/-- `dq.put` of a successor, if the state consumes the character. -/
def putIf (dq : List Entry) (found : Bool) (next : Nat) : List Entry :=
  if found then dq ++ [.state next] else dq

/-- The `switch` on the transition of a state; `c` is `a[j]`. -/
def transitions (a : Automaton) (size : Nat) (c : UInt8) (state j : Nat) (dq : List Entry) :
    List Entry :=
  let s := a.states state
  let kind := s.ch &&& SCAN
  if kind = EPSILON then
    if s.next1 ≠ s.next2 then .state s.next2 :: .state s.next1 :: dq
    else .state s.next1 :: dq
  else if kind = SET ∨ kind = SET ||| NOT then
    let number := (s.ch &&& 0x0fff0000) >>> 16
    let members := a.setArray.getD number []
    putIf dq (xor (s.ch &&& NOT ≠ 0) (c ∈ members)) s.next1
  else if kind = ANY then putIf dq true s.next1
  else if j < size then putIf dq (s.ch = charInt c) s.next1
  else if j = size then putIf dq (s.ch = 0) s.next1
  else dq

/-- What `match` leaves: its return value and `currentPos`. -/
structure MatchResult where
  matched : Bool
  currentPos : Nat
  deriving DecidableEq, Repr

section Match

variable (a : Automaton) (minimal : Bool) (string : List UInt8) (beyond : Nat → UInt8)

/-- The loop; `beyond` is what is read behind the string. -/
def matchLoop : Nat → Entry → List Entry → Nat → Option MatchResult
  | 0, _, _, _ => none
  | fuel + 1, entry, dq, j =>
      if entry = .state EOP then some ⟨true, min j string.length⟩
      else if entry = .scan ∧ minimal ∧ j = string.length then
        some ⟨false, min j string.length⟩
      else
        let (dq, j) := match entry with
          | Entry.scan => (dq ++ [Entry.scan], j + 1)
          | Entry.state n => (transitions a string.length (string.getD j (beyond j)) n j dq, j)
        if dq = [Entry.scan] ∨ j > string.length + 1 then some ⟨false, min j string.length⟩
        else
          match dq with
          | [] => some ⟨true, min j string.length⟩
          | entry :: dq => matchLoop fuel entry dq j

/-- `automaton::match`. -/
def automatonMatch (fuel : Nat) : Option MatchResult :=
  matchLoop a minimal string beyond fuel (.state (a.states 0).next1) [.scan] 0

end Match

end LeooRexx.Rxregexp
