import Mathlib.Data.List.Basic
import Mathlib.Logic.Function.Basic

/-!
# Condition traps

The activations of one activity, with the traps that `CALL ON` and `SIGNAL ON` set, and the queues
of the conditions that were trapped and of the traps that they wait for.  Trap tables and the
arrays in them are shared by reference.  System exits, forwarding and the debug pause are left
out.
-/

namespace LeooRexx

inductive Condition where
  | ANY
  | SYNTAX
  | NOVALUE
  | LOSTDIGITS
  | NOMETHOD
  | NOSTRING
  | other (name : String)
  deriving DecidableEq

/-- The conditions that a `CALL ON ANY` does not trap. -/
def Condition.notForCall : List Condition := [.SYNTAX, .NOVALUE, .LOSTDIGITS, .NOMETHOD, .NOSTRING]

/-- A `CALL ON` or a `SIGNAL ON` instruction, where a handler may be an internal routine. -/
structure TrapInstruction where
  isCall : Bool
  condition : Condition
  isInternal : Bool
  deriving DecidableEq

inductive TrapState where
  | ON
  | DELAY
  deriving DecidableEq

structure TrapHandler where
  handler : TrapInstruction
  state : TrapState
  condition : Condition
  deriving DecidableEq

inductive ActivationContext where
  | topLevelCall
  | INTERNALCALL
  | INTERPRET
  deriving DecidableEq

/--
`loop` are the rounds that `processTraps` has still to make, and whether it was called after a
condition was trapped; `delaying` is the condition whose handler is called.  `callerTraps` is what
the caller of an internal routine had trapped.
-/
structure Activation where
  context : ActivationContext
  traps : Option Nat
  trapsCopied : Bool
  clauseBoundary : Bool
  pendingCount : Nat
  conditionQueue : Option (List Nat)
  handlerQueue : Option (List Nat)
  loop : Option (Bool × Nat)
  delaying : Option Condition
  callerTraps : Condition → Option TrapHandler

/-! ## Trap tables -/

structure TrapTables where
  tables : Nat → Condition → Option Nat
  newTable : Nat
  arrays : Nat → TrapHandler
  newArray : Nat

namespace TrapTables

def lookup (s : TrapTables) (a : Activation) (condition : Condition) : Option Nat :=
  a.traps.bind fun t => s.tables t condition

def view (s : TrapTables) (a : Activation) (condition : Condition) : Option TrapHandler :=
  (s.lookup a condition).map s.arrays

def trapState (s : TrapTables) (a : Activation) (condition : Condition) : Option TrapState :=
  (s.view a condition).map (·.state)

def addTable (s : TrapTables) (table : Condition → Option Nat) : TrapTables :=
  { s with tables := Function.update s.tables s.newTable table, newTable := s.newTable + 1 }

def checkTrapTable (s : TrapTables) (a : Activation) : TrapTables × Activation :=
  match a.traps with
  | none => (s.addTable fun _ => none, { a with traps := some s.newTable })
  | some t =>
      if a.context = .INTERNALCALL ∧ ¬ a.trapsCopied then
        (s.addTable (s.tables t), { a with traps := some s.newTable, trapsCopied := true })
      else (s, a)

def setEntry (s : TrapTables) (a : Activation) (condition : Condition) (entry : Option Nat) :
    TrapTables :=
  match a.traps with
  | none => s
  | some t =>
      { s with
        tables := Function.update s.tables t (Function.update (s.tables t) condition entry) }

def addArray (s : TrapTables) (array : TrapHandler) : TrapTables :=
  { s with arrays := Function.update s.arrays s.newArray array, newArray := s.newArray + 1 }

def trapOn (s : TrapTables) (a : Activation) (handler : TrapInstruction) :
    TrapTables × Activation :=
  let (s, a) := s.checkTrapTable a
  ((s.addArray ⟨handler, .ON, handler.condition⟩).setEntry a handler.condition (some s.newArray), a)

def trapOff (s : TrapTables) (a : Activation) (condition : Condition) : TrapTables × Activation :=
  let (s, a) := s.checkTrapTable a
  (s.setEntry a condition none, a)

/-- `trapDelay` and `trapUndelay`. -/
def setTrapState (s : TrapTables) (a : Activation) (condition : Condition) (state : TrapState) :
    TrapTables × Activation :=
  let (s, a) := s.checkTrapTable a
  match s.lookup a condition with
  | none => (s, a)
  | some i => ({ s with arrays := Function.update s.arrays i { s.arrays i with state := state } }, a)

/-- The trap that `trap` finds for a condition. -/
def findTrap (s : TrapTables) (a : Activation) (condition : Condition) : Option Nat :=
  match s.lookup a condition with
  | some i => some i
  | none =>
      match s.lookup a .ANY with
      | none => none
      | some i =>
          if (s.arrays i).handler.isCall ∧ condition ∈ Condition.notForCall then none else some i

end TrapTables

/-! ## Queues -/

namespace Activation

def conditions (a : Activation) : List Nat := a.conditionQueue.getD []

def handlers (a : Activation) : List Nat := a.handlerQueue.getD []

def waiting (a : Activation) : List (Nat × Nat) := a.conditions.zip a.handlers

def addLast (a : Activation) (condition handler : Nat) : Activation :=
  { a with
    conditionQueue := some (a.conditions ++ [condition])
    handlerQueue := some (a.handlers ++ [handler])
    pendingCount := a.pendingCount + 1 }

def mergeTraps (a child : Activation) : Activation :=
  match child.conditionQueue with
  | none => a
  | some conditions =>
      match a.conditionQueue with
      | none =>
          { a with
            conditionQueue := some conditions
            handlerQueue := child.handlerQueue
            pendingCount := conditions.length }
      | some own =>
          { a with
            conditionQueue := some (own ++ conditions)
            handlerQueue := some (a.handlers ++ child.handlers.take conditions.length)
            pendingCount := (own ++ conditions).length }

def getSettings (a child : Activation) : Activation :=
  { a with
    traps := child.traps
    trapsCopied := child.trapsCopied
    clauseBoundary := child.clauseBoundary }

/-- Where `longjmp` goes to. -/
def landed (a : Activation) : Activation :=
  let pending := (a.conditionQueue.map List.length).getD a.pendingCount
  { a with pendingCount := pending, loop := some (true, pending), delaying := none }

def unwindTrap (child a : Activation) : List Activation → List Activation
  | [] => if a.context = .INTERPRET then [] else [(a.getSettings child).landed]
  | b :: rest =>
      if a.context = .INTERPRET then unwindTrap child (b.mergeTraps a) rest
      else (a.getSettings child).landed :: b :: rest

end Activation

/-! ## Activities -/

/--
The top activation comes first.  `accepted`, `passed` and `lost` record the trapped conditions,
those whose handler was called and those that waited in an activation that ended, each with its
trap; `postponed` are the conditions that were found delayed.
-/
structure TrapActivity where
  traps : TrapTables
  newCondition : Nat
  activations : List Activation
  accepted : List (Nat × Nat)
  passed : List (Nat × Nat)
  lost : List (Nat × Nat)
  postponed : List Nat

inductive TrapOperation where
  | trapOn (handler : TrapInstruction)
  | trapOff (condition : Condition)
  /-- A condition in the top activation. -/
  | raise (condition : Condition)
  /-- `RAISE`, which raises it in the sender and ends. -/
  | raiseSender (condition : Condition)
  /-- An activation that does not trap an error is ended by it. -/
  | propagate
  | externalCall
  | internalCall
  | interpret
  | returnFrom
  | processClauseBoundary
  /-- One round of `processTraps`. -/
  | processTrap
  /-- The handler of a `CALL ON` has returned. -/
  | handlerReturned
  | processedTraps

namespace TrapActivity

def externalActivation : Activation where
  context := .topLevelCall
  traps := none
  trapsCopied := false
  clauseBoundary := false
  pendingCount := 0
  conditionQueue := none
  handlerQueue := none
  loop := none
  delaying := none
  callerTraps _ := none

def start : TrapActivity where
  traps := ⟨fun _ _ => none, 0, fun _ => ⟨⟨false, .ANY, false⟩, .ON, .ANY⟩, 0⟩
  newCondition := 0
  activations := [externalActivation]
  accepted := []
  passed := []
  lost := []
  postponed := []

/-- An internal routine of `a`. -/
def internalActivation (s : TrapTables) (a : Activation) : Activation :=
  { externalActivation with
    context := .INTERNALCALL
    traps := a.traps
    clauseBoundary := a.clauseBoundary
    callerTraps := s.view a }

def interpretActivation (a : Activation) : Activation :=
  { externalActivation with
    context := .INTERPRET
    traps := a.traps
    trapsCopied := a.trapsCopied
    clauseBoundary := a.clauseBoundary }

/-- `a` traps a condition while the activations `above` it run. -/
def trap (w : TrapActivity) (above : List Activation) (a : Activation) (rest : List Activation)
    (condition : Condition) : Option TrapActivity :=
  match w.traps.findTrap a condition with
  | none => none
  | some i =>
      let a := a.addLast w.newCondition i
      let w := { w with
        newCondition := w.newCondition + 1
        accepted := w.accepted ++ [(w.newCondition, i)] }
      if (w.traps.arrays i).handler.isCall then
        some { w with activations := above ++ { a with clauseBoundary := true } :: rest }
      else
        some { w with
          activations := Activation.unwindTrap a a rest
          lost := w.lost ++ above.flatMap Activation.waiting }

def InClause (a : Activation) : Bool := a.loop.isNone && a.delaying.isNone

/-- One round of `processTraps`; there is no result when a queue is empty. -/
def processTrap (w : TrapActivity) (a : Activation) (rest : List Activation) (trapped : Bool)
    (rounds : Nat) : Option TrapActivity :=
  match a.handlers, a.conditions with
  | i :: handlers, id :: conditions =>
      let trapHandler := w.traps.arrays i
      if w.traps.trapState a trapHandler.condition = some .DELAY then
        let a := { a with
          handlerQueue := some (handlers ++ [i])
          conditionQueue := some (conditions ++ [id])
          loop := some (trapped, rounds) }
        some { w with activations := a :: rest, postponed := w.postponed ++ [id] }
      else
        let a := { a with
          handlerQueue := some handlers
          conditionQueue := some conditions
          pendingCount := a.pendingCount - 1
          loop := some (trapped, rounds) }
        let handler := trapHandler.handler
        let w := { w with passed := w.passed ++ [(id, i)] }
        if handler.isCall then
          let (s, a) := w.traps.setTrapState a handler.condition .DELAY
          let a := { a with delaying := some handler.condition }
          if handler.isInternal then
            some { w with traps := s, activations := internalActivation s a :: a :: rest }
          else some { w with traps := s, activations := a :: rest }
        else
          let (s, a) := w.traps.trapOff a handler.condition
          some { w with traps := s, activations := a :: rest }
  | _, _ => none

def step (w : TrapActivity) (op : TrapOperation) : Option TrapActivity :=
  match w.activations with
  | [] => none
  | a :: rest =>
      match op with
      | .trapOn handler =>
          if InClause a then
            let (s, a) := w.traps.trapOn a handler
            some { w with traps := s, activations := a :: rest }
          else none
      | .trapOff condition =>
          if InClause a then
            let (s, a) := w.traps.trapOff a condition
            some { w with traps := s, activations := a :: rest }
          else none
      | .raise condition => some ((w.trap [] a rest condition).getD w)
      | .raiseSender condition =>
          match rest with
          | [] => none
          | b :: bs =>
              if InClause a then
                some ((w.trap [a.landed] b bs condition).getD
                  { w with activations := a.landed :: b :: bs })
              else none
      | .propagate =>
          if rest.isEmpty then none
          else some { w with activations := rest, lost := w.lost ++ a.waiting }
      | .externalCall => some { w with activations := externalActivation :: a :: rest }
      | .internalCall =>
          if InClause a then
            some { w with activations := internalActivation w.traps a :: a :: rest }
          else none
      | .interpret =>
          if InClause a then some { w with activations := interpretActivation a :: a :: rest }
          else none
      | .returnFrom =>
          match rest with
          | [] => none
          | b :: bs =>
              if InClause a then
                if a.context = .INTERPRET then
                  some { w with activations := (b.getSettings a).mergeTraps a :: bs }
                else some { w with activations := b :: bs, lost := w.lost ++ a.waiting }
              else none
      | .processClauseBoundary =>
          if InClause a ∧ a.clauseBoundary then
            some { w with activations := { a with loop := some (false, a.pendingCount) } :: rest }
          else none
      | .processTrap =>
          match a.loop, a.delaying with
          | some (trapped, rounds + 1), none => w.processTrap a rest trapped rounds
          | _, _ => none
      | .handlerReturned =>
          match a.delaying with
          | some condition =>
              let (s, a) := w.traps.setTrapState a condition .ON
              some { w with traps := s, activations := { a with delaying := none } :: rest }
          | none => none
      | .processedTraps =>
          match a.loop, a.delaying with
          | some (trapped, 0), none =>
              let boundary := if trapped then a.clauseBoundary || decide (a.pendingCount ≠ 0)
                else a.clauseBoundary && decide (a.pendingCount ≠ 0)
              some { w with
                activations := { a with loop := none, clauseBoundary := boundary } :: rest }
          | _, _ => none

end TrapActivity

end LeooRexx
