import LeooRexx.Runtime.CompoundTable

/-!
# Stems

`RexxStem`: a name, a value with a flag that tells whether it is only the name, and the
table of the tails.  An element of the table that has no value was dropped; a tail
without an element was never set.
-/

namespace LeooRexx

structure StemObjects (ν : Type) where
  string : List UInt8 → ν
  isStem : ν → Bool
  equalValue : ν → ν → Bool

inductive StemError where
  | noarg
  | nostem
  deriving DecidableEq, Repr

inductive StemResult (ν : Type) where
  | nothing
  | nil
  | object (value : ν)
  | logical (b : Bool)
  | count (n : Nat)
  | values (values : List ν)
  | indexes (names : List (List UInt8))
  | supplier (items : List (ν × List UInt8))
  | error (e : StemError)
  deriving DecidableEq, Repr

structure RexxStem (ν : Type) where
  uName : List UInt8
  value : ν
  tails : CompoundTable ν
  dropped : Bool

/-- `RexxCompoundTail::buildTail`: the pieces with dots between them. -/
def buildTail (tails : List (Option (List UInt8))) : List UInt8 :=
  [46].intercalate (tails.map fun part => part.getD [])

def CompoundTable.clear {ν : Type} (t : CompoundTable ν) : CompoundTable ν := t.setRoot none

namespace RexxStem

variable {ν : Type}

/-- `RexxStem::RexxStem`. -/
def new (o : StemObjects ν) (name : List UInt8) : RexxStem ν :=
  ⟨name, o.string name, .init, true⟩

/-- `getVariableValue` of an element. -/
def variableValue (s : RexxStem ν) (element : Nat) : Option ν :=
  (s.tails.elements element).variableValue

/-- `set` and `drop` of an element. -/
def setVariableValue (s : RexxStem ν) (element : Nat) (value : Option ν) : RexxStem ν :=
  { s with tails := s.tails.setValue element value }

def getCompoundVariable (s : RexxStem ν) (name : List UInt8) : Option (RexxStem ν × Nat) := do
  let (tails, entry) ← s.tails.findEntry name true
  let entry ← entry
  some ({ s with tails := tails }, entry)

def findCompoundVariable (s : RexxStem ν) (name : List UInt8) : Option (Option Nat) := do
  let (_, entry) ← s.tails.findEntry name false
  some entry

def setCompoundVariable (s : RexxStem ν) (name : List UInt8) (value : ν) :
    Option (RexxStem ν) := do
  let (s, entry) ← s.getCompoundVariable name
  some (s.setVariableValue entry (some value))

def dropCompoundVariable (s : RexxStem ν) (name : List UInt8) : Option (RexxStem ν) := do
  let (s, entry) ← s.getCompoundVariable name
  some (s.setVariableValue entry none)

def createCompoundName (s : RexxStem ν) (tail : List UInt8) : List UInt8 := s.uName ++ tail

/-- `evaluateCompoundVariableValue` without a context, in which no novalue is handled. -/
def evaluateCompoundVariableValue (o : StemObjects ν) (s : RexxStem ν) (tail : List UInt8) :
    Option ν := do
  match ← s.findCompoundVariable tail with
  | none =>
      if !s.dropped then some s.value else some (o.string (s.createCompoundName tail))
  | some entry =>
      match s.variableValue entry with
      | none => some (o.string (s.createCompoundName tail))
      | some value => some value

def dropValue (o : StemObjects ν) (s : RexxStem ν) : RexxStem ν :=
  { s with value := o.string s.uName, dropped := true }

def bracket (o : StemObjects ν) (s : RexxStem ν) (tails : List (Option (List UInt8))) :
    Option ν :=
  if tails = [] then some s.value else s.evaluateCompoundVariableValue o (buildTail tails)

def bracketEqual (o : StemObjects ν) (s : RexxStem ν) (newValue : Option ν)
    (tails : List (Option (List UInt8))) : Option (RexxStem ν × StemResult ν) :=
  match newValue with
  | none => some (s, .error .noarg)
  | some newValue =>
      if tails = [] then
        if o.isStem newValue then some (s, .error .nostem)
        else
          some ({ s with value := newValue, tails := s.tails.clear, dropped := false },
            .object newValue)
      else do
        let s ← s.setCompoundVariable (buildTail tails) newValue
        some (s, .nothing)

def hasIndex (s : RexxStem ν) (tails : List (Option (List UInt8))) : Option Bool :=
  if tails = [] then some true
  else do
    match ← s.findCompoundVariable (buildTail tails) with
    | none => some false
    | some compound => some (s.variableValue compound).isSome

/-- The end of `remove` and of `removeItem`. -/
def removeElement (s : RexxStem ν) (compound : Option Nat) : RexxStem ν × StemResult ν :=
  match compound with
  | none => (s, .nil)
  | some compound =>
      match s.variableValue compound with
      | none => (s, .nil)
      | some oldValue => (s.setVariableValue compound none, .object oldValue)

def remove (o : StemObjects ν) (s : RexxStem ν) (tails : List (Option (List UInt8))) :
    Option (RexxStem ν × StemResult ν) :=
  if tails = [] then some ({ s with value := o.string s.uName }, .object s.value)
  else do
    let compound ← s.findCompoundVariable (buildTail tails)
    some (s.removeElement compound)

def realVariables (s : RexxStem ν) : Option (List (Nat × ν)) := do
  let visited ← s.tails.iterate
  some (visited.filterMap fun entry => (s.variableValue entry).map fun value => (entry, value))

def findByValue (o : StemObjects ν) (s : RexxStem ν) (target : ν) : Option (Option Nat) := do
  let elements ← s.realVariables
  some ((elements.find? fun entry => o.equalValue target entry.2).map (·.1))

def removeItem (o : StemObjects ν) (s : RexxStem ν) (target : ν) :
    Option (RexxStem ν × StemResult ν) := do
  let compound ← s.findByValue o target
  some (s.removeElement compound)

def items (s : RexxStem ν) : Option Nat := do
  let elements ← s.realVariables
  some elements.length

def allItems (s : RexxStem ν) : Option (List ν) := do
  let elements ← s.realVariables
  some (elements.map (·.2))

/-- `allIndexes`. -/
def tailArray (s : RexxStem ν) : Option (List (List UInt8)) := do
  let elements ← s.realVariables
  some (elements.map fun entry => (s.tails.elements entry.1).variableName)

def supplier (s : RexxStem ν) : Option (List (ν × List UInt8)) := do
  let elements ← s.realVariables
  some (elements.map fun entry => (entry.2, (s.tails.elements entry.1).variableName))

def empty (s : RexxStem ν) : RexxStem ν := { s with tails := s.tails.clear }

/-! ## Runs -/

inductive Op (ν : Type) where
  | bracketEqual (newValue : Option ν) (tails : List (Option (List UInt8)))
  | setCompoundVariable (tail : List UInt8) (value : ν)
  | dropCompoundVariable (tail : List UInt8)
  | remove (tails : List (Option (List UInt8)))
  | removeItem (target : ν)
  | empty
  | dropValue
  | bracket (tails : List (Option (List UInt8)))
  | evaluate (tail : List UInt8)
  | hasIndex (tails : List (Option (List UInt8)))
  | items
  | allItems
  | allIndexes
  | supplier

variable (o : StemObjects ν)

def step (s : RexxStem ν) : Op ν → Option (RexxStem ν × StemResult ν)
  | .bracketEqual newValue tails => s.bracketEqual o newValue tails
  | .setCompoundVariable tail value => do
      let s ← s.setCompoundVariable tail value
      some (s, .nothing)
  | .dropCompoundVariable tail => do
      let s ← s.dropCompoundVariable tail
      some (s, .nothing)
  | .remove tails => s.remove o tails
  | .removeItem target => s.removeItem o target
  | .empty => some (s.empty, .nothing)
  | .dropValue => some (s.dropValue o, .nothing)
  | .bracket tails => do
      let value ← s.bracket o tails
      some (s, .object value)
  | .evaluate tail => do
      let value ← s.evaluateCompoundVariableValue o tail
      some (s, .object value)
  | .hasIndex tails => do
      let found ← s.hasIndex tails
      some (s, .logical found)
  | .items => do
      let count ← s.items
      some (s, .count count)
  | .allItems => do
      let values ← s.allItems
      some (s, .values values)
  | .allIndexes => do
      let names ← s.tailArray
      some (s, .indexes names)
  | .supplier => do
      let items ← s.supplier
      some (s, .supplier items)

def run (s : RexxStem ν) : List (Op ν) → Option (RexxStem ν × List (StemResult ν))
  | [] => some (s, [])
  | op :: ops => do
      let (s, result) ← s.step o op
      let (s, results) ← s.run ops
      some (s, result :: results)

end RexxStem

end LeooRexx
