import LeooRexx.Runtime.HashTableEntries

/-!
# Local variables

`RexxLocalVariables`: the variables of a code block are cached in the slots of a frame,
and once a name is looked up that has no slot, all of them are kept in a dictionary as
well.  Slot 0 stays empty; a lookup with this index is one by name alone.

A variable object is its position in the memory.
-/

namespace LeooRexx

structure RexxVariable (ν : Type) where
  variableName : List UInt8
  variableValue : Option ν

structure RexxLocalVariables (ν : Type) where
  memory : List (RexxVariable ν)
  size : Nat
  locals : List (Option Nat)
  dictionary : Option (HashTable (List UInt8) Nat)

/-- The slots that the translator gives to names; a name without a slot has 0. -/
structure CodeBlock where
  vdictSize : Nat
  slot : List UInt8 → Nat
  slot_le : ∀ name, slot name ≤ vdictSize
  slot_inj : ∀ name name', slot name ≠ 0 → slot name = slot name' → name = name'

namespace RexxLocalVariables

variable {ν : Type} [Hashable (List UInt8)] (newStem : List UInt8 → ν)

def setFrame (s : RexxLocalVariables ν) : RexxLocalVariables ν :=
  { s with locals := List.replicate s.size none }

/-- `init`, and the frame that follows it. -/
def init (memory : List (RexxVariable ν)) (poolSize : Nat) : RexxLocalVariables ν :=
  setFrame ⟨memory, poolSize + 1, [], none⟩

def get (s : RexxLocalVariables ν) (index : Nat) : Option Nat := s.locals[index]?.join

def setLocal (s : RexxLocalVariables ν) (index : Nat) (item : Option Nat) :
    RexxLocalVariables ν :=
  { s with locals := s.locals.set index item }

/-- `memcpy` of the first `size` entries. -/
def memcpy (target source : List (Option Nat)) (size : Nat) : List (Option Nat) :=
  source.take size ++ target.drop size

def migrate (s : RexxLocalVariables ν) : RexxLocalVariables ν :=
  let oldFrame := s.locals
  let s := s.setFrame
  { s with locals := memcpy s.locals oldFrame s.size }

def getName (s : RexxLocalVariables ν) (item : Nat) : List UInt8 :=
  match s.memory[item]? with
  | some object => object.variableName
  | none => []

/-- `new_variable`; a variable that is taken from the cache of old ones is a new one, too. -/
def newVariable (s : RexxLocalVariables ν) (name : List UInt8) (value : Option ν) :
    RexxLocalVariables ν × Nat :=
  ({ s with memory := s.memory ++ [⟨name, value⟩] }, s.memory.length)

/-! ## The dictionary -/

/-- `RexxVariableDictionary::createVariable` and `createStemVariable`. -/
def createVariable (s : RexxLocalVariables ν) (dictionary : HashTable (List UInt8) Nat)
    (name : List UInt8) (value : Option ν) : Option (RexxLocalVariables ν × Nat) := do
  let (s, item) := s.newVariable name value
  let (dictionary, newHash) ← dictionary.add item name
  some ({ s with dictionary := some (newHash.getD dictionary) }, item)

def getVariable (s : RexxLocalVariables ν) (dictionary : HashTable (List UInt8) Nat)
    (name : List UInt8) (value : Option ν) : Option (RexxLocalVariables ν × Nat) := do
  match ← dictionary.get name with
  | some item => some (s, item)
  | none => s.createVariable dictionary name value

def createDictionary (s : RexxLocalVariables ν) : Option (HashTable (List UInt8) Nat) :=
  (List.range s.size).foldlM
    (fun dictionary i =>
      match s.get i with
      | none => some dictionary
      | some item => dictionary.putIn item (s.getName item))
    (.newHashTable (s.size * 2))

def getDictionary (s : RexxLocalVariables ν) : Option (HashTable (List UInt8) Nat) :=
  match s.dictionary with
  | some dictionary => some dictionary
  | none => s.createDictionary

/-! ## Accesses -/

def scanLocals (s : RexxLocalVariables ν) (name : List UInt8) : Option Nat :=
  (List.range s.size).find? fun i =>
    match s.get i with
    | none => false
    | some item => name == s.getName item

def findVariable (s : RexxLocalVariables ν) (name : List UInt8) (index : Nat) :
    Option (RexxLocalVariables ν × Option Nat) :=
  match s.dictionary with
  | some dictionary => do
      let item ← dictionary.get name
      some (if index ≠ 0 then s.setLocal index item else s, item)
  | none => some (s, if index = 0 then (s.scanLocals name).bind s.get else none)

/-- `lookupVariable`, with the value that a new variable gets. -/
def lookup (s : RexxLocalVariables ν) (name : List UInt8) (index : Nat) (value : Option ν) :
    Option (RexxLocalVariables ν × Option Nat) :=
  if index = 0 then
    match s.dictionary, (s.scanLocals name).bind s.get with
    | none, some item => some (s, some item)
    | _, _ => do
        let dictionary ← s.getDictionary
        let (s, item) ← { s with dictionary := some dictionary }.getVariable dictionary name value
        some (s, some item)
  else
    match s.dictionary with
    | some dictionary => do
        let (s, item) ← s.getVariable dictionary name value
        some (s.setLocal index (some item), some item)
    | none =>
        let (s, item) := s.newVariable name value
        some (s.setLocal index (some item), some item)

def lookupVariable (s : RexxLocalVariables ν) (name : List UInt8) (index : Nat) :
    Option (RexxLocalVariables ν × Option Nat) :=
  s.lookup name index none

def lookupStemVariable (s : RexxLocalVariables ν) (name : List UInt8) (index : Nat) :
    Option (RexxLocalVariables ν × Option Nat) :=
  s.lookup name index (some (newStem name))

def overwriteLocal (s : RexxLocalVariables ν) (name : List UInt8) (item : Nat) :
    RexxLocalVariables ν :=
  match s.scanLocals name with
  | some i => s.setLocal i (some item)
  | none => s

def updateVariable (s : RexxLocalVariables ν) (item : Nat) : Option (RexxLocalVariables ν) := do
  let name := s.getName item
  let s := s.overwriteLocal name item
  let dictionary ← s.getDictionary
  let dictionary ← dictionary.putIn item name
  some { s with dictionary := some dictionary }

/-! ## Runs -/

inductive AccessKind where
  | find
  | getLocalVariable
  | getLocalStemVariable

structure Access where
  kind : AccessKind
  name : List UInt8
  static : Bool

def Access.index (b : CodeBlock) (a : Access) : Nat := if a.static then b.slot a.name else 0

def access (b : CodeBlock) (s : RexxLocalVariables ν) (a : Access) :
    Option (RexxLocalVariables ν × Option Nat) :=
  match s.get (a.index b) with
  | some item => some (s, some item)
  | none =>
      match a.kind with
      | .find => s.findVariable a.name (a.index b)
      | .getLocalVariable => s.lookupVariable a.name (a.index b)
      | .getLocalStemVariable => s.lookupStemVariable newStem a.name (a.index b)

inductive Op where
  | access (a : Access)
  | updateVariable (item : Nat)
  | migrate
  /-- Another activation makes a variable. -/
  | other (name : List UInt8)

def Op.Live (s : RexxLocalVariables ν) : Op → Prop
  | .updateVariable item => item < s.memory.length
  | _ => True

instance (s : RexxLocalVariables ν) : (op : Op) → Decidable (op.Live s)
  | .updateVariable item => inferInstanceAs (Decidable (item < s.memory.length))
  | .access _ | .migrate | .other _ => isTrue trivial

def step (b : CodeBlock) (s : RexxLocalVariables ν) (op : Op) : Option (RexxLocalVariables ν) :=
  if op.Live s then
    match op with
    | .access a => (s.access newStem b a).map (·.1)
    | .updateVariable item => s.updateVariable item
    | .migrate => some s.migrate
    | .other name => some (s.newVariable name none).1
  else none

def run (b : CodeBlock) (s : RexxLocalVariables ν) (ops : List Op) :
    Option (RexxLocalVariables ν) :=
  ops.foldlM (step newStem b) s

end RexxLocalVariables

end LeooRexx
