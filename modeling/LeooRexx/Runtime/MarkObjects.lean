import LeooRexx.Runtime.HashTable
import Mathlib.Logic.Relation

/-!
# The mark phase

`RexxMemory::markObjects` for objects of the new space: a live stack of objects that are marked
and whose references are still to be marked, and three passes with the check of the subclass
table and of the uninit tables between them.  A collection object refers to a hash table object
that holds its entries.
-/

namespace LeooRexx

/-! ## The live stack -/

structure RexxStack (α : Type) where
  uSize : Nat
  top : Nat
  stack : Nat → Option α

namespace RexxStack

variable {α : Type}

def checkRoom (s : RexxStack α) : Bool := s.top < s.uSize - 1

def fastPush (s : RexxStack α) (element : Option α) : Option (RexxStack α) :=
  if s.top + 1 < s.uSize then
    some { s with top := s.top + 1, stack := Function.update s.stack (s.top + 1) element }
  else none

/-- There is no result when the place is outside the storage or `top` would wrap. -/
def fastPop (s : RexxStack α) : Option (Option α × RexxStack α) :=
  if 0 < s.top ∧ s.top < s.uSize then some (s.stack s.top, { s with top := s.top - 1 }) else none

/-- `copyEntries` into a cleared stack of twice the size. -/
def doubled (s : RexxStack α) : RexxStack α where
  uSize := s.uSize * 2
  top := s.top
  stack i := if i < s.uSize then s.stack i else none

end RexxStack

/-! ## Objects -/

/-- What marking asks of an object; a null reference is `none`. -/
structure ObjectGraph (α : Type) where
  behaviour : α → Option α
  hasReferences : α → Bool
  live : α → List (Option α)

/-- `liveCalls` are the objects that `live` was called for. -/
structure MarkState (α : Type) where
  marked : α → Bool
  originalLiveStack : RexxStack α
  expandedLiveStack : Option (RexxStack α)
  liveCalls : List α

namespace MarkState

variable {α : Type} [DecidableEq α]

def liveStack (m : MarkState α) : RexxStack α := m.expandedLiveStack.getD m.originalLiveStack

def setLiveStack (m : MarkState α) (s : RexxStack α) : MarkState α :=
  if m.expandedLiveStack.isSome then { m with expandedLiveStack := some s }
  else { m with originalLiveStack := s }

def liveStackFull (m : MarkState α) : MarkState α :=
  { m with expandedLiveStack := some m.liveStack.doubled }

def checkLiveStack (m : MarkState α) : MarkState α :=
  if m.liveStack.checkRoom then m else m.liveStackFull

def pushLiveStack (m : MarkState α) (object : Option α) : Option (MarkState α) := do
  let m := m.checkLiveStack
  let s ← m.liveStack.fastPush object
  some (m.setLiveStack s)

def popLiveStack (m : MarkState α) : Option (Option α × MarkState α) := do
  let (object, s) ← m.liveStack.fastPop
  some (object, m.setLiveStack s)

def setObjectLive (m : MarkState α) (object : α) : MarkState α :=
  { m with marked := Function.update m.marked object true }

def mark (g : ObjectGraph α) (m : MarkState α) (markObject : α) : Option (MarkState α) :=
  let m := m.setObjectLive markObject
  if g.hasReferences markObject then m.pushLiveStack (some markObject)
  else
    match g.behaviour markObject with
    | some behaviour =>
        if m.marked behaviour then some m
        else (m.setObjectLive behaviour).pushLiveStack (some behaviour)
    | none => some m

def memoryMark (g : ObjectGraph α) (m : MarkState α) (object : Option α) : Option (MarkState α) :=
  match object with
  | some object => if m.marked object then some m else m.mark g object
  | none => some m

def callLive (g : ObjectGraph α) (m : MarkState α) (object : α) : Option (MarkState α) :=
  (g.live object).foldlM (memoryMark g) { m with liveCalls := m.liveCalls ++ [object] }

def markLoop (g : ObjectGraph α) : Nat → MarkState α → Option (MarkState α)
  | 0, _ => none
  | fuel + 1, m => do
      let (object, m) ← m.popLiveStack
      match object with
      | none => some m
      | some object => do
          let m ← m.memoryMark g (g.behaviour object)
          let m ← m.callLive g object
          markLoop g fuel m

def markObjectsMain (g : ObjectGraph α) (fuel : Nat) (rootObject : α) (m : MarkState α) :
    Option (MarkState α) := do
  let m ← m.pushLiveStack none
  let m ← m.mark g rootObject
  markLoop g fuel m

end MarkState

/-! ## Tables -/

namespace HashTable

variable {α : Type} [DecidableEq α] [Hashable α]

/-- `RexxHashTable::index` and `RexxHashTable::value` at a position. -/
def itemAt (t : HashTable α α) (position : Nat) : Option (α × α) :=
  if position < t.totalSlotsSize then (t.entries position).item else none

/-- `RexxHashTable::live`. -/
def marks (t : HashTable α α) : List (Option α) :=
  (List.range t.totalSlotsSize).flatMap fun i =>
    match (t.entries i).item with
    | some (index, value) => [some index, some value]
    | none => []

/-- `primitiveRemoveItem`. -/
def removeItem (t : HashTable α α) (value index : α) : Option (HashTable α α) :=
  let position := t.hashIndex index
  if (t.entries position).item.isSome then do
    let test position := (t.entries position).item.any fun entry =>
      index == entry.1 && value == entry.2
    match ← t.searchChain test position with
    | some (previous, position) =>
        let next := (t.entries position).next
        if next = 0 then
          let t := t.setItem position none
          match previous with
          | some previous => some (t.setNext previous 0)
          | none => some t
        else
          let t := t.setNext position (t.entries next).next
          let t := t.setItem position (t.entries next).item
          let t := t.setItem next none
          let t := t.setNext next 0
          some (if t.free < next then t.setFree next else t)
    | none => some t
  else some t

def clearSlot (marked : α → Bool) : Nat → HashTable α α → Nat → Option (HashTable α α)
  | 0, _, _ => none
  | fuel + 1, t, position =>
      match t.itemAt position with
      | none => some t
      | some (index, classObject) =>
          if marked classObject then some t
          else do
            let t ← t.removeItem classObject index
            clearSlot marked fuel t position

/-- `checkSubClasses` from a position on. -/
def checkFrom (marked : α → Bool) : Nat → HashTable α α → Nat → Option (HashTable α α)
  | 0, _, _ => none
  | fuel + 1, t, position =>
      if (t.itemAt position).isSome then do
        let t ← clearSlot marked (t.totalSlotsSize + 1) t position
        checkFrom marked fuel t (t.next position)
      else some t

def flagFrom (marked : α → Bool) (trueObject : α) : Nat → HashTable α α → Nat →
    Option (HashTable α α × Nat)
  | 0, _, _ => none
  | fuel + 1, t, position =>
      match t.itemAt position with
      | none => some (t, 0)
      | some (uninitObject, _) =>
          if marked uninitObject then flagFrom marked trueObject fuel t (t.next position)
          else do
            let t := t.setItem position (some (uninitObject, trueObject))
            let (t, pending) ← flagFrom marked trueObject fuel t (t.next position)
            some (t, pending + 1)

end HashTable

/-! ## The heap -/

/-- `contents` is the hash table object of a collection, and `hashTables` has its entries. -/
structure ObjectHeap (α : Type) where
  behaviour : α → Option α
  hasReferences : α → Bool
  references : α → List (Option α)
  contents : α → α
  hashTables : α → Option (HashTable α α)
  memory : α
  subClasses : α
  uninitTables : α
  trueObject : α
  pendingUninits : Nat

namespace ObjectHeap

variable {α : Type} [DecidableEq α] [Hashable α]

/-- The `live` routine of a hash table marks its entries. -/
def graph (h : ObjectHeap α) : ObjectGraph α where
  behaviour := h.behaviour
  hasReferences := h.hasReferences
  live object :=
    match h.hashTables object with
    | some t => t.marks
    | none => h.references object

def entriesOf (h : ObjectHeap α) (collection : α) : Option (HashTable α α) :=
  h.hashTables (h.contents collection)

def setEntriesOf (h : ObjectHeap α) (collection : α) (t : HashTable α α) : ObjectHeap α :=
  { h with hashTables := Function.update h.hashTables (h.contents collection) (some t) }

def checkSubClasses (h : ObjectHeap α) (marked : α → Bool) : Option (ObjectHeap α) := do
  let t ← h.entriesOf h.subClasses
  let t ← HashTable.checkFrom marked (t.totalSlotsSize + 1) t t.first
  some (h.setEntriesOf h.subClasses t)

def checkUninitFrom (marked : α → Bool) (tables : HashTable α α) :
    Nat → ObjectHeap α → Nat → Option (ObjectHeap α)
  | 0, _, _ => none
  | fuel + 1, h, position =>
      match tables.itemAt position with
      | none => some h
      | some (_, uninitTable) => do
          let t ← h.entriesOf uninitTable
          let (t, pending) ←
            HashTable.flagFrom marked h.trueObject (t.totalSlotsSize + 1) t t.first
          let h := { h.setEntriesOf uninitTable t with
            pendingUninits := h.pendingUninits + pending }
          checkUninitFrom marked tables fuel h (tables.next position)

def checkUninit (h : ObjectHeap α) (marked : α → Bool) : Option (ObjectHeap α) := do
  let tables ← h.entriesOf h.uninitTables
  checkUninitFrom marked tables (tables.totalSlotsSize + 1) h tables.first

def markObjects (h : ObjectHeap α) (fuel : Nat) (m : MarkState α) :
    Option (ObjectHeap α × MarkState α) := do
  let m ← m.markObjectsMain h.graph fuel h.memory
  let h ← h.checkSubClasses m.marked
  let h ← h.checkUninit m.marked
  let m ← m.markObjectsMain h.graph fuel h.subClasses
  let m ← m.markObjectsMain h.graph fuel h.uninitTables
  some (h, { m with expandedLiveStack := none })

end ObjectHeap

end LeooRexx
