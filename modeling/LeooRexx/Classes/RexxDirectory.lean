import LeooRexx.Runtime.HashTableEntries

/-!
# Directories

`RexxDirectory`: values in one table, methods that stand for values in another one, and
the method for unknown names.  The method table is created with its first method.  Some
routines fold a name to upper case and some take it as it is.
-/

namespace LeooRexx

def toupper (c : UInt8) : UInt8 := if 97 ≤ c ∧ c ≤ 122 then c - 32 else c

def upper (name : List UInt8) : List UInt8 := name.map toupper

/-- `UNKNOWN`. -/
def chUnknown : List UInt8 := [85, 78, 75, 78, 79, 87, 78]

structure DirectoryObjects (ν μ : Type) where
  string : List UInt8 → ν
  newScope : μ → μ
  run : μ → List UInt8 → ν
  runUnknown : μ → List UInt8 → ν
  equalValue : ν → ν → Bool

structure RexxDirectory (ν μ : Type) where
  contents : HashTable (List UInt8) ν
  methodTable : Option (HashTable (List UInt8) μ)
  unknownMethod : Option μ

def defaultHashSize : Nat := 22

namespace RexxDirectory

variable {ν μ : Type} [Hashable (List UInt8)] (o : DirectoryObjects ν μ)

def newDirectory : RexxDirectory ν μ := ⟨.newHashTable defaultHashSize, none, none⟩

def methodGet (d : RexxDirectory ν μ) (name : List UInt8) : Option (Option μ) :=
  match d.methodTable with
  | none => some none
  | some methods => methods.get name

/-- `if (method_table != OREF_NULL) method_table->remove(name)`. -/
def methodRemove (d : RexxDirectory ν μ) (name : List UInt8) : Option (RexxDirectory ν μ) :=
  match d.methodTable with
  | none => some d
  | some methods => do
      let methods ← methods.removeFrom name
      some { d with methodTable := some methods }

def methods (d : RexxDirectory ν μ) : Option (List (List UInt8 × μ)) :=
  match d.methodTable with
  | none => some []
  | some methods => methods.iterate

def at' (d : RexxDirectory ν μ) (index : List UInt8) : Option (Option ν) := do
  match ← d.contents.get index with
  | some value => some (some value)
  | none =>
      match ← d.methodGet index with
      | some method => some (some (o.run method index))
      | none =>
          match d.unknownMethod with
          | some method => some (some (o.runUnknown method index))
          | none => some none

def entry (d : RexxDirectory ν μ) (entryName : List UInt8) : Option (Option ν) :=
  d.at' o (upper entryName)

def items (d : RexxDirectory ν μ) : Nat :=
  match d.methodTable with
  | none => d.contents.totalEntries
  | some methods => d.contents.totalEntries + methods.totalEntries

def supplier (d : RexxDirectory ν μ) : Option (List (List UInt8 × ν)) := do
  let values ← d.contents.iterate
  let methods ← d.methods
  let result ← (values ++ methods.map fun entry => (entry.1, o.run entry.2 entry.1)).foldlM
    (fun result entry => result.putIn entry.2 entry.1)
    (HashTable.newHashTable defaultHashSize : HashTable (List UInt8) ν)
  result.iterate

def allIndexes (d : RexxDirectory ν μ) : Option (List (List UInt8)) := do
  let values ← d.contents.iterate
  let methods ← d.methods
  some (values.map (·.1) ++ methods.map (·.1))

def allItems (d : RexxDirectory ν μ) : Option (List ν) := do
  let values ← d.contents.iterate
  let methods ← d.methods
  some (values.map (·.2) ++ methods.map fun entry => o.string entry.1)

def hasIndex (d : RexxDirectory ν μ) (indexName : List UInt8) : Option Bool := do
  match ← d.contents.get indexName with
  | some _ => some true
  | none => do
      let method ← d.methodGet indexName
      some method.isSome

def hasEntry (d : RexxDirectory ν μ) (entryName : List UInt8) : Option Bool :=
  d.hasIndex (upper entryName)

def remove (d : RexxDirectory ν μ) (entryname : List UInt8) :
    Option (Option ν × RexxDirectory ν μ) := do
  let value ← d.at' o entryname
  let found ← d.contents.get entryname
  let contents ← if found.isSome then d.contents.removeFrom entryname else some d.contents
  let d ← methodRemove { d with contents := contents } (upper entryname)
  some (value, d)

def setEntry (d : RexxDirectory ν μ) (entryname : List UInt8) (entryobj : Option ν) :
    Option (RexxDirectory ν μ) := do
  let entryname := upper entryname
  match entryobj with
  | some entryobj =>
      let contents ← d.contents.putIn entryobj entryname
      methodRemove { d with contents := contents } entryname
  | none =>
      let (_, d) ← d.remove o entryname
      some d

def setMethod (d : RexxDirectory ν μ) (entryname : List UInt8) (methodobj : Option μ) :
    Option (RexxDirectory ν μ) := do
  let entryname := upper entryname
  let d ← match methodobj with
    | some methodobj =>
        let methodobj := o.newScope methodobj
        if entryname = chUnknown then some { d with unknownMethod := some methodobj }
        else do
          let methods := d.methodTable.getD (.newHashTable defaultHashSize)
          let methods ← methods.putIn methodobj entryname
          some { d with methodTable := some methods }
    | none =>
        if entryname = chUnknown then some { d with unknownMethod := none }
        else d.methodRemove entryname
  let contents ← d.contents.removeFrom entryname
  some { d with contents := contents }

def put (d : RexxDirectory ν μ) (value : ν) (index : List UInt8) :
    Option (RexxDirectory ν μ) := do
  let d ← d.methodRemove index
  let contents ← d.contents.putIn value index
  some { d with contents := contents }

def empty (d : RexxDirectory ν μ) : Option (RexxDirectory ν μ) := do
  let contents ← d.contents.empty
  match d.methodTable with
  | none => some ⟨contents, none, none⟩
  | some methods => do
      let methods ← methods.empty
      some ⟨contents, some methods, none⟩

def indexRexx (d : RexxDirectory ν μ) (target : ν) : Option (Option (List UInt8)) :=
  match d.contents.getIndex (o.equalValue target) with
  | some name => some (some name)
  | none => do
      let methods ← d.methods
      some ((methods.find? fun entry =>
        o.equalValue target (o.run entry.2 entry.1)).map (·.1))

def hasItem (d : RexxDirectory ν μ) (target : ν) : Option Bool := do
  let index ← d.indexRexx o target
  some index.isSome

def removeItem (d : RexxDirectory ν μ) (target : ν) : Option (Option ν × RexxDirectory ν μ) := do
  match ← d.indexRexx o target with
  | some index => d.remove o index
  | none => some (none, d)

/-! ## Runs -/

inductive Op (ν μ : Type) where
  | put (value : ν) (index : List UInt8)
  | setEntry (entryname : List UInt8) (entryobj : Option ν)
  | setMethod (entryname : List UInt8) (methodobj : Option μ)
  | remove (entryname : List UInt8)
  | removeItem (target : ν)
  | empty

def step (d : RexxDirectory ν μ) : Op ν μ → Option (RexxDirectory ν μ)
  | .put value index => d.put value index
  | .setEntry entryname entryobj => d.setEntry o entryname entryobj
  | .setMethod entryname methodobj => d.setMethod o entryname methodobj
  | .remove entryname => (d.remove o entryname).map (·.2)
  | .removeItem target => (d.removeItem o target).map (·.2)
  | .empty => d.empty

def run (d : RexxDirectory ν μ) (ops : List (Op ν μ)) : Option (RexxDirectory ν μ) :=
  ops.foldlM (step o) d

end RexxDirectory

end LeooRexx
