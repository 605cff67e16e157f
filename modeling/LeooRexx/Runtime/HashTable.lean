import LeooRexx.Foundation.Chain

/-!
# Hash tables

`RexxHashTable`: the first half of the entries are the buckets, the second half
holds the overflow of all of them.  An index and its value are set and cleared
together, so an entry holds both or neither.  A routine returns the table as it
leaves it, and a second table where the source returns a larger one that the
caller has to use instead.
-/

namespace LeooRexx

variable {κ ν : Type}

/-- `TABENTRY`; `next` is `NO_MORE`, 0, at the end of a chain. -/
structure TabEntry (κ ν : Type) where
  item : Option (κ × ν)
  next : Nat

structure HashTable (κ ν : Type) where
  uSize : Nat
  free : Nat
  entries : Nat → TabEntry κ ν

namespace HashTable

def totalSlotsSize (t : HashTable κ ν) : Nat := t.uSize * 2

/-- `new_hashtab`. -/
def newHashTable (entries : Nat) : HashTable κ ν :=
  let bucketSize := entries / 2
  let bucketSize := if bucketSize % 2 = 0 then bucketSize + 1 else bucketSize
  let entries := bucketSize * 2
  ⟨bucketSize, entries - 1, fun _ => ⟨none, 0⟩⟩

def link (t : HashTable κ ν) (i : Nat) : Option Nat :=
  if (t.entries i).next = 0 then none else some (t.entries i).next

def setEntry (t : HashTable κ ν) (i : Nat) (entry : TabEntry κ ν) : HashTable κ ν :=
  { t with entries := Function.update t.entries i entry }

def setItem (t : HashTable κ ν) (i : Nat) (item : Option (κ × ν)) : HashTable κ ν :=
  t.setEntry i ⟨item, (t.entries i).next⟩

def setNext (t : HashTable κ ν) (i next : Nat) : HashTable κ ν :=
  t.setEntry i ⟨(t.entries i).item, next⟩

def setFree (t : HashTable κ ν) (free : Nat) : HashTable κ ν := { t with free := free }

section Keys

variable [BEq κ] [Hashable κ] [BEq ν]

def hashIndex (t : HashTable κ ν) (index : κ) : Nat := (hash index).toNat % t.uSize

def holdsIndex (t : HashTable κ ν) (index : κ) (position : Nat) : Bool :=
  (t.entries position).item.any fun entry => index == entry.1

def searchChain (t : HashTable κ ν) (test : Nat → Bool) (position : Nat) :
    Option (Option (Option Nat × Nat)) :=
  Chain.search t.link test t.totalSlotsSize none position

def get (t : HashTable κ ν) (index : κ) : Option (Option ν) :=
  let position := t.hashIndex index
  if (t.entries position).item.isSome then do
    match ← t.searchChain (t.holdsIndex index) position with
    | some (_, position) => some ((t.entries position).item.map (·.2))
    | none => some none
  else some none

/-- `hasItem` with an index. -/
def hasItem (t : HashTable κ ν) (value : ν) (index : κ) : Option Bool :=
  let position := t.hashIndex index
  if (t.entries position).item.isSome then do
    let test position := (t.entries position).item.any fun entry =>
      index == entry.1 && value == entry.2
    let found ← t.searchChain test position
    some found.isSome
  else some false

def remove (t : HashTable κ ν) (index : κ) : Option (HashTable κ ν × Option ν) :=
  let position := t.hashIndex index
  if (t.entries position).item.isSome then do
    match ← t.searchChain (t.holdsIndex index) position with
    | some (previous, position) =>
        let removed := (t.entries position).item.map (·.2)
        let next := (t.entries position).next
        if next = 0 then
          let t := t.setItem position none
          match previous with
          | some previous =>
              let t := if position > t.free then t.setFree position else t
              some (t.setNext previous 0, removed)
          | none => some (t, removed)
        else
          let t := t.setNext position (t.entries next).next
          let t := t.setItem position (t.entries next).item
          let t := t.setItem next none
          let t := t.setNext next 0
          let t := if t.free < next then t.setFree next else t
          some (t, removed)
    | none => some (t, none)
  else some (t, none)

def findFree (t : HashTable κ ν) : Nat → Option Nat
  | 0 => none
  | overflow + 1 =>
      if overflow + 1 < t.uSize then none
      else if (t.entries (overflow + 1)).item.isNone then some (overflow + 1)
      else t.findFree overflow

def insertAt (t : HashTable κ ν) (value : ν) (index : κ) (position overflow : Nat) :
    HashTable κ ν :=
  let t := t.setEntry overflow (t.entries position)
  let t := t.setEntry position ⟨some (index, value), overflow⟩
  t.setFree (overflow - 1)

/-- `add`, for an index that is not in the table. -/
def addWith
    (insert : HashTable κ ν → ν → κ → Nat → Option (HashTable κ ν × Option (HashTable κ ν)))
    (t : HashTable κ ν) (value : ν) (index : κ) :
    Option (HashTable κ ν × Option (HashTable κ ν)) :=
  let position := t.hashIndex index
  if (t.entries position).item.isSome then insert t value index position
  else some (t.setItem position (some (index, value)), none)

/-- A larger table that `add` returns is not used. -/
def reMerge
    (add : HashTable κ ν → ν → κ → Option (HashTable κ ν × Option (HashTable κ ν)))
    (t newHash : HashTable κ ν) : Option (HashTable κ ν) :=
  (List.range t.totalSlotsSize).reverse.foldlM (fun newHash i =>
    match (t.entries i).item with
    | none => some newHash
    | some (index, value) => (add newHash value index).map (·.1)) newHash

/--
`insert`.  The fuel bounds the larger tables allocated on the way; a larger
table that is returned for a new table is not used.
-/
def insertWith : Nat → HashTable κ ν → ν → κ → Nat →
    Option (HashTable κ ν × Option (HashTable κ ν))
  | 0, _, _, _, _ => none
  | fuel + 1, t, value, index, position =>
      match t.findFree t.free with
      | some overflow => some (t.insertAt value index position overflow, none)
      | none => do
          let newHash ← t.reMerge (addWith (insertWith fuel))
            (newHashTable (t.totalSlotsSize * 2))
          let (newHash, _) ← addWith (insertWith fuel) newHash value index
          some (t, some newHash)

def insert (t : HashTable κ ν) (value : ν) (index : κ) (position : Nat) :
    Option (HashTable κ ν × Option (HashTable κ ν)) :=
  insertWith 2 t value index position

def add (t : HashTable κ ν) (value : ν) (index : κ) :
    Option (HashTable κ ν × Option (HashTable κ ν)) :=
  addWith (insertWith 2) t value index

def put (t : HashTable κ ν) (value : ν) (index : κ) :
    Option (HashTable κ ν × Option (HashTable κ ν)) :=
  let position := t.hashIndex index
  if (t.entries position).item.isSome then do
    match ← t.searchChain (t.holdsIndex index) position with
    | some (_, position) =>
        some (t.setItem position ((t.entries position).item.map fun entry =>
          (entry.1, value)), none)
    | none => t.insert value index position
  else some (t.setItem position (some (index, value)), none)

end Keys

/-! ## Iteration -/

/-- The first entry in use from `i` on, of `count` entries. -/
def scanFrom (t : HashTable κ ν) : Nat → Nat → Nat
  | 0, i => i
  | count + 1, i => if (t.entries i).item.isNone then t.scanFrom count (i + 1) else i

def first (t : HashTable κ ν) : Nat := t.scanFrom t.totalSlotsSize 0

def next (t : HashTable κ ν) (position : Nat) : Nat :=
  t.scanFrom (t.totalSlotsSize - (position + 1)) (position + 1)

def available (t : HashTable κ ν) (position : Nat) : Bool := position < t.totalSlotsSize

/-- `for (j = first(); available(j); j = next(j))`. -/
def iterateFrom (t : HashTable κ ν) : Nat → Nat → Option (List (κ × ν))
  | 0, _ => none
  | fuel + 1, position =>
      if t.available position then do
        let items ← t.iterateFrom fuel (t.next position)
        some ((t.entries position).item.toList ++ items)
      else some []

def iterate (t : HashTable κ ν) : Option (List (κ × ν)) :=
  t.iterateFrom (t.totalSlotsSize + 1) t.first

/-! ## Entries -/

@[simp] theorem setEntry_uSize (t : HashTable κ ν) (i : Nat) (entry : TabEntry κ ν) :
    (t.setEntry i entry).uSize = t.uSize := rfl

@[simp] theorem setEntry_free (t : HashTable κ ν) (i : Nat) (entry : TabEntry κ ν) :
    (t.setEntry i entry).free = t.free := rfl

@[simp] theorem setEntry_entries (t : HashTable κ ν) (i : Nat) (entry : TabEntry κ ν) :
    (t.setEntry i entry).entries = Function.update t.entries i entry := rfl

@[simp] theorem setFree_uSize (t : HashTable κ ν) (free : Nat) :
    (t.setFree free).uSize = t.uSize := rfl

@[simp] theorem setFree_free (t : HashTable κ ν) (free : Nat) :
    (t.setFree free).free = free := rfl

@[simp] theorem setFree_entries (t : HashTable κ ν) (free : Nat) :
    (t.setFree free).entries = t.entries := rfl

theorem link_setEntry (t : HashTable κ ν) (i : Nat) (entry : TabEntry κ ν) :
    (t.setEntry i entry).link =
      Function.update t.link i (if entry.next = 0 then none else some entry.next) := by
  funext j
  by_cases h : j = i
  · subst h
    simp [link]
  · simp [link, h]

@[simp] theorem link_setItem (t : HashTable κ ν) (i : Nat) (item : Option (κ × ν)) :
    (t.setItem i item).link = t.link := by
  rw [setItem, link_setEntry]
  exact Function.update_eq_self i t.link

theorem link_setNext (t : HashTable κ ν) (i next : Nat) :
    (t.setNext i next).link =
      Function.update t.link i (if next = 0 then none else some next) :=
  link_setEntry ..

@[simp] theorem link_setFree (t : HashTable κ ν) (free : Nat) :
    (t.setFree free).link = t.link := rfl

theorem item_setEntry (t : HashTable κ ν) (i : Nat) (entry : TabEntry κ ν) (j : Nat) :
    ((t.setEntry i entry).entries j).item =
      if j = i then entry.item else (t.entries j).item := by
  by_cases h : j = i
  · subst h
    simp
  · simp [h]

theorem item_setItem (t : HashTable κ ν) (i : Nat) (item : Option (κ × ν)) (j : Nat) :
    ((t.setItem i item).entries j).item = if j = i then item else (t.entries j).item :=
  item_setEntry ..

theorem item_setNext (t : HashTable κ ν) (i next j : Nat) :
    ((t.setNext i next).entries j).item = (t.entries j).item := by
  rw [setNext, item_setEntry]
  split
  · case isTrue h => rw [h]
  · rfl

end HashTable

end LeooRexx
