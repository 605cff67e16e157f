import LeooRexx.Foundation.DoublyLinked

/-!
# Lists

`RexxList`: the items are chained through the slots of a table, and the slots
that are not in use are chained through the same `next` fields.  An index of the
list is the number of a slot.  A method that raises a condition leaves the list
as it is at that point.
-/

namespace LeooRexx

structure ListEntry (ν : Type) where
  value : Option ν
  next : Int
  previous : Int

structure RexxList (ν : Type) where
  entries : Int → ListEntry ν
  first : Int
  last : Int
  count : Nat
  size : Int
  free : Int

/-- An index argument, as `REQUEST_INTEGER` sees it. -/
inductive ListIndex where
  | omitted
  | nil
  | integer (value : Int)
  | other
  deriving DecidableEq

inductive ListError where
  | noarg (position : Nat)
  | index (index : ListIndex)
  deriving DecidableEq

inductive ListResult (ν : Type) where
  | done
  | index (index : Int)
  | item (item : Option ν)
  deriving DecidableEq

namespace RexxList

variable {ν : Type}

def listEnd : Int := -1

def notActive : Int := -2

def initialListSize : Int := 5

def modify (t : RexxList ν) (i : Int) (f : ListEntry ν → ListEntry ν) : RexxList ν :=
  { t with entries := Function.update t.entries i (f (t.entries i)) }

def setValue (t : RexxList ν) (i : Int) (value : Option ν) : RexxList ν :=
  t.modify i fun e => { e with value := value }

def setNext (t : RexxList ν) (i next : Int) : RexxList ν :=
  t.modify i fun e => { e with next := next }

def setPrevious (t : RexxList ν) (i previous : Int) : RexxList ν :=
  t.modify i fun e => { e with previous := previous }

def setFirst (t : RexxList ν) (first : Int) : RexxList ν := { t with first := first }

def setLast (t : RexxList ν) (last : Int) : RexxList ν := { t with last := last }

/-- The loop of `partitionBuffer`, from the slot `i` on. -/
def partitionFrom (t : RexxList ν) (i : Int) : Nat → RexxList ν
  | 0 => t
  | count + 1 =>
      let t := t.modify i fun _ => ⟨none, i + 1, notActive⟩
      t.partitionFrom (i + 1) count

def partitionBuffer (t : RexxList ν) (first count : Int) : RexxList ν :=
  let t := { t with free := first }
  let t := t.partitionFrom first count.toNat
  t.setNext (first + count - 1) listEnd

/-- A new list, after `init`. -/
def init : RexxList ν :=
  partitionBuffer ⟨fun _ => ⟨none, 0, 0⟩, listEnd, listEnd, 0, initialListSize, 0⟩ 0
    initialListSize

def getFree (t : RexxList ν) : RexxList ν × Int :=
  let t :=
    if t.free = listEnd then
      let t := t.partitionBuffer t.size t.size
      { t with size := t.size + t.size }
    else t
  ({ t with free := (t.entries t.free).next }, t.free)

def getEntry (t : RexxList ν) (index : ListIndex) (position : Nat) :
    Except ListError (Option Int) :=
  match index with
  | .omitted => .error (.noarg position)
  | .nil | .other => .error (.index index)
  | .integer i =>
      if i < 0 then .error (.index index)
      else if i ≥ t.size then .ok none
      else if (t.entries i).previous = notActive then .ok none
      else .ok (some i)

/-! ## Linking a new slot -/

def linkOnly (t : RexxList ν) (x : Int) : RexxList ν :=
  let t := (t.setFirst x).setLast x
  (t.setNext x listEnd).setPrevious x listEnd

def linkFront (t : RexxList ν) (x : Int) : RexxList ν :=
  let t := (t.setNext x t.first).setPrevious x listEnd
  let t := t.setPrevious t.first x
  t.setFirst x

def linkBack (t : RexxList ν) (x : Int) : RexxList ν :=
  let t := (t.setPrevious x t.last).setNext x listEnd
  let t := t.setNext t.last x
  t.setLast x

def linkBefore (t : RexxList ν) (element x : Int) : RexxList ν :=
  let t := t.setNext x element
  let t :=
    if (t.entries element).previous = listEnd then t.setFirst x
    else t.setNext (t.entries element).previous x
  let t := t.setPrevious x (t.entries element).previous
  let t := t.setPrevious element x
  t.setNext x element

def linkAfter (t : RexxList ν) (element x : Int) : RexxList ν :=
  let t := t.setPrevious x element
  let t :=
    if (t.entries element).next = listEnd then t.setLast x
    else t.setPrevious (t.entries element).next x
  let t := t.setNext x (t.entries element).next
  let t := t.setNext element x
  t.setPrevious x element

/-! ## Methods -/

def fill (t : RexxList ν) (x : Int) (value : ν) : RexxList ν :=
  ({ t with count := t.count + 1 } : RexxList ν).setValue x (some value)

def addLast (t : RexxList ν) (value : ν) : RexxList ν :=
  let (t, newIndex) := t.getFree
  let t := t.fill newIndex value
  if t.last = listEnd then t.linkOnly newIndex else t.linkBack newIndex

def addFirst (t : RexxList ν) (value : ν) : RexxList ν :=
  let (t, newIndex) := t.getFree
  let t := t.fill newIndex value
  if t.last = listEnd then t.linkOnly newIndex else t.linkFront newIndex

def add (t : RexxList ν) (value : ν) (index : ListIndex) :
    RexxList ν × Except ListError Int :=
  let (t, newIndex) := t.getFree
  let element : Except ListError (Option Int) :=
    if index = .nil then .ok none
    else
      match t.getEntry index 1 with
      | .ok none => .error (.index index)
      | element => element
  match element with
  | .error e => (t, .error e)
  | .ok element =>
      let t := t.fill newIndex value
      let t :=
        match element with
        | none => if t.last = listEnd then t.linkOnly newIndex else t.linkBack newIndex
        | some element => t.linkBefore element newIndex
      (t, .ok newIndex)

def insert (t : RexxList ν) (value : ν) (index : ListIndex) :
    RexxList ν × Except ListError Int :=
  let (t, newIndex) := t.getFree
  let element : Except ListError (Option Int) :=
    if index = .nil then .ok none
    else if index = .omitted then
      if t.last = listEnd then .ok none else .ok (some t.last)
    else
      match t.getEntry index 1 with
      | .ok none => .error (.index index)
      | element => element
  match element with
  | .error e => (t, .error e)
  | .ok element =>
      let t := t.fill newIndex value
      let t :=
        match element with
        | none => if t.last = listEnd then t.linkOnly newIndex else t.linkFront newIndex
        | some element => t.linkAfter element newIndex
      (t, .ok newIndex)

/-- The `value` argument may be omitted, which is found out after the index. -/
def put (t : RexxList ν) (value : Option ν) (index : ListIndex) :
    RexxList ν × Except ListError Unit :=
  match t.getEntry index 2 with
  | .error e => (t, .error e)
  | .ok element =>
      match value with
      | none => (t, .error (.noarg 1))
      | some value =>
          match element with
          | none => (t, .error (.index index))
          | some element => (t.setValue element (some value), .ok ())

/-- `primitiveRemove` of a slot in use. -/
def removeSlot (t : RexxList ν) (element : Int) : RexxList ν × Option ν :=
  let value := (t.entries element).value
  let t :=
    if (t.entries element).next = listEnd then t.setLast (t.entries element).previous
    else t.setPrevious (t.entries element).next (t.entries element).previous
  let t :=
    if (t.entries element).previous = listEnd then t.setFirst (t.entries element).next
    else t.setNext (t.entries element).previous (t.entries element).next
  let t := { t with count := t.count - 1 }
  let t := t.setPrevious element notActive
  let t := t.setNext element t.free
  ({ t with free := element }, value)

def primitiveRemove (t : RexxList ν) (element : Option Int) : RexxList ν × Option ν :=
  match element with
  | none => (t, none)
  | some element => t.removeSlot element

/-- `none` is `TheNilObject`. -/
def remove (t : RexxList ν) (index : ListIndex) :
    RexxList ν × Except ListError (Option ν) :=
  match t.getEntry index 1 with
  | .error e => (t, .error e)
  | .ok element =>
      let (t, value) := t.primitiveRemove element
      (t, .ok value)

/-- The loop of `index` and `removeItem` over the items. -/
def findItem [BEq ν] (t : RexxList ν) (target : ν) : Nat → Int → Option Int
  | 0, _ => none
  | count + 1, next =>
      if ((t.entries next).value.any fun value => target == value) then some next
      else t.findItem target count (t.entries next).next

/-- `index`, for a target that is not omitted. -/
def index [BEq ν] (t : RexxList ν) (target : ν) : Option Int :=
  t.findItem target t.count t.first

def removeItem [BEq ν] (t : RexxList ν) (target : Option ν) :
    RexxList ν × Except ListError (Option ν) :=
  match target with
  | none => (t, .error (.noarg 1))
  | some target =>
      let (t, value) := t.primitiveRemove (t.index target)
      (t, .ok value)

/-- The loop of `empty`; the fuel is the number of removals. -/
def emptyLoop (t : RexxList ν) : Nat → Option (RexxList ν)
  | 0 => none
  | fuel + 1 =>
      if t.first = listEnd then some t
      else (t.removeSlot t.first).1.emptyLoop fuel

def empty (t : RexxList ν) : Option (RexxList ν) := t.emptyLoop (t.count + 1)

end RexxList

end LeooRexx
