import LeooRexx.Foundation.RowMajor

/-!
# Arrays

`RexxArray`: a block of slots, which grows with the subscripts of a put.  An array that was
made without sizes takes its dimensions from the first put; one of several dimensions grows
in each of them, and the old elements are copied to their new places.
-/

namespace LeooRexx

def maxFixedArraySize : Nat := 100000000

def arrayMinSize : Nat := 4

def arrayExtendExtraSize : Nat := 10

def arrayExtendExtraLargeSize : Nat := 100

/--
An integer, or a string with the whole number that it stands for.  The string has a pointer
to its number where an integer has its value, which is zero until the string is converted.
-/
inductive Subscript where
  | integer (value : Int)
  | string (number : Option Int) (numberString : Int)

/-- `maxsub` and `minsub` have the number of dimensions, and `depth` ends a recursion. -/
inductive ArrayError where
  | noarg
  | positive
  | negative
  | maxsub (dimensions : Nat)
  | minsub (dimensions : Nat)
  | minarg
  | arrayTooBig
  | depth
deriving DecidableEq

namespace Subscript

def requiredPositive : Subscript → Except ArrayError Nat
  | integer value => if 0 < value then .ok value.toNat else .error .positive
  | string (some number) _ => if 0 < number then .ok number.toNat else .error .positive
  | string none _ => .error .positive

/-- `((RexxInteger *)index)->value`. -/
def value : Subscript → Int
  | integer value => value
  | string _ numberString => numberString

end Subscript

structure RexxArray (ν : Type) where
  dimensions : Option (List Nat)
  arraySize : Nat
  maximumSize : Nat
  objects : Nat → Option ν

namespace RexxArray

variable {ν : Type}

/-! ## Allocation -/

def totalSize : List Int → Nat → Except ArrayError Nat
  | [], total => if maxFixedArraySize ≤ total then .error .arrayTooBig else .ok total
  | size :: sizes, total =>
      if size < 0 then .error .negative
      else if size ≠ 0 ∧ maxFixedArraySize / size.toNat < total then .error .arrayTooBig
      else totalSize sizes (total * size.toNat)

def newArray (dimensions : Option (List Nat)) (size : Nat) : RexxArray ν :=
  ⟨dimensions, size, max size arrayMinSize, fun _ => none⟩

def newRexx : List Int → Except ArrayError (RexxArray ν)
  | [] => .ok (newArray none 0)
  | [size] =>
      if size < 0 then .error .negative
      else if maxFixedArraySize ≤ size.toNat then .error .arrayTooBig
      else if size = 0 then .ok (newArray (some [0]) 0)
      else .ok (newArray none size.toNat)
  | sizes => do
      let total ← totalSize sizes 1
      .ok (newArray (some (sizes.map Int.toNat)) total)

/-! ## Slots -/

def get (a : RexxArray ν) (pos : Nat) : Option ν := a.objects (pos - 1)

def putSlot (a : RexxArray ν) (pos : Nat) (item : Option ν) : RexxArray ν :=
  { a with objects := Function.update a.objects (pos - 1) item }

def put (a : RexxArray ν) (item : ν) (pos : Nat) : RexxArray ν := a.putSlot pos (some item)

/-- `memcpy` of objects. -/
def memcpy (target source : Nat → Option ν) (startNew startOld count : Nat) : Nat → Option ν :=
  fun i =>
    if startNew ≤ i ∧ i < startNew + count then source (startOld + (i - startNew)) else target i

def extend (a : RexxArray ν) (extension : Nat) : RexxArray ν :=
  if a.arraySize + extension ≤ a.maximumSize then { a with arraySize := a.arraySize + extension }
  else
    let newSize := a.arraySize + extension
    let extendSize :=
      if newSize < arrayExtendExtraLargeSize then arrayExtendExtraSize else a.arraySize / 2
    let newArray : RexxArray ν := .newArray none (newSize + extendSize)
    { a with
      arraySize := newSize
      maximumSize := newArray.maximumSize
      objects := memcpy newArray.objects a.objects 0 0 a.arraySize }

/-! ## Several dimensions -/

/-- `COPYELEMENTPARM`, what changes of it. -/
structure CopyState (ν : Type) where
  startNew : Nat
  startOld : Nat
  objects : Nat → Option ν

/--
The dimensions from the current one on, new and old, with the number of dimensions before
the last one that changed.
-/
def copyElements (source : Nat → Option ν) :
    Nat → List Nat → List Nat → CopyState ν → CopyState ν
  | 0, newDim :: _, oldDim :: oldDims, parm =>
      let copyElements := oldDims.prod * oldDim
      let skipElements := oldDims.prod * (newDim - oldDim)
      ⟨parm.startNew + copyElements + skipElements, parm.startOld + copyElements,
        memcpy parm.objects source parm.startNew parm.startOld copyElements⟩
  | level + 1, newDim :: newDims, oldDim :: oldDims, parm =>
      let parm := Nat.iterate (copyElements source level newDims oldDims) oldDim parm
      if oldDim < newDim then
        { parm with startNew := parm.startNew + newDims.prod * (newDim - oldDim) }
      else parm
  | _, _, _, parm => parm

/-- `firstDimChanged`: the last dimension that grows, counted from zero. -/
def firstDimChanged : List Nat → List Nat → Option Nat
  | newDim :: newDims, oldDim :: oldDims =>
      match firstDimChanged newDims oldDims with
      | some i => some (i + 1)
      | none => if oldDim < newDim then some 0 else none
  | _, _ => none

/-- Each dimension, from the last one on, is at least what its subscript needs. -/
def growDims : List Subscript → List Nat → Except ArrayError (List Nat)
  | value :: index, dim :: dims => do
      let newDims ← growDims index dims
      let newDim ← value.requiredPositive
      .ok (max newDim dim :: newDims)
  | _, _ => .ok []

def firstDims (size : Nat) : List Subscript → Except ArrayError (List Int)
  | [] => .ok []
  | [value] => do
      let newDim ← value.requiredPositive
      .ok [((max newDim size : Nat) : Int)]
  | value :: index => do
      let newDims ← firstDims size index
      .ok (value.value :: newDims)

def copyObjects (a : RexxArray ν) (newDims oldDims : List Nat) : Nat → Option ν :=
  match firstDimChanged newDims oldDims with
  | some (level + 1) =>
      (copyElements a.objects (level + 1) newDims oldDims ⟨0, 0, fun _ => none⟩).objects
  | _ => memcpy (fun _ => none) a.objects 0 0 a.arraySize

def extendMulti (a : RexxArray ν) (index : List Subscript) :
    Except ArrayError (RexxArray ν) :=
  match a.dimensions with
  | none => do
      let newDims ← firstDims a.arraySize index
      let total ← totalSize newDims 1
      .ok { (newArray (some (newDims.map Int.toNat)) total : RexxArray ν) with
        objects := memcpy (fun _ => none) a.objects 0 0 a.arraySize }
  | some dims => do
      let newDims ← growDims index dims
      let total ← totalSize (newDims.map Int.ofNat) 1
      .ok { (newArray (some newDims) total : RexxArray ν) with
        objects := if a.arraySize = 0 then fun _ => none else a.copyObjects newDims dims }

/-! ## Subscripts -/

def locate : List Subscript → List Nat → Except ArrayError (Option (Nat × Nat))
  | value :: index, dimension :: dims => do
      match ← locate index dims with
      | none => .ok none
      | some (offset, multiplier) => do
          let position ← value.requiredPositive
          if dimension < position then .ok none
          else .ok (some (offset + multiplier * (position - 1), multiplier * dimension))
  | _, _ => .ok (some (0, 1))

/--
The position and the array, which may have been extended before an error is raised.  The
flags other than `ExtendUpper` are those of `get` and `put`.
-/
def validateIndex (extendUpper : Bool) :
    Nat → RexxArray ν → List Subscript → Except ArrayError (Option Nat) × RexxArray ν
  | 0, a, _ => (.error .depth, a)
  | fuel + 1, a, index =>
      match a.dimensions with
      | none | some [_] =>
          match index with
          | [] => (.error .minarg, a)
          | [value] =>
              match value.requiredPositive with
              | .error e => (.error e, a)
              | .ok position =>
                  if position ≤ a.arraySize then (.ok (some position), a)
                  else if maxFixedArraySize ≤ position then (.error .arrayTooBig, a)
                  else if extendUpper then
                    (.ok (some position), a.extend (position - a.arraySize))
                  else (.ok none, a)
          | _ :: _ :: _ =>
              if a.dimensions.isSome ∨ a.arraySize ≠ 0 then (.error (.maxsub 1), a)
              else if extendUpper then
                match a.extendMulti index with
                | .error e => (.error e, a)
                | .ok a => validateIndex extendUpper fuel a index
              else (.ok none, a)
      | some dims =>
          if index.length < dims.length then (.error (.minsub dims.length), a)
          else if dims.length < index.length then (.error (.maxsub dims.length), a)
          else
            match locate index dims with
            | .error e => (.error e, a)
            | .ok (some (offset, _)) => (.ok (some (offset + 1)), a)
            | .ok none =>
                if extendUpper then
                  match a.extendMulti index with
                  | .error e => (.error e, a)
                  | .ok a => validateIndex extendUpper fuel a index
                else (.ok none, a)

def validateDepth : Nat := 3

def putRexx (a : RexxArray ν) (value : ν) (index : List Subscript) :
    Except ArrayError Unit × RexxArray ν :=
  match validateIndex true validateDepth a index with
  | (.error e, a) => (.error e, a)
  | (.ok none, a) => (.ok (), a)
  | (.ok (some position), a) => (.ok (), a.put value position)

/-- `.nil` is `none`. -/
def getRexx (a : RexxArray ν) (index : List Subscript) : Except ArrayError (Option ν) :=
  match validateIndex false validateDepth a index with
  | (.error e, _) => .error e
  | (.ok none, _) => .ok none
  | (.ok (some position), a) => .ok (a.get position)

def removeRexx (a : RexxArray ν) (index : List Subscript) :
    Except ArrayError (Option ν) × RexxArray ν :=
  match validateIndex false validateDepth a index with
  | (.error e, a) => (.error e, a)
  | (.ok none, a) => (.ok none, a)
  | (.ok (some position), a) => (.ok (a.get position), a.putSlot position none)

/-- The loop of `indexToArray`, from the last dimension on, with what is left of the index. -/
def indexDigits : List Nat → Nat → List Nat × Nat
  | [], idx => ([], idx)
  | dimension :: dims, idx =>
      let (index, idx) := indexDigits dims idx
      let digit := idx % dimension
      ((digit + 1) :: index, (idx - digit) / dimension)

def indexToArray (a : RexxArray ν) (idx : Nat) : List Subscript :=
  (indexDigits (a.dimensions.getD []) (idx - 1)).1.map fun digit : Nat => .integer digit

def convertIndex (a : RexxArray ν) (idx : Nat) : List Subscript :=
  match a.dimensions with
  | none | some [_] => [.integer idx]
  | _ => a.indexToArray idx

end RexxArray

end LeooRexx
