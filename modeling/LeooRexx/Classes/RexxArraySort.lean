import LeooRexx.Classes.RexxArray
import LeooRexx.Foundation.Sorting

/-!
# Sorting of arrays

The merge sort and the quick sort of `RexxArray`, with the methods that call them.  The
comparisons are `compareTo` of the items or `compare` of a comparator, with a state that the
method called may change.
-/

namespace LeooRexx

open Sorting

/-- A slot that is not there or has no item is `access`; a recursion that ends as well. -/
inductive SortError where
  | sparseArray (position : Nat)
  | access
deriving DecidableEq

namespace RexxArray

variable {σ ν : Type}

def numItems (a : RexxArray ν) : Nat :=
  (List.range a.arraySize).countP fun i => (a.objects i).isSome

def slot (a : RexxArray ν) (pos : Nat) : Option ν :=
  if 1 ≤ pos ∧ pos ≤ a.arraySize then a.get pos else none

def getItem (a : RexxArray ν) (pos : Nat) : Except SortError ν :=
  match a.slot pos with
  | some item => .ok item
  | none => .error .access

def putItem (a : RexxArray ν) (item : ν) (pos : Nat) : Except SortError (RexxArray ν) :=
  if 1 ≤ pos ∧ pos ≤ a.arraySize then .ok (a.put item pos) else .error .access

/-! ## Merge sort -/

def mergeLoop (cmp : Comparator σ ν) (a : RexxArray ν) (leftEnd right left mid mergePosition : Nat)
    (working : RexxArray ν) (s : σ) :
    Except SortError (Nat × Nat × Nat × RexxArray ν × σ) :=
  if _h : left ≤ leftEnd ∧ mid ≤ right then do
    let leftItem ← a.getItem left
    let midItem ← a.getItem mid
    if (cmp s leftItem midItem).1 ≤ 0 then do
      let working ← working.putItem leftItem mergePosition
      mergeLoop cmp a leftEnd right (left + 1) mid (mergePosition + 1) working
        (cmp s leftItem midItem).2
    else do
      let working ← working.putItem midItem mergePosition
      mergeLoop cmp a leftEnd right left (mid + 1) (mergePosition + 1) working
        (cmp s leftItem midItem).2
  else .ok (left, mid, mergePosition, working, s)
termination_by (leftEnd + 1 - left) + (right + 1 - mid)

def copyRest (a : RexxArray ν) (last first mergePosition : Nat) (working : RexxArray ν) :
    Except SortError (Nat × RexxArray ν) :=
  if _h : first ≤ last then do
    let item ← a.getItem first
    let working ← working.putItem item mergePosition
    copyRest a last (first + 1) (mergePosition + 1) working
  else .ok (mergePosition, working)
termination_by last + 1 - first

def copyBack (working : RexxArray ν) : Nat → Nat → RexxArray ν → Except SortError (RexxArray ν)
  | 0, _, a => .ok a
  | elements + 1, right, a => do
      let item ← working.getItem right
      let a ← a.putItem item right
      copyBack working elements (right - 1) a

/-- The loops of `merge` that fill the working array. -/
def mergeInto (cmp : Comparator σ ν) (a : RexxArray ν)
    (leftEnd right left mid mergePosition : Nat) (working : RexxArray ν) (s : σ) :
    Except SortError (RexxArray ν × σ) := do
  let (left, mid, mergePosition, working, s) ←
    mergeLoop cmp a leftEnd right left mid mergePosition working s
  let (mergePosition, working) ← copyRest a leftEnd left mergePosition working
  let (_, working) ← copyRest a right mid mergePosition working
  .ok (working, s)

def merge (cmp : Comparator σ ν) (left mid right : Nat) (a working : RexxArray ν) (s : σ) :
    Except SortError (RexxArray ν × RexxArray ν × σ) := do
  let (working, s) ← mergeInto cmp a (mid - 1) right left mid left working s
  let a ← copyBack working (right - left + 1) right a
  .ok (a, working, s)

def mergeSort (cmp : Comparator σ ν) (left right : Nat) (a working : RexxArray ν) (s : σ) :
    Except SortError (RexxArray ν × RexxArray ν × σ) :=
  if _h : left < right then do
    let mid := (right + left) / 2
    let (a, working, s) ← mergeSort cmp left mid a working s
    let (a, working, s) ← mergeSort cmp (mid + 1) right a working s
    merge cmp left (mid + 1) right a working s
  else .ok (a, working, s)
termination_by right - left

/-! ## Quick sort -/

def fixRight (cmp : Comparator σ ν) (a : RexxArray ν) (pivot : ν) (left right : Nat) (s : σ) :
    Except SortError (Nat × σ) := do
  let item ← a.getItem right
  if _h : 0 ≤ (cmp s item pivot).1 ∧ left < right then
    fixRight cmp a pivot left (right - 1) (cmp s item pivot).2
  else .ok (right, (cmp s item pivot).2)
termination_by right

def fixLeft (cmp : Comparator σ ν) (a : RexxArray ν) (pivot : ν) (right left : Nat) (s : σ) :
    Except SortError (Nat × σ) := do
  let item ← a.getItem left
  if _h : (cmp s item pivot).1 ≤ 0 ∧ left < right then
    fixLeft cmp a pivot right (left + 1) (cmp s item pivot).2
  else .ok (left, (cmp s item pivot).2)
termination_by right - left

def moveItem (a : RexxArray ν) (source target : Nat) : Except SortError (RexxArray ν) := do
  let item ← a.getItem source
  a.putItem item target

def partition (cmp : Comparator σ ν) (pivot : ν) :
    Nat → Nat → Nat → RexxArray ν → σ → Except SortError (Nat × RexxArray ν × σ)
  | 0, _, _, _, _ => .error .access
  | fuel + 1, left, right, a, s =>
      if left < right then do
        let (right, s) ← fixRight cmp a pivot left right s
        let (left, a) ← if left = right then .ok (left, a) else do
          let a ← a.moveItem right left
          .ok (left + 1, a)
        let (left, s) ← fixLeft cmp a pivot right left s
        let (right, a) ← if left = right then .ok (right, a) else do
          let a ← a.moveItem left right
          .ok (right - 1, a)
        partition cmp pivot fuel left right a s
      else .ok (left, a, s)

def quickSort (cmp : Comparator σ ν) :
    Nat → Nat → Nat → RexxArray ν → σ → Except SortError (RexxArray ν × σ)
  | 0, _, _, _, _ => .error .access
  | fuel + 1, left, right, a, s => do
      let pivot ← a.getItem left
      let (pivotPoint, a, s) ← partition cmp pivot (right - left + 1) left right a s
      let a ← a.putItem pivot pivotPoint
      let (a, s) ←
        if left < pivotPoint then quickSort cmp fuel left (pivotPoint - 1) a s else .ok (a, s)
      if pivotPoint < right then quickSort cmp fuel (pivotPoint + 1) right a s else .ok (a, s)

/-! ## Methods -/

def checkSlots (a : RexxArray ν) : Nat → Nat → Except SortError Unit
  | _, 0 => .ok ()
  | pos, count + 1 =>
      if (a.slot pos).isNone then .error (.sparseArray pos) else checkSlots a (pos + 1) count

/-- The whole array is sorted if it has more than `few` items. -/
def sortItems (few : Nat) (sort : Nat → RexxArray ν → σ → Except SortError (RexxArray ν × σ))
    (a : RexxArray ν) (s : σ) : Except SortError σ × RexxArray ν :=
  if a.numItems ≤ few then (.ok s, a)
  else
    match checkSlots a 1 a.numItems with
    | .error e => (.error e, a)
    | .ok () =>
        match sort a.numItems a s with
        | .error e => (.error e, a)
        | .ok (a, s) => (.ok s, a)

def quickSortAll (cmp : Comparator σ ν) (count : Nat) (a : RexxArray ν) (s : σ) :
    Except SortError (RexxArray ν × σ) :=
  quickSort cmp count 1 count a s

def mergeSortAll (cmp : Comparator σ ν) (count : Nat) (a : RexxArray ν) (s : σ) :
    Except SortError (RexxArray ν × σ) := do
  let (a, _, s) ← mergeSort cmp 1 count a (newArray none count) s
  .ok (a, s)

def sortRexx (compareTo : Comparator σ ν) : RexxArray ν → σ → Except SortError σ × RexxArray ν :=
  sortItems 0 (quickSortAll compareTo)

def sortWithRexx (sortCompare : Comparator σ ν) :
    RexxArray ν → σ → Except SortError σ × RexxArray ν :=
  sortItems 1 (quickSortAll sortCompare)

def stableSortRexx (compareTo : Comparator σ ν) :
    RexxArray ν → σ → Except SortError σ × RexxArray ν :=
  sortItems 0 (mergeSortAll compareTo)

def stableSortWithRexx (sortCompare : Comparator σ ν) :
    RexxArray ν → σ → Except SortError σ × RexxArray ν :=
  sortItems 1 (mergeSortAll sortCompare)

end RexxArray

end LeooRexx
