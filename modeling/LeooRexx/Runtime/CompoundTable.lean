import Mathlib.Data.List.Lex
import LeooRexx.Foundation.LinkedTree

/-!
# Tables of compound variables

`RexxCompoundTable`: the variables of a stem in a binary tree that is ordered by
the tails, first by length and then by bytes.  An element is the place it is
allocated at; `OREF_NULL` is `none`.  The depths steer the rotations, nothing else
depends on them.
-/

namespace LeooRexx

open LinkedTree

namespace CompoundTail

def memcmp : List UInt8 → List UInt8 → Int
  | a :: as, b :: bs => if a = b then memcmp as bs else (a.toNat : Int) - b.toNat
  | _, _ => 0

def compare (tail name : List UInt8) : Int :=
  let rc : Int := tail.length - name.length
  if rc = 0 then memcmp tail name else rc

def Precedes (a b : List UInt8) : Prop :=
  a.length < b.length ∨ a.length = b.length ∧ a < b

theorem memcmp_lt_zero {a b : List UInt8} (h : a.length = b.length) :
    memcmp a b < 0 ↔ a < b := by
  induction a generalizing b with
  | nil =>
      cases b with
      | nil => simp [memcmp]
      | cons y ys => exact absurd h (by simp)
  | cons x xs ih =>
      cases b with
      | nil => exact absurd h (by simp)
      | cons y ys =>
          rw [memcmp, List.cons_lt_cons_iff]
          by_cases hxy : x = y
          · subst hxy
            simp [ih (Nat.succ.inj h)]
          · rw [if_neg hxy, UInt8.lt_iff_toNat_lt]
            simp only [hxy, false_and, or_false]
            omega

theorem memcmp_neg {a b : List UInt8} (h : a.length = b.length) :
    memcmp b a = - memcmp a b := by
  induction a generalizing b with
  | nil =>
      cases b with
      | nil => rfl
      | cons y ys => exact absurd h (by simp)
  | cons x xs ih =>
      cases b with
      | nil => exact absurd h (by simp)
      | cons y ys =>
          rw [memcmp, memcmp]
          by_cases hxy : x = y
          · subst hxy
            simpa using ih (Nat.succ.inj h)
          · rw [if_neg hxy, if_neg (Ne.symm hxy)]
            omega

theorem memcmp_eq_zero {a b : List UInt8} (h : a.length = b.length) :
    memcmp a b = 0 ↔ a = b := by
  induction a generalizing b with
  | nil =>
      cases b with
      | nil => simp [memcmp]
      | cons y ys => exact absurd h (by simp)
  | cons x xs ih =>
      cases b with
      | nil => exact absurd h (by simp)
      | cons y ys =>
          rw [memcmp, List.cons.injEq]
          by_cases hxy : x = y
          · simp [hxy, ih (Nat.succ.inj h)]
          · have hne : x.toNat ≠ y.toNat := fun h => hxy (UInt8.toNat_inj.mp h)
            rw [if_neg hxy]
            simp only [hxy, false_and, iff_false]
            omega

theorem compare_neg (a b : List UInt8) : compare b a = - compare a b := by
  rw [compare, compare]
  by_cases h : a.length = b.length
  · simp [h, memcmp_neg h]
  · have hab : (a.length : Int) - b.length ≠ 0 := by omega
    have hba : (b.length : Int) - a.length ≠ 0 := by omega
    simp only [if_neg hab, if_neg hba]
    omega

theorem compare_lt_zero {a b : List UInt8} : compare a b < 0 ↔ Precedes a b := by
  rw [compare, Precedes]
  by_cases h : a.length = b.length
  · simp [h, memcmp_lt_zero h]
  · have hab : (a.length : Int) - b.length ≠ 0 := by omega
    simp only [if_neg hab, h, false_and, or_false]
    omega

theorem compare_gt_zero {a b : List UInt8} : compare a b > 0 ↔ Precedes b a := by
  rw [← compare_lt_zero, compare_neg a b]
  omega

theorem compare_eq_zero {a b : List UInt8} : compare a b = 0 ↔ a = b := by
  rw [compare]
  by_cases h : a.length = b.length
  · simp [h, memcmp_eq_zero h]
  · have hab : (a.length : Int) - b.length ≠ 0 := by omega
    simp only [if_neg hab]
    exact ⟨fun hc => absurd hc hab, fun hc => absurd (congrArg List.length hc) h⟩

theorem Precedes.trans {a b c : List UInt8} (hab : Precedes a b) (hbc : Precedes b c) :
    Precedes a c := by
  rcases hab with hab | ⟨hab, hlt⟩
  · rcases hbc with hbc | ⟨hbc, -⟩
    · exact .inl (hab.trans hbc)
    · exact .inl (hbc ▸ hab)
  · rcases hbc with hbc | ⟨hbc, hlt'⟩
    · exact .inl (hab ▸ hbc)
    · exact .inr ⟨hab.trans hbc, List.lt_trans hlt hlt'⟩

theorem Precedes.ne {a b : List UInt8} (h : Precedes a b) : a ≠ b := by
  rintro rfl
  have hlt := compare_lt_zero.mpr h
  rw [compare_eq_zero.mpr rfl] at hlt
  exact absurd hlt (by decide)

end CompoundTail

/-- `RexxCompoundElement`, and its `RexxVariable`. -/
structure CompoundElement (ν : Type) where
  variableName : List UInt8
  variableValue : Option ν
  left : Option Nat
  right : Option Nat
  parent : Option Nat
  leftdepth : UInt16
  rightdepth : UInt16

namespace CompoundElement

variable {ν : Type}

def child (e : CompoundElement ν) : Side → Option Nat
  | .left => e.left
  | .right => e.right

def depth (e : CompoundElement ν) : Side → UInt16
  | .left => e.leftdepth
  | .right => e.rightdepth

end CompoundElement

/-- The elements are allocated at the places below `allocated`. -/
structure CompoundTable (ν : Type) where
  root : Option Nat
  elements : Nat → CompoundElement ν
  allocated : Nat

namespace CompoundTable

variable {ν : Type}

def init : CompoundTable ν := ⟨none, fun _ => ⟨[], none, none, none, none, 0, 0⟩, 0⟩

def modify (t : CompoundTable ν) (i : Nat) (f : CompoundElement ν → CompoundElement ν) :
    CompoundTable ν :=
  { t with elements := Function.update t.elements i (f (t.elements i)) }

def setRoot (t : CompoundTable ν) (root : Option Nat) : CompoundTable ν :=
  { t with root := root }

def setParent (t : CompoundTable ν) (i : Nat) (parent : Option Nat) : CompoundTable ν :=
  t.modify i fun e => { e with parent := parent }

/-- `setLeft` and `setRight`. -/
def setChild (t : CompoundTable ν) (side : Side) (i : Nat) (child : Option Nat) :
    CompoundTable ν :=
  t.modify i fun e => match side with
    | .left => { e with left := child }
    | .right => { e with right := child }

def setDepth (t : CompoundTable ν) (side : Side) (i : Nat) (depth : UInt16) :
    CompoundTable ν :=
  t.modify i fun e => match side with
    | .left => { e with leftdepth := depth }
    | .right => { e with rightdepth := depth }

def setValue (t : CompoundTable ν) (i : Nat) (value : Option ν) : CompoundTable ν :=
  t.modify i fun e => { e with variableValue := value }

def newCompoundElement (t : CompoundTable ν) (name : List UInt8) : CompoundTable ν × Nat :=
  ({ t.modify t.allocated fun _ => ⟨name, none, none, none, none, 0, 0⟩ with
      allocated := t.allocated + 1 }, t.allocated)

def replaceChild (t : CompoundTable ν) (work2 : Option Nat) (temp work : Nat) :
    CompoundTable ν :=
  match work2 with
  | none => t.setRoot (some work)
  | some work2 =>
      if (t.elements work2).left = some temp then t.setChild .left work2 (some work)
      else t.setChild .right work2 (some work)

/--
The two branches mirror each other: the child on `side` moves over `temp`, to
the right if it is the left child.  The new top is returned as `*anchor`.
-/
def moveNode (t : CompoundTable ν) (temp : Nat) (toright : Bool) :
    Option (CompoundTable ν × Nat) := do
  let side := if toright then Side.left else Side.right
  let work ← (t.elements temp).child side
  let work1 := (t.elements work).child side.other
  let t := t.setChild side temp work1
  let t := t.setDepth side temp ((t.elements work).depth side.other)
  let t := match work1 with
    | some work1 => t.setParent work1 (some temp)
    | none => t
  let t := t.setChild side.other work (some temp)
  let t := t.setDepth side.other work ((t.elements work).depth side.other + 1)
  let t := t.setParent work (t.elements temp).parent
  let work2 := (t.elements temp).parent
  let t := t.setParent temp (some work)
  some (t.replaceChild work2 temp work, work)

def balanceLoop :
    Nat → CompoundTable ν → Nat → Option Nat → UInt16 → Option (CompoundTable ν)
  | 0, _, _, _, _ => none
  | _ + 1, t, _, none, _ => some t
  | fuel + 1, t, node, some parent, depth =>
      let side := if (t.elements parent).right = some node then Side.right else Side.left
      let t := t.setDepth side parent depth
      let wd := (t.elements parent).depth side.other + 1
      if depth > wd then do
        let (t, parent) ← t.moveNode parent (side = .left)
        let depth := (t.elements parent).depth side
        t.balanceLoop fuel parent (t.elements parent).parent (depth + 1)
      else if wd < depth then some t
      else t.balanceLoop fuel parent (t.elements parent).parent (depth + 1)

def balance (t : CompoundTable ν) (node : Nat) : Option (CompoundTable ν) :=
  if some node = t.root then some t
  else t.balanceLoop (t.allocated + 1) node (t.elements node).parent 1

/-- The search loop of `findEntry`: `anchor`, `previous` and `rc` as it leaves them. -/
def findLoop (t : CompoundTable ν) (tail : List UInt8) :
    Nat → Option Nat → Option Nat → Int → Option (Option Nat × Option Nat × Int)
  | 0, _, _, _ => none
  | _ + 1, none, previous, rc => some (none, previous, rc)
  | fuel + 1, some anchor, previous, _ =>
      let rc := CompoundTail.compare tail (t.elements anchor).variableName
      if rc > 0 then t.findLoop tail fuel (t.elements anchor).right (some anchor) rc
      else if rc < 0 then t.findLoop tail fuel (t.elements anchor).left (some anchor) rc
      else some (some anchor, previous, rc)

def findEntry (t : CompoundTable ν) (tail : List UInt8) (create : Bool) :
    Option (CompoundTable ν × Option Nat) := do
  match ← t.findLoop tail (t.allocated + 1) t.root t.root 0 with
  | (some anchor, _, _) => some (t, some anchor)
  | (none, previous, rc) =>
      if !create then some (t, none)
      else
        let (t, anchor) := t.newCompoundElement tail
        match previous with
        | none =>
            let t := t.setParent anchor none
            some (t.setRoot (some anchor), some anchor)
        | some previous => do
            let t := t.setParent anchor (some previous)
            let t := if rc > 0 then t.setChild .right previous (some anchor)
              else t.setChild .left previous (some anchor)
            let t ← t.balance anchor
            some (t, some anchor)

def findLeaf (t : CompoundTable ν) : Nat → Nat → Option Nat
  | 0, _ => none
  | fuel + 1, node =>
      match (t.elements node).left with
      | some left => t.findLeaf fuel left
      | none =>
          match (t.elements node).right with
          | none => some node
          | some right => t.findLeaf fuel right

/-- The inner `none` is the end of the iteration. -/
def first (t : CompoundTable ν) : Option (Option Nat) :=
  match t.root with
  | none => some none
  | some root => (t.findLeaf t.allocated root).map some

def next (t : CompoundTable ν) (node : Nat) : Option (Option Nat) :=
  match (t.elements node).parent with
  | some parent =>
      if (t.elements parent).right = some node then some (some parent)
      else
        match (t.elements parent).right with
        | some right => (t.findLeaf t.allocated right).map some
        | none => some (some parent)
  | none => some none

/-- `for (e = first(); e != OREF_NULL; e = next(e))`. -/
def iterateFrom (t : CompoundTable ν) : Nat → Option Nat → Option (List Nat)
  | 0, _ => none
  | _ + 1, none => some []
  | fuel + 1, some entry => do
      let entry' ← t.next entry
      let entries ← t.iterateFrom fuel entry'
      some (entry :: entries)

def iterate (t : CompoundTable ν) : Option (List Nat) := do
  let entry ← t.first
  t.iterateFrom (t.allocated + 1) entry

def copyFrom (old : CompoundTable ν) :
    Nat → CompoundTable ν → Option Nat → Option (CompoundTable ν)
  | 0, _, _ => none
  | _ + 1, t, none => some t
  | fuel + 1, t, some entry => do
      let (t, newEntry) ← t.findEntry (old.elements entry).variableName true
      let newEntry ← newEntry
      let t := t.setValue newEntry (old.elements entry).variableValue
      let entry ← old.next entry
      old.copyFrom fuel t entry

def copy (old : CompoundTable ν) : Option (CompoundTable ν) := do
  let entry ← old.first
  old.copyFrom (old.allocated + 1) init entry

end CompoundTable

end LeooRexx
