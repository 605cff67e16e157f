import Mathlib.Data.List.Basic
import Mathlib.Logic.Function.Basic

/-!
# Class objects and their superclass lists

The fields of `RexxClass` that `subclass`, `mixinclass`, `inherit` and `uninherit` read and
write: the two superclass lists, the flags, the base class, the metaclass lists and the scope
tables of the class behaviour and of the instance behaviour.  The subclass lists are one
table of the activity class whose tuples are a subclass and its superclass.

A scope table is the list that `allAt(.nil)` returns, the last scope added in front.
-/

namespace LeooRexx

namespace RexxClass

abbrev ClassRef := ℕ

abbrev TheObjectClass : ClassRef := 0

abbrev TheClassClass : ClassRef := 1

/-! ## Scopes and arrays -/

abbrev Scopes := List ClassRef

def checkScope (scopes : Scopes) (scope : ClassRef) : Bool := scopes.contains scope

def addScope (scopes : Scopes) (scope : ClassRef) : Scopes := scope :: scopes

def mergeScope (scopes : Scopes) (scope : ClassRef) : Scopes :=
  if checkScope scopes scope then scopes else addScope scopes scope

def indexOf (list : List ClassRef) (target : ClassRef) : ℕ :=
  if target ∈ list then list.idxOf target + 1 else 0

def insertItem (list : List ClassRef) (newItem : ClassRef) (targetIndex : ℕ) : List ClassRef :=
  list.insertIdx (targetIndex - 1) newItem

def deleteItem (list : List ClassRef) (targetIndex : ℕ) : List ClassRef :=
  list.eraseIdx (targetIndex - 1)

/-! ## The class objects -/

structure ClassObject where
  rexxDefined : Bool
  mixin : Bool
  metaClassFlag : Bool
  primitive : Bool
  baseClass : ClassRef
  metaClass : List ClassRef
  metaClassScopes : Scopes
  classSuperClasses : List ClassRef
  instanceSuperClasses : List ClassRef
  behaviour : Scopes
  instanceBehaviour : Scopes
  deriving DecidableEq

/-- The class objects made so far, and the tuples (subclass, superclass) of the table. -/
structure World where
  count : ℕ
  classes : ClassRef → ClassObject
  subClasses : List (ClassRef × ClassRef)

def World.setClass (w : World) (c : ClassRef) (object : ClassObject) : World :=
  { w with classes := Function.update w.classes c object }

/-- `TheActivityClass->newSubClass(subClass, this)`. -/
def addSubClass (w : World) (this subClass : ClassRef) : World :=
  { w with subClasses := (subClass, this) :: w.subClasses }

def getSubClasses (w : World) (this : ClassRef) : List ClassRef :=
  (w.subClasses.filter fun tuple => tuple.2 = this).map Prod.fst

/-- `removeItem(value, index)` of the table. -/
def removeItem (w : World) (newValue targetIndex : ClassRef) : World :=
  { w with subClasses := w.subClasses.erase (newValue, targetIndex) }

def getMetaClass (w : World) (this : ClassRef) : ClassRef :=
  if (w.classes this).primitive then TheClassClass
  else (w.classes this).metaClass.headD TheClassClass

/-! ## The behaviours

The recursions follow the superclass lists and the subclass lists.  Where the fuel is used up
the code would have run out of stack. -/

section behaviours

variable (w : World)

def createInstanceBehaviour : ℕ → Scopes → ClassRef → Option Scopes
  | 0, _, _ => none
  | fuel + 1, target, this => do
      let target ← (w.classes this).instanceSuperClasses.reverse.foldlM
        (fun target superclass =>
          if checkScope target superclass then some target
          else createInstanceBehaviour fuel target superclass) target
      return if checkScope target this then target else addScope target this

/-- The scopes of a class, `owner` being the class whose behaviour is being created. -/
def scopesOf (owner : ClassRef) (target : Scopes) (c : ClassRef) : Scopes :=
  if c = owner then target else (w.classes c).behaviour

def mergeMetaClasses (owner : ClassRef) (target : Scopes) (metaClass : List ClassRef) : Scopes :=
  metaClass.reverse.foldl
    (fun target metaclass =>
      if checkScope target metaclass then target
      else (scopesOf w owner target metaclass).reverse.foldl mergeScope target) target

def createClassBehaviour (owner : ClassRef) : ℕ → Scopes → ClassRef → Option Scopes
  | 0, _, _ => none
  | fuel + 1, target, this => do
      let target ← (w.classes this).classSuperClasses.reverse.foldlM
        (fun target superclass =>
          if checkScope target superclass then some target
          else createClassBehaviour owner fuel target superclass) target
      if checkScope target this then
        return target
      let target :=
        if this = TheObjectClass then target
        else mergeMetaClasses w owner target (w.classes this).metaClass
      return if this ≠ TheClassClass ∧ checkScope target this = false then addScope target this
        else target

end behaviours

def World.depth (w : World) : ℕ := w.count + 1

def setBehaviours (w : World) (this : ClassRef) (behaviour instanceBehaviour : Scopes) : World :=
  w.setClass this
    { w.classes this with behaviour := behaviour, instanceBehaviour := instanceBehaviour }

def createBehaviours (w : World) (this : ClassRef) : Option World := do
  let w := setBehaviours w this [] []
  let instanceBehaviour ← createInstanceBehaviour w w.depth [] this
  let behaviour ← createClassBehaviour w this w.depth [] this
  return setBehaviours w this behaviour instanceBehaviour

def updateSubClasses : ℕ → World → ClassRef → Option World
  | 0, _, _ => none
  | fuel + 1, w, this => do
      let w ← createBehaviours w this
      (getSubClasses w this).foldlM (updateSubClasses fuel) w

/-! ## Making classes -/

inductive Outcome where
  | returned
  | created (new_class : ClassRef)
  | raised (error : String)
  | overflow
  deriving DecidableEq

/-- What a class of the kernel is given when the image is made.  `OBJECT` has no superclass
and no metaclass, and `CLASS` alone is a metaclass. -/
def subClassable (this : ClassRef) : ClassObject :=
  let object := this = TheObjectClass
  { rexxDefined := false
    mixin := false
    metaClassFlag := this = TheClassClass
    primitive := true
    baseClass := this
    metaClass := if object then [] else [TheClassClass]
    metaClassScopes := if object then [] else [TheClassClass, TheObjectClass]
    classSuperClasses := if object then [] else [TheObjectClass]
    instanceSuperClasses := if object then [] else [TheObjectClass]
    behaviour :=
      addScope (
        if this = TheClassClass then (if object then [] else [TheObjectClass])
        else addScope (if object then [] else [TheObjectClass]) TheClassClass) this
    instanceBehaviour :=
      addScope (if object then [TheObjectClass] else [TheObjectClass, TheObjectClass]) this }

/-- `OBJECT` and `CLASS`, from which all other classes are made. -/
def World.boot : World :=
  { count := 2
    classes := fun c => if c < 2 then subClassable c else
      { subClassable TheObjectClass with behaviour := [], instanceBehaviour := [] }
    subClasses := [(TheClassClass, TheObjectClass)] }

def World.addClass (w : World) (object : ClassObject) : World :=
  { w with count := w.count + 1, classes := Function.update w.classes w.count object }

/-- A further class of the kernel, below `OBJECT`. -/
def kernelClass (w : World) : World × Outcome :=
  (addSubClass (w.addClass (subClassable w.count)) TheObjectClass w.count, .created w.count)

/-- The class object that `NEW` of the metaclass makes as a copy of the metaclass. -/
def newRexx (w : World) (this : ClassRef) : ClassObject :=
  let copied := w.classes this
  { rexxDefined := false
    mixin := false
    metaClassFlag := false
    primitive := false
    baseClass := w.count
    metaClass := if copied.primitive then [TheClassClass] else this :: copied.metaClass
    metaClassScopes :=
      if copied.primitive then (w.classes TheClassClass).behaviour
      else addScope copied.metaClassScopes this
    classSuperClasses := [this]
    instanceSuperClasses := [TheObjectClass]
    behaviour := copied.instanceBehaviour
    instanceBehaviour := [TheObjectClass] }

def inheritMetaClass (w : World) (this : ClassRef) (new_class : ClassObject) : ClassObject :=
  if (w.classes this).metaClassFlag then
    let new_class := { new_class with metaClassFlag := true }
    if checkScope new_class.metaClassScopes this then new_class
    else { new_class with
      metaClass := this :: new_class.metaClass
      metaClassScopes := addScope new_class.metaClassScopes this }
  else new_class

/-- How the `INIT` methods that the metaclass and the class supply end: the first runs
before the class object is linked to any other, the second at the end. -/
inductive Init where
  | returns
  | raisesInNew
  | raisesAtEnd
  deriving DecidableEq

def subclass (w : World) (this : ClassRef) (id : Option String) (meta_class : Option ClassRef)
    (init : Init) : World × Outcome :=
  let meta_class := meta_class.getD (getMetaClass w this)
  if (w.classes meta_class).metaClassFlag = false then
    (w, .raised "Error_Translation_bad_metaclass")
  else if id = none then
    (w, .raised "Error_Incorrect_method_noarg")
  else if init = .raisesInNew then
    (w, .raised "INIT")
  else
    let new_class := inheritMetaClass w this (newRexx w meta_class)
    let new_class := { new_class with
      classSuperClasses := [this]
      instanceSuperClasses := [this] }
    match createBehaviours (w.addClass new_class) w.count with
    | none => (w, .overflow)
    | some w' =>
        (addSubClass w' this w.count,
          if init = .raisesAtEnd then .raised "INIT" else .created w.count)

def setMixin (w : World) (this mixin_subclass : ClassRef) : World :=
  w.setClass mixin_subclass
    { w.classes mixin_subclass with
      mixin := true
      baseClass := (w.classes this).baseClass }

def mixinclass (w : World) (this : ClassRef) (id : Option String) (meta_class : Option ClassRef)
    (init : Init) : World × Outcome :=
  match subclass w this id meta_class init with
  | (w', .created mixin_subclass) => (setMixin w' this mixin_subclass, .created mixin_subclass)
  | (w', outcome) => (w', outcome)

/-! ## Inheriting from mixin classes -/

/-- An argument of `inherit` or `uninherit`. -/
inductive Argument where
  | omitted
  | object
  | classObject (c : ClassRef)
  deriving DecidableEq

/-- The checks of `inherit`, with the mixin class and the two places found for it. -/
def checkInherit (w : World) (this : ClassRef) (mixin_class position : Argument) :
    Except String (ClassRef × ℕ × ℕ) :=
  if (w.classes this).rexxDefined then .error "NOMETHOD"
  else match mixin_class with
  | .omitted => .error "Error_Incorrect_method_noarg"
  | .object => .error "Error_Execution_mixinclass"
  | .classObject mixin_class =>
      if (w.classes mixin_class).mixin = false then
        .error "Error_Execution_mixinclass"
      else if this = mixin_class then
        .error "Error_Execution_recursive_inherit"
      else if checkScope (w.classes this).behaviour mixin_class then
        .error "Error_Execution_recursive_inherit"
      else if checkScope (w.classes mixin_class).behaviour this then
        .error "Error_Execution_recursive_inherit"
      else if checkScope (w.classes this).behaviour (w.classes mixin_class).baseClass = false then
        .error "Error_Execution_baseclass"
      else if checkScope (w.classes this).instanceBehaviour (w.classes mixin_class).baseClass =
          false then
        .error "Error_Execution_baseclass"
      else match position with
      | .omitted =>
          .ok (mixin_class, (w.classes this).classSuperClasses.length + 1,
            (w.classes this).instanceSuperClasses.length + 1)
      | .object => .error "Error_Execution_uninherit"
      | .classObject position =>
          let class_index := indexOf (w.classes this).classSuperClasses position
          let instance_index := indexOf (w.classes this).instanceSuperClasses position
          if class_index = 0 ∨ instance_index = 0 then .error "Error_Execution_uninherit"
          else .ok (mixin_class, class_index + 1, instance_index + 1)

def setSuperClasses (w : World) (this : ClassRef) (classList instanceList : List ClassRef) :
    World :=
  w.setClass this { w.classes this with
    classSuperClasses := classList
    instanceSuperClasses := instanceList }

/-- The last step of `inherit` and `uninherit`. -/
def refresh (w : World) (this : ClassRef) : World × Outcome :=
  match updateSubClasses w.depth w this with
  | none => (w, .overflow)
  | some w' => (w', .returned)

def linkMixin (w : World) (this mixin_class : ClassRef) (class_index instance_index : ℕ) :
    World :=
  addSubClass
    (setSuperClasses w this
      (insertItem (w.classes this).classSuperClasses mixin_class class_index)
      (insertItem (w.classes this).instanceSuperClasses mixin_class instance_index))
    mixin_class this

def inherit (w : World) (this : ClassRef) (mixin_class position : Argument) : World × Outcome :=
  match checkInherit w this mixin_class position with
  | .error error => (w, .raised error)
  | .ok (mixin_class, class_index, instance_index) =>
      refresh (linkMixin w this mixin_class class_index instance_index) this

def checkUninherit (w : World) (this : ClassRef) (mixin_class : Argument) :
    Except String (ClassRef × ℕ × ℕ) :=
  if (w.classes this).rexxDefined then .error "NOMETHOD"
  else match mixin_class with
  | .omitted => .error "Error_Incorrect_method_noarg"
  | .object => .error "Error_Execution_uninherit"
  | .classObject mixin_class =>
      let class_index := indexOf (w.classes this).classSuperClasses mixin_class
      let instance_index := indexOf (w.classes this).instanceSuperClasses mixin_class
      if 1 < class_index ∧ 1 < instance_index then .ok (mixin_class, class_index, instance_index)
      else .error "Error_Execution_uninherit"

/-- The tuple removed is the one that the mixin class as a subclass of the receiver would
have, with the mixin class as the value and the receiver as the index. -/
def unlinkMixin (w : World) (this mixin_class : ClassRef) (class_index instance_index : ℕ) :
    World :=
  removeItem
    (setSuperClasses w this
      (deleteItem (w.classes this).classSuperClasses class_index)
      (deleteItem (w.classes this).instanceSuperClasses instance_index))
    mixin_class this

def uninherit (w : World) (this : ClassRef) (mixin_class : Argument) : World × Outcome :=
  match checkUninherit w this mixin_class with
  | .error error => (w, .raised error)
  | .ok (mixin_class, class_index, instance_index) =>
      refresh (unlinkMixin w this mixin_class class_index instance_index) this

/-! ## Sequences of operations -/

def setRexxDefined (w : World) (this : ClassRef) : World × Outcome :=
  (w.setClass this { w.classes this with rexxDefined := true }, .returned)

inductive Operation where
  | kernelClass
  | setRexxDefined (this : ClassRef)
  | subclass (this : ClassRef) (id : Option String) (meta_class : Option ClassRef) (init : Init)
  | mixinclass (this : ClassRef) (id : Option String) (meta_class : Option ClassRef) (init : Init)
  | inherit (this : ClassRef) (mixin_class position : Argument)
  | uninherit (this : ClassRef) (mixin_class : Argument)

def Argument.Exists (w : World) : Argument → Prop
  | .classObject c => c < w.count
  | _ => True

instance (w : World) : (a : Argument) → Decidable (a.Exists w)
  | .omitted => isTrue trivial
  | .object => isTrue trivial
  | .classObject c => inferInstanceAs (Decidable (c < w.count))

def Operation.Exists (w : World) : Operation → Prop
  | .kernelClass => True
  | .setRexxDefined this => this < w.count
  | .subclass this _ meta_class _ => this < w.count ∧ ∀ c ∈ meta_class, c < w.count
  | .mixinclass this _ meta_class _ => this < w.count ∧ ∀ c ∈ meta_class, c < w.count
  | .inherit this mixin_class position =>
      this < w.count ∧ mixin_class.Exists w ∧ position.Exists w
  | .uninherit this mixin_class => this < w.count ∧ mixin_class.Exists w

def step (w : World) : Operation → World × Outcome
  | .kernelClass => kernelClass w
  | .setRexxDefined this => setRexxDefined w this
  | .subclass this id meta_class init => subclass w this id meta_class init
  | .mixinclass this id meta_class init => mixinclass w this id meta_class init
  | .inherit this mixin_class position => inherit w this mixin_class position
  | .uninherit this mixin_class => uninherit w this mixin_class

end RexxClass

end LeooRexx
