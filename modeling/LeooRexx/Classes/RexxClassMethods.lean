import LeooRexx.Classes.RexxClassRuns

/-!
# The methods of classes and of their instances

An object keeps the behaviour object that its class had when it was made.  A class copies its
behaviour before a method is defined or deleted; the behaviours of the classes below it, and
with `inherit` and `uninherit` its own one as well, are filled anew in place.
-/

namespace LeooRexx

namespace RexxClass

abbrev MethodTable (ν μ : Type) := ν → Option (Option (ClassRef × μ))

/-- The class objects, the dictionaries of their own methods, the behaviour objects with their
dictionaries, and the objects by their behaviours. -/
structure ClassMemory (ν μ : Type) where
  world : World
  instanceMethodDictionary : ClassRef → MethodTable ν μ
  instanceBehaviour : ClassRef → ℕ
  behaviours : ℕ
  methodDictionary : ℕ → MethodTable ν μ
  objects : List ℕ

variable {ν μ : Type}

/-- After the merge the methods of the source are found before those of the target. -/
def methodDictionaryMerge (source target : MethodTable ν μ) : MethodTable ν μ :=
  fun name => (source name).or (target name)

def createInstanceMethods (w : World) (dictionaries : ClassRef → MethodTable ν μ) :
    ℕ → MethodTable ν μ × Scopes → ClassRef → Option (MethodTable ν μ × Scopes)
  | 0, _, _ => none
  | fuel + 1, target, this =>
      ((w.classes this).instanceSuperClasses.reverse.foldlM
        (fun target superclass =>
          if checkScope target.2 superclass then some target
          else createInstanceMethods w dictionaries fuel target superclass) target).map
        fun target =>
          if checkScope target.2 this then target
          else (methodDictionaryMerge (dictionaries this) target.1, addScope target.2 this)

namespace ClassMemory

def instanceMethods (s : ClassMemory ν μ) (this : ClassRef) : Option (MethodTable ν μ) :=
  (createInstanceMethods s.world s.instanceMethodDictionary s.world.depth
    (fun _ => none, []) this).map Prod.fst

def fill (s : ClassMemory ν μ) (this : ClassRef) : Option (ClassMemory ν μ) :=
  (s.instanceMethods this).map fun dictionary =>
    { s with methodDictionary :=
        Function.update s.methodDictionary (s.instanceBehaviour this) dictionary }

/-- `updateInstanceSubClasses`, and what `updateSubClasses` does to the instance behaviours. -/
def updateInstanceSubClasses : ℕ → ClassMemory ν μ → ClassRef → Option (ClassMemory ν μ)
  | 0, _, _ => none
  | fuel + 1, s, this =>
      (s.fill this).bind fun s =>
        (getSubClasses s.world this).foldlM (updateInstanceSubClasses fuel) s

def copyBehaviour (s : ClassMemory ν μ) (this : ClassRef) : ClassMemory ν μ :=
  { s with
    instanceBehaviour := Function.update s.instanceBehaviour this s.behaviours
    behaviours := s.behaviours + 1
    methodDictionary := Function.update s.methodDictionary s.behaviours
      (s.methodDictionary (s.instanceBehaviour this)) }

section Methods

variable [DecidableEq ν]

def setMethod (s : ClassMemory ν μ) (this : ClassRef) (method_name : ν)
    (entry : Option (Option (ClassRef × μ))) : ClassMemory ν μ :=
  { s with
    instanceMethodDictionary := Function.update s.instanceMethodDictionary this
      (Function.update (s.instanceMethodDictionary this) method_name entry) }

/-- Without a method object `.nil` is defined, which hides the methods of the name. -/
def defineMethod (s : ClassMemory ν μ) (this : ClassRef) (method_name : ν)
    (method_object : Option μ) : Option (ClassMemory ν μ) :=
  if (s.world.classes this).rexxDefined then some s
  else
    updateInstanceSubClasses s.world.depth
      ((s.copyBehaviour this).setMethod this method_name
        (some (method_object.map fun method => (this, method)))) this

def deleteMethod (s : ClassMemory ν μ) (this : ClassRef) (method_name : ν) :
    Option (ClassMemory ν μ) :=
  if (s.world.classes this).rexxDefined then some s
  else if (s.instanceMethodDictionary this method_name).isNone then some (s.copyBehaviour this)
  else
    updateInstanceSubClasses s.world.depth
      ((s.copyBehaviour this).setMethod this method_name none) this

end Methods

def makeClass (s : ClassMemory ν μ) (made : World × Outcome) : Option (ClassMemory ν μ) :=
  if made.2 = .overflow then none
  else if made.1.count = s.world.count then some { s with world := made.1 }
  else
    fill
      { s with
        world := made.1
        instanceMethodDictionary :=
          Function.update s.instanceMethodDictionary s.world.count fun _ => none
        instanceBehaviour := Function.update s.instanceBehaviour s.world.count s.behaviours
        behaviours := s.behaviours + 1 }
      s.world.count

def relink (s : ClassMemory ν μ) (changed : World × Outcome) (this : ClassRef) :
    Option (ClassMemory ν μ) :=
  match changed.2 with
  | .returned => updateInstanceSubClasses changed.1.depth { s with world := changed.1 } this
  | .overflow => none
  | _ => some { s with world := changed.1 }

/-- `newObject` gives the object the behaviour object of the class. -/
def newObject (s : ClassMemory ν μ) (this : ClassRef) : ClassMemory ν μ :=
  { s with objects := s.objects ++ [s.instanceBehaviour this] }

/-- `methodLookup`, for which a missing method is `.nil` as well. -/
def methodLookup (s : ClassMemory ν μ) (object : ℕ) (messageName : ν) :
    Option (ClassRef × μ) :=
  (s.objects[object]?.bind fun behaviour => s.methodDictionary behaviour messageName).join

end ClassMemory

inductive ClassOperation (ν μ : Type) where
  | newObject (this : ClassRef)
  | defineMethod (this : ClassRef) (method_name : ν) (method_object : Option μ)
  | deleteMethod (this : ClassRef) (method_name : ν)
  | subclass (this : ClassRef) (id : Option String) (meta_class : Option ClassRef) (init : Init)
  | mixinclass (this : ClassRef) (id : Option String) (meta_class : Option ClassRef) (init : Init)
  | inherit (this : ClassRef) (mixin_class position : Argument)
  | uninherit (this : ClassRef) (mixin_class : Argument)

namespace ClassMemory

def Knows (s : ClassMemory ν μ) : ClassOperation ν μ → Prop
  | .newObject this => this < s.world.count
  | .defineMethod this _ _ => this < s.world.count
  | .deleteMethod this _ => this < s.world.count
  | .subclass this _ _ _ => this < s.world.count
  | .mixinclass this _ _ _ => this < s.world.count
  | .inherit this mixin_class _ => this < s.world.count ∧ mixin_class.Exists s.world
  | .uninherit this _ => this < s.world.count

def perform [DecidableEq ν] (s : ClassMemory ν μ) :
    ClassOperation ν μ → Option (ClassMemory ν μ)
  | .newObject this => some (s.newObject this)
  | .defineMethod this method_name method_object => s.defineMethod this method_name method_object
  | .deleteMethod this method_name => s.deleteMethod this method_name
  | .subclass this id meta_class init => s.makeClass (subclass s.world this id meta_class init)
  | .mixinclass this id meta_class init =>
      s.makeClass (mixinclass s.world this id meta_class init)
  | .inherit this mixin_class position =>
      s.relink (inherit s.world this mixin_class position) this
  | .uninherit this mixin_class => s.relink (uninherit s.world this mixin_class) this

end ClassMemory

end RexxClass

end LeooRexx
