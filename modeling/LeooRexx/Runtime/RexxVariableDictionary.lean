import Mathlib
import LeooRexx.Foundation.WaitsFor

/-!
# Object locks

A `RexxVariableDictionary` as the lock of an object: the activity that has it and how often,
and the activities that wait for it.  An activity knows the dictionary it waits for, and
before it waits it is checked that the owner does not wait for it in turn.

Every routine is run under the kernel lock, and `waitReserve` ends where that is given up.
-/

namespace LeooRexx

structure RexxVariableDictionary (α : Type) where
  reservingActivity : Option α
  reserveCount : Nat
  waitingActivities : Option (List α)

structure ObjectLocks (α ι : Type) where
  dictionaries : ι → RexxVariableDictionary α
  waitingObject : α → Option ι
  /-- The run semaphore is posted. -/
  runsem : α → Bool

/-- How `reserve` ends; with `waits` it goes on when the run semaphore is posted. -/
inductive Reserve where
  | reserved
  | waits
  | deadlock

def ushort (n : Nat) : Nat := n % 2 ^ 16

namespace ObjectLocks

variable {α ι : Type} [DecidableEq α] [DecidableEq ι]

def setDictionary (s : ObjectLocks α ι) (this : ι) (dictionary : RexxVariableDictionary α) :
    ObjectLocks α ι :=
  { s with dictionaries := Function.update s.dictionaries this dictionary }

/-! ## Activities -/

/-- A report of a deadlock is `true`. -/
def checkDeadLock (s : ObjectLocks α ι) : Nat → α → α → Option Bool
  | 0, _, _ => none
  | fuel + 1, this, targetActivity =>
      match s.waitingObject this with
      | none => some false
      | some waitingObject =>
          match (s.dictionaries waitingObject).reservingActivity with
          | none => some false
          | some owningActivity =>
              if owningActivity = targetActivity then some true
              else s.checkDeadLock fuel owningActivity targetActivity

/-- `EVSET` clears the semaphore. -/
def waitReserve (s : ObjectLocks α ι) (this : α) (resource : ι) : ObjectLocks α ι :=
  { s with
    runsem := Function.update s.runsem this false
    waitingObject := Function.update s.waitingObject this (some resource) }

def postRelease (s : ObjectLocks α ι) (this : α) : ObjectLocks α ι :=
  { s with
    waitingObject := Function.update s.waitingObject this none
    runsem := Function.update s.runsem this true }

/-! ## Dictionaries -/

def reserve [Fintype α] (s : ObjectLocks α ι) (this : ι) (activity : α) :
    Option (Reserve × ObjectLocks α ι) :=
  let dictionary := s.dictionaries this
  match dictionary.reservingActivity with
  | none =>
      some (.reserved, s.setDictionary this
        { dictionary with reservingActivity := some activity, reserveCount := 1 })
  | some owner =>
      if owner = activity then
        some (.reserved, s.setDictionary this
          { dictionary with reserveCount := ushort (dictionary.reserveCount + 1) })
      else do
        if ← s.checkDeadLock (Fintype.card α) owner activity then some (.deadlock, s)
        else
          let waiting := dictionary.waitingActivities.getD []
          let s := s.setDictionary this
            { dictionary with waitingActivities := some (waiting ++ [activity]) }
          some (.waits, s.waitReserve activity this)

def release (s : ObjectLocks α ι) (this : ι) : Option α × ObjectLocks α ι :=
  let dictionary := s.dictionaries this
  let reserveCount := ushort (dictionary.reserveCount + (2 ^ 16 - 1))
  if reserveCount = 0 then
    match dictionary.waitingActivities with
    | some (newActivity :: waiting) =>
        (some newActivity,
          (s.setDictionary this ⟨some newActivity, 1, some waiting⟩).postRelease newActivity)
    | waiting => (none, s.setDictionary this ⟨none, 0, waiting⟩)
  else (none, s.setDictionary this { dictionary with reserveCount := reserveCount })

/-- Whether the lock went to the activity, and the activity that `release` woke. -/
def transfer (s : ObjectLocks α ι) (this : ι) (activity : α) :
    Bool × Option α × ObjectLocks α ι :=
  let dictionary := s.dictionaries this
  if dictionary.reserveCount = 1 then
    (true, none, s.setDictionary this { dictionary with reservingActivity := some activity })
  else (false, s.release this)

def init : ObjectLocks α ι := ⟨fun _ => ⟨none, 0, none⟩, fun _ => none, fun _ => false⟩

end ObjectLocks

/-! ## Runs -/

structure LockHistory (α ι : Type) where
  /-- How often an activity reserved a dictionary and did not release it again. -/
  nesting : α → ι → Nat
  clock : Nat
  /-- When an activity began to wait. -/
  since : α → Nat
  waits : α → Nat
  posts : α → Nat

namespace LockHistory

variable {α ι : Type} [DecidableEq α] [DecidableEq ι]

def init : LockHistory α ι := ⟨fun _ _ => 0, 0, fun _ => 0, fun _ => 0, fun _ => 0⟩

def addNesting (h : LockHistory α ι) (a : α) (d : ι) : LockHistory α ι :=
  { h with nesting := fun a' d' => if a' = a ∧ d' = d then h.nesting a d + 1 else h.nesting a' d' }

def dropNesting (h : LockHistory α ι) (a : α) (d : ι) : LockHistory α ι :=
  { h with nesting := fun a' d' => if a' = a ∧ d' = d then h.nesting a d - 1 else h.nesting a' d' }

@[simp]
theorem nesting_addNesting (h : LockHistory α ι) (a a' : α) (d d' : ι) :
    (h.addNesting a d).nesting a' d' =
      if a' = a ∧ d' = d then h.nesting a d + 1 else h.nesting a' d' := rfl

@[simp]
theorem nesting_dropNesting (h : LockHistory α ι) (a a' : α) (d d' : ι) :
    (h.dropNesting a d).nesting a' d' =
      if a' = a ∧ d' = d then h.nesting a d - 1 else h.nesting a' d' := rfl

def wait (h : LockHistory α ι) (a : α) : LockHistory α ι :=
  { h with
    clock := h.clock + 1
    since := Function.update h.since a h.clock
    waits := Function.update h.waits a (h.waits a + 1) }

def post (h : LockHistory α ι) (woken : Option α) (d : ι) : LockHistory α ι :=
  match woken with
  | none => h
  | some a => { h.addNesting a d with posts := Function.update h.posts a (h.posts a + 1) }

@[simp]
theorem nesting_post (h : LockHistory α ι) (a : α) (d : ι) :
    (h.post (some a) d).nesting = (h.addNesting a d).nesting := rfl

end LockHistory

structure LockRun (α ι : Type) where
  locks : ObjectLocks α ι
  history : LockHistory α ι

inductive LockOp (α ι : Type) where
  | reserve (a : α) (d : ι)
  | release (a : α) (d : ι)
  | transfer (a : α) (d : ι) (target : α)

namespace LockRun

variable {α ι : Type} [DecidableEq α] [DecidableEq ι] [Fintype α]

def init : LockRun α ι := ⟨.init, .init⟩

/--
What the callers see to: an activity that waits does nothing, and one that gives a lock away
has it.  The activity that a lock is transferred to does not wait.  Every nested reserve is one
of an activation of its own, and the check of the control stack stops them before the
count is full.
-/
def Enabled (r : LockRun α ι) : LockOp α ι → Prop
  | .reserve a d => r.locks.waitingObject a = none ∧ r.history.nesting a d + 1 < 2 ^ 16
  | .release a d => r.locks.waitingObject a = none ∧ 0 < r.history.nesting a d
  | .transfer a d target => r.locks.waitingObject a = none ∧ 0 < r.history.nesting a d ∧
      r.locks.waitingObject target = none

instance (r : LockRun α ι) : (op : LockOp α ι) → Decidable (r.Enabled op)
  | .reserve _ _ => inferInstanceAs (Decidable (_ ∧ _))
  | .release _ _ => inferInstanceAs (Decidable (_ ∧ _))
  | .transfer _ _ _ => inferInstanceAs (Decidable (_ ∧ _))

def reserve (r : LockRun α ι) (a : α) (d : ι) : Option (LockRun α ι) := do
  match ← r.locks.reserve d a with
  | (.reserved, s) => some ⟨s, r.history.addNesting a d⟩
  | (.waits, s) => some ⟨s, r.history.wait a⟩
  | (.deadlock, s) => some ⟨s, r.history⟩

def released (r : LockRun α ι) (a : α) (d : ι) (result : Option α × ObjectLocks α ι) :
    LockRun α ι :=
  ⟨result.2, (r.history.dropNesting a d).post result.1 d⟩

def release (r : LockRun α ι) (a : α) (d : ι) : LockRun α ι :=
  r.released a d (r.locks.release d)

def transfer (r : LockRun α ι) (a : α) (d : ι) (target : α) : LockRun α ι :=
  match r.locks.transfer d target with
  | (true, _, s) => ⟨s, (r.history.dropNesting a d).addNesting target d⟩
  | (false, result) => r.released a d result

def step (r : LockRun α ι) (op : LockOp α ι) : Option (LockRun α ι) :=
  if r.Enabled op then
    match op with
    | .reserve a d => r.reserve a d
    | .release a d => some (r.release a d)
    | .transfer a d target => some (r.transfer a d target)
  else none

def run (r : LockRun α ι) (ops : List (LockOp α ι)) : Option (LockRun α ι) := ops.foldlM step r

end LockRun

end LeooRexx
