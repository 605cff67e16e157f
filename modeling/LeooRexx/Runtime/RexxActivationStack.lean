import Mathlib.Data.Nat.Notation
import Mathlib.Order.Lattice

/-!
# The activation frame stack

Stack frames of activations are cut from a chain of buffers.  A frame that does not fit
opens a new buffer or takes the spare one back into use; releasing a frame pops the buffers
opened since, of which one is kept as the spare.  A buffer is named by a number, and a
pointer to a slot is the name and the slot's index.
-/

namespace LeooRexx

structure FramePointer where
  buffer : ℕ
  offset : ℕ
  deriving DecidableEq

structure RexxActivationFrameBuffer where
  name : ℕ
  size : ℕ
  next : ℕ

namespace RexxActivationFrameBuffer

def hasCapacity (b : RexxActivationFrameBuffer) (entries : ℕ) : Bool := b.size - b.next ≥ entries

def allocateFrame (b : RexxActivationFrameBuffer) (entries : ℕ) :
    FramePointer × RexxActivationFrameBuffer :=
  (⟨b.name, b.next⟩, { b with next := b.next + entries })

/-- Whether a pointer lies in the buffer or right behind its last slot; the slot there
belongs to the buffer's object, so that no other buffer begins there. -/
def contains (b : RexxActivationFrameBuffer) (frame : FramePointer) : Bool :=
  frame.buffer = b.name ∧ frame.offset ≤ b.size

def releaseFrame (b : RexxActivationFrameBuffer) (frame : FramePointer) :
    RexxActivationFrameBuffer :=
  { b with next := frame.offset }

end RexxActivationFrameBuffer

/-- The stack: the buffer in use, those before it with the latest first, the spare one and
the number of buffers made so far. -/
structure RexxActivationStack where
  current : RexxActivationFrameBuffer
  previous : List RexxActivationFrameBuffer
  unused : Option RexxActivationFrameBuffer
  made : ℕ

namespace RexxActivationStack

open RexxActivationFrameBuffer

def DefaultFrameBufferSize : ℕ := 2048

def init : RexxActivationStack :=
  { current := ⟨0, DefaultFrameBufferSize, 0⟩, previous := [], unused := none, made := 1 }

def newBuffer (s : RexxActivationStack) (entries : ℕ) : RexxActivationStack :=
  { s with
    current := ⟨s.made, entries, 0⟩
    previous := s.current :: s.previous
    made := s.made + 1 }

def expandCapacity (s : RexxActivationStack) (entries : ℕ) : RexxActivationStack :=
  let entries := max entries DefaultFrameBufferSize
  match s.unused with
  | none => newBuffer s entries
  | some unused =>
      if unused.size ≥ entries then
        { s with
          current := { unused with next := 0 }
          previous := s.current :: s.previous
          unused := none }
      else newBuffer s entries

def ensureCapacity (s : RexxActivationStack) (entries : ℕ) : RexxActivationStack :=
  if s.current.hasCapacity entries then s else expandCapacity s entries

def allocateFrame (s : RexxActivationStack) (entries : ℕ) : FramePointer × RexxActivationStack :=
  let s := ensureCapacity s entries
  let (frame, current) := s.current.allocateFrame entries
  (frame, { s with current := current })

/-- The loop that pops buffers; there is no state when the chain ends before. -/
def popBuffers (frame : FramePointer) (current : RexxActivationFrameBuffer)
    (unused : Option RexxActivationFrameBuffer) : List RexxActivationFrameBuffer →
    Option (RexxActivationFrameBuffer × List RexxActivationFrameBuffer ×
      Option RexxActivationFrameBuffer)
  | [] => if current.contains frame then some (current, [], unused) else none
  | before :: previous =>
      if current.contains frame then some (current, before :: previous, unused)
      else popBuffers frame before (unused.or (some current)) previous

def releaseFrame (s : RexxActivationStack) (frame : FramePointer) :
    Option RexxActivationStack := do
  let (current, previous, unused) ← popBuffers frame s.current s.unused s.previous
  return { s with current := current.releaseFrame frame, previous := previous, unused := unused }

end RexxActivationStack

end LeooRexx
