import LeooRexx.Classes.RexxInteger
import LeooRexx.Foundation.Block

/-!
# Compound variable tails

`RexxCompoundTail` joins the values of the pieces of a tail with dots.  It writes them
into a buffer of its own and from there into an allocated one when they get too long.
The second time that happens `RexxBuffer::expand` makes a larger buffer, but its result
is dropped: the old one stays in use, as if it had grown.
-/

namespace LeooRexx

/-- The value of a tail piece; `object` stands for any other with that string value. -/
inductive TailPiece where
  | string (value : List UInt8)
  | integer (value : RexxInteger)
  | object (value : List UInt8)

def TailPiece.value : TailPiece → List UInt8
  | .string value => value
  | .integer i => i.stringValue
  | .object value => value

def RexxBuffer.expand (b : Block) (length : Nat) : Block :=
  let newLength := if length > b.size then b.size + length else b.size * 2
  (Block.malloc newLength).write 0 (b.read 0 b.size)

structure RexxCompoundTail where
  length : Nat
  remainder : Nat
  /-- `current - tail`. -/
  current : Nat
  /-- What `tail` points to: `buffer`, or `temp` when there is one. -/
  store : Block
  /-- `temp != OREF_NULL`. -/
  allocated : Bool
  /-- The string that `tail` points to instead. -/
  direct : Option (List UInt8)
  /-- Each integer was formatted within the buffer for it. -/
  formatted : Bool

namespace RexxCompoundTail

open NumberString (ltoa)

def maxSymbolLength : Nat := 250

def allocationPad : Nat := 100

def init : RexxCompoundTail :=
  { length := 0
    remainder := maxSymbolLength
    current := 0
    store := Block.malloc maxSymbolLength
    allocated := false
    direct := none
    formatted := true }

def expandCapacity (t : RexxCompoundTail) (needed : Nat) : RexxCompoundTail :=
  let t := { t with length := t.current }
  if t.allocated then
    -- `temp` is not set to the buffer that this returns
    let _ := RexxBuffer.expand t.store (needed + allocationPad)
    { t with
      current := t.length
      remainder := t.remainder + (needed + allocationPad) }
  else
    let newLength := t.length + needed + allocationPad
    let temp := t.store.renew newLength
    { t with
      store := temp.write 0 (t.store.read 0 t.length)
      allocated := true
      current := t.length
      remainder := newLength - t.length }

def ensureCapacity (t : RexxCompoundTail) (needed : Nat) : RexxCompoundTail :=
  if t.remainder < needed then t.expandCapacity needed else t

def append (t : RexxCompoundTail) (newData : List UInt8) : RexxCompoundTail :=
  let t := t.ensureCapacity newData.length
  { t with
    store := t.store.write t.current newData
    current := t.current + newData.length
    remainder := t.remainder - newData.length }

/-- `'.'`. -/
def chDot : UInt8 := 46

def addDot (t : RexxCompoundTail) : RexxCompoundTail := t.append [chDot]

/-- `stringBuffer` with the number and the NUL behind it. -/
def stringBuffer (value : Int) : Block := (Block.malloc 11).write 0 (ltoa value ++ [0])

/-- The `copyIntoTail` of each class. -/
def copyIntoTail (t : RexxCompoundTail) : TailPiece → RexxCompoundTail
  | .string value => t.append value
  | .integer i =>
      match i.stringrep with
      | some stringrep => t.append stringrep
      | none =>
          { t with formatted := t.formatted && (stringBuffer i.value).inside }.append
            (ltoa i.value)
  | .object value => t.append value

/-- The end of each `buildTail`. -/
def finish (t : RexxCompoundTail) : RexxCompoundTail := { t with length := t.current }

/-- The loops of the `buildTail` methods behind the first piece. -/
def copyRest (t : RexxCompoundTail) : List TailPiece → RexxCompoundTail
  | [] => t
  | piece :: pieces => (t.addDot.copyIntoTail piece).copyRest pieces

/-- `buildTail` of variables that have these values. -/
def buildTail : List TailPiece → RexxCompoundTail
  | [] => init.finish
  | [piece] =>
      let direct := match piece with
        | .integer i => i.stringrep
        | .string value => some value
        | .object _ => none
      match direct with
      | some value =>
          { init with direct := some value, length := value.length, remainder := 0 }
      | none => (init.copyIntoTail piece).finish
  | piece :: pieces => ((init.copyIntoTail piece).copyRest pieces).finish

/-- `buildTail` of arguments, some of which may be omitted. -/
def buildTailArguments : List (Option TailPiece) → RexxCompoundTail
  | [] => init.finish
  | part :: parts =>
      ((init.copyIntoTail (part.getD (.string []))).copyRest
        (parts.map fun part => part.getD (.string []))).finish

/-- The tail that is built: `length` bytes from `tail` on. -/
def string (t : RexxCompoundTail) : List UInt8 :=
  match t.direct with
  | some value => value.take t.length
  | none => t.store.read 0 t.length

structure Built (t : RexxCompoundTail) (value : List UInt8) : Prop where
  inside : t.store.inside = true
  formatted : t.formatted = true
  length_eq : t.length = value.length
  string_eq : t.string = value

end RexxCompoundTail

end LeooRexx
