import LeooRexx.Foundation.Block

/-!
# Mutable buffers

`RexxMutableBuffer` keeps its contents in a block from `malloc`: the header of a
string, `bufferLength` bytes and the four that the header ends with.  A method
enlarges the block before it writes, each by a computation of its own.
-/

namespace LeooRexx

structure RexxMutableBuffer where
  bufferLength : Nat
  defaultSize : Nat
  /-- `data->length`. -/
  length : Nat
  /-- The bytes behind `data->stringData`. -/
  data : Block

/-- `Error_Incorrect_method_position`. -/
inductive MutableBufferError where
  | position (value : Nat)
  deriving DecidableEq

namespace RexxMutableBuffer

def defaultBufferLength : Nat := 256

/-- The bytes from `stringData` on in a block of `sizeof(RexxString) + bufferLength`. -/
def stringDataSize (bufferLength : Nat) : Nat := bufferLength + 4

def getPosition (value : Nat) : Except MutableBufferError Nat :=
  if value = 0 then .error (.position value) else .ok value

def optionalPosition (value : Option Nat) (default : Nat) : Except MutableBufferError Nat :=
  match value with
  | none => .ok default
  | some value => getPosition value

def newRexx (string : List UInt8) (size : Option Nat) : RexxMutableBuffer :=
  let bufferLength := size.getD defaultBufferLength
  let defaultSize := bufferLength
  let bufferLength := if string.length > bufferLength then string.length else bufferLength
  { bufferLength := bufferLength
    defaultSize := defaultSize
    length := string.length
    data := (Block.malloc (stringDataSize bufferLength)).write 0 string }

/-- The growth that `append`, `insert` and `overlay` share, to hold `needed` bytes. -/
def enlarge (b : RexxMutableBuffer) (needed : Nat) : RexxMutableBuffer :=
  if needed > b.bufferLength then
    let bufferLength := b.bufferLength * 2
    let bufferLength := if bufferLength < needed then needed else bufferLength
    { b with
      bufferLength := bufferLength
      data := b.data.realloc (stringDataSize bufferLength) }
  else b

def append (b : RexxMutableBuffer) (string : List UInt8) : RexxMutableBuffer :=
  let resultLength := b.length + string.length
  let b := b.enlarge resultLength
  { b with
    data := b.data.write b.length string
    length := b.length + string.length }

/-- The replacement text of `insert` and `overlay`: `count` bytes from `offset` on, the
string cut short or followed by pads. -/
def place (data : Block) (offset : Nat) (string : List UInt8) (count : Nat) (padChar : UInt8) :
    Block :=
  if count ≤ string.length then data.write offset (string.take count)
  else
    (data.write offset string).write (offset + string.length)
      (List.replicate (count - string.length) padChar)

def insert (b : RexxMutableBuffer) (string : List UInt8) (pos len : Option Nat)
    (pad : Option UInt8) : RexxMutableBuffer :=
  let start := pos.getD 0
  let insertLength := len.getD string.length
  let padChar := pad.getD 32
  let b := b.enlarge (b.length + insertLength)
  let data :=
    if start < b.length then
      b.data.write (start + insertLength) (b.data.read start (b.length - start))
    else if start > b.length then
      b.data.write b.length (List.replicate (start - b.length) padChar)
    else b.data
  { b with
    data := place data start string insertLength padChar
    length := if start > b.length then start + insertLength else b.length + insertLength }

def overlay (b : RexxMutableBuffer) (string : List UInt8) (pos len : Option Nat)
    (pad : Option UInt8) : Except MutableBufferError RexxMutableBuffer := do
  let position ← optionalPosition pos 1
  let start := position - 1
  let replaceLength := len.getD string.length
  let padChar := pad.getD 32
  let b := b.enlarge (start + replaceLength)
  let data :=
    if start > b.length then
      b.data.write b.length (List.replicate (start - b.length) padChar)
    else b.data
  return { b with
    data := place data start string replaceLength padChar
    length :=
      if start > b.length then start + replaceLength
      else if start + replaceLength > b.length then start + replaceLength
      else b.length }

def mydelete (b : RexxMutableBuffer) (start : Nat) (len : Option Nat) :
    Except MutableBufferError RexxMutableBuffer := do
  let position ← getPosition start
  let start := position - 1
  let range := len.getD (b.length - start)
  if start < b.length then
    if start + range < b.length then
      return { b with
        data := b.data.write start
          (b.data.read (start + range) (b.length - (start + range)))
        length := b.length - range }
    else return { b with length := start }
  else return b

def setBufferSize (b : RexxMutableBuffer) (newsize : Nat) : RexxMutableBuffer :=
  if newsize = 0 then
    { b with
      bufferLength := b.defaultSize
      data := { Block.malloc (stringDataSize b.defaultSize) with inside := b.data.inside }
      length := 0 }
  else if newsize ≠ b.bufferLength then
    { b with
      data := b.data.realloc (stringDataSize newsize)
      length := if newsize < b.length then newsize else b.length
      bufferLength := newsize }
  else b

/-! ## Runs -/

inductive Op where
  | append (string : List UInt8)
  | insert (string : List UInt8) (pos len : Option Nat) (pad : Option UInt8)
  | overlay (string : List UInt8) (pos len : Option Nat) (pad : Option UInt8)
  | delete (start : Nat) (len : Option Nat)
  | setBufferSize (newsize : Nat)

def step (b : RexxMutableBuffer) : Op → RexxMutableBuffer
  | .append string => b.append string
  | .insert string pos len pad => b.insert string pos len pad
  | .overlay string pos len pad => (b.overlay string pos len pad).toOption.getD b
  | .delete start len => (b.mydelete start len).toOption.getD b
  | .setBufferSize newsize => b.setBufferSize newsize

def states (b : RexxMutableBuffer) : List Op → List RexxMutableBuffer
  | [] => [b]
  | op :: ops => b :: (b.step op).states ops

end RexxMutableBuffer

end LeooRexx
