import Mathlib
import LeooRexx.Foundation.Tiling

/-!
# Memory segments and their dead chains

The object header with its packed size, the dead chains of the normal and the large segment
set, the allocation of an object from them, and the sweep that rebuilds them.  Addresses
are numbers, and a header is kept under the address of its object.

An operation gives no state where the code would not return or would build a dead object in a
hole that is too short for one.
-/

namespace LeooRexx

namespace MemorySegment

/-! ## Object headers -/

abbrev HEADINFO := BitVec 32

def MarkMask : HEADINFO := 0x00000003

def LiveMask : HEADINFO := 0xFFFFFFFC

def LargeObjectBit : HEADINFO := 0x00000020

def SizeMask : HEADINFO := 0xFFFFFF00

def LargeObjectSizeMask : HEADINFO := 0xFFFFFF00

def LargeObjectMinSize : ℕ := 0x01000000

def ObjectGrain : ℕ := 8

def MinimumObjectSize : ℕ := 24

def LargeAllocationUnit : ℕ := 1024

def VeryLargeAllocationUnit : ℕ := 4096

def VeryLargeObjectGrain : ℕ := 256

def LargeBlockThreshold : ℕ := 4096

def ObjectSizeFunc (header : HEADINFO) : ℕ :=
  if header &&& LargeObjectBit ≠ 0 then (header &&& LargeObjectSizeMask).toNat
  else (header >>> 8).toNat

def SmallObjectSize (s : ℕ) : HEADINFO := BitVec.ofNat 32 s <<< 8

def LargeObjectSize (s : ℕ) : HEADINFO :=
  (BitVec.ofNat 32 s &&& LargeObjectSizeMask) ||| LargeObjectBit

def packedSize (s : ℕ) : HEADINFO :=
  if s < LargeObjectMinSize then SmallObjectSize s else LargeObjectSize s

/-- The header that the constructor of `DeadObject` sets. -/
def deadHeader (objectSize : ℕ) : HEADINFO := packedSize objectSize

def SetObjectSizeFunc (header : HEADINFO) (s : ℕ) : HEADINFO :=
  (header &&& ~~~(SizeMask ||| LargeObjectBit)) ||| packedSize s

def SetObjectLive (header markWord : HEADINFO) : HEADINFO := (header &&& LiveMask) ||| markWord

def objectIsLive (header mark : HEADINFO) : Bool := header &&& MarkMask = mark

abbrev Headers := ℕ → HEADINFO

def ObjectSize (header : Headers) (o : ℕ) : ℕ := ObjectSizeFunc (header o)

def roundUp (n unit : ℕ) : ℕ := (n + unit - 1) / unit * unit

def roundObjectBoundary (n : ℕ) : ℕ := roundUp n ObjectGrain

def roundLargeObjectAllocation (n : ℕ) : ℕ :=
  if n > LargeObjectMinSize then roundUp n VeryLargeAllocationUnit
  else roundUp n LargeAllocationUnit

/-! ## Dead object pools -/

/-- The words of a dead object: two links, the header and the place of the function table. -/
def DeadObjectSize : ℕ := 16

section pools

variable (header : Headers)

def firstFit (length : ℕ) : List ℕ → Option (List ℕ × ℕ × List ℕ)
  | [] => none
  | object :: chain =>
      if length ≤ ObjectSize header object then some ([], object, chain)
      else
        match firstFit length chain with
        | none => none
        | some (before, found, tail) => some (object :: before, found, tail)

def ReorderThreshold : ℕ := 100

def reorder (length : ℕ) (before tail : List ℕ) : List ℕ :=
  let moved := tail.filter fun object => length < ObjectSize header object
  let kept := tail.filter fun object => ¬ length < ObjectSize header object
  moved.reverse ++ (before ++ kept)

/-- `findFit(length, &realLength)`: the block found, its length and the chain without it. -/
def findFit (length : ℕ) (chain : List ℕ) : Option (ℕ × ℕ × List ℕ) :=
  match firstFit header length chain with
  | none => none
  | some (before, object, tail) =>
      some (object, ObjectSize header object,
        if ReorderThreshold < before.length + 1 then reorder header length before tail
        else before ++ tail)

def bestFit (length : ℕ) : List ℕ → Option ℕ → Option ℕ
  | [], largest => largest
  | object :: chain, largest =>
      let deadLength := ObjectSize header object
      if length ≤ deadLength then
        if deadLength - length < VeryLargeObjectGrain then some object
        else if (largest.map (ObjectSize header)).getD 0 < deadLength then
          bestFit length chain (some object)
        else bestFit length chain largest
      else bestFit length chain largest

def findBestFit (length : ℕ) (chain : List ℕ) : Option (ℕ × List ℕ) :=
  match bestFit header length chain none with
  | none => none
  | some object => some (object, chain.erase object)

def addSortedBySize (chain : List ℕ) (object : ℕ) : List ℕ :=
  let smaller := fun other => decide (ObjectSize header other < ObjectSize header object)
  chain.takeWhile smaller ++ object :: chain.dropWhile smaller

end pools

/-! ## Segment sets -/

structure Segment where
  start : ℕ
  segmentSize : ℕ
  minimum : MinimumObjectSize ≤ segmentSize
  grained : segmentSize % ObjectGrain = 0
  addressable : start + segmentSize < 2 ^ 32

def Segment.endAddr (segment : Segment) : ℕ := segment.start + segment.segmentSize

def MemorySegmentOverhead : ℕ := 16

def Segment.realSize (segment : Segment) : ℕ := segment.segmentSize + MemorySegmentOverhead

def Segment.isAdjacentTo (previous segment : Segment) : Prop :=
  previous.endAddr + MemorySegmentOverhead = segment.start

instance (previous segment : Segment) : Decidable (previous.isAdjacentTo segment) :=
  inferInstanceAs (Decidable (_ = _))

def Segment.combine (previous segment : Segment) (h : previous.isAdjacentTo segment) : Segment where
  start := previous.start
  segmentSize := previous.segmentSize + segment.realSize
  minimum := Nat.le_trans previous.minimum (Nat.le_add_right _ _)
  grained := by
    have hprevious := previous.grained
    have hsegment := segment.grained
    simp only [ObjectGrain, realSize, MemorySegmentOverhead] at *
    omega
  addressable := by
    have hend := segment.addressable
    simp only [isAdjacentTo, endAddr, realSize, MemorySegmentOverhead] at *
    omega

/-- The virtual methods of a segment set: `χ` holds its dead chains. -/
class SegmentSet (χ : Type) where
  none : χ
  prepareForSweep : χ → χ
  /-- The dead object is built before it is added. -/
  addDeadObject : Headers → χ → ℕ → ℕ → χ
  completeSweepOperation : χ → χ

section sets

variable {χ : Type} [SegmentSet χ]

/-- `addDeadObject((char *)object, length)`. -/
def addDeadObject (header : Headers) (chains : χ) (object : ℕ) (length : ℕ) :
    Option (Headers × χ) :=
  if length < DeadObjectSize then none
  else
    let header := Function.update header object (deadHeader length)
    some (header, SegmentSet.addDeadObject header chains object length)

def adjustLargeObject (header : Headers) (chains : χ) (obj : ℕ) (size : ℕ) :
    Option (Headers × χ) :=
  if LargeObjectMinSize ≤ size ∧ 0 < size - ObjectSize header obj then
    addDeadObject header chains (obj + ObjectSize header obj) (size - ObjectSize header obj)
  else some (header, chains)

/-- The length of the dead blocks from `nextObjectPtr` on. -/
def deadRun (header : Headers) (mark : HEADINFO) (endPtr : ℕ) : ℕ → ℕ → Option ℕ
  | 0, _ => none
  | fuel + 1, nextObjectPtr =>
      if nextObjectPtr < endPtr ∧ objectIsLive (header nextObjectPtr) mark = false then
        let bytes := ObjectSize header nextObjectPtr
        (deadRun header mark endPtr fuel (nextObjectPtr + bytes)).map (bytes + ·)
      else some 0

/-- The loop of `sweep` over one segment. -/
def sweepSegment (mark : HEADINFO) (endPtr : ℕ) :
    ℕ → Headers → χ → ℕ → Option (Headers × χ)
  | 0, _, _, _ => none
  | fuel + 1, header, chains, objectPtr =>
      if objectPtr < endPtr then
        let bytes := ObjectSize header objectPtr
        if objectIsLive (header objectPtr) mark then
          sweepSegment mark endPtr fuel header chains (objectPtr + bytes)
        else do
          let rest ← deadRun header mark endPtr (fuel + 1) (objectPtr + bytes)
          let deadLength := bytes + rest
          let (header, chains) ← addDeadObject header chains objectPtr deadLength
          let (header, chains) ← adjustLargeObject header chains objectPtr deadLength
          sweepSegment mark endPtr fuel header chains (objectPtr + deadLength)
      else some (header, chains)

end sets

/-! ## The normal segment set -/

def LargestSubpool : ℕ := 512

def LengthToDeadPool (l : ℕ) : ℕ := l / ObjectGrain

def FirstDeadPool : ℕ := LengthToDeadPool MinimumObjectSize - 1

def DeadPools : ℕ := LengthToDeadPool LargestSubpool + 1

structure NormalChains where
  largeDead : List ℕ
  subpools : ℕ → List ℕ
  lastUsedSubpool : ℕ → ℕ

def addNormalDeadObject (chains : NormalChains) (object : ℕ) (length : ℕ) : NormalChains :=
  if LargestSubpool < length then { chains with largeDead := object :: chains.largeDead }
  else
    let deadChain := LengthToDeadPool length
    { chains with
      subpools := Function.update chains.subpools deadChain (object :: chains.subpools deadChain)
      lastUsedSubpool := Function.update chains.lastUsedSubpool deadChain deadChain }

def IsSweptPool (i : ℕ) : Prop := FirstDeadPool ≤ i ∧ i < DeadPools

instance (i : ℕ) : Decidable (IsSweptPool i) := inferInstanceAs (Decidable (_ ∧ _))

instance : SegmentSet NormalChains where
  none :=
    { largeDead := []
      subpools := fun _ => []
      lastUsedSubpool := fun _ => DeadPools }
  prepareForSweep chains :=
    { chains with
      largeDead := []
      subpools := fun i => if IsSweptPool i then [] else chains.subpools i }
  addDeadObject _ chains object length := addNormalDeadObject chains object length
  -- the search for a higher pool looks at pool `i` itself again
  completeSweepOperation chains :=
    { chains with
      lastUsedSubpool := fun i =>
        if IsSweptPool i then
          if (chains.subpools i).isEmpty = false then i
          else
            ((List.range' (i + 1) (DeadPools - (i + 1))).find? fun _ =>
              (chains.subpools i).isEmpty = false).getD DeadPools
        else chains.lastUsedSubpool i }

/-- The first pool from `currentDead` on that is redirected, where its index leads. -/
def nextSubpool (chains : NormalChains) (currentDead : ℕ) : ℕ :=
  (((List.range' currentDead (DeadPools - currentDead)).find? fun pool =>
    chains.lastUsedSubpool pool < DeadPools).map chains.lastUsedSubpool).getD DeadPools

def searchSubpools (targetPool : ℕ) : ℕ → NormalChains → ℕ → Option (NormalChains × Option ℕ)
  | 0, _, _ => none
  | fuel + 1, chains, currentDead =>
      if currentDead < DeadPools then
        match chains.subpools currentDead with
        | newObject :: rest =>
            some ({ chains with
              subpools := Function.update chains.subpools currentDead rest
              lastUsedSubpool := Function.update chains.lastUsedSubpool targetPool currentDead },
              some newObject)
        | [] =>
            let next := nextSubpool chains (currentDead + 1)
            let chains :=
              if next < DeadPools then
                { chains with
                  lastUsedSubpool := Function.update chains.lastUsedSubpool targetPool next }
              else chains
            searchSubpools targetPool fuel chains next
      else
        some ({ chains with
          lastUsedSubpool := Function.update chains.lastUsedSubpool targetPool DeadPools }, none)

def splitNormalDeadObject (header : Headers) (chains : NormalChains) (object : ℕ)
    (allocationLength deadLength : ℕ) : Headers × NormalChains :=
  let largeObject := object + allocationLength
  let header := Function.update header largeObject (deadHeader deadLength)
  (Function.update header object (SetObjectSizeFunc (header object) allocationLength),
    addNormalDeadObject chains largeObject deadLength)

def allocateLargeDead (header : Headers) (chains : NormalChains) (allocationLength : ℕ) :
    Headers × NormalChains × Option ℕ :=
  match findFit header allocationLength chains.largeDead with
  | none => (header, chains, none)
  | some (newObject, realLength, largeDead) =>
      let chains := { chains with largeDead := largeDead }
      let deadLength := realLength - allocationLength
      if deadLength < MinimumObjectSize then (header, chains, some newObject)
      else
        let (header, chains) :=
          splitNormalDeadObject header chains newObject allocationLength deadLength
        (header, chains, some newObject)

def allocateNormal (header : Headers) (chains : NormalChains) (allocationLength : ℕ) :
    Option (Headers × NormalChains × Option ℕ) :=
  let targetPool := LengthToDeadPool allocationLength
  if targetPool < DeadPools then
    match searchSubpools targetPool (DeadPools + 1) chains (chains.lastUsedSubpool targetPool) with
    | none => none
    | some (chains, some newObject) => some (header, chains, some newObject)
    | some (chains, none) => some (allocateLargeDead header chains allocationLength)
  else some (allocateLargeDead header chains allocationLength)

/-! ## The large segment set -/

structure LargeChains where
  deadCache : List ℕ

instance : SegmentSet LargeChains where
  none := ⟨[]⟩
  prepareForSweep _ := ⟨[]⟩
  addDeadObject header chains object _ := ⟨addSortedBySize header chains.deadCache object⟩
  completeSweepOperation chains := chains

def splitDeadObject (header : Headers) (chains : LargeChains) (object : ℕ)
    (allocationLength splitMinimum : ℕ) : Option (Headers × LargeChains) :=
  let deadLength := ObjectSize header object - allocationLength
  if deadLength < splitMinimum then
    some (Function.update header object
      (SetObjectSizeFunc (header object) (allocationLength + deadLength)), chains)
  else do
    let (header, chains) ← addDeadObject header chains (object + allocationLength) deadLength
    return (Function.update header object (SetObjectSizeFunc (header object) allocationLength),
      chains)

def allocateLarge (header : Headers) (chains : LargeChains) (allocationLength : ℕ) :
    Option (Headers × LargeChains × Option ℕ) :=
  match findBestFit header allocationLength chains.deadCache with
  | none => some (header, chains, none)
  | some (largeObject, deadCache) => do
      let (header, chains) ←
        splitDeadObject header ⟨deadCache⟩ largeObject allocationLength LargeAllocationUnit
      return (header, chains, some largeObject)

/-- The two segment sets that objects are allocated from, and the rounding of a request. -/
class AllocatingSet (χ : Type) extends SegmentSet χ where
  Requests : ℕ → Prop
  allocationLength : ℕ → ℕ
  allocateObject : Headers → χ → ℕ → Option (Headers × χ × Option ℕ)

instance : AllocatingSet NormalChains where
  Requests requestLength := roundObjectBoundary requestLength ≤ LargeBlockThreshold
  allocationLength requestLength := max (roundObjectBoundary requestLength) MinimumObjectSize
  allocateObject := allocateNormal

instance : AllocatingSet LargeChains where
  Requests requestLength :=
    LargeBlockThreshold < roundObjectBoundary requestLength ∧
      roundLargeObjectAllocation (roundObjectBoundary requestLength) < 2 ^ 32
  allocationLength requestLength := roundLargeObjectAllocation (roundObjectBoundary requestLength)
  allocateObject := allocateLarge

/-! ## Runs -/

structure Memory (χ : Type) where
  header : Headers
  chains : χ
  segments : List Segment
  markWord : HEADINFO

section operations

variable {χ : Type} [AllocatingSet χ]

def Memory.initial : Memory χ :=
  { header := fun _ => 0, chains := SegmentSet.none, segments := [], markWord := 1 }

def addDeadSpace (header : Headers) (chains : χ) (segment : Segment) : Option (Headers × χ) := do
  let header := Function.update header segment.start (deadHeader segment.segmentSize)
  let (header, chains) ←
    if LargeObjectMinSize < segment.segmentSize then
      adjustLargeObject header chains segment.start segment.segmentSize
    else some (header, chains)
  return (header,
    SegmentSet.addDeadObject header chains segment.start (ObjectSize header segment.start))

def addSegment (m : Memory χ) (segment : Segment) : Option (Memory χ) :=
  let behind := fun other : Segment => decide (segment.start < other.start)
  let before := m.segments.takeWhile fun other => !behind other
  let after := m.segments.dropWhile fun other => !behind other
  let inserted : Option (Memory χ) := do
    let (header, chains) ← addDeadSpace m.header m.chains segment
    return { m with header := header, chains := chains, segments := before ++ segment :: after }
  match before.getLast? with
  | none => inserted
  | some previous =>
      if h : previous.isAdjacentTo segment then do
        let (header, chains) ← addDeadObject m.header m.chains previous.endAddr segment.realSize
        return { m with
          header := header
          chains := chains
          segments := before.dropLast ++ previous.combine segment h :: after }
      else inserted

/-- `newObject` as far as the first try: the object handed out is marked live. -/
def newObject (m : Memory χ) (requestLength : ℕ) : Option (Memory χ × Option ℕ) := do
  let (header, chains, object) ←
    AllocatingSet.allocateObject m.header m.chains
      (AllocatingSet.allocationLength χ requestLength)
  match object with
  | none => return ({ m with header := header, chains := chains }, none)
  | some object =>
      let header := Function.update header object (SetObjectLive (header object) m.markWord)
      return ({ m with header := header, chains := chains }, some object)

def markPhase (m : Memory χ) (live : ℕ → Bool) : Memory χ :=
  let markWord := m.markWord ^^^ MarkMask
  { m with
    header := fun o => if live o then SetObjectLive (m.header o) markWord else m.header o
    markWord := markWord }

def sweepSegments (mark : HEADINFO) :
    List Segment → Headers → χ → Option (Headers × χ)
  | [], header, chains => some (header, chains)
  | segment :: segments, header, chains => do
      let (header, chains) ←
        sweepSegment mark segment.endAddr (segment.segmentSize + 1) header chains segment.start
      sweepSegments mark segments header chains

def sweep (m : Memory χ) : Option (Memory χ) := do
  let (header, chains) ←
    sweepSegments m.markWord m.segments m.header (SegmentSet.prepareForSweep m.chains)
  return { m with header := header, chains := SegmentSet.completeSweepOperation chains }

end operations

end MemorySegment

end LeooRexx
