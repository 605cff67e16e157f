import LeooRexx.Classes.RexxArrayRuns
import Mathlib.Data.Fintype.Pi

/-!
# Arrays and their expansion

An array that is extended keeps its items in another array, and the size of its own slots is
zero from then on.  `empty` clears as many slots of the other array as the array itself has,
and `insert` counts the slots to move as bytes and the place to move them to in slots.
-/

namespace LeooRexx

abbrev Reference := Fin 4 → UInt8

def nullReference : Reference := fun _ => 0

abbrev ObjectRef := {r : Reference // r ≠ nullReference}

def slotBytes : Option ObjectRef → Reference
  | none => nullReference
  | some item => item.val

def slotOf (r : Reference) : Option ObjectRef :=
  if h : r = nullReference then none else some ⟨r, h⟩

theorem slotOf_slotBytes (slot : Option ObjectRef) : slotOf (slotBytes slot) = slot := by
  cases slot with
  | none => simp [slotOf, slotBytes]
  | some item => simp [slotOf, slotBytes, item.property]

/-- `memmove` of bytes, between addresses that are given in slots. -/
def memmove (slots : Nat → Option ObjectRef) (target source bytes : Nat) :
    Nat → Option ObjectRef :=
  fun i => slotOf fun b =>
    let address := 4 * i + b.val
    if 4 * target ≤ address ∧ address < 4 * target + bytes then
      let address := 4 * source + (address - 4 * target)
      slotBytes (slots (address / 4)) ⟨address % 4, Nat.mod_lt _ (by decide)⟩
    else slotBytes (slots i) b

theorem memmove_nothing (slots : Nat → Option ObjectRef) (target source : Nat) :
    memmove slots target source 0 = slots := by
  funext i
  have hnone : ∀ b : Fin 4, ¬ (4 * target ≤ 4 * i + b.val ∧ 4 * i + b.val < 4 * target + 0) := by
    omega
  simp only [memmove, if_neg (hnone _)]
  exact slotOf_slotBytes (slots i)

structure ExpandedArray where
  oldSpace : Bool
  dimensions : Option (List Nat)
  arraySize : Nat
  maximumSize : Nat
  objects : Nat → Option ObjectRef
  expansionArray : Option (Nat × (Nat → Option ObjectRef))

namespace ExpandedArray

def size (s : ExpandedArray) : Nat := (s.expansionArray.map Prod.fst).getD s.arraySize

def data (s : ExpandedArray) : Nat → Option ObjectRef :=
  (s.expansionArray.map Prod.snd).getD s.objects

def setData (s : ExpandedArray) (slots : Nat → Option ObjectRef) : ExpandedArray :=
  match s.expansionArray with
  | none => { s with objects := slots }
  | some (size, _) => { s with expansionArray := some (size, slots) }

def setSize (s : ExpandedArray) (size : Nat) : ExpandedArray :=
  match s.expansionArray with
  | none => { s with arraySize := size }
  | some (_, slots) => { s with expansionArray := some (size, slots) }

def flat (s : ExpandedArray) : RexxArray ObjectRef :=
  ⟨s.dimensions, s.size, s.maximumSize, s.data⟩

def ofFlat (oldSpace : Bool) (a : RexxArray ObjectRef) : ExpandedArray :=
  ⟨oldSpace, a.dimensions, a.arraySize, a.maximumSize, a.objects, none⟩

/-! ## Operations -/

def get (s : ExpandedArray) (pos : Nat) : Option ObjectRef := s.data (pos - 1)

def put (s : ExpandedArray) (eref : Option ObjectRef) (pos : Nat) : ExpandedArray :=
  s.setData (Function.update s.data (pos - 1) eref)

def clearSlots (slots : Nat → Option ObjectRef) (count : Nat) : Nat → Option ObjectRef :=
  fun i => if i < count then none else slots i

def empty (s : ExpandedArray) : ExpandedArray :=
  if s.oldSpace then { s with objects := clearSlots s.objects s.arraySize }
  else s.setData (clearSlots s.data s.arraySize)

def numItems (s : ExpandedArray) : Nat :=
  (List.range s.size).countP fun i => (s.data i).isSome

def resize (s : ExpandedArray) : ExpandedArray :=
  match s.expansionArray with
  | none =>
      { s with
        arraySize := 0
        objects := if s.oldSpace then clearSlots s.objects s.arraySize else s.objects }
  | some _ => s

def clearFrom : Nat → Nat → ExpandedArray → ExpandedArray
  | 0, _, s => s
  | count + 1, i, s => clearFrom count (i + 1) (s.put none i)

def shrink (s : ExpandedArray) (amount : Nat) : ExpandedArray :=
  let newSize := s.size - amount
  (clearFrom (s.size - newSize) (newSize + 1) s).setSize newSize

def expandTo (s : ExpandedArray) (newArray : RexxArray ObjectRef) : ExpandedArray :=
  { s.resize with
    maximumSize := newArray.maximumSize
    expansionArray := some (newArray.arraySize, newArray.objects) }

def extend (s : ExpandedArray) (extension : Nat) : ExpandedArray :=
  if s.size + extension ≤ s.maximumSize then s.setSize (s.size + extension)
  else
    let newSize := s.size + extension
    let extendSize :=
      if newSize < arrayExtendExtraLargeSize then arrayExtendExtraSize else s.size / 2
    let newArray : RexxArray ObjectRef := .newArray none (newSize + extendSize)
    s.expandTo
      { newArray with
        arraySize := newSize
        objects := RexxArray.memcpy newArray.objects s.data 0 0 s.size }

def extendMulti (s : ExpandedArray) (index : List Subscript) : ExpandedArray :=
  match s.flat.extendMulti index with
  | .error _ => s
  | .ok newArray => { s.expandTo newArray with dimensions := newArray.dimensions }

/-- The loop of `deleteItem`. -/
def moveDown : Nat → Nat → ExpandedArray → ExpandedArray
  | 0, _, s => s
  | count + 1, i, s => moveDown count (i + 1) (s.put (s.get (i + 1)) i)

def deleteItem (s : ExpandedArray) (targetIndex : Nat) : ExpandedArray :=
  (moveDown (s.size - targetIndex) targetIndex s).shrink 1

/-- The loop of `insertItem`. -/
def moveUp (targetIndex : Nat) : Nat → ExpandedArray → ExpandedArray
  | 0, s => s
  | i + 1, s =>
      if targetIndex < i + 1 then moveUp targetIndex i (s.put (s.get i) (i + 1)) else s

def insertItem (s : ExpandedArray) (newItem : ObjectRef) (targetIndex : Nat) : ExpandedArray :=
  let s := s.extend 1
  (moveUp targetIndex s.size s).put (some newItem) targetIndex

def insert (s : ExpandedArray) (value : ObjectRef) (index : Nat) : ExpandedArray :=
  let start := index - 1
  let last := s.size - 1
  -- `start + sizeof(OREF)` is four slots on, and `end - start` is a number of slots
  let s := s.setData (memmove s.data (start + 4) start (last - start))
  let s := s.setData (Function.update s.data start none)
  s.put (some value) index

/-! ## The items -/

variable {s : ExpandedArray}

@[simp] theorem size_setData (s : ExpandedArray) (slots : Nat → Option ObjectRef) :
    (s.setData slots).size = s.size := by
  rw [setData]
  split <;> simp [size, *]

@[simp] theorem data_setData (s : ExpandedArray) (slots : Nat → Option ObjectRef) :
    (s.setData slots).data = slots := by
  rw [setData]
  split <;> simp [data, *]

@[simp] theorem size_setSize (s : ExpandedArray) (n : Nat) : (s.setSize n).size = n := by
  rw [setSize]
  split <;> simp [size, *]

@[simp] theorem data_setSize (s : ExpandedArray) (n : Nat) : (s.setSize n).data = s.data := by
  rw [setSize]
  split <;> simp [data, *]

@[simp] theorem size_put (s : ExpandedArray) (eref : Option ObjectRef) (pos : Nat) :
    (s.put eref pos).size = s.size :=
  size_setData _ _

@[simp] theorem data_put (s : ExpandedArray) (eref : Option ObjectRef) (pos : Nat) :
    (s.put eref pos).data = Function.update s.data (pos - 1) eref :=
  data_setData _ _

structure SameFrame (s s' : ExpandedArray) : Prop where
  dimensions : s'.dimensions = s.dimensions
  maximumSize : s'.maximumSize = s.maximumSize
  expanded : s'.expansionArray.isSome = s.expansionArray.isSome
  own : s.expansionArray.isSome → s'.arraySize = s.arraySize

theorem SameFrame.refl (s : ExpandedArray) : SameFrame s s := ⟨rfl, rfl, rfl, fun _ => rfl⟩

theorem SameFrame.trans {s' s'' : ExpandedArray} (h : SameFrame s s') (h' : SameFrame s' s'') :
    SameFrame s s'' :=
  ⟨h'.dimensions.trans h.dimensions, h'.maximumSize.trans h.maximumSize,
    h'.expanded.trans h.expanded, fun hs => (h'.own (h.expanded ▸ hs)).trans (h.own hs)⟩

theorem sameFrame_setData (s : ExpandedArray) (slots : Nat → Option ObjectRef) :
    SameFrame s (s.setData slots) := by
  rw [setData]
  split
  next h => exact ⟨rfl, rfl, rfl, fun _ => rfl⟩
  next h => exact ⟨rfl, rfl, by simp [h], fun _ => rfl⟩

theorem sameFrame_setSize (s : ExpandedArray) (n : Nat) : SameFrame s (s.setSize n) := by
  rw [setSize]
  split
  next h => exact ⟨rfl, rfl, rfl, fun hs => by simp [h] at hs⟩
  next h => exact ⟨rfl, rfl, by simp [h], fun _ => rfl⟩

theorem sameFrame_put (s : ExpandedArray) (eref : Option ObjectRef) (pos : Nat) :
    SameFrame s (s.put eref pos) :=
  sameFrame_setData _ _

/-! ## The loops -/

theorem clearFrom_spec {i : Nat} (hi : 0 < i) (count : Nat) (s : ExpandedArray) :
    (clearFrom count i s).size = s.size ∧ SameFrame s (clearFrom count i s) ∧
      ∀ j, (clearFrom count i s).data j =
        if i - 1 ≤ j ∧ j < i - 1 + count then none else s.data j := by
  induction count generalizing i s with
  | zero => exact ⟨rfl, SameFrame.refl s, fun j => by simp [clearFrom]⟩
  | succ count ih =>
      obtain ⟨hsize, hframe, hdata⟩ := ih (Nat.succ_pos i) (s.put none i)
      refine ⟨hsize.trans (size_put _ _ _), (sameFrame_put _ _ _).trans hframe, fun j => ?_⟩
      rw [clearFrom, hdata, data_put, Function.update_apply]
      split_ifs <;> first | rfl | omega

theorem moveDown_spec {i : Nat} (hi : 0 < i) (count : Nat) (s : ExpandedArray) :
    (moveDown count i s).size = s.size ∧ SameFrame s (moveDown count i s) ∧
      ∀ j, (moveDown count i s).data j =
        if i - 1 ≤ j ∧ j < i - 1 + count then s.data (j + 1) else s.data j := by
  induction count generalizing i s with
  | zero => exact ⟨rfl, SameFrame.refl s, fun j => by simp [moveDown]⟩
  | succ count ih =>
      obtain ⟨hsize, hframe, hdata⟩ := ih (Nat.succ_pos i) (s.put (s.get (i + 1)) i)
      refine ⟨hsize.trans (size_put _ _ _), (sameFrame_put _ _ _).trans hframe, fun j => ?_⟩
      rw [moveDown, hdata, data_put, Function.update_apply, Function.update_apply, get]
      split_ifs <;> first | rfl | omega | exact congrArg s.data (by omega)

theorem moveUp_spec {targetIndex : Nat} (ht : 0 < targetIndex) (i : Nat) (s : ExpandedArray) :
    (moveUp targetIndex i s).size = s.size ∧ SameFrame s (moveUp targetIndex i s) ∧
      ∀ j, (moveUp targetIndex i s).data j =
        if targetIndex ≤ j ∧ j < i then s.data (j - 1) else s.data j := by
  induction i generalizing s with
  | zero => exact ⟨rfl, SameFrame.refl s, fun j => by simp [moveUp]⟩
  | succ i ih =>
      rw [moveUp]
      split
      next hlt =>
        obtain ⟨hsize, hframe, hdata⟩ := ih (s.put (s.get i) (i + 1))
        refine ⟨hsize.trans (size_put _ _ _), (sameFrame_put _ _ _).trans hframe, fun j => ?_⟩
        rw [hdata, data_put, Function.update_apply, Function.update_apply, get]
        split_ifs <;> first | rfl | omega | exact congrArg s.data (by omega)
      next hge =>
        refine ⟨rfl, SameFrame.refl s, fun j => (if_neg ?_).symm⟩
        omega

/-! ## Sound arrays -/

structure Sound (s : ExpandedArray) : Prop where
  valid : s.flat.Valid
  own : s.expansionArray.isSome → s.arraySize = 0

theorem Sound.outside (h : Sound s) {i : Nat} (hi : s.size ≤ i) : s.data i = none :=
  h.valid.outside i hi

theorem Sound.change {s' : ExpandedArray} (h : Sound s) (hframe : SameFrame s s')
    (hsize : s'.size = s.size) (houtside : ∀ i, s.size ≤ i → s'.data i = none) : Sound s' := by
  have hflat : s'.flat = { s.flat with objects := s'.data } := by
    simp [flat, hframe.dimensions, hframe.maximumSize, hsize]
  refine ⟨?_, fun hs => ?_⟩
  · rw [hflat]
    exact ⟨h.valid.le_maximum, h.valid.lt_max, houtside, h.valid.shape⟩
  · rw [hframe.expanded] at hs
    exact (hframe.own hs).trans (h.own hs)

theorem Sound.put (h : Sound s) {pos : Nat} (hpos : 0 < pos) (hle : pos ≤ s.size)
    (eref : Option ObjectRef) : Sound (s.put eref pos) := by
  refine h.change (sameFrame_put _ _ _) (size_put _ _ _) fun i hi => ?_
  rw [data_put, Function.update_of_ne (by omega)]
  exact h.outside hi

theorem flat_extend (s : ExpandedArray) (n : Nat) : (s.extend n).flat = s.flat.extend n := by
  rw [extend, RexxArray.extend]
  by_cases hroom : s.size + n ≤ s.maximumSize
  · have hframe := sameFrame_setSize s (s.size + n)
    rw [if_pos hroom, if_pos (show s.flat.arraySize + n ≤ s.flat.maximumSize from hroom)]
    simp only [flat, size_setSize, data_setSize, hframe.dimensions, hframe.maximumSize]
  · rw [if_neg hroom, if_neg (show ¬ s.flat.arraySize + n ≤ s.flat.maximumSize from hroom)]
    have hdims : s.resize.dimensions = s.dimensions := by
      rw [resize]
      split <;> rfl
    simp only [expandTo, flat, size, data, hdims, Option.map_some, Option.getD_some]
    rfl

theorem own_expandTo (hown : s.expansionArray.isSome → s.arraySize = 0)
    (newArray : RexxArray ObjectRef) : (s.expandTo newArray).arraySize = 0 := by
  simp only [expandTo, resize]
  split
  · rfl
  next hexpanded => exact hown (by simp [hexpanded])

theorem Sound.extend (h : Sound s) (hone : s.flat.OneDim) {n : Nat}
    (hlt : s.size + n < maxFixedArraySize) : Sound (s.extend n) := by
  refine ⟨?_, ?_⟩
  · rw [flat_extend]
    exact (RexxArray.extend_kept h.valid hone hlt).valid
  · rw [ExpandedArray.extend]
    split
    · have hframe := sameFrame_setSize s (s.size + n)
      intro hs
      rw [hframe.expanded] at hs
      exact (hframe.own hs).trans (h.own hs)
    · exact fun _ => own_expandTo h.own _

theorem size_extend (s : ExpandedArray) (n : Nat) : (s.extend n).size = s.size + n := by
  have hflat := congrArg RexxArray.arraySize (flat_extend s n)
  rwa [RexxArray.extend_arraySize] at hflat

theorem Sound.data_extend (h : Sound s) (n i : Nat) : (s.extend n).data i = s.data i := by
  have hflat := congrArg RexxArray.objects (flat_extend s n)
  exact (congrFun hflat i).trans (RexxArray.extend_objects h.valid n i)

theorem Sound.extendMulti (h : Sound s) {index : List Subscript}
    (hshape : (s.dimensions = none ∧ s.size = 0 ∧ 2 ≤ index.length) ∨
      ∃ dims, s.flat.Multi dims ∧ index.length = dims.length) :
    Sound (s.extendMulti index) ∧ RexxArray.Kept s.flat (s.extendMulti index).flat := by
  rw [ExpandedArray.extendMulti]
  cases hgrown : s.flat.extendMulti index with
  | error e => exact ⟨h, h.valid.kept⟩
  | ok newArray =>
      have hkept : RexxArray.Kept s.flat newArray := by
        rcases hshape with ⟨hnone, hempty, hlength⟩ | ⟨dims, hm, hlength⟩
        · exact (RexxArray.extendMulti_first h.valid hnone hempty hlength hgrown).2.2
        · exact (RexxArray.extendMulti_multi h.valid hm hlength hgrown).2.2.2
      exact ⟨⟨hkept.valid, fun _ => own_expandTo h.own newArray⟩, hkept⟩

theorem shrink_spec (h : Sound s) (hone : s.flat.OneDim) {n : Nat} (hn : n ≤ s.size) :
    Sound (s.shrink n) ∧ (s.shrink n).size = s.size - n ∧
      ∀ i < s.size - n, (s.shrink n).data i = s.data i := by
  obtain ⟨hsize, hframe, hdata⟩ :=
    clearFrom_spec (Nat.succ_pos (s.size - n)) (s.size - (s.size - n)) s
  have hframe' := hframe.trans (sameFrame_setSize (clearFrom (s.size - (s.size - n))
    (s.size - n + 1) s) (s.size - n))
  have hsame : ∀ i, (s.shrink n).data i =
      if s.size - n ≤ i ∧ i < s.size - n + (s.size - (s.size - n)) then none else s.data i := by
    intro i
    rw [shrink, data_setSize]
    exact hdata i
  refine ⟨⟨⟨?_, ?_, ?_, .inl ?_⟩, fun hs => ?_⟩, size_setSize _ _, ?_⟩
  · have hle := h.valid.le_maximum
    have hmaximum : (s.shrink n).maximumSize = s.maximumSize := hframe'.maximumSize
    simp only [flat, shrink, size_setSize] at hle ⊢
    simp only [shrink] at hmaximum
    omega
  · have hlt := h.valid.lt_max
    simp only [flat, shrink, size_setSize] at hlt ⊢
    omega
  · intro i hi
    simp only [flat, shrink, size_setSize] at hi
    simp only [flat]
    rw [hsame]
    split
    · rfl
    · exact h.outside (by omega)
  · have hdims : (s.shrink n).dimensions = s.dimensions := hframe'.dimensions
    simpa [RexxArray.OneDim, flat, hdims] using hone
  · have hexpanded : s.expansionArray.isSome := hframe'.expanded ▸ hs
    exact (hframe'.own hexpanded).trans (h.own hexpanded)
  · intro i hi
    rw [hsame, if_neg (by omega)]

/-! ## The sequence of the items -/

def contents (s : ExpandedArray) : List (Option ObjectRef) := (List.range s.size).map s.data

@[simp] theorem length_contents (s : ExpandedArray) : s.contents.length = s.size := by
  simp [contents]

@[simp] theorem getElem_contents (s : ExpandedArray) {i : Nat} (h : i < s.contents.length) :
    s.contents[i] = s.data i := by
  simp [contents]

theorem contents_eq {items : List (Option ObjectRef)} (hlength : s.size = items.length)
    (h : ∀ i (hi : i < items.length), s.data i = items[i]) : s.contents = items :=
  List.ext_getElem (by simp [hlength]) fun i _ hi => by rw [getElem_contents, h i hi]

theorem numItems_eq_zero (s : ExpandedArray) :
    s.numItems = 0 ↔ s.contents = List.replicate s.size none := by
  simp [numItems, contents, List.countP_eq_zero, List.eq_replicate_iff]

theorem Sound.contents_extend (h : Sound s) (n : Nat) :
    (s.extend n).contents = s.contents ++ List.replicate n none := by
  refine contents_eq (by simp [size_extend]) fun i hi => ?_
  rw [h.data_extend, List.getElem_append]
  split
  · rw [getElem_contents]
  next hge =>
    rw [List.getElem_replicate]
    exact h.outside (by simpa using hge)

theorem insertItem_spec (h : Sound s) (hone : s.flat.OneDim) (newItem : ObjectRef)
    {targetIndex : Nat} (hpos : 0 < targetIndex) (hle : targetIndex ≤ s.size + 1)
    (hlt : s.size + 1 < maxFixedArraySize) :
    Sound (s.insertItem newItem targetIndex) ∧
      (s.insertItem newItem targetIndex).contents =
        s.contents.insertIdx (targetIndex - 1) (some newItem) := by
  have hsound := h.extend hone hlt
  have hgrown := size_extend s 1
  obtain ⟨hsize, hframe, hdata⟩ := moveUp_spec hpos (s.extend 1).size (s.extend 1)
  have hmoved : Sound (moveUp targetIndex (s.extend 1).size (s.extend 1)) := by
    refine hsound.change hframe hsize fun i hi => ?_
    rw [hdata, if_neg (by omega)]
    exact hsound.outside hi
  refine ⟨hmoved.put hpos (by omega) _, contents_eq ?_ fun i hi => ?_⟩
  · rw [insertItem, size_put, hsize, hgrown,
      List.length_insertIdx_of_le_length (by rw [length_contents]; omega), length_contents]
  · rw [List.length_insertIdx_of_le_length (by rw [length_contents]; omega),
      length_contents] at hi
    rw [List.getElem_insertIdx, insertItem, data_put, Function.update_apply, hdata,
      h.data_extend, h.data_extend]
    split_ifs <;> first | rfl | omega | rw [getElem_contents]

theorem deleteItem_spec (h : Sound s) (hone : s.flat.OneDim) {targetIndex : Nat}
    (hpos : 0 < targetIndex) (hle : targetIndex ≤ s.size) :
    Sound (s.deleteItem targetIndex) ∧
      (s.deleteItem targetIndex).contents = s.contents.eraseIdx (targetIndex - 1) := by
  obtain ⟨hsize, hframe, hdata⟩ := moveDown_spec hpos (s.size - targetIndex) s
  have hmoved : Sound (moveDown (s.size - targetIndex) targetIndex s) := by
    refine h.change hframe hsize fun i hi => ?_
    rw [hdata, if_neg (by omega)]
    exact h.outside hi
  have hone' : (moveDown (s.size - targetIndex) targetIndex s).flat.OneDim := by
    simpa [RexxArray.OneDim, flat, hframe.dimensions] using hone
  obtain ⟨hsound, hshort, hkept⟩ := shrink_spec hmoved hone' (n := 1) (by omega)
  refine ⟨hsound, contents_eq ?_ fun i hi => ?_⟩
  · rw [deleteItem, hshort, hsize,
      List.length_eraseIdx_of_lt (by rw [length_contents]; omega), length_contents]
  · rw [List.length_eraseIdx_of_lt (by rw [length_contents]; omega), length_contents] at hi
    rw [List.getElem_eraseIdx, deleteItem, hkept i (by omega), hdata]
    split_ifs <;> first | omega | rw [getElem_contents]

theorem shrink_contents (h : Sound s) (hone : s.flat.OneDim) {n : Nat} (hn : n ≤ s.size) :
    (s.shrink n).contents = s.contents.take (s.size - n) := by
  obtain ⟨-, hsize, hkept⟩ := shrink_spec h hone hn
  refine contents_eq (by simp [hsize]) fun i hi => ?_
  have hbelow : i < s.size - n := by
    simp only [List.length_take, length_contents] at hi
    omega
  rw [hkept i hbelow, List.getElem_take, getElem_contents]

theorem put_contents (s : ExpandedArray) (eref : Option ObjectRef) {pos : Nat} :
    (s.put eref pos).contents = s.contents.set (pos - 1) eref := by
  refine contents_eq (by simp) fun i hi => ?_
  rw [data_put, Function.update_apply, List.getElem_set, getElem_contents]
  simp only [eq_comm]

theorem insert_last (h : Sound s) (value : ObjectRef) (hpos : 0 < s.size) :
    Sound (s.insert value s.size) ∧
      (s.insert value s.size).contents =
        (s.contents.insertIdx (s.size - 1) (some value)).take s.size := by
  have hsame : s.insert value s.size = s.put (some value) s.size := by
    have htwice : ∀ a b, (s.setData a).setData b = s.setData b := by
      intro a b
      cases hexpansion : s.expansionArray <;> simp [setData, hexpansion]
    simp only [insert, Nat.sub_self, memmove_nothing, put, htwice, data_setData,
      Function.update_idem]
  rw [hsame]
  refine ⟨h.put hpos (Nat.le_refl _) _, (put_contents s (some value)).trans ?_⟩
  refine List.ext_getElem ?_ fun i hi hi' => ?_
  · rw [List.length_set, List.length_take,
      List.length_insertIdx_of_le_length (by rw [length_contents]; omega), length_contents]
    omega
  · rw [List.length_set, length_contents] at hi
    rw [List.getElem_set, List.getElem_take, List.getElem_insertIdx]
    split_ifs <;> first | rfl | omega

theorem Sound.empty_cases (h : Sound s) :
    SameFrame s s.empty ∧ s.empty.size = s.size ∧
      (s.expansionArray = none → s.empty.data = clearSlots s.data s.size) ∧
      (s.expansionArray.isSome → s.empty.data = s.data) := by
  cases hexpansion : s.expansionArray with
  | none =>
      rw [empty]
      split
      · refine ⟨⟨rfl, rfl, rfl, fun hs => by simp [hexpansion] at hs⟩, by simp [size, hexpansion],
          fun _ => by simp [data, size, hexpansion], fun hs => by simp at hs⟩
      · refine ⟨sameFrame_setData _ _, size_setData _ _, fun _ => ?_, fun hs => by simp at hs⟩
        rw [data_setData]
        simp [size, hexpansion]
  | some block =>
      have hown := h.own (by simp [hexpansion])
      have hnothing : ∀ slots, clearSlots slots 0 = slots := fun slots => by
        funext i
        simp [clearSlots]
      rw [empty, hown]
      split
      · exact ⟨⟨rfl, rfl, rfl, fun _ => hown.symm⟩, by simp [size, hexpansion],
          fun hs => by simp at hs,
          fun _ => by simp [data, hexpansion]⟩
      · refine ⟨sameFrame_setData _ _, size_setData _ _, fun hs => by simp at hs, fun _ => ?_⟩
        rw [data_setData, hnothing]

theorem Sound.empty (h : Sound s) : Sound s.empty := by
  obtain ⟨hframe, hsize, hown, hother⟩ := h.empty_cases
  refine h.change hframe hsize fun i hi => ?_
  cases hexpansion : s.expansionArray with
  | none => rw [hown hexpansion, clearSlots, if_neg (Nat.not_lt.mpr hi), h.outside hi]
  | some block => rw [hother (by simp [hexpansion]), h.outside hi]

theorem Sound.empty_iff (h : Sound s) :
    (s.empty.contents = List.replicate s.size none ∧ s.empty.numItems = 0) ↔
      s.expansionArray = none ∨ s.numItems = 0 := by
  obtain ⟨-, hsize, hown, hother⟩ := h.empty_cases
  have hcount := numItems_eq_zero s.empty
  rw [hsize] at hcount
  rw [← hcount, and_self]
  cases hexpansion : s.expansionArray with
  | none =>
      refine iff_of_true ?_ (.inl rfl)
      simp only [numItems, hsize, hown hexpansion, List.countP_eq_zero, List.mem_range]
      intro i hi
      simp [clearSlots, hi]
  | some block =>
      simp [numItems, hsize, hother (by simp [hexpansion])]

def ResizeKeeps (s : ExpandedArray) : Prop :=
  s.resize.size ≤ s.size ∧ ∀ i < s.resize.size, s.resize.data i = s.data i

theorem resize_keeps (s : ExpandedArray) : ResizeKeeps s := by
  rw [ResizeKeeps, resize]
  split
  next hown => simp [size, hown]
  next => exact ⟨Nat.le_refl _, fun _ _ => rfl⟩

/-! ## Runs -/

inductive ArrayChange where
  | put (item : Option ObjectRef) (pos : Nat)
  | empty
  | extend (extension : Nat)
  | extendMulti (index : List Subscript)
  | shrink (amount : Nat)
  | insertItem (newItem : ObjectRef) (targetIndex : Nat)
  | deleteItem (targetIndex : Nat)
  | insert (value : ObjectRef) (index : Nat)

def perform (s : ExpandedArray) : ArrayChange → ExpandedArray
  | .put item pos => s.put item pos
  | .empty => s.empty
  | .extend extension => s.extend extension
  | .extendMulti index => s.extendMulti index
  | .shrink amount => s.shrink amount
  | .insertItem newItem targetIndex => s.insertItem newItem targetIndex
  | .deleteItem targetIndex => s.deleteItem targetIndex
  | .insert value index => s.insert value index

/-- What the callers see to: positions inside the array, one dimension where it is asked for,
and no more than the largest size. -/
def Admits (s : ExpandedArray) : ArrayChange → Prop
  | .put _ pos => 0 < pos ∧ pos ≤ s.size
  | .empty => True
  | .extend extension => s.flat.OneDim ∧ s.size + extension < maxFixedArraySize
  | .extendMulti index =>
      (s.dimensions = none ∧ s.size = 0 ∧ 2 ≤ index.length) ∨
        ∃ dims, s.flat.Multi dims ∧ index.length = dims.length
  | .shrink amount => s.flat.OneDim ∧ amount ≤ s.size
  | .insertItem _ targetIndex =>
      s.flat.OneDim ∧ (0 < targetIndex ∧ targetIndex ≤ s.size + 1) ∧
        s.size + 1 < maxFixedArraySize
  | .deleteItem targetIndex => s.flat.OneDim ∧ 0 < targetIndex ∧ targetIndex ≤ s.size
  | .insert _ index => s.flat.OneDim ∧ 0 < index ∧ index ≤ s.size

/-- The operation on the sequence of the items, and `resize` of the array it leaves. -/
def Refines (s s' : ExpandedArray) : ArrayChange → Prop
  | .put item pos => s'.contents = s.contents.set (pos - 1) item
  | .empty => s'.contents = List.replicate s.size none ∧ s'.numItems = 0
  | .extend extension => s'.contents = s.contents ++ List.replicate extension none
  | .extendMulti _ => RexxArray.Kept s.flat s'.flat
  | .shrink amount => s'.contents = s.contents.take (s.size - amount)
  | .insertItem newItem targetIndex =>
      s'.contents = s.contents.insertIdx (targetIndex - 1) (some newItem)
  | .deleteItem targetIndex => s'.contents = s.contents.eraseIdx (targetIndex - 1)
  | .insert value index =>
      s'.contents = (s.contents.insertIdx (index - 1) (some value)).take s.size

/-- An array that has items in another one is not emptied, and nothing is inserted before its
last item. -/
def Intact (s : ExpandedArray) : ArrayChange → Prop
  | .empty => s.expansionArray = none ∨ s.numItems = 0
  | .insert _ index => index = s.size
  | _ => True

def AllChanges (P : ExpandedArray → ArrayChange → Prop) : ExpandedArray → List ArrayChange → Prop
  | _, [] => True
  | s, c :: changes => P s c ∧ AllChanges P (s.perform c) changes

theorem Sound.perform_refines (h : Sound s) {c : ArrayChange} (hadmits : s.Admits c)
    (hintact : s.Intact c) : Sound (s.perform c) ∧ Refines s (s.perform c) c := by
  cases c with
  | put item pos => exact ⟨h.put hadmits.1 hadmits.2 item, put_contents s item⟩
  | empty => exact ⟨h.empty, h.empty_iff.mpr hintact⟩
  | extend extension => exact ⟨h.extend hadmits.1 hadmits.2, h.contents_extend extension⟩
  | extendMulti index => exact h.extendMulti hadmits
  | shrink amount =>
      exact ⟨(shrink_spec h hadmits.1 hadmits.2).1, shrink_contents h hadmits.1 hadmits.2⟩
  | insertItem newItem targetIndex =>
      exact insertItem_spec h hadmits.1 newItem hadmits.2.1.1 hadmits.2.1.2 hadmits.2.2
  | deleteItem targetIndex => exact deleteItem_spec h hadmits.1 hadmits.2.1 hadmits.2.2
  | insert value index =>
      obtain rfl : index = s.size := hintact
      exact insert_last h value hadmits.2.1

theorem Sound.all_refine (h : Sound s) {changes : List ArrayChange}
    (hadmits : AllChanges Admits s changes) (hintact : AllChanges Intact s changes) :
    AllChanges (fun s c => Refines s (s.perform c) c ∧ ResizeKeeps (s.perform c)) s changes := by
  induction changes generalizing s with
  | nil => trivial
  | cons c changes ih =>
      obtain ⟨hsound, hrefines⟩ := h.perform_refines hadmits.1 hintact.1
      exact ⟨⟨hrefines, resize_keeps _⟩, ih hsound hadmits.2 hintact.2⟩

theorem ofFlat_sound {sizes : List Int} {a : RexxArray ObjectRef}
    (h : RexxArray.newRexx sizes = .ok a) (oldSpace : Bool) : Sound (ofFlat oldSpace a) :=
  ⟨RexxArray.newRexx_valid h, fun hs => by simp [ofFlat] at hs⟩

def someItem : ObjectRef := ⟨fun _ => 1, by decide⟩

def otherItem : ObjectRef := ⟨fun _ => 2, by decide⟩

end ExpandedArray

end LeooRexx
