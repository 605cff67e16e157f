import LeooRexx.Classes.RexxQueue

/-!
# Circular queues

The class `CircularQueue` of the REXX core classes: a queue with a size, which overrides `queue`
and `push` and inherits the other methods.  It is compared with a bounded sequence.
-/

namespace LeooRexx

/-- The order argument of `resize`. -/
inductive ResizeOrder where
  | F
  | L
  | other
  deriving DecidableEq

inductive CircularQueueError where
  | queue (error : QueueError)
  /-- Error 93.906. -/
  | Error_Incorrect_method_nonnegative (position : ℕ) (value : Int)
  /-- Error 93.914. -/
  | Error_Incorrect_method_list (position : ℕ) (expected : String)
  deriving DecidableEq

structure CircularQueue (ν : Type) where
  queue : RexxList ν
  size : ℕ

/-- What a method returns; no item is `.nil`. -/
inductive CircularQueueResult (ν : Type) where
  | none
  | item (item : Option ν)
  | index (index : ℕ)
  | size (size : ℕ)
  deriving DecidableEq

namespace CircularQueue

variable {ν : Type}

def init (size : ℕ) : CircularQueue ν := { queue := RexxList.init, size := size }

def items (self : CircularQueue ν) : ℕ := self.queue.count

/-- `do removeNr; self~remove(idx); end` -/
def removeRepeatedly (queue : RexxList ν) (idx : Int) : ℕ → RexxList ν × Except QueueError Unit
  | 0 => (queue, .ok ())
  | removeNr + 1 =>
      match RexxQueue.remove queue (.integer idx) with
      | (queue, .error e) => (queue, .error e)
      | (queue, .ok _) => removeRepeatedly queue idx removeNr

def resize (self : CircularQueue ν) (newSize : Int) (order : ResizeOrder) :
    CircularQueue ν × Except CircularQueueError (CircularQueueResult ν) :=
  if newSize < 0 then (self, .error (.Error_Incorrect_method_nonnegative 1 newSize))
  else if order = .other then
    (self, .error (.Error_Incorrect_method_list 2 "\"F\" (FIFO) or \"L\" (LIFO)"))
  else if newSize < self.size then
    let removeNr := self.size - newSize
    let idx := if order = .L then self.items - removeNr + 1 else 1
    match removeRepeatedly self.queue idx removeNr.toNat with
    | (queue, .error e) => ({ self with queue := queue }, .error (.queue e))
    | (queue, .ok _) => ({ queue := queue, size := newSize.toNat }, .ok (.size newSize.toNat))
  else ({ self with size := newSize.toNat }, .ok (.size newSize.toNat))

def queueItem (self : CircularQueue ν) (item : ν) :
    CircularQueue ν × Except CircularQueueError (CircularQueueResult ν) :=
  if self.size = 0 then (self, .ok (.item none))
  else if self.size ≤ self.items then
    let (queue, old) := RexxQueue.pull self.queue
    ({ self with queue := RexxQueue.queue queue item }, .ok (.item old))
  else ({ self with queue := RexxQueue.queue self.queue item }, .ok (.item none))

def push (self : CircularQueue ν) (item : ν) :
    CircularQueue ν × Except CircularQueueError (CircularQueueResult ν) :=
  if self.size = 0 then (self, .ok (.item none))
  else if self.size ≤ self.items then
    match RexxQueue.remove self.queue (.integer self.items) with
    | (queue, .error e) => ({ self with queue := queue }, .error (.queue e))
    | (queue, .ok old) => ({ self with queue := RexxQueue.push queue item }, .ok (.item old))
  else ({ self with queue := RexxQueue.push self.queue item }, .ok (.item none))

inductive Operation (ν : Type) where
  | queue (item : ν)
  | push (item : ν)
  | pull
  | remove (index : ListIndex)
  | append (item : ν)
  | insert (value : ν) (index : ListIndex)
  | resize (newSize : Int) (order : ResizeOrder)

def inherited {α : Type} (self : CircularQueue ν) (result : RexxList ν × Except QueueError α)
    (f : α → CircularQueueResult ν) :
    CircularQueue ν × Except CircularQueueError (CircularQueueResult ν) :=
  ({ self with queue := result.1 }, (result.2.mapError .queue).map f)

def step (self : CircularQueue ν) :
    Operation ν → CircularQueue ν × Except CircularQueueError (CircularQueueResult ν)
  | .queue item => self.queueItem item
  | .push item => self.push item
  | .pull =>
      let (queue, item) := RexxQueue.pull self.queue
      ({ self with queue := queue }, .ok (.item item))
  | .remove index => self.inherited (RexxQueue.remove self.queue index) .item
  | .append item =>
      let (queue, index) := RexxQueue.append self.queue item
      ({ self with queue := queue }, .ok (.index index))
  | .insert value index => self.inherited (RexxQueue.insert self.queue value index) .index
  | .resize newSize order => self.resize newSize order

end CircularQueue

/-! ## Bounded sequences -/

/-- What a circular queue is for: a sequence that is never longer than its size. -/
structure BoundedSequence (ν : Type) where
  size : ℕ
  items : List ν

namespace BoundedSequence

variable {ν : Type}

def resize (self : BoundedSequence ν) (newSize : ℕ) (order : ResizeOrder) : BoundedSequence ν :=
  let kept := min self.items.length newSize
  { size := newSize
    items := if order = .L then self.items.take kept
      else self.items.drop (self.items.length - kept) }

def step (self : BoundedSequence ν) : CircularQueue.Operation ν →
    BoundedSequence ν × Except CircularQueueError (CircularQueueResult ν)
  | .queue item =>
      if self.size = 0 then (self, .ok (.item none))
      else if self.items.length < self.size then
        ({ self with items := self.items ++ [item] }, .ok (.item none))
      else ({ self with items := self.items.tail ++ [item] }, .ok (.item self.items.head?))
  | .push item =>
      if self.size = 0 then (self, .ok (.item none))
      else if self.items.length < self.size then
        ({ self with items := item :: self.items }, .ok (.item none))
      else ({ self with items := item :: self.items.dropLast }, .ok (.item self.items.getLast?))
  | .pull => ({ self with items := self.items.tail }, .ok (.item self.items.head?))
  | .remove index =>
      let (items, result) := RexxQueue.removeAt self.items index
      ({ self with items := items }, (result.mapError .queue).map .item)
  | .append item =>
      ({ self with items := self.items ++ [item] }, .ok (.index (self.items.length + 1)))
  | .insert value index =>
      let (items, result) := RexxQueue.insertAt self.items value index
      ({ self with items := items }, (result.mapError .queue).map .index)
  | .resize newSize order =>
      if newSize < 0 then (self, .error (.Error_Incorrect_method_nonnegative 1 newSize))
      else if order = .other then
        (self, .error (.Error_Incorrect_method_list 2 "\"F\" (FIFO) or \"L\" (LIFO)"))
      else (self.resize newSize.toNat order, .ok (.size newSize.toNat))

end BoundedSequence

namespace CircularQueue

open RexxQueue

variable {ν : Type} {q : CircularQueue ν} {s : BoundedSequence ν} {t : RexxList ν}
  {xs : List ν} {n removeNr : ℕ}

def Trims (q : CircularQueue ν) (newSize : ℕ) (order : ResizeOrder) : Prop :=
  q.size ≤ newSize ∨ q.items = q.size ∨
    order ≠ .L ∧ (q.items = 0 ∨ newSize = 0)

def Meets (q : CircularQueue ν) : Operation ν → Prop
  | .append _ => q.items < q.size
  | .insert _ index => q.items < q.size ∨ ∀ n, place q.items index ≠ .ok n
  | .resize newSize order => 0 ≤ newSize → order ≠ .other → q.Trims newSize.toNat order
  | .queue _ | .push _ | .pull | .remove _ => True

structure Refines (q : CircularQueue ν) (s : BoundedSequence ν) : Prop where
  size : q.size = s.size
  queue : IsQueue q.queue s.items
  bound : s.items.length ≤ s.size

theorem Refines.items_eq (h : Refines q s) : q.items = s.items.length :=
  IsQueue.count h.queue

theorem removeAt_succ (xs : List ν) (n : ℕ) :
    removeAt xs (.integer (n + 1)) = (xs.eraseIdx n, .ok xs[n]?) := by
  have hone : ¬ ((n : Int) + 1 < 1) := by omega
  have hpred : ((n : Int) + 1 - 1).toNat = n := by omega
  rw [removeAt, position, if_neg hone, hpred]

theorem remove_position (h : IsQueue t xs) (n : ℕ) :
    ∃ t', RexxQueue.remove t (.integer (n + 1)) = (t', .ok xs[n]?) ∧
      IsQueue t' (xs.eraseIdx n) := by
  obtain ⟨hqueue, hresult⟩ := remove_spec h (.integer (n + 1))
  rw [removeAt_succ] at hqueue hresult
  exact ⟨_, Prod.ext rfl hresult, hqueue⟩

theorem take_drop_eraseIdx (xs : List ν) (n k : ℕ) :
    (xs.eraseIdx n).take n ++ (xs.eraseIdx n).drop (n + k) = xs.take n ++ xs.drop (n + (k + 1)) := by
  rcases Nat.le_total n xs.length with hle | hge
  · have htake : (xs.take n).length = n := List.length_take_of_le hle
    rw [List.eraseIdx_eq_take_drop_succ, List.take_left' htake, ← List.drop_drop,
      List.drop_left' htake, List.drop_drop]
    congr 2
    omega
  · rw [List.eraseIdx_of_length_le hge, List.drop_eq_nil_of_le (by omega),
      List.drop_eq_nil_of_le (by omega)]

theorem removeRepeatedly_position (h : IsQueue t xs) (n removeNr : ℕ) :
    ∃ t', removeRepeatedly t (n + 1) removeNr = (t', .ok ()) ∧
      IsQueue t' (xs.take n ++ xs.drop (n + removeNr)) := by
  induction removeNr generalizing t xs with
  | zero =>
      refine ⟨t, rfl, ?_⟩
      rw [Nat.add_zero, List.take_append_drop]
      exact h
  | succ removeNr ih =>
      obtain ⟨t₁, hremove, hqueue⟩ := remove_position h n
      obtain ⟨t', hloop, hkept⟩ := ih hqueue
      refine ⟨t', ?_, ?_⟩
      · rw [removeRepeatedly, hremove]
        exact hloop
      · rw [← take_drop_eraseIdx]
        exact hkept

structure Agrees (result : CircularQueue ν × Except CircularQueueError (CircularQueueResult ν))
    (spec : BoundedSequence ν × Except CircularQueueError (CircularQueueResult ν)) : Prop where
  refines : Refines result.1 spec.1
  result : result.2 = spec.2

theorem resize_agrees (h : Refines q s) {newSize : Int} {order : ResizeOrder}
    (hmeets : Meets q (.resize newSize order)) :
    Agrees (q.resize newSize order) (s.step (.resize newSize order)) := by
  have hitems := h.items_eq
  have hsize := h.size
  have hbound := h.bound
  simp only [resize, BoundedSequence.step]
  by_cases hneg : newSize < 0
  · rw [if_pos hneg, if_pos hneg]
    exact ⟨h, rfl⟩
  rw [if_neg hneg, if_neg hneg]
  by_cases hother : order = .other
  · rw [if_pos hother, if_pos hother]
    exact ⟨h, rfl⟩
  rw [if_neg hother, if_neg hother]
  have htrims := hmeets (Int.not_lt.mp hneg) hother
  obtain ⟨n, rfl⟩ := Int.eq_ofNat_of_zero_le (Int.not_lt.mp hneg)
  simp only [Int.toNat_natCast] at htrims ⊢
  have hkept : (BoundedSequence.resize s n order).items.length ≤ n := by
    simp only [BoundedSequence.resize]
    split
    · rw [List.length_take]
      omega
    · rw [List.length_drop]
      omega
  by_cases hsmaller : (n : Int) < q.size
  · rw [if_pos hsmaller]
    have hremoveNr : ((q.size : Int) - n).toNat = q.size - n := by omega
    have hdone : ∀ (position : ℕ) (idx : Int), idx = position + 1 →
        s.items.take position ++ s.items.drop (position + (q.size - n)) =
          (BoundedSequence.resize s n order).items →
        Agrees (match removeRepeatedly q.queue idx (q.size - n) with
            | (queue, .error e) => ({ q with queue := queue }, .error (.queue e))
            | (queue, .ok _) => ({ queue := queue, size := n }, .ok (.size n)))
          (BoundedSequence.resize s n order, .ok (.size n)) := by
      intro position idx hidx hitems
      obtain ⟨t', hloop, hqueue⟩ := removeRepeatedly_position h.queue position (q.size - n)
      rw [hidx, hloop]
      rw [hitems] at hqueue
      exact ⟨⟨rfl, hqueue, hkept⟩, rfl⟩
    rw [hremoveNr]
    by_cases hL : order = .L
    · -- the queue is full, so that the newest items go
      have hfull : q.items = q.size := by
        rcases htrims with hle | hfull | ⟨hnot, -⟩
        · omega
        · exact hfull
        · exact absurd hL hnot
      apply hdone n
      · rw [if_pos hL]
        omega
      · simp only [BoundedSequence.resize, if_pos hL]
        rw [List.drop_eq_nil_of_le (by omega), List.append_nil]
        congr 1
        omega
    · apply hdone 0
      · exact if_neg hL
      · simp only [BoundedSequence.resize, if_neg hL, List.take_zero, List.nil_append,
          Nat.zero_add]
        rcases htrims with hle | hfull | ⟨-, hempty | hzero⟩
        · omega
        · congr 1
          omega
        · have hnil : s.items = [] := List.length_eq_zero_iff.mp (by omega)
          simp [hnil]
        · rw [List.drop_eq_nil_of_le (by omega), List.drop_eq_nil_of_le (by omega)]
  · -- everything fits
    rw [if_neg hsmaller]
    refine ⟨⟨rfl, ?_, hkept⟩, rfl⟩
    have hall : (BoundedSequence.resize s n order).items = s.items := by
      have hmin : min s.items.length n = s.items.length := Nat.min_eq_left (by omega)
      simp only [BoundedSequence.resize, hmin]
      split
      · exact List.take_length
      · rw [Nat.sub_self, List.drop_zero]
    rw [hall]
    exact h.queue

theorem queueItem_agrees (h : Refines q s) (item : ν) :
    Agrees (q.queueItem item) (s.step (.queue item)) := by
  have hitems := h.items_eq
  have hsize := h.size
  have hbound := h.bound
  simp only [queueItem, BoundedSequence.step, hitems, hsize]
  by_cases hzero : s.size = 0
  · rw [if_pos hzero, if_pos hzero]
    exact ⟨h, rfl⟩
  rw [if_neg hzero, if_neg hzero]
  by_cases hfull : s.size ≤ s.items.length
  · rw [if_pos hfull, if_neg (Nat.not_lt.mpr hfull)]
    obtain ⟨hqueue, hold⟩ := pull_spec h.queue
    refine ⟨⟨rfl, queue_spec hqueue item, ?_⟩,
      congrArg (fun old => Except.ok (CircularQueueResult.item old)) hold⟩
    change (s.items.tail ++ [item]).length ≤ s.size
    rw [List.length_append, List.length_tail, List.length_singleton]
    omega
  · rw [if_neg hfull, if_pos (Nat.not_le.mp hfull)]
    refine ⟨⟨rfl, queue_spec h.queue item, ?_⟩, rfl⟩
    change (s.items ++ [item]).length ≤ s.size
    rw [List.length_append, List.length_singleton]
    omega

theorem push_agrees (h : Refines q s) (item : ν) : Agrees (q.push item) (s.step (.push item)) := by
  have hitems := h.items_eq
  have hsize := h.size
  have hbound := h.bound
  simp only [push, BoundedSequence.step, hitems, hsize]
  by_cases hzero : s.size = 0
  · rw [if_pos hzero, if_pos hzero]
    exact ⟨h, rfl⟩
  rw [if_neg hzero, if_neg hzero]
  by_cases hfull : s.size ≤ s.items.length
  · rw [if_pos hfull, if_neg (Nat.not_lt.mpr hfull)]
    obtain ⟨t', hremove, hqueue⟩ := remove_position h.queue (s.items.length - 1)
    have hlast : ((s.items.length - 1 : ℕ) : Int) + 1 = s.items.length := by omega
    rw [hlast] at hremove
    simp only [hremove]
    rw [List.eraseIdx_length_sub_one] at hqueue
    refine ⟨⟨rfl, push_spec hqueue item, ?_⟩, ?_⟩
    · change (item :: s.items.dropLast).length ≤ s.size
      rw [List.length_cons, List.length_dropLast]
      omega
    · rw [List.getLast?_eq_getElem?]
  · rw [if_neg hfull, if_pos (Nat.not_le.mp hfull)]
    refine ⟨⟨rfl, push_spec h.queue item, ?_⟩, rfl⟩
    change (item :: s.items).length ≤ s.size
    rw [List.length_cons]
    omega

theorem length_removeAt (xs : List ν) (index : ListIndex) :
    (removeAt xs index).1.length ≤ xs.length := by
  rw [removeAt]
  split
  · exact Nat.le_refl _
  · exact List.length_eraseIdx_le ..

theorem length_insertAt {size : ℕ} (value : ν) {index : ListIndex} (hbound : xs.length ≤ size)
    (h : xs.length < size ∨ ∀ n, place xs.length index ≠ .ok n) :
    (insertAt xs value index).1.length ≤ size := by
  rw [insertAt]
  cases hplace : place xs.length index with
  | error e => exact hbound
  | ok n =>
      have hroom : xs.length < size := h.resolve_right fun hnone => hnone n hplace
      change (xs.take n ++ value :: xs.drop n).length ≤ size
      rw [List.length_append, List.length_cons, List.length_take, List.length_drop]
      omega

theorem step_agrees (h : Refines q s) {operation : Operation ν} (hmeets : Meets q operation) :
    Agrees (q.step operation) (s.step operation) := by
  have hitems := h.items_eq
  have hsize := h.size
  have hbound := h.bound
  cases operation with
  | queue item => exact queueItem_agrees h item
  | push item => exact push_agrees h item
  | pull =>
      obtain ⟨hqueue, hitem⟩ := pull_spec h.queue
      refine ⟨⟨hsize, hqueue, ?_⟩,
        congrArg (fun item => Except.ok (CircularQueueResult.item item)) hitem⟩
      change s.items.tail.length ≤ s.size
      rw [List.length_tail]
      omega
  | remove index =>
      obtain ⟨hqueue, hresult⟩ := remove_spec h.queue index
      refine ⟨⟨hsize, hqueue, Nat.le_trans (length_removeAt s.items index) hbound⟩, ?_⟩
      exact congrArg (fun result : Except QueueError (Option ν) =>
        (result.mapError CircularQueueError.queue).map CircularQueueResult.item) hresult
  | append item =>
      obtain ⟨hqueue, hindex⟩ := append_spec h.queue item
      refine ⟨⟨hsize, hqueue, ?_⟩,
        congrArg (fun index => Except.ok (CircularQueueResult.index index)) hindex⟩
      have hroom : q.items < q.size := hmeets
      change (s.items ++ [item]).length ≤ s.size
      rw [List.length_append, List.length_singleton]
      omega
  | insert value index =>
      obtain ⟨hqueue, hresult⟩ := insert_spec h.queue value index
      have hroom : s.items.length < s.size ∨ ∀ n, place s.items.length index ≠ .ok n := by
        rw [← hitems, ← hsize]
        exact hmeets
      refine ⟨⟨hsize, hqueue, length_insertAt value hbound hroom⟩, ?_⟩
      exact congrArg (fun result : Except QueueError ℕ =>
        (result.mapError CircularQueueError.queue).map CircularQueueResult.index) hresult
  | resize newSize order => exact resize_agrees h hmeets

inductive Reached : CircularQueue ν → BoundedSequence ν → Prop where
  | init (size : ℕ) : Reached (init size) { size := size, items := [] }
  | step {q : CircularQueue ν} {s : BoundedSequence ν} (h : Reached q s)
      (operation : Operation ν) (hmeets : Meets q operation) :
      Reached (q.step operation).1 (s.step operation).1

theorem Reached.refines (h : Reached q s) : Refines q s := by
  induction h with
  | init size => exact ⟨rfl, ⟨[], init_holds⟩, Nat.zero_le _⟩
  | step h operation hmeets ih => exact (step_agrees ih hmeets).refines

/-- In every run whose steps meet the condition the circular queue holds the items of the bounded
sequence, never more than its size, and returns what the sequence does. -/
theorem circularQueue_refines (q : CircularQueue ν) (s : BoundedSequence ν) (h : Reached q s) :
    q.size = s.size ∧ IsQueue q.queue s.items ∧ q.items ≤ q.size ∧
      ∀ operation, Meets q operation → (q.step operation).2 = (s.step operation).2 := by
  have hrefines := h.refines
  refine ⟨hrefines.size, hrefines.queue, ?_, ?_⟩
  · rw [hrefines.items_eq, hrefines.size]
    exact hrefines.bound
  · intro operation hmeets
    exact (step_agrees hrefines hmeets).result

def run (q : CircularQueue ν) (operations : List (Operation ν)) : CircularQueue ν :=
  operations.foldl (fun q operation => (q.step operation).1) q

theorem circularQueue_refines_full :
    (init 1 : CircularQueue ℕ).size = 1 ∧
      (((init 1 : CircularQueue ℕ).step (.queue 5)).1.step (.queue 6)).2 = .ok (.item (some 5)) := by
  have hfirst : Reached (init 1 : CircularQueue ℕ) { size := 1, items := [] } := .init 1
  have hsecond := circularQueue_refines _ _ (hfirst.step (.queue 5) trivial)
  exact ⟨rfl, hsecond.2.2.2 (.queue 6) trivial⟩

def contents (q : CircularQueue ν) : List (Option ν) :=
  (List.range q.items).map fun n =>
    (locateFrom q.queue (q.items + 1) (n + 1) q.queue.first).bind fun i => (q.queue.entries i).value

/-- An inherited method exceeds the size, a resize drops an item that fits, and one raises an
error. -/
theorem circularQueue_exceeds :
    (run (init 1 : CircularQueue ℕ) [.queue 5, .append 6]).items = 2 ∧
      contents (run (init 4 : CircularQueue ℕ) [.queue 5, .queue 6, .resize 3 .F]) = [some 6] ∧
        ((run (init 4 : CircularQueue ℕ) [.queue 5]).step (.resize 1 .L)).2 =
          .error (.queue (.Error_Incorrect_method_queue_index (.integer (-1)))) := by
  refine ⟨by decide, by decide, by decide⟩

end CircularQueue

end LeooRexx
