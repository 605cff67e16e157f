import Mathlib

/-!
# The save stack

The ring of the objects allocated last, which a collection keeps alive once.  The slots beyond
the usable size belong to the storage too.  An access outside the storage gives no state.
-/

namespace LeooRexx

namespace RexxSaveStack

abbrev ObjectRef := ℕ

def SAVE_THRESHOLD : ℕ := 5

def SaveStackSize : ℕ := 20

def SaveStackAllocSize : ℕ := 500

/-- A `size_t` has 32 bits; an index that is counted below zero wraps. -/
def sizeLimit : ℕ := 2 ^ 32

structure SaveStack where
  u_size : ℕ
  allocSize : ℕ
  top : ℕ
  stack : ℕ → Option ObjectRef

def init (size allocSize : ℕ) : SaveStack :=
  { u_size := size, allocSize := allocSize, top := 0, stack := fun _ => none }

def read (s : SaveStack) (i : ℕ) : Option (Option ObjectRef) :=
  if i < s.allocSize then some (s.stack i) else none

def store (s : SaveStack) (i : ℕ) (element : Option ObjectRef) : Option SaveStack :=
  if i < s.allocSize then some { s with stack := Function.update s.stack i element } else none

def incrementTop (s : SaveStack) : SaveStack :=
  let top := (s.top + 1) % sizeLimit
  { s with top := if s.u_size ≤ top then 0 else top }

def push (s : SaveStack) (obj : ObjectRef) : Option SaveStack :=
  let s := incrementTop s
  store s s.top (some obj)

def searchFrom (s : SaveStack) (element : ObjectRef) : ℕ → ℕ → Option SaveStack
  | 0, _ => some s
  | count + 1, i => do
      let found ← read s i
      if found = some element then store s i none else searchFrom s element count (i + 1)

def remove (s : SaveStack) (element : ObjectRef) (search : Bool) : Option SaveStack := do
  let found ← read s s.top
  if found = some element then
    let s ← store s s.top none
    return { s with top := (s.top + (sizeLimit - 1)) % sizeLimit }
  else if search then searchFrom s element s.u_size 0
  else return s

def extend (s : SaveStack) (newSize : ℕ) : SaveStack :=
  if newSize < s.allocSize then { s with u_size := newSize } else s

/-- `extendSaveStack` of the memory object. -/
def extendSaveStack (s : SaveStack) (inc : ℕ) : SaveStack :=
  if s.u_size - SaveStackSize < inc then extend s (SaveStackSize + inc) else s

structure Heap where
  marked : ObjectRef → Bool
  largeString : ObjectRef → Bool

def Heap.mark (heap : Heap) (o : ObjectRef) : Heap :=
  { heap with marked := Function.update heap.marked o true }

def clearedOut (top i : ℕ) : Bool :=
  if i < top then (i : ℤ) < top - SAVE_THRESHOLD
  else
    let wrap : ℤ := top - SAVE_THRESHOLD
    wrap < 0 && (i : ℤ) < top - wrap

/-- The loop body of `live` for the slot `i`. -/
def liveSlot (s : SaveStack) (heap : Heap) (i : ℕ) : Option (SaveStack × Heap) := do
  match ← read s i with
  | none => return (s, heap)
  | some thisObject =>
      let cleared ← store s i none
      if heap.marked thisObject then return (cleared, heap)
      else if heap.largeString thisObject && clearedOut s.top i then return (cleared, heap)
      else return (cleared, heap.mark thisObject)

def liveLoop (s : SaveStack) (heap : Heap) : ℕ → Option (SaveStack × Heap)
  | 0 => some (s, heap)
  | i + 1 => do
      let (s, heap) ← liveLoop s heap i
      liveSlot s heap i

def live (s : SaveStack) (heap : Heap) : Option (SaveStack × Heap) := liveLoop s heap s.u_size

/-! ## Runs -/

/-- A save stack with the number of pushes so far and, slot by slot, at the last push into it. -/
structure Traced where
  saved : SaveStack
  pushes : ℕ
  pushedAt : ℕ → ℕ

def Traced.initial : Traced :=
  { saved := init SaveStackSize SaveStackAllocSize, pushes := 0, pushedAt := fun _ => 0 }

inductive Operation where
  | push (obj : ObjectRef)
  | remove (element : ObjectRef) (search : Bool)
  | extendSaveStack (inc : ℕ)
  | live (heap : Heap)

def apply (t : Traced) : Operation → Option (Traced × Option Heap)
  | .push obj => do
      let s ← push t.saved obj
      return ({ saved := s, pushes := t.pushes + 1,
                pushedAt := Function.update t.pushedAt s.top (t.pushes + 1) }, none)
  | .remove element search => do
      let s ← remove t.saved element search
      return ({ t with saved := s }, none)
  | .extendSaveStack inc => some ({ t with saved := extendSaveStack t.saved inc }, none)
  | .live heap => do
      let (s, heap) ← live t.saved heap
      return ({ t with saved := s }, some heap)

/-- Slots below the top were filled one after the other, slots above it a round before. -/
structure Sound (t : Traced) : Prop where
  size : SaveStackSize ≤ t.saved.u_size
  room : t.saved.u_size ≤ t.saved.allocSize
  limit : t.saved.allocSize < sizeLimit
  top : t.saved.top < t.saved.u_size
  unused : ∀ i, t.saved.u_size ≤ i → t.saved.stack i = none
  below : ∀ i ≤ t.saved.top, t.saved.stack i ≠ none →
    t.pushedAt i + (t.saved.top - i) ≤ t.pushes
  above : ∀ i, t.saved.top < i → t.saved.stack i ≠ none →
    t.pushedAt i + (t.saved.top + SaveStackSize - i) ≤ t.pushes

variable {t t' : Traced} {s s' : SaveStack} {heap heap' : Heap} {o element : ObjectRef} {i n : ℕ}

theorem Sound.initial : Sound Traced.initial where
  size := le_rfl
  room := by decide
  limit := by decide
  top := by decide
  unused _ _ := rfl
  below _ _ h := absurd rfl h
  above _ _ h := absurd rfl h

theorem read_eq (h : i < s.allocSize) : read s i = some (s.stack i) := if_pos h

theorem store_eq (h : i < s.allocSize) (element : Option ObjectRef) :
    store s i element = some { s with stack := Function.update s.stack i element } := if_pos h

/-! ## Pushing -/

theorem top_incrementTop (htop : s.top < s.u_size) (hlimit : s.u_size < sizeLimit) :
    (incrementTop s).top = if s.top + 1 = s.u_size then 0 else s.top + 1 := by
  have hmod : (s.top + 1) % sizeLimit = s.top + 1 := Nat.mod_eq_of_lt (by omega)
  rw [incrementTop]
  simp only [hmod]
  split <;> split <;> omega

theorem push_sound (h : Sound t) (obj : ObjectRef) :
    ∃ t', apply t (.push obj) = some (t', none) ∧ Sound t' := by
  have hsize := h.size
  have hroom := h.room
  have hlimit := h.limit
  have htop := h.top
  have hincrement := top_incrementTop htop (by omega)
  have hlt : (incrementTop t.saved).top < t.saved.allocSize := by
    rw [hincrement]
    split <;> omega
  have hpush : push t.saved obj = some { t.saved with
      top := (incrementTop t.saved).top
      stack := Function.update t.saved.stack (incrementTop t.saved).top (some obj) } :=
    if_pos hlt
  rw [hincrement] at hpush
  generalize hnew : (if t.saved.top + 1 = t.saved.u_size then 0 else t.saved.top + 1) = new at hpush
  have hnewlt : new < t.saved.u_size := by
    rw [← hnew]
    split <;> omega
  have hstack : ∀ i, i ≠ new →
      Function.update t.saved.stack new (some obj) i = t.saved.stack i :=
    fun i hi => Function.update_of_ne hi _ _
  have hpushed : ∀ i, i ≠ new →
      Function.update t.pushedAt new (t.pushes + 1) i = t.pushedAt i :=
    fun i hi => Function.update_of_ne hi _ _
  simp only [apply, hpush]
  refine ⟨_, rfl, hsize, hroom, hlimit, hnewlt, ?_, ?_, ?_⟩
  · intro i (hi : t.saved.u_size ≤ i)
    exact (hstack i (by omega)).trans (h.unused i hi)
  · intro i (hi : i ≤ new) hheld
    change Function.update t.pushedAt new (t.pushes + 1) i + (new - i) ≤ t.pushes + 1
    rcases eq_or_ne i new with rfl | hne
    · rw [Function.update_self]
      omega
    · -- the new top is not the bottom, so nothing has wrapped
      rw [hpushed i hne]
      have hold := h.below i (by split at hnew <;> omega) (by rwa [← hstack i hne])
      split at hnew <;> omega
  · intro i (hi : new < i) hheld
    change Function.update t.pushedAt new (t.pushes + 1) i + (new + SaveStackSize - i) ≤
      t.pushes + 1
    have hne : i ≠ new := by omega
    rw [hpushed i hne]
    have hstill : t.saved.stack i ≠ none := by rwa [← hstack i hne]
    rcases Nat.lt_or_ge t.saved.top i with habove | hbelow
    · have hold := h.above i habove hstill
      split at hnew <;> omega
    · have hold := h.below i hbelow hstill
      split at hnew <;> omega

/-! ## Removing -/

theorem searchFrom_spec (count : ℕ) (hroom : i + count ≤ s.allocSize) (element : ObjectRef) :
    searchFrom s element count i = some s ∨
      ∃ j, searchFrom s element count i =
        some { s with stack := Function.update s.stack j none } := by
  induction count generalizing i with
  | zero => exact .inl rfl
  | succ count ih =>
      rw [searchFrom, read_eq (by omega)]
      by_cases hfound : s.stack i = some element
      · apply Or.inr
        refine ⟨i, ?_⟩
        simp only [Option.bind_eq_bind, Option.bind_some, if_pos hfound]
        exact store_eq (by omega) none
      · simp only [Option.bind_eq_bind, Option.bind_some, if_neg hfound]
        exact ih (by omega)

theorem Sound.clear (h : Sound t) (j : ℕ) :
    Sound { t with saved := { t.saved with
      stack := Function.update t.saved.stack j none } } := by
  have hheld : ∀ i, Function.update t.saved.stack j none i ≠ none → t.saved.stack i ≠ none := by
    intro i hi hnone
    rcases eq_or_ne i j with rfl | hne
    · exact hi (Function.update_self ..)
    · exact hi ((Function.update_of_ne hne _ _).trans hnone)
  refine ⟨h.size, h.room, h.limit, h.top, ?_, ?_, ?_⟩
  · intro i hi
    by_contra hsome
    exact hheld i hsome (h.unused i hi)
  · intro i hi hsome
    exact h.below i hi (hheld i hsome)
  · intro i hi hsome
    exact h.above i hi (hheld i hsome)

theorem remove_sound (h : Sound t) {search : Bool}
    (hbottom : ¬ (t.saved.top = 0 ∧ t.saved.stack 0 = some element)) :
    ∃ t', apply t (.remove element search) = some (t', none) ∧ Sound t' := by
  have hroom := h.room
  have htop := h.top
  have hlimit := h.limit
  have hread : read t.saved t.saved.top = some (t.saved.stack t.saved.top) :=
    read_eq (by omega)
  by_cases hfound : t.saved.stack t.saved.top = some element
  · have hpositive : t.saved.top ≠ 0 := by
      intro hzero
      rw [hzero] at hfound
      exact hbottom ⟨hzero, hfound⟩
    have hmod : (t.saved.top + (sizeLimit - 1)) % sizeLimit = t.saved.top - 1 := by
      have hsum : t.saved.top + (sizeLimit - 1) = t.saved.top - 1 + sizeLimit := by
        simp only [sizeLimit]
        omega
      rw [hsum, Nat.add_mod_right]
      exact Nat.mod_eq_of_lt (by omega)
    have hclear := h.clear t.saved.top
    refine ⟨{ t with saved := { t.saved with
      top := t.saved.top - 1
      stack := Function.update t.saved.stack t.saved.top none } }, ?_, ?_⟩
    · simp only [apply, remove, hread, Option.bind_eq_bind, Option.bind_some, if_pos hfound,
        store_eq (Nat.lt_of_lt_of_le htop hroom), hmod]
      rfl
    · refine ⟨h.size, h.room, h.limit, ?_, hclear.unused, ?_, ?_⟩
      · change t.saved.top - 1 < t.saved.u_size
        omega
      · intro i (hi : i ≤ t.saved.top - 1) hheld
        have hold := hclear.below i (by change i ≤ t.saved.top; omega) hheld
        change t.pushedAt i + (t.saved.top - i) ≤ t.pushes at hold
        change t.pushedAt i + (t.saved.top - 1 - i) ≤ t.pushes
        omega
      · intro i (hi : t.saved.top - 1 < i) hheld
        change t.pushedAt i + (t.saved.top - 1 + SaveStackSize - i) ≤ t.pushes
        rcases eq_or_ne i t.saved.top with rfl | hne
        · exact absurd (Function.update_self ..) hheld
        · have hold := hclear.above i (by change t.saved.top < i; omega) hheld
          change t.pushedAt i + (t.saved.top + SaveStackSize - i) ≤ t.pushes at hold
          omega
  · cases search with
    | false =>
        refine ⟨t, ?_, h⟩
        simp only [apply, remove, hread, Option.bind_eq_bind, Option.bind_some, if_neg hfound]
        rfl
    | true =>
        have hremove : remove t.saved element true =
            searchFrom t.saved element t.saved.u_size 0 := by
          simp only [remove, hread, Option.bind_eq_bind, Option.bind_some, if_neg hfound]
          rfl
        simp only [apply, hremove]
        have hslots : 0 + t.saved.u_size ≤ t.saved.allocSize := by omega
        rcases searchFrom_spec t.saved.u_size hslots element with hsame | ⟨j, hcleared⟩
        · rw [hsame]
          exact ⟨t, rfl, h⟩
        · rw [hcleared]
          exact ⟨_, rfl, h.clear j⟩

theorem extendSaveStack_sound (h : Sound t) (inc : ℕ) :
    ∃ t', apply t (.extendSaveStack inc) = some (t', none) ∧ Sound t' := by
  refine ⟨_, rfl, ?_⟩
  have hsize := h.size
  have htop := h.top
  by_cases hgrow : t.saved.u_size - SaveStackSize < inc
  · rw [extendSaveStack, if_pos hgrow]
    by_cases hfits : SaveStackSize + inc < t.saved.allocSize
    · rw [extend, if_pos hfits]
      refine ⟨Nat.le_add_right _ _, Nat.le_of_lt hfits, h.limit, ?_, ?_, h.below, h.above⟩
      · change t.saved.top < SaveStackSize + inc
        omega
      · intro i (hi : SaveStackSize + inc ≤ i)
        exact h.unused i (by omega)
    · rw [extend, if_neg hfits]
      exact h
  · rw [extendSaveStack, if_neg hgrow]
    exact h

/-! ## Collecting -/

structure Collected (s : SaveStack) (heap : Heap) (n : ℕ) (s' : SaveStack) (heap' : Heap) :
    Prop where
  stack : s' = { s with stack := fun i => if i < n then none else s.stack i }
  largeString : heap'.largeString = heap.largeString
  marked : ∀ o, heap.marked o = true → heap'.marked o = true
  held : ∀ i < n, ∀ o, s.stack i = some o → heap'.marked o = true ∨
    (heap.marked o = false ∧ heap.largeString o = true ∧ clearedOut s.top i = true)

theorem liveSlot_collected (hn : n < s.allocSize) (h : Collected s heap n s' heap') :
    ∃ s'' heap'', liveSlot s' heap' n = some (s'', heap'') ∧
      Collected s heap (n + 1) s'' heap'' := by
  obtain ⟨rfl, hlarge, hmarked, hheld⟩ := h
  generalize hs' : ({ s with stack := fun i => if i < n then none else s.stack i } : SaveStack) = s'
  have hslot : s'.stack n = s.stack n := by
    rw [← hs']
    exact if_neg (Nat.lt_irrefl n)
  have hread : read s' n = some (s.stack n) := by
    rw [← hslot]
    exact read_eq (by rw [← hs']; exact hn)
  have hcleared : store s' n none =
      some { s with stack := fun i => if i < n + 1 then none else s.stack i } := by
    rw [store_eq (by rw [← hs']; exact hn), ← hs']
    congr 2
    funext i
    rcases eq_or_ne i n with rfl | hne
    · rw [Function.update_self, if_pos (Nat.lt_succ_self i)]
    · rw [Function.update_of_ne hne]
      simp only
      split <;> split <;> first | rfl | omega
  have htop : s'.top = s.top := by rw [← hs']
  have hearlier : ∀ i < n + 1, i ≠ n → i < n := by omega
  simp only [liveSlot, hread, Option.bind_eq_bind, Option.bind_some]
  cases hentry : s.stack n with
  | none =>
      have hsame : s' = { s with stack := fun i => if i < n + 1 then none else s.stack i } := by
        rw [← hs']
        congr 1
        funext i
        rcases eq_or_ne i n with rfl | hne
        · simp [hentry]
        · split <;> split <;> first | rfl | omega
      refine ⟨s', heap', rfl, hsame, hlarge, hmarked, ?_⟩
      intro i hi o ho
      rcases eq_or_ne i n with rfl | hne
      · rw [hentry] at ho
        cases ho
      · exact hheld i (hearlier i hi hne) o ho
  | some thisObject =>
      have hothers : ∀ {P : ℕ → ObjectRef → Prop}, P n thisObject →
          (∀ i < n, ∀ o, s.stack i = some o → P i o) →
            ∀ i < n + 1, ∀ o, s.stack i = some o → P i o := by
        intro P hself hrest i hi o ho
        rcases eq_or_ne i n with rfl | hne
        · rw [hentry] at ho
          cases ho
          exact hself
        · exact hrest i (hearlier i hi hne) o ho
      simp only [hcleared, Option.bind_some, hlarge, htop]
      by_cases hmark : heap'.marked thisObject = true
      · rw [if_pos hmark]
        exact ⟨_, _, rfl, rfl, hlarge, hmarked, hothers (.inl hmark) hheld⟩
      · rw [if_neg hmark]
        have hfresh : heap.marked thisObject = false := by
          cases hold : heap.marked thisObject with
          | false => rfl
          | true => exact absurd (hmarked thisObject hold) hmark
        by_cases hdrop : (heap.largeString thisObject && clearedOut s.top n) = true
        · rw [if_pos hdrop]
          have hboth := Bool.and_eq_true_iff.mp hdrop
          exact ⟨_, _, rfl, rfl, hlarge, hmarked,
            hothers (.inr ⟨hfresh, hboth.1, hboth.2⟩) hheld⟩
        · rw [if_neg hdrop]
          have hgrown : ∀ o, heap'.marked o = true → (heap'.mark thisObject).marked o = true := by
            intro o ho
            rcases eq_or_ne o thisObject with rfl | hne
            · exact Function.update_self ..
            · exact (Function.update_of_ne hne _ _).trans ho
          refine ⟨_, _, rfl, rfl, hlarge, fun o ho => hgrown o (hmarked o ho), ?_⟩
          apply hothers
          · exact .inl (Function.update_self ..)
          · intro i hi o ho
            exact (hheld i hi o ho).imp_left (hgrown o)

theorem liveLoop_collected (s : SaveStack) (heap : Heap) (hn : n ≤ s.allocSize) :
    ∃ s' heap', liveLoop s heap n = some (s', heap') ∧ Collected s heap n s' heap' := by
  induction n with
  | zero =>
      refine ⟨s, heap, rfl, ?_, rfl, fun _ ho => ho, ?_⟩
      · simp
      · intro i hi
        exact absurd hi (Nat.not_lt_zero i)
  | succ n ih =>
      obtain ⟨s', heap', hloop, hcollected⟩ := ih (by omega)
      rw [liveLoop, hloop]
      exact liveSlot_collected (by omega) hcollected

/-- The condition under which an operation keeps the top inside the stack and the element at
the top alive. -/
def Spared (t : Traced) : Operation → Prop
  | .push _ => True
  | .remove element _ => ¬ (t.saved.top = 0 ∧ t.saved.stack 0 = some element)
  | .extendSaveStack _ => True
  | .live heap => t.saved.top < SAVE_THRESHOLD → ∀ o, t.saved.stack t.saved.top = some o →
      heap.marked o = false → heap.largeString o = true →
        ∃ j < t.saved.u_size, t.saved.stack j = some o ∧
          (j < t.saved.top ∨ SAVE_THRESHOLD ≤ j)

/-- A collection from `t` marks what the stack holds, old large strings apart, and lets go. -/
structure Protects (t : Traced) (heap : Heap) (t' : Traced) (heap' : Heap) : Prop where
  held : ∀ i o, t.saved.stack i = some o → heap'.marked o = true ∨
    (heap.marked o = false ∧ heap.largeString o = true ∧
      t.pushedAt i + SAVE_THRESHOLD ≤ t.pushes)
  released : ∀ i, t'.saved.stack i = none

theorem clearedOut_cases {top i : ℕ} (h : clearedOut top i = true) :
    i + SAVE_THRESHOLD < top ∨ (top < SAVE_THRESHOLD ∧ (i = top ∨
      (top < i ∧ i < SAVE_THRESHOLD))) := by
  rw [clearedOut] at h
  rcases Nat.lt_or_ge i top with hbelow | habove
  · rw [if_pos hbelow, decide_eq_true_iff] at h
    simp only [SAVE_THRESHOLD] at h ⊢
    omega
  · rw [if_neg (Nat.not_lt.mpr habove), Bool.and_eq_true_iff, decide_eq_true_iff,
      decide_eq_true_iff] at h
    simp only [SAVE_THRESHOLD] at h ⊢
    omega

theorem not_clearedOut {top i : ℕ} (htop : top < SAVE_THRESHOLD)
    (hi : i < top ∨ SAVE_THRESHOLD ≤ i) : clearedOut top i = false := by
  cases hcleared : clearedOut top i with
  | false => rfl
  | true =>
      have := clearedOut_cases hcleared
      omega

theorem live_protects (h : Sound t) (hspared : Spared t (.live heap)) :
    ∃ t' heap', apply t (.live heap) = some (t', some heap') ∧ Sound t' ∧
      Protects t heap t' heap' := by
  obtain ⟨s', heap', hlive, hcollected⟩ := liveLoop_collected t.saved heap h.room
  have hreleased : ∀ i, s'.stack i = none := by
    intro i
    rw [hcollected.stack]
    change (if i < t.saved.u_size then none else t.saved.stack i) = none
    rcases Nat.lt_or_ge i t.saved.u_size with hi | hi
    · rw [if_pos hi]
    · rw [if_neg (Nat.not_lt.mpr hi)]
      exact h.unused i hi
  refine ⟨{ t with saved := s' }, heap', ?_, ?_, ?_, hreleased⟩
  · rw [apply, live, hlive]
    rfl
  · refine ⟨?_, ?_, ?_, ?_, fun i _ => hreleased i, fun i _ hi => absurd (hreleased i) hi,
      fun i _ hi => absurd (hreleased i) hi⟩ <;> rw [hcollected.stack]
    · exact h.size
    · exact h.room
    · exact h.limit
    · exact h.top
  · intro i o ho
    have hsome : t.saved.stack i ≠ none := by simp [ho]
    have hi : i < t.saved.u_size := by
      by_contra hout
      exact hsome (h.unused i (Nat.not_lt.mp hout))
    rcases hcollected.held i hi o ho with hmark | ⟨hfresh, hlarge, hcleared⟩
    · exact .inl hmark
    · rcases clearedOut_cases hcleared with hfar | ⟨hnear, rfl | ⟨habove, hbound⟩⟩
      · -- no wrap between the slot and the top
        have hold := h.below i (by omega) hsome
        exact .inr ⟨hfresh, hlarge, by omega⟩
      · obtain ⟨j, hj, hsame, hplace⟩ := hspared hnear o ho hfresh hlarge
        rcases hcollected.held j hj o hsame with hmark | ⟨-, -, hdropped⟩
        · exact .inl hmark
        · rw [not_clearedOut hnear hplace] at hdropped
          cases hdropped
      · -- a slot that the last round filled
        have hold := h.above i habove hsome
        simp only [SAVE_THRESHOLD, SaveStackSize] at hold hbound ⊢
        exact .inr ⟨hfresh, hlarge, by omega⟩

def Outcome (t : Traced) : Operation → Traced → Option Heap → Prop
  | .live heap, t', heap' => ∃ marked, heap' = some marked ∧ Protects t heap t' marked
  | _, _, heap' => heap' = none

theorem apply_sound (h : Sound t) {operation : Operation} (hspared : Spared t operation) :
    ∃ t' heap, apply t operation = some (t', heap) ∧ Sound t' ∧ Outcome t operation t' heap := by
  cases operation with
  | push obj =>
      obtain ⟨t', happly, hsound⟩ := push_sound h obj
      exact ⟨t', none, happly, hsound, rfl⟩
  | remove element search =>
      obtain ⟨t', happly, hsound⟩ := remove_sound h hspared
      exact ⟨t', none, happly, hsound, rfl⟩
  | extendSaveStack inc =>
      obtain ⟨t', happly, hsound⟩ := extendSaveStack_sound h inc
      exact ⟨t', none, happly, hsound, rfl⟩
  | live heap =>
      obtain ⟨t', heap', happly, hsound, hprotects⟩ := live_protects h hspared
      exact ⟨t', some heap', happly, hsound, heap', rfl, hprotects⟩

inductive Reached : Traced → Prop where
  | initial : Reached Traced.initial
  | step {t t' : Traced} {operation : Operation} {heap : Option Heap} (h : Reached t)
      (hspared : Spared t operation) (happly : apply t operation = some (t', heap)) : Reached t'

theorem Reached.sound (h : Reached t) : Sound t := by
  induction h with
  | initial => exact .initial
  | step h hspared happly ih =>
      obtain ⟨t', heap, happly', hsound, -⟩ := apply_sound ih hspared
      rw [happly] at happly'
      obtain ⟨rfl, -⟩ := Prod.mk.inj (Option.some.inj happly')
      exact hsound

inductive Reachable : Traced → Prop where
  | initial : Reachable Traced.initial
  | step {t t' : Traced} {operation : Operation} {heap : Option Heap} (h : Reachable t)
      (happly : apply t operation = some (t', heap)) : Reachable t'

def next (t : Traced) (operation : Operation) : Traced :=
  ((apply t operation).getD (t, none)).1

def pushAll : ℕ → Traced
  | 0 => Traced.initial
  | n + 1 => next (pushAll n) (.push n)

theorem pushAll_sound (n : ℕ) : Reachable (pushAll n) ∧ Sound (pushAll n) := by
  induction n with
  | zero => exact ⟨.initial, .initial⟩
  | succ n ih =>
      obtain ⟨t', happly, hsound⟩ := push_sound ih.2 n
      have hnext : pushAll (n + 1) = t' := by rw [pushAll, next, happly]; rfl
      rw [hnext]
      exact ⟨.step ih.1 happly, hsound⟩

def largeStrings : Heap := { marked := fun _ => false, largeString := fun _ => true }

end RexxSaveStack

end LeooRexx
