import LeooRexx.Classes.RexxListSlots

/-!
# Queues

`RexxQueue`: a list whose indices are the positions of the items.  A position is found by walking
the chain of the items.  Each method is compared with the sequence of the items.
-/

namespace LeooRexx

open Chain

inductive QueueError where
  | Error_Incorrect_method_noarg (position : ℕ)
  | Error_Incorrect_method_queue_index (index : ListIndex)
  deriving DecidableEq

namespace RexxQueue

variable {ν : Type}

/-- The loop of `locateEntry` from a slot on; the fuel bounds the number of slots. -/
def locateFrom (t : RexxList ν) : ℕ → Int → Int → Option Int
  | 0, _, _ => none
  | fuel + 1, item_index, listIndex =>
      if listIndex = RexxList.listEnd then none
      else if item_index - 1 = 0 then some listIndex
      else locateFrom t fuel (item_index - 1) (t.entries listIndex).next

def locateEntry (t : RexxList ν) (index : ListIndex) (position : ℕ) :
    Except QueueError (Option Int) :=
  match index with
  | .omitted => .error (.Error_Incorrect_method_noarg position)
  | .nil | .other => .error (.Error_Incorrect_method_queue_index index)
  | .integer item_index =>
      if item_index < 1 then .error (.Error_Incorrect_method_queue_index index)
      else .ok (locateFrom t (t.count + 1) item_index t.first)

/-- The loop of `entryToIndex` from a slot on. -/
def entryToIndexFrom (t : RexxList ν) (target : Int) : ℕ → ℕ → Int → ℕ
  | 0, _, _ => 0
  | fuel + 1, counter, current =>
      if current = RexxList.listEnd then 0
      else if current = target then counter + 1
      else entryToIndexFrom t target fuel (counter + 1) (t.entries current).next

def entryToIndex (t : RexxList ν) (target : Int) : ℕ :=
  entryToIndexFrom t target (t.count + 1) 0 t.first

def queue (t : RexxList ν) (item : ν) : RexxList ν := t.addLast item

def push (t : RexxList ν) (item : ν) : RexxList ν := t.addFirst item

def append (t : RexxList ν) (item : ν) : RexxList ν × ℕ :=
  let t := queue t item
  (t, t.count)

/-- `none` is `.nil`. -/
def pull (t : RexxList ν) : RexxList ν × Option ν :=
  if t.first = RexxList.listEnd then (t, none) else t.removeSlot t.first

def insert (t : RexxList ν) (value : ν) (index : ListIndex) :
    RexxList ν × Except QueueError ℕ :=
  let (t, new_index) := t.getFree
  let element : Except QueueError (Option Int) :=
    match index with
    | .nil => .ok none
    | .omitted => if t.last = RexxList.listEnd then .ok none else .ok (some t.last)
    | index =>
        match locateEntry t index 2 with
        | .ok none => .error (.Error_Incorrect_method_queue_index index)
        | element => element
  match element with
  | .error e => (t, .error e)
  | .ok element =>
      let t := t.fill new_index value
      let t :=
        match element with
        | none => if t.last = RexxList.listEnd then t.linkOnly new_index else t.linkFront new_index
        | some element => t.linkAfter element new_index
      (t, .ok (entryToIndex t new_index))

def remove (t : RexxList ν) (index : ListIndex) :
    RexxList ν × Except QueueError (Option ν) :=
  match locateEntry t index 1 with
  | .error e => (t, .error e)
  | .ok list_index =>
      let (t, value) := t.primitiveRemove list_index
      (t, .ok value)

/-! ## The items -/

structure Holds (t : RexxList ν) (l : List Int) (xs : List ν) : Prop where
  slots : ∃ f d, t.Slots l f d
  values : l.map (fun i => (t.entries i).value) = xs.map some

variable {t t' : RexxList ν} {l l' f d : List Int} {xs : List ν} {value : ν} {x : Int} {n : ℕ}

theorem Holds.length (h : Holds t l xs) : l.length = xs.length := by
  have hlength := congrArg List.length h.values
  simpa using hlength

theorem Holds.count (h : Holds t l xs) : t.count = xs.length := by
  obtain ⟨f, d, hslots⟩ := h.slots
  exact hslots.count.trans h.length

theorem init_holds : Holds (RexxList.init : RexxList ν) [] [] :=
  ⟨⟨_, _, RexxList.init_slots⟩, rfl⟩

theorem locateFrom_eq {fuel : ℕ} {p : Int} (hl : Segment t.nextLink (RexxList.ptr p) l none)
    (hfuel : l.length < fuel) : locateFrom t fuel (n + 1) p = l[n]? := by
  induction l generalizing fuel p n with
  | nil =>
      obtain ⟨fuel, rfl⟩ := Nat.exists_eq_succ_of_ne_zero (Nat.ne_of_gt hfuel)
      rw [locateFrom, if_pos (RexxList.ptr_eq_none.mp hl)]
      rfl
  | cons i l ih =>
      obtain ⟨fuel, rfl⟩ := Nat.exists_eq_succ_of_ne_zero (Nat.ne_zero_of_lt hfuel)
      obtain ⟨hp, hl⟩ := hl
      obtain ⟨rfl, hend⟩ := RexxList.ptr_eq_some.mp hp
      rw [locateFrom, if_neg hend]
      cases n with
      | zero => rfl
      | succ n =>
          have hne : ¬ (((n + 1 : ℕ) : Int) + 1 - 1 = 0) := by omega
          have hstep : (((n + 1 : ℕ) : Int) + 1 - 1) = (n : Int) + 1 := by omega
          rw [if_neg hne, hstep]
          exact ih hl (Nat.lt_of_succ_lt_succ hfuel)

theorem locateEntry_eq (h : t.Slots l f d) (position : ℕ) :
    locateEntry t (.integer (n + 1)) position = .ok l[n]? := by
  have hone : ¬ ((n : Int) + 1 < 1) := by omega
  rw [locateEntry, if_neg hone, h.count]
  exact congrArg Except.ok (locateFrom_eq h.items.chain.forward (Nat.lt_succ_self _))

theorem entryToIndexFrom_eq {fuel counter : ℕ} {p : Int} {pre post : List Int}
    (hl : Segment t.nextLink (RexxList.ptr p) (pre ++ x :: post) none)
    (hfuel : (pre ++ x :: post).length < fuel) :
    entryToIndexFrom t x fuel counter p = counter + pre.length + 1 := by
  have hnodup := hl.nodup
  induction pre generalizing fuel counter p with
  | nil =>
      obtain ⟨fuel, rfl⟩ := Nat.exists_eq_succ_of_ne_zero (Nat.ne_zero_of_lt hfuel)
      obtain ⟨rfl, hend⟩ := RexxList.ptr_eq_some.mp hl.1
      rw [entryToIndexFrom, if_neg hend, if_pos rfl]
      rfl
  | cons i pre ih =>
      obtain ⟨fuel, rfl⟩ := Nat.exists_eq_succ_of_ne_zero (Nat.ne_zero_of_lt hfuel)
      obtain ⟨hp, hl⟩ := hl
      obtain ⟨rfl, hend⟩ := RexxList.ptr_eq_some.mp hp
      have hnodup := List.nodup_cons.mp hnodup
      have hne : p ≠ x := by
        intro hpx
        exact hnodup.1 (hpx ▸ List.mem_append_right pre List.mem_cons_self)
      rw [entryToIndexFrom, if_neg hend, if_neg hne,
        ih hl (Nat.lt_of_succ_lt_succ hfuel) hnodup.2, List.length_cons]
      omega

theorem entryToIndex_eq {pre post : List Int} (h : t.Slots (pre ++ x :: post) f d) :
    entryToIndex t x = pre.length + 1 := by
  rw [entryToIndex, entryToIndexFrom_eq h.items.chain.forward]
  · rw [Nat.zero_add]
  · rw [h.count]
    exact Nat.lt_succ_self _

/-! ## Methods and sequences -/

/-- The list holds the items `xs` in this order. -/
def IsQueue (t : RexxList ν) (xs : List ν) : Prop := ∃ l, Holds t l xs

theorem IsQueue.count (h : IsQueue t xs) : t.count = xs.length := by
  obtain ⟨l, hl⟩ := h
  exact hl.count

theorem Holds.gain {pre post : List Int} (h : Holds t (pre ++ post) xs)
    (hgained : RexxList.Gained t t' (pre ++ post) (pre ++ x :: post) d x value) :
    Holds t' (pre ++ x :: post) (xs.take pre.length ++ value :: xs.drop pre.length) := by
  obtain ⟨f, hslots⟩ := hgained.slots
  refine ⟨⟨f, d, hslots⟩, ?_⟩
  have hkept : ∀ k, k ∈ pre ∨ k ∈ post → (t'.entries k).value = (t.entries k).value :=
    fun k hk => hgained.value_of k (List.mem_append.mpr hk)
  have hvalues := h.values
  rw [List.map_append] at hvalues
  have hfront : pre.map (fun i => (t.entries i).value) = (xs.take pre.length).map some := by
    rw [List.map_take, ← hvalues, List.take_left' (List.length_map _)]
  have hback : post.map (fun i => (t.entries i).value) = (xs.drop pre.length).map some := by
    rw [List.map_drop, ← hvalues, List.drop_left' (List.length_map _)]
  rw [List.map_append, List.map_cons, hgained.value_self, List.map_append, List.map_cons,
    ← hfront, ← hback, List.map_congr_left fun k hk => hkept k (.inl hk),
    List.map_congr_left fun k hk => hkept k (.inr hk)]

theorem queue_spec (h : IsQueue t xs) (item : ν) : IsQueue (queue t item) (xs ++ [item]) := by
  obtain ⟨l, hl⟩ := h
  obtain ⟨f, d, hslots⟩ := hl.slots
  obtain ⟨x, hgained⟩ := RexxList.addLast_spec hslots item
  have hall : Holds t (l ++ []) xs := by rwa [List.append_nil]
  have hnew := hall.gain (by rwa [List.append_nil])
  rw [hl.length, List.take_length, List.drop_length] at hnew
  exact ⟨_, hnew⟩

theorem push_spec (h : IsQueue t xs) (item : ν) : IsQueue (push t item) (item :: xs) := by
  obtain ⟨l, hl⟩ := h
  obtain ⟨f, d, hslots⟩ := hl.slots
  obtain ⟨x, hgained⟩ := RexxList.addFirst_spec hslots item
  have hall : Holds t ([] ++ l) xs := hl
  exact ⟨_, hall.gain hgained⟩

theorem append_spec (h : IsQueue t xs) (item : ν) :
    IsQueue (append t item).1 (xs ++ [item]) ∧ (append t item).2 = xs.length + 1 := by
  have hqueue := queue_spec h item
  refine ⟨hqueue, hqueue.count.trans ?_⟩
  exact List.length_append

theorem Holds.removeSlot {pre post : List Int} (h : Holds t (pre ++ x :: post) xs) :
    Holds (t.removeSlot x).1 (pre ++ post) (xs.eraseIdx pre.length) ∧
      (t.removeSlot x).2 = xs[pre.length]? := by
  obtain ⟨f, d, hslots⟩ := h.slots
  obtain ⟨hremoved, hvalue, hvalues⟩ := RexxList.removeSlot_spec hslots
  have hall := h.values
  constructor
  · refine ⟨⟨_, _, hremoved⟩, ?_⟩
    have herase : (pre ++ x :: post).eraseIdx pre.length = pre ++ post := by
      rw [List.eraseIdx_append_of_length_le (Nat.le_refl _), Nat.sub_self]
      rfl
    rw [← List.eraseIdx_map, ← hall, List.eraseIdx_map, herase]
    exact List.map_congr_left fun k _ => hvalues k
  · have hat := congrArg (fun values => values[pre.length]?) hall
    simp only [List.getElem?_map] at hat
    rw [List.getElem?_append_right (Nat.le_refl _), Nat.sub_self] at hat
    rw [hvalue]
    cases hx : xs[pre.length]? with
    | none =>
        rw [hx] at hat
        cases hat
    | some item =>
        rw [hx] at hat
        exact Option.some.inj hat

theorem pull_spec (h : IsQueue t xs) :
    IsQueue (pull t).1 xs.tail ∧ (pull t).2 = xs.head? := by
  obtain ⟨l, hl⟩ := h
  obtain ⟨f, d, hslots⟩ := hl.slots
  have hlength := hl.length
  cases l with
  | nil =>
      obtain rfl := List.length_eq_zero_iff.mp hlength.symm
      rw [pull, if_pos (hslots.items.first_eq_listEnd.mpr rfl)]
      exact ⟨⟨[], hl⟩, rfl⟩
  | cons i l =>
      have hfirst := hslots.items.first_eq
      have hend : ¬ t.first = RexxList.listEnd := by
        intro hend
        exact absurd (hslots.items.first_eq_listEnd.mp hend) (List.cons_ne_nil i l)
      have hwhole : Holds t ([] ++ i :: l) xs := hl
      obtain ⟨hremoved, hvalue⟩ := hwhole.removeSlot
      rw [pull, if_neg hend, hfirst]
      refine ⟨⟨l, ?_⟩, ?_⟩
      · rw [← List.eraseIdx_zero]
        exact hremoved
      · rw [hvalue]
        exact List.head?_eq_getElem?.symm

/-- The position of an index argument; `none` is behind the end. -/
def position (index : ListIndex) (argument : ℕ) : Except QueueError ℕ :=
  match index with
  | .omitted => .error (.Error_Incorrect_method_noarg argument)
  | .nil | .other => .error (.Error_Incorrect_method_queue_index index)
  | .integer item_index =>
      if item_index < 1 then .error (.Error_Incorrect_method_queue_index index)
      else .ok (item_index - 1).toNat

theorem locateEntry_position (h : t.Slots l f d) (index : ListIndex) (argument : ℕ) :
    locateEntry t index argument = (position index argument).map (l[·]?) := by
  cases index with
  | omitted => rfl
  | nil => rfl
  | other => rfl
  | integer item_index =>
      rw [position]
      split
      next hneg =>
        rw [locateEntry, if_pos hneg]
        rfl
      next hpos =>
        have hnat : item_index = ((item_index - 1).toNat : Int) + 1 := by omega
        rw [hnat, locateEntry_eq h]
        simp [Except.map]

def removeAt (xs : List ν) (index : ListIndex) : List ν × Except QueueError (Option ν) :=
  match position index 1 with
  | .error e => (xs, .error e)
  | .ok n => (xs.eraseIdx n, .ok xs[n]?)

theorem remove_spec (h : IsQueue t xs) (index : ListIndex) :
    IsQueue (remove t index).1 (removeAt xs index).1 ∧
      (remove t index).2 = (removeAt xs index).2 := by
  obtain ⟨l, hl⟩ := h
  obtain ⟨f, d, hslots⟩ := hl.slots
  rw [remove, removeAt, locateEntry_position hslots]
  cases hposition : position index 1 with
  | error e => exact ⟨⟨l, hl⟩, rfl⟩
  | ok n =>
      simp only [Except.map]
      cases hn : l[n]? with
      | none =>
          have hlength : xs.length ≤ n := hl.length ▸ List.getElem?_eq_none_iff.mp hn
          rw [List.eraseIdx_of_length_le hlength, List.getElem?_eq_none_iff.mpr hlength]
          exact ⟨⟨l, hl⟩, rfl⟩
      | some x =>
          obtain ⟨hlt, hx⟩ := List.getElem?_eq_some_iff.mp hn
          have hsplit : l = l.take n ++ x :: l.drop (n + 1) := by
            rw [← hx, List.getElem_cons_drop, List.take_append_drop]
          have htake : (l.take n).length = n := List.length_take_of_le (Nat.le_of_lt hlt)
          rw [hsplit] at hl
          obtain ⟨hremoved, hvalue⟩ := hl.removeSlot
          rw [htake] at hremoved hvalue
          exact ⟨⟨_, hremoved⟩, congrArg Except.ok hvalue⟩

def place (items : ℕ) (index : ListIndex) : Except QueueError ℕ :=
  match index with
  | .nil => .ok 0
  | .omitted => .ok items
  | index =>
      match position index 2 with
      | .error e => .error e
      | .ok n =>
          if n < items then .ok (n + 1)
          else .error (.Error_Incorrect_method_queue_index index)

theorem place_le {items : ℕ} {index : ListIndex} (h : place items index = .ok n) :
    n ≤ items := by
  cases index with
  | nil =>
      obtain rfl := Except.ok.inj h
      exact Nat.zero_le _
  | omitted =>
      obtain rfl := Except.ok.inj h
      exact Nat.le_refl _
  | other => cases h
  | integer i =>
      cases hposition : position (.integer i) 2 with
      | error e => simp [place, hposition] at h
      | ok m =>
          simp only [place, hposition] at h
          split at h
          next hlt =>
            obtain rfl := Except.ok.inj h
            exact hlt
          next => cases h

def insertAt (xs : List ν) (value : ν) (index : ListIndex) : List ν × Except QueueError ℕ :=
  match place xs.length index with
  | .error e => (xs, .error e)
  | .ok n => (xs.take n ++ value :: xs.drop n, .ok (n + 1))

/-- The element that `insert` links the new slot behind. -/
def elementOf (t : RexxList ν) (index : ListIndex) : Except QueueError (Option Int) :=
  match index with
  | .nil => .ok none
  | .omitted => if t.last = RexxList.listEnd then .ok none else .ok (some t.last)
  | index =>
      match locateEntry t index 2 with
      | .ok none => .error (.Error_Incorrect_method_queue_index index)
      | element => element

theorem insert_eq (t : RexxList ν) (value : ν) (index : ListIndex) :
    insert t value index =
      match elementOf t.getFree.1 index with
      | .error e => (t.getFree.1, .error e)
      | .ok element =>
          let filled := t.getFree.1.fill t.getFree.2 value
          let linked :=
            match element with
            | none =>
                if filled.last = RexxList.listEnd then filled.linkOnly t.getFree.2
                else filled.linkFront t.getFree.2
            | some element => filled.linkAfter element t.getFree.2
          (linked, .ok (entryToIndex linked t.getFree.2)) := by
  cases index <;> rfl

theorem elementOf_eq (h : t.Slots l f d) (hlength : l.length = xs.length) (index : ListIndex) :
    elementOf t index = (place xs.length index).map fun n => if n = 0 then none else l[n - 1]? := by
  have hinteger : ∀ index, (match locateEntry t index 2 with
        | .ok none => .error (.Error_Incorrect_method_queue_index index)
        | element => element) =
      (match position index 2 with
        | .error e => .error e
        | .ok n =>
            if n < xs.length then .ok (n + 1)
            else .error (.Error_Incorrect_method_queue_index index) : Except QueueError ℕ).map
        fun n => if n = 0 then none else l[n - 1]? := by
    intro index
    rw [locateEntry_position h]
    cases position index 2 with
    | error e => rfl
    | ok n =>
        simp only [Except.map]
        rcases Nat.lt_or_ge n xs.length with hlt | hge
        · have hn : n < l.length := hlength ▸ hlt
          rw [if_pos hlt, List.getElem?_eq_getElem hn]
          simp [List.getElem?_eq_getElem hn]
        · rw [if_neg (Nat.not_lt.mpr hge), List.getElem?_eq_none_iff.mpr (hlength ▸ hge)]
  cases index with
  | nil => rfl
  | integer i => exact hinteger (.integer i)
  | other => exact hinteger .other
  | omitted =>
      rw [elementOf, place, ← hlength]
      rcases List.eq_nil_or_concat' l with rfl | ⟨l, i, rfl⟩
      · rw [if_pos (h.items.last_eq_listEnd.mpr rfl)]
        rfl
      · have hend : ¬ t.last = RexxList.listEnd := by
          intro hend
          exact absurd (h.items.last_eq_listEnd.mp hend) (by simp)
        rw [if_neg hend, h.items.last_eq]
        simp [Except.map]

theorem Holds.insert (h : Holds t l xs) (value : ν) (hn : n ≤ l.length) :
    ∃ l' linked, linked = (match if n = 0 then none else l[n - 1]? with
        | none =>
            if (t.getFree.1.fill t.getFree.2 value).last = RexxList.listEnd then
              (t.getFree.1.fill t.getFree.2 value).linkOnly t.getFree.2
            else (t.getFree.1.fill t.getFree.2 value).linkFront t.getFree.2
        | some element => (t.getFree.1.fill t.getFree.2 value).linkAfter element t.getFree.2) ∧
      Holds linked l' (xs.take n ++ value :: xs.drop n) ∧
      entryToIndex linked t.getFree.2 = n + 1 := by
  obtain ⟨f, d, hslots⟩ := h.slots
  obtain ⟨f', hget, hnew, hd, hkeep⟩ := RexxList.getFree_spec hslots
  have hx := ((hget.cover _).mpr (.inr (.inr List.mem_cons_self))).1
  have hfill := hget.items.fill t.getFree.2 value
  have hlinked : ∀ {linked : RexxList ν} {pre post : List Int}, l = pre ++ post →
      pre.length = n → linked.Items (pre ++ t.getFree.2 :: post) →
      RexxList.Relinked (pre ++ t.getFree.2 :: post) (t.getFree.1.fill t.getFree.2 value) linked →
      Holds linked (pre ++ t.getFree.2 :: post) (xs.take n ++ value :: xs.drop n) ∧
        entryToIndex linked t.getFree.2 = n + 1 := by
    rintro linked pre post rfl rfl hitems hlinks
    have hgained := RexxList.gain hget hd List.perm_middle hkeep hitems hlinks
    obtain ⟨f'', hslots'⟩ := hgained.slots
    exact ⟨h.gain hgained, entryToIndex_eq hslots'⟩
  cases n with
  | zero =>
      obtain ⟨hitems, hlinks⟩ := RexxList.linkFirst_spec hfill hx hnew
      exact ⟨_, _, rfl, hlinked (List.nil_append l).symm rfl hitems hlinks⟩
  | succ n =>
      have hlt : n < l.length := hn
      have hsplit : l = l.take n ++ l[n] :: l.drop (n + 1) := by
        rw [List.getElem_cons_drop, List.take_append_drop]
      have hat : l[n + 1 - 1]? = some l[n] := List.getElem?_eq_getElem hlt
      rw [if_neg (Nat.succ_ne_zero n), hat]
      have hlength : (l.take n ++ [l[n]]).length = n + 1 := by
        rw [List.length_append, List.length_take_of_le (Nat.le_of_lt hlt)]
        rfl
      rw [hsplit] at hfill hnew
      obtain ⟨hitems, hlinks⟩ := RexxList.linkAfter_spec hfill hx hnew
      have hregroup : ∀ post, l.take n ++ l[n] :: post = (l.take n ++ [l[n]]) ++ post :=
        fun post => by rw [List.append_assoc]; rfl
      rw [hregroup] at hitems hlinks hsplit
      exact ⟨_, _, rfl, hlinked hsplit hlength hitems hlinks⟩

theorem insert_spec (h : IsQueue t xs) (value : ν) (index : ListIndex) :
    IsQueue (insert t value index).1 (insertAt xs value index).1 ∧
      (insert t value index).2 = (insertAt xs value index).2 := by
  obtain ⟨l, hl⟩ := h
  obtain ⟨f, d, hslots⟩ := hl.slots
  obtain ⟨f', hget, hnew, hd, hkeep⟩ := RexxList.getFree_spec hslots
  rw [insert_eq, insertAt, elementOf_eq hget hl.length]
  cases hplace : place xs.length index with
  | error e =>
      -- the slot that was taken is lost
      refine ⟨⟨l, ⟨_, _, hget⟩, ?_⟩, rfl⟩
      rw [← hl.values]
      exact List.map_congr_left fun k hk => congrArg ListEntry.value (hkeep k hk)
  | ok n =>
      have hn : n ≤ l.length := hl.length ▸ place_le hplace
      obtain ⟨l', linked, hlinked, hholds, hindex⟩ := hl.insert value hn
      simp only [Except.map]
      rw [← hlinked]
      exact ⟨⟨l', hholds⟩, congrArg Except.ok hindex⟩

end RexxQueue

end LeooRexx
