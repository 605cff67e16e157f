import LeooRexx.Classes.RexxQueue

/-!
# Runs of queues

The methods of a queue beside those of a sequence with positions from 1 on.  An index argument is
translated to a slot by walking the chain of the items, and a slot back to its position.
-/

namespace LeooRexx

/-- What a method returns; no item and no index is `.nil`. -/
inductive QueueResult (ν : Type) where
  | none
  | item (item : Option ν)
  | index (index : Option ℕ)
  deriving DecidableEq

inductive QueueOp (ν : Type) where
  | queue (item : Option ν)
  | push (item : Option ν)
  | pull
  | put (value : Option ν) (index : ListIndex)
  | insert (value : Option ν) (index : ListIndex)
  | remove (index : ListIndex)
  | at (index : ListIndex)
  | next (index : ListIndex)
  | previous (index : ListIndex)
  | index (target : Option ν)

namespace RexxQueue

variable {ν : Type}

/-- `required_arg(value, ONE)`, and a method that goes on with the argument. -/
def required {σ α : Type} (t : σ) (value : Option ν) (method : ν → σ × Except QueueError α) :
    σ × Except QueueError α :=
  match value with
  | none => (t, .error (.Error_Incorrect_method_noarg 1))
  | some value => method value

/-- `put` of a value that is not omitted. -/
def put (t : RexxList ν) (index : ListIndex) (value : ν) : RexxList ν × Except QueueError Unit :=
  match locateEntry t index 2 with
  | .error e => (t, .error e)
  | .ok none => (t, .error (.Error_Incorrect_method_queue_index index))
  | .ok (some list_index) => (t.setValue list_index (some value), .ok ())

/-- `at`. -/
def itemAt (t : RexxList ν) (index : ListIndex) : Except QueueError (Option ν) :=
  (locateEntry t index 1).map fun list_index => list_index.bind fun i => (t.entries i).value

def locateItem (t : RexxList ν) (index : ListIndex) : Except QueueError Int :=
  match locateEntry t index 1 with
  | .error e => .error e
  | .ok none => .error (.Error_Incorrect_method_queue_index index)
  | .ok (some element) => .ok element

def neighbour (t : RexxList ν) (slot : Int) : Option ℕ :=
  if slot = RexxList.listEnd then none else some (entryToIndex t slot)

def next (t : RexxList ν) (index : ListIndex) : Except QueueError (Option ℕ) :=
  (locateItem t index).map fun element => neighbour t (t.entries element).next

def previous (t : RexxList ν) (index : ListIndex) : Except QueueError (Option ℕ) :=
  (locateItem t index).map fun element => neighbour t (t.entries element).previous

/-- The loop of `index`, from the position `i` and its slot on. -/
def indexFrom [BEq ν] (t : RexxList ν) (target : ν) : ℕ → ℕ → Int → Option ℕ
  | 0, _, _ => none
  | count + 1, i, next =>
      if ((t.entries next).value.any fun value => target == value) then some i
      else indexFrom t target count (i + 1) (t.entries next).next

def index [BEq ν] (t : RexxList ν) (target : ν) : Option ℕ := indexFrom t target t.count 1 t.first

def step [BEq ν] (t : RexxList ν) : QueueOp ν → RexxList ν × Except QueueError (QueueResult ν)
  | .queue item => required t item fun item => (queue t item, .ok .none)
  | .push item => required t item fun item => (push t item, .ok .none)
  | .pull => ((pull t).1, .ok (.item (pull t).2))
  | .put value index => required t value fun value =>
      ((put t index value).1, (put t index value).2.map fun _ => .none)
  | .insert value index => required t value fun value =>
      ((insert t value index).1, (insert t value index).2.map fun n => .index (some n))
  | .remove index => ((remove t index).1, (remove t index).2.map .item)
  | .at index => (t, (itemAt t index).map .item)
  | .next index => (t, (next t index).map .index)
  | .previous index => (t, (previous t index).map .index)
  | .index target => required t target fun target => (t, .ok (.index (index t target)))

def run [BEq ν] (t : RexxList ν) :
    List (QueueOp ν) → RexxList ν × List (Except QueueError (QueueResult ν))
  | [] => (t, [])
  | op :: ops => ((run (step t op).1 ops).1, (step t op).2 :: (run (step t op).1 ops).2)

end RexxQueue

/-! ## Sequences with positions -/

namespace Sequence

open RexxQueue

variable {ν : Type}

def locate (xs : List ν) (index : ListIndex) (argument : ℕ) : Except QueueError ℕ :=
  match position index argument with
  | .error e => .error e
  | .ok n => if n < xs.length then .ok n else .error (.Error_Incorrect_method_queue_index index)

def put (xs : List ν) (index : ListIndex) (value : ν) : List ν × Except QueueError Unit :=
  match locate xs index 2 with
  | .error e => (xs, .error e)
  | .ok n => (xs.set n value, .ok ())

def itemAt (xs : List ν) (index : ListIndex) : Except QueueError (Option ν) :=
  (position index 1).map fun n => xs[n]?

def next (xs : List ν) (index : ListIndex) : Except QueueError (Option ℕ) :=
  (locate xs index 1).map fun n => if n + 1 < xs.length then some (n + 2) else none

def previous (xs : List ν) (index : ListIndex) : Except QueueError (Option ℕ) :=
  (locate xs index 1).map fun n => if n = 0 then none else some n

def index [BEq ν] (xs : List ν) (target : ν) : Option ℕ :=
  (xs.findIdx? fun value => target == value).map (· + 1)

def step [BEq ν] (xs : List ν) : QueueOp ν → List ν × Except QueueError (QueueResult ν)
  | .queue item => required xs item fun item => (xs ++ [item], .ok .none)
  | .push item => required xs item fun item => (item :: xs, .ok .none)
  | .pull => (xs.tail, .ok (.item xs.head?))
  | .put value index => required xs value fun value =>
      ((put xs index value).1, (put xs index value).2.map fun _ => .none)
  | .insert value index => required xs value fun value =>
      ((insertAt xs value index).1, (insertAt xs value index).2.map fun n => .index (some n))
  | .remove index => ((removeAt xs index).1, (removeAt xs index).2.map .item)
  | .at index => (xs, (itemAt xs index).map .item)
  | .next index => (xs, (next xs index).map .index)
  | .previous index => (xs, (previous xs index).map .index)
  | .index target => required xs target fun target => (xs, .ok (.index (index xs target)))

def run [BEq ν] (xs : List ν) :
    List (QueueOp ν) → List ν × List (Except QueueError (QueueResult ν))
  | [] => (xs, [])
  | op :: ops => ((run (step xs op).1 ops).1, (step xs op).2 :: (run (step xs op).1 ops).2)

end Sequence

/-! ## The methods refine a sequence -/

namespace RexxQueue

open Chain

variable {ν : Type} {t : RexxList ν} {l f d : List Int} {xs : List ν} {n : ℕ}

theorem Holds.value_at (h : Holds t l xs) (n : ℕ) :
    (l[n]?.bind fun i => (t.entries i).value) = xs[n]? := by
  have hat := congrArg (fun values => values[n]?) h.values
  simp only [List.getElem?_map] at hat
  cases hx : xs[n]? with
  | none =>
      rw [hx, Option.map_none, Option.map_eq_none_iff] at hat
      rw [hat]
      rfl
  | some item =>
      rw [hx, Option.map_some] at hat
      obtain ⟨i, hi, hvalue⟩ := Option.map_eq_some_iff.mp hat
      rw [hi]
      exact hvalue

theorem itemAt_spec (h : Holds t l xs) (index : ListIndex) :
    itemAt t index = Sequence.itemAt xs index := by
  obtain ⟨f, d, hslots⟩ := h.slots
  rw [itemAt, Sequence.itemAt, locateEntry_position hslots]
  cases position index 1 with
  | error e => rfl
  | ok n => exact congrArg Except.ok (h.value_at n)

theorem exists_split (h : n < l.length) : ∃ pre x post, l = pre ++ x :: post ∧ pre.length = n := by
  refine ⟨l.take n, l[n], l.drop (n + 1), ?_, List.length_take_of_le (Nat.le_of_lt h)⟩
  rw [List.getElem_cons_drop, List.take_append_drop]

theorem locateItem_spec (h : Holds t l xs) (index : ListIndex) :
    (∃ e, locateItem t index = .error e ∧ Sequence.locate xs index 1 = .error e) ∨
      ∃ pre x post, l = pre ++ x :: post ∧ locateItem t index = .ok x ∧
        Sequence.locate xs index 1 = .ok pre.length := by
  obtain ⟨f, d, hslots⟩ := h.slots
  have hlength := h.length
  rw [locateItem, Sequence.locate, locateEntry_position hslots]
  cases position index 1 with
  | error e => exact .inl ⟨e, rfl, rfl⟩
  | ok n =>
      simp only [Except.map]
      rcases Nat.lt_or_ge n xs.length with hlt | hge
      · obtain ⟨pre, x, post, rfl, rfl⟩ := exists_split (hlength ▸ hlt)
        refine .inr ⟨pre, x, post, rfl, ?_, if_pos hlt⟩
        rw [List.getElem?_append_right (Nat.le_refl _), Nat.sub_self]
        rfl
      · refine .inl ⟨.Error_Incorrect_method_queue_index index, ?_, if_neg (Nat.not_lt.mpr hge)⟩
        rw [List.getElem?_eq_none_iff.mpr (hlength ▸ hge)]

theorem next_spec (h : Holds t l xs) (index : ListIndex) : next t index = Sequence.next xs index := by
  rw [next, Sequence.next]
  rcases locateItem_spec h index with ⟨e, he, he'⟩ | ⟨pre, x, post, rfl, hx, hn⟩
  · rw [he, he']
    rfl
  · obtain ⟨f, d, hslots⟩ := h.slots
    have hlength := h.length
    rw [hx, hn]
    refine congrArg Except.ok ?_
    change neighbour t (t.entries x).next = if pre.length + 1 < xs.length then _ else _
    rw [hslots.items.next_eq, ← hlength]
    cases post with
    | nil =>
        have hlast : ¬ pre.length + 1 < (pre ++ [x]).length := by simp
        rw [if_neg hlast]
        rfl
    | cons y post =>
        have hin : pre.length + 1 < (pre ++ x :: y :: post).length := by simp
        have hend : y ≠ RexxList.listEnd := by
          have hy := hslots.items.nonneg y (by simp)
          unfold RexxList.listEnd
          omega
        have hregroup : pre ++ x :: y :: post = (pre ++ [x]) ++ y :: post := by simp
        rw [hregroup] at hslots
        rw [if_pos hin, neighbour, List.head?_cons, Option.getD_some, if_neg hend,
          entryToIndex_eq hslots, List.length_append]
        rfl

theorem previous_spec (h : Holds t l xs) (index : ListIndex) :
    previous t index = Sequence.previous xs index := by
  rw [previous, Sequence.previous]
  rcases locateItem_spec h index with ⟨e, he, he'⟩ | ⟨pre, x, post, rfl, hx, hn⟩
  · rw [he, he']
    rfl
  · obtain ⟨f, d, hslots⟩ := h.slots
    rw [hx, hn]
    refine congrArg Except.ok ?_
    change neighbour t (t.entries x).previous = if pre.length = 0 then _ else _
    rw [hslots.items.previous_eq]
    rcases List.eq_nil_or_concat' pre with rfl | ⟨pre, y, rfl⟩
    · rfl
    · have hend : y ≠ RexxList.listEnd := by
        have hy := hslots.items.nonneg y (by simp)
        unfold RexxList.listEnd
        omega
      have hregroup : (pre ++ [y]) ++ x :: post = pre ++ y :: x :: post := by simp
      rw [hregroup] at hslots
      rw [List.getLast?_concat, Option.getD_some, neighbour, if_neg hend, entryToIndex_eq hslots,
        if_neg (by simp), List.length_append]
      rfl

theorem indexFrom_eq [BEq ν] {target : ν} {i : ℕ} {p : Int}
    (hl : Segment t.nextLink (RexxList.ptr p) l none)
    (hvalues : l.map (fun i => (t.entries i).value) = xs.map some) :
    indexFrom t target l.length i p =
      (xs.findIdx? fun value => target == value).map (· + i) := by
  induction l generalizing xs i p with
  | nil =>
      obtain rfl : xs = [] := List.map_eq_nil_iff.mp hvalues.symm
      rfl
  | cons k l ih =>
      obtain ⟨hp, hl⟩ := hl
      obtain ⟨rfl, -⟩ := RexxList.ptr_eq_some.mp hp
      cases xs with
      | nil => cases hvalues
      | cons x xs =>
          obtain ⟨hvalue, hvalues⟩ := List.cons.inj hvalues
          change (t.entries p).value = some x at hvalue
          rw [List.length_cons, indexFrom, hvalue, Option.any_some, List.findIdx?_cons]
          split
          · exact congrArg some (Nat.zero_add i).symm
          · rw [ih hl hvalues, Option.map_map]
            refine congrArg (Option.map · _) (funext fun n => ?_)
            change n + (i + 1) = n + 1 + i
            omega

theorem index_spec [BEq ν] (h : Holds t l xs) (target : ν) :
    index t target = Sequence.index xs target := by
  obtain ⟨f, d, hslots⟩ := h.slots
  rw [index, hslots.count]
  exact indexFrom_eq hslots.items.chain.forward h.values

theorem Holds.setValue {pre post : List Int} {x : Int} (h : Holds t (pre ++ x :: post) xs)
    (value : ν) :
    Holds (t.setValue x (some value)) (pre ++ x :: post) (xs.set pre.length value) := by
  obtain ⟨f, d, hslots⟩ := h.slots
  refine ⟨⟨f, d, hslots.setValue x (some value)⟩, ?_⟩
  have hnodup := hslots.items.chain.forward.nodup
  have hpre : ∀ k ∈ pre, k ≠ x := by
    rintro k hk rfl
    exact (List.nodup_append.mp hnodup).2.2 k hk k List.mem_cons_self rfl
  have hpost : ∀ k ∈ post, k ≠ x := by
    rintro k hk rfl
    exact (List.nodup_cons.mp (List.nodup_append.mp hnodup).2.1).1 hk
  have hentries : ∀ k, ((t.setValue x (some value)).entries k).value =
      if k = x then some value else (t.entries k).value := by
    intro k
    simp only [RexxList.setValue, RexxList.entries_modify]
    split <;> rfl
  have hvalues := h.values
  rw [List.map_append, List.map_cons] at hvalues
  rw [List.map_set, ← hvalues, List.map_append, List.map_cons, hentries, if_pos rfl,
    List.map_congr_left fun k hk => (hentries k).trans (if_neg (hpre k hk)),
    List.map_congr_left fun k hk => (hentries k).trans (if_neg (hpost k hk)),
    List.set_append_right _ _ (by simp), List.length_map, Nat.sub_self]
  rfl

theorem put_spec (h : IsQueue t xs) (index : ListIndex) (value : ν) :
    IsQueue (put t index value).1 (Sequence.put xs index value).1 ∧
      (put t index value).2 = (Sequence.put xs index value).2 := by
  obtain ⟨l, hl⟩ := h
  obtain ⟨f, d, hslots⟩ := hl.slots
  have hlength := hl.length
  rw [put, Sequence.put, Sequence.locate, locateEntry_position hslots]
  cases position index 2 with
  | error e => exact ⟨⟨l, hl⟩, rfl⟩
  | ok n =>
      simp only [Except.map]
      rcases Nat.lt_or_ge n xs.length with hlt | hge
      · obtain ⟨pre, x, post, rfl, rfl⟩ := exists_split (hlength ▸ hlt)
        have hat : (pre ++ x :: post)[pre.length]? = some x := by
          rw [List.getElem?_append_right (Nat.le_refl _), Nat.sub_self]
          rfl
        rw [hat, if_pos hlt]
        exact ⟨⟨_, hl.setValue value⟩, rfl⟩
      · rw [List.getElem?_eq_none_iff.mpr (hlength ▸ hge), if_neg (Nat.not_lt.mpr hge)]
        exact ⟨⟨l, hl⟩, rfl⟩

/-! ## Runs -/

theorem required_spec {α : Type} (h : IsQueue t xs) (value : Option ν)
    {method : ν → RexxList ν × Except QueueError α} {method' : ν → List ν × Except QueueError α}
    (hmethod : ∀ value, IsQueue (method value).1 (method' value).1 ∧
      (method value).2 = (method' value).2) :
    IsQueue (required t value method).1 (required xs value method').1 ∧
      (required t value method).2 = (required xs value method').2 := by
  cases value with
  | none => exact ⟨h, rfl⟩
  | some value => exact hmethod value

theorem step_spec [BEq ν] (h : IsQueue t xs) (op : QueueOp ν) :
    IsQueue (step t op).1 (Sequence.step xs op).1 ∧
      (step t op).2 = (Sequence.step xs op).2 := by
  obtain ⟨l, hl⟩ := h
  have hself : IsQueue t xs := ⟨l, hl⟩
  cases op with
  | queue item => exact required_spec hself item fun item => ⟨queue_spec hself item, rfl⟩
  | push item => exact required_spec hself item fun item => ⟨push_spec hself item, rfl⟩
  | pull =>
      obtain ⟨hqueue, hitem⟩ := pull_spec hself
      exact ⟨hqueue, congrArg (fun item => Except.ok (QueueResult.item item)) hitem⟩
  | put value index =>
      refine required_spec hself value fun value => ?_
      obtain ⟨hqueue, hresult⟩ := put_spec hself index value
      exact ⟨hqueue, congrArg (Except.map fun _ => QueueResult.none) hresult⟩
  | insert value index =>
      refine required_spec hself value fun value => ?_
      obtain ⟨hqueue, hresult⟩ := insert_spec hself value index
      exact ⟨hqueue, congrArg (Except.map fun n => QueueResult.index (some n)) hresult⟩
  | remove index =>
      obtain ⟨hqueue, hresult⟩ := remove_spec hself index
      exact ⟨hqueue, congrArg (Except.map QueueResult.item) hresult⟩
  | «at» index => exact ⟨hself, congrArg (Except.map QueueResult.item) (itemAt_spec hl index)⟩
  | next index => exact ⟨hself, congrArg (Except.map QueueResult.index) (next_spec hl index)⟩
  | previous index => exact ⟨hself, congrArg (Except.map QueueResult.index) (previous_spec hl index)⟩
  | index target =>
      refine required_spec hself target fun target => ⟨hself, ?_⟩
      exact congrArg (fun index => Except.ok (QueueResult.index index)) (index_spec hl target)

/-- Every run of a new queue returns what the same run of an empty sequence returns. -/
theorem run_refinesSequence [BEq ν] (ops : List (QueueOp ν)) :
    IsQueue (run (RexxList.init : RexxList ν) ops).1 (Sequence.run [] ops).1 ∧
      (run (RexxList.init : RexxList ν) ops).2 = (Sequence.run [] ops).2 := by
  have hrun : ∀ (t : RexxList ν) (xs : List ν), IsQueue t xs →
      IsQueue (run t ops).1 (Sequence.run xs ops).1 ∧ (run t ops).2 = (Sequence.run xs ops).2 := by
    induction ops with
    | nil => exact fun t xs h => ⟨h, rfl⟩
    | cons op ops ih =>
        intro t xs h
        obtain ⟨hstep, hresult⟩ := step_spec h op
        obtain ⟨hqueue, hresults⟩ := ih _ _ hstep
        exact ⟨hqueue, congrArg₂ List.cons hresult hresults⟩
  exact hrun _ _ ⟨[], init_holds⟩

example : (Sequence.run [] [.queue (some 7), .insert (some 8) .nil, .next (.integer 1)]).2 =
    [.ok .none, .ok (.index (some 1)), .ok (.index (some 2))] := by
  decide

end RexxQueue

end LeooRexx
