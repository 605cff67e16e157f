import LeooRexx.Runtime.HashTableGrowth

/-!
# The free pointer of hash tables

Overflow slots are taken from the free pointer down, so a slot above it that is not in use is lost
until the table grows.  `remove` raises the pointer to the slots it clears.  `removeItem` does not
where it clears the last entry of a chain, and every other operation keeps the slots above the
pointer in use.
-/

namespace LeooRexx

open Chain

variable {κ ν : Type}

namespace HashTable

variable {t : HashTable κ ν} {L : Nat → List (κ × ν)}

def FreeFull (t : HashTable κ ν) : Prop :=
  ∀ i, t.free < i → i < t.totalSlotsSize → (t.entries i).item.isSome

theorem findFree_above {n overflow : Nat} (h : t.findFree n = some overflow) (i : Nat)
    (hi : overflow < i) (hin : i ≤ n) : (t.entries i).item.isSome := by
  induction n with
  | zero => exact absurd h (by simp [findFree])
  | succ n ih =>
      rw [findFree] at h
      by_cases hlow : n + 1 < t.uSize
      · simp [hlow] at h
      · cases hitem : (t.entries (n + 1)).item with
        | none =>
            simp only [hlow, hitem, if_false, Option.isNone_none, if_true, Option.some.injEq] at h
            omega
        | some entry =>
            simp only [hlow, hitem, if_false, Option.isNone_some, Bool.false_eq_true] at h
            rcases Nat.lt_or_eq_of_le hin with hlt | rfl
            · exact ih h (Nat.le_of_lt_succ hlt)
            · simp [hitem]

theorem findFree_eq_none {n : Nat} (h : t.findFree n = none) (i : Nat) (hi : i ≤ n)
    (hge : t.uSize ≤ i) (hpos : 0 < t.uSize) : (t.entries i).item.isSome := by
  induction n with
  | zero => omega
  | succ n ih =>
      rw [findFree] at h
      by_cases hlow : n + 1 < t.uSize
      · omega
      · cases hitem : (t.entries (n + 1)).item with
        | none => simp [hlow, hitem] at h
        | some entry =>
            simp only [hlow, hitem, if_false, Option.isNone_some, Bool.false_eq_true] at h
            rcases Nat.lt_or_eq_of_le hi with hlt | rfl
            · exact ih h (Nat.le_of_lt_succ hlt)
            · simp [hitem]

theorem FreeFull.findFree_eq_none_iff (h : t.FreeFull) (hpos : 0 < t.uSize)
    (hlt : t.free < t.totalSlotsSize) :
    t.findFree t.free = none ↔
      ∀ i, t.uSize ≤ i → i < t.totalSlotsSize → (t.entries i).item.isSome := by
  constructor
  · intro hnone i hge hi
    rcases Nat.lt_or_ge t.free i with hfree | hfree
    · exact h i hfree hi
    · exact findFree_eq_none hnone i hfree hge hpos
  · intro hall
    cases hfind : t.findFree t.free with
    | none => rfl
    | some overflow =>
        obtain ⟨hge, hle, hitem⟩ := findFree_eq_some hfind
        have hsome := hall overflow hge (by omega)
        rw [hitem] at hsome
        cases hsome

/-! ## Entries that are filled -/

theorem FreeFull.setItem (h : t.FreeFull) (i : Nat) (entry : κ × ν) :
    (t.setItem i (some entry)).FreeFull := by
  intro j hfree hj
  rw [item_setItem]
  split
  · rfl
  · exact h j hfree hj

theorem FreeFull.insertAt {position overflow : Nat} (h : t.FreeFull)
    (hfind : t.findFree t.free = some overflow)
    (hused : (t.entries position).item.isSome) (value : ν) (index : κ) :
    (t.insertAt value index position overflow).FreeFull := by
  obtain ⟨hge, -, -⟩ := findFree_eq_some hfind
  intro i hfree hi
  change overflow - 1 < i at hfree
  rw [HashTable.insertAt, setFree_entries, item_setEntry, item_setEntry]
  by_cases hposition : i = position
  · rw [if_pos hposition]
    rfl
  · rw [if_neg hposition]
    by_cases hover : i = overflow
    · rw [if_pos hover]
      exact hused
    · rw [if_neg hover]
      rcases Nat.lt_or_ge t.free i with hfree' | hfree'
      · exact h i hfree' hi
      · exact findFree_above hfind i (by omega) hfree'

/-- The chains of a table are those of its buckets, and no slot above the free pointer is lost. -/
structure Unleaked [Hashable κ] (t : HashTable κ ν) : Prop where
  represents : ∃ L, t.Represents L
  full : t.FreeFull

section Insertion

variable [Hashable κ]

theorem newHashTable_unleaked (entries : Nat) :
    (newHashTable entries : HashTable κ ν).Unleaked := by
  refine ⟨⟨_, represents_newHashTable entries⟩, fun i hfree hi => ?_⟩
  have hlast := newHashTable_free (κ := κ) (ν := ν) entries
  omega

theorem Unleaked.setItem (h : t.Unleaked) (value : ν) (index : κ)
    (hitem : (t.entries (t.hashIndex index)).item = none) :
    (t.setItem (t.hashIndex index) (some (index, value))).Unleaked := by
  obtain ⟨L, hrep⟩ := h.represents
  exact ⟨⟨_, hrep.fill value index hitem⟩, h.full.setItem _ _⟩

theorem Unleaked.insertAt (h : t.Unleaked) {overflow : Nat} (value : ν) (index : κ)
    (hitem : (t.entries (t.hashIndex index)).item.isSome)
    (hfind : t.findFree t.free = some overflow) :
    (t.insertAt value index (t.hashIndex index) overflow).Unleaked := by
  obtain ⟨L, hrep⟩ := h.represents
  obtain ⟨hge, hle, hfree⟩ := findFree_eq_some hfind
  exact ⟨⟨_, hrep.insertAt value index hitem hge (Nat.lt_of_le_of_lt hle hrep.free_lt) hfree⟩,
    h.full.insertAt hfind hitem value index⟩

theorem Unleaked.place (h : t.Unleaked) {n : Nat} (hfresh : t.Fresh n) (hn : n < t.uSize)
    (entry : κ × ν) : (t.place entry).Unleaked := by
  obtain ⟨-, hfind⟩ := hfresh.findFree hn
  dsimp only [HashTable.place]
  by_cases hitem : (t.entries (t.hashIndex entry.1)).item.isSome
  · rw [if_pos hitem]
    exact h.insertAt entry.2 entry.1 hitem hfind
  · rw [if_neg hitem]
    exact h.setItem entry.2 entry.1 (Option.not_isSome_iff_eq_none.mp hitem)

theorem Unleaked.foldl_place (l : List (κ × ν)) (h : t.Unleaked) {n : Nat} (hfresh : t.Fresh n)
    (hroom : n + l.length ≤ t.uSize) : (l.foldl HashTable.place t).Unleaked := by
  induction l generalizing t n with
  | nil => exact h
  | cons entry l ih =>
      rw [List.length_cons] at hroom
      have hn : n < t.uSize := by omega
      exact ih (h.place hfresh hn entry) (hfresh.place hn entry) (by rw [place_uSize]; omega)

theorem merged_unleaked (t : HashTable κ ν) : t.merged.Unleaked := by
  have hlength := t.length_storedItems_le
  exact (newHashTable_unleaked _).foldl_place _ (newHashTable_fresh _)
    (by rw [uSize_newHashTable_double, List.length_reverse]; omega)

theorem Unleaked.insert (h : t.Unleaked) (value : ν) (index : κ)
    (hitem : (t.entries (t.hashIndex index)).item.isSome) :
    ∃ t' r, t.insert value index (t.hashIndex index) = some (t', r) ∧ (r.getD t').Unleaked := by
  cases hfind : t.findFree t.free with
  | some overflow =>
      exact ⟨_, none, takesFree_insertWith 1 _ _ _ _ _ hfind,
        h.insertAt value index hitem hfind⟩
  | none =>
      obtain ⟨-, hfresh, hlt, -⟩ := t.merged_spec (takesFree_insertWith 0)
      exact ⟨t, some (t.merged.place (index, value)), insert_full hfind value index _,
        t.merged_unleaked.place hfresh hlt (index, value)⟩

theorem Unleaked.add (h : t.Unleaked) (value : ν) (index : κ) :
    ∃ t' r, t.add value index = some (t', r) ∧ (r.getD t').Unleaked := by
  dsimp only [HashTable.add, addWith]
  by_cases hitem : (t.entries (t.hashIndex index)).item.isSome
  · rw [if_pos hitem]
    exact h.insert value index hitem
  · rw [if_neg hitem]
    exact ⟨_, none, rfl, h.setItem value index (Option.not_isSome_iff_eq_none.mp hitem)⟩

/-! ## Entries that are replaced -/

def putWhere (t : HashTable κ ν) (test : κ × ν → Bool) (value : ν) (index : κ) :
    Option (HashTable κ ν × Option (HashTable κ ν)) :=
  let position := t.hashIndex index
  if (t.entries position).item.isSome then do
    match ← t.searchChain (t.passes test) position with
    | some (_, position) =>
        some (t.setItem position ((t.entries position).item.map fun entry =>
          (entry.1, value)), none)
    | none => t.insert value index position
  else some (t.setItem position (some (index, value)), none)

theorem Unleaked.replace (h : t.Unleaked) {j : Nat} {entry : κ × ν}
    (hj : (t.entries j).item = some entry) (value : ν) :
    (t.setItem j (some (entry.1, value))).Unleaked := by
  obtain ⟨L, hrep⟩ := h.represents
  obtain ⟨rest, hchained, -⟩ := hrep.chains
  refine ⟨⟨_, hrep.pos, hrep.free_lt, hrep.low, rest,
    hchained.congr rfl (link_setItem ..) ?_, fun b _ => rfl⟩, h.full.setItem _ _⟩
  have hself : t.bucketOf j = some (t.hashIndex entry.1) := by
    rw [bucketOf, hj, Option.map_some]
  rw [bucketOf_setItem, Option.map_some, ← hself]
  exact Function.update_eq_self ..

theorem Unleaked.putWhere (h : t.Unleaked) (test : κ × ν → Bool) (value : ν) (index : κ) :
    ∃ t' r, t.putWhere test value index = some (t', r) ∧ (r.getD t').Unleaked := by
  obtain ⟨L, hrep⟩ := h.represents
  obtain ⟨rest, hchained, hitems⟩ := hrep.chains
  dsimp only [HashTable.putWhere]
  by_cases hitem : (t.entries (t.hashIndex index)).item.isSome
  · rw [if_pos hitem]
    rcases searchChain_spec hrep hchained hitems test index with ⟨xs, j, ys, entry, hfound⟩ |
      ⟨-, hnone⟩
    · rw [hfound.search]
      refine ⟨_, none, rfl, ?_⟩
      rw [hfound.item]
      exact h.replace hfound.item value
    · rw [hnone]
      exact h.insert value index hitem
  · rw [if_neg hitem]
    exact ⟨_, none, rfl, h.setItem value index (Option.not_isSome_iff_eq_none.mp hitem)⟩

/-! ## Entries that are cleared -/

/--
The entry that passes the test ends a chain of several entries and lies above the free pointer: its
slot is lost when it is cleared and the pointer stays.
-/
def Leaks (t : HashTable κ ν) (test : κ × ν → Bool) (index : κ) : Prop :=
  ∃ xs j, xs ≠ [] ∧ Segment t.link (some (t.hashIndex index)) (xs ++ [j]) none ∧
    (∀ i ∈ xs, t.passes test i = false) ∧ t.passes test j ∧ t.free < j

omit [Hashable κ] in
theorem passes_of_item {test : κ × ν → Bool} {i : Nat} {entry : κ × ν}
    (hitem : (t.entries i).item = some entry) (h : test entry) : t.passes test i := by
  simpa [passes, hitem] using h

omit [Hashable κ] in
theorem passes_false_of_itemsAt {test : κ × ν → Bool} {l : List Nat}
    (h : ∀ e ∈ t.itemsAt l, test e = false) : ∀ i ∈ l, t.passes test i = false := by
  intro i hi
  cases hitem : (t.entries i).item with
  | none => simp [passes, hitem]
  | some entry =>
      have hmem : entry ∈ t.itemsAt l := List.mem_filterMap.mpr ⟨i, hi, hitem⟩
      simpa [passes, hitem] using h entry hmem

theorem Unleaked.removeWhere (h : t.Unleaked) (raise : Bool) (test : κ × ν → Bool) (index : κ)
    (hleaks : raise ∨ ¬ t.Leaks test index) :
    ∃ t' removed, t.removeWhere raise test index = some (t', removed) ∧ t'.Unleaked := by
  obtain ⟨L, hrep⟩ := h.represents
  have hb := t.hashIndex_lt hrep.pos index
  obtain ⟨rest, hchained, hitems⟩ := hrep.chains
  rcases removeWhere_spec hrep hchained hitems raise test index with
    ⟨xs, j, ys, entry, hfound, hrun⟩ | ⟨-, hrun⟩
  · obtain ⟨-, -, hunlinked⟩ :=
      unlinkFound_spec hrep hchained hitems hb hfound.split hfound.item raise
    refine ⟨_, _, hrun, ⟨_, hunlinked.represents⟩, fun i hfree hi => ?_⟩
    rw [totalSlotsSize, hunlinked.uSize] at hi
    rw [hunlinked.free] at hfree
    rw [hunlinked.item]
    by_cases hraised : ys ≠ [] ∨ raise ∧ xs ≠ []
    · rw [if_pos hraised] at hfree
      obtain ⟨hfree, hfreed⟩ := Nat.max_lt.mp hfree
      exact ⟨Nat.ne_of_gt hfreed, h.full i hfree hi⟩
    · rw [if_neg hraised] at hfree
      refine ⟨fun hij => ?_, h.full i hfree hi⟩
      -- the entry is the last one of its chain, and the pointer stays
      obtain ⟨rfl, hstays⟩ : ys = [] ∧ ¬ (raise ∧ xs ≠ []) := by
        rwa [not_or, not_not] at hraised
      have hsplit := hfound.split
      have hij : i = j := hij
      rw [hij] at hfree
      by_cases hxs : xs = []
      · rw [hxs] at hsplit
        have hbucket : t.hashIndex index = j := (List.cons.inj hsplit).1
        have hlow := hrep.low
        omega
      · have hsegment := hchained.links _ hb
        rw [hsplit] at hsegment
        rcases hleaks with hraise | hleaks
        · exact hstays ⟨hraise, hxs⟩
        · exact hleaks ⟨xs, j, hxs, hsegment, passes_false_of_itemsAt hfound.first,
            passes_of_item hfound.item hfound.passes, hfree⟩
  · exact ⟨t, none, hrun, h⟩

end Insertion

/-! ## Runs -/

section Runs

variable [Hashable κ] [BEq κ] [BEq ν] [DecidableEq κ] [DecidableEq ν]

def primitivePut (t : HashTable κ ν) (value : ν) (index : κ) :
    Option (HashTable κ ν × Option (HashTable κ ν)) :=
  t.putWhere (fun entry => decide (index = entry.1)) value index

def primitiveRemove (t : HashTable κ ν) (index : κ) : Option (HashTable κ ν × Option ν) :=
  t.removeWhere true (fun entry => decide (index = entry.1)) index

def primitiveRemoveItem (t : HashTable κ ν) (value : ν) (index : κ) :
    Option (HashTable κ ν × Option ν) :=
  t.removeWhere false (fun entry => decide (index = entry.1) && decide (value = entry.2)) index

inductive SlotOp (κ ν : Type) where
  | put (value : ν) (index : κ)
  | primitivePut (value : ν) (index : κ)
  | add (value : ν) (index : κ)
  | remove (index : κ)
  | primitiveRemove (index : κ)
  | removeItem (value : ν) (index : κ)
  | primitiveRemoveItem (value : ν) (index : κ)
  | removeValue (value : ν)

def slotStep (t : HashTable κ ν) : SlotOp κ ν → Option (HashTable κ ν)
  | .put value index => (t.put value index).map fun r => r.2.getD r.1
  | .primitivePut value index => (t.primitivePut value index).map fun r => r.2.getD r.1
  | .add value index => (t.add value index).map fun r => r.2.getD r.1
  | .remove index => (t.remove index).map (·.1)
  | .primitiveRemove index => (t.primitiveRemove index).map (·.1)
  | .removeItem value index => (t.removePair value index).map (·.1)
  | .primitiveRemoveItem value index => (t.primitiveRemoveItem value index).map (·.1)
  | .removeValue value => (t.removeValue value).map (·.1)

def slotRun (t : HashTable κ ν) (ops : List (SlotOp κ ν)) : Option (HashTable κ ν) :=
  ops.foldlM slotStep t

def OpLeaks (t : HashTable κ ν) : SlotOp κ ν → Prop
  | .removeItem value index =>
      t.Leaks (fun entry => index == entry.1 && value == entry.2) index
  | .primitiveRemoveItem value index =>
      t.Leaks (fun entry => decide (index = entry.1) && decide (value = entry.2)) index
  | .removeValue value => ∃ index, t.indexOf value = some index ∧
      t.Leaks (fun entry => index == entry.1 && value == entry.2) index
  | _ => False

def NoneLeaks (t : HashTable κ ν) : List (SlotOp κ ν) → Prop
  | [] => True
  | op :: ops => ¬ t.OpLeaks op ∧ ∀ t', t.slotStep op = some t' → t'.NoneLeaks ops

theorem Unleaked.slotStep (h : t.Unleaked) (op : SlotOp κ ν) (hop : ¬ t.OpLeaks op) :
    ∃ t', t.slotStep op = some t' ∧ t'.Unleaked := by
  cases op with
  | put value index =>
      obtain ⟨t', r, hrun, hkeeps⟩ := h.putWhere (fun entry => index == entry.1) value index
      exact ⟨_, congrArg (Option.map _) hrun, hkeeps⟩
  | primitivePut value index =>
      obtain ⟨t', r, hrun, hkeeps⟩ := h.putWhere (fun entry => decide (index = entry.1)) value index
      exact ⟨_, congrArg (Option.map _) hrun, hkeeps⟩
  | add value index =>
      obtain ⟨t', r, hrun, hkeeps⟩ := h.add value index
      exact ⟨_, congrArg (Option.map _) hrun, hkeeps⟩
  | remove index =>
      obtain ⟨t', removed, hrun, hkeeps⟩ := h.removeWhere true _ index (.inl rfl)
      exact ⟨_, congrArg (Option.map _) ((t.remove_eq_removeWhere index).trans hrun), hkeeps⟩
  | primitiveRemove index =>
      obtain ⟨t', removed, hrun, hkeeps⟩ := h.removeWhere true _ index (.inl rfl)
      exact ⟨_, congrArg (Option.map _) hrun, hkeeps⟩
  | removeItem value index =>
      obtain ⟨t', removed, hrun, hkeeps⟩ := h.removeWhere false _ index (.inr hop)
      exact ⟨_, congrArg (Option.map _) ((t.removePair_eq_removeWhere value index).trans hrun),
        hkeeps⟩
  | primitiveRemoveItem value index =>
      obtain ⟨t', removed, hrun, hkeeps⟩ := h.removeWhere false _ index (.inr hop)
      exact ⟨_, congrArg (Option.map _) hrun, hkeeps⟩
  | removeValue value =>
      simp only [HashTable.slotStep, removeValue]
      cases hindex : t.indexOf value with
      | none => exact ⟨t, rfl, h⟩
      | some index =>
          obtain ⟨t', removed, hrun, hkeeps⟩ :=
            h.removeWhere false _ index (.inr fun hleaks => hop ⟨index, hindex, hleaks⟩)
          exact ⟨_, congrArg (Option.map _) hrun, hkeeps⟩

theorem Unleaked.slotRun (ops : List (SlotOp κ ν)) (h : t.Unleaked) (hops : t.NoneLeaks ops) :
    ∃ t', t.slotRun ops = some t' ∧ t'.Unleaked := by
  induction ops generalizing t with
  | nil => exact ⟨t, rfl, h⟩
  | cons op ops ih =>
      obtain ⟨hop, hops⟩ := hops
      obtain ⟨t', hstep, hkeeps⟩ := h.slotStep op hop
      obtain ⟨t'', hrun, hkeeps'⟩ := ih hkeeps (hops t' hstep)
      refine ⟨t'', ?_, hkeeps'⟩
      rw [HashTable.slotRun, List.foldlM_cons, hstep]
      exact hrun

end Runs

end HashTable

end LeooRexx
