import Mathlib.Data.List.Sort
import LeooRexx.Runtime.HashTableGrowth

/-!
# The order of equal indexes

`add` puts an item in front of the others of its index.  A table that grows adds its entries again
from the last slot down, so the items of an index keep their order where they stand in their chain
at ascending slots.  Slots that were cleared and taken again may break this.
-/

namespace LeooRexx

open Chain

variable {κ ν : Type}

namespace HashTable

variable {t : HashTable κ ν} {L : Nat → List (κ × ν)} {rest : Nat → List Nat}

section Lookup

variable [Hashable κ]

section Equal

variable [BEq κ]

/-- The loop of `getAll`; its first pass over the chain counts what the second one copies. -/
def getAll (t : HashTable κ ν) (index : κ) : Option (List ν) :=
  let position := t.hashIndex index
  if (t.entries position).item.isSome then do
    let found ← Chain.collect t.link (t.holdsIndex index) t.totalSlotsSize position
    some ((t.itemsAt found).map (·.2))
  else some []

end Equal

section Identity

variable [DecidableEq κ] [DecidableEq ν]

def sameIndex (index : κ) (entry : κ × ν) : Bool := decide (index = entry.1)

def primitiveGet (t : HashTable κ ν) (index : κ) : Option (Option ν) :=
  let position := t.hashIndex index
  if (t.entries position).item.isSome then do
    match ← t.searchChain (t.passes (sameIndex index)) position with
    | some (_, position) => some ((t.entries position).item.map (·.2))
    | none => some none
  else some none

/-- The next item of the index in the chain; `.nil` where there is none. -/
def nextItem (t : HashTable κ ν) (value : ν) (index : κ) : Option (Option ν) :=
  let position := t.hashIndex index
  let test entry := sameIndex index entry && decide (value = entry.2)
  if (t.entries position).item.isSome then do
    match ← t.searchChain (t.passes test) position with
    | some (_, position) =>
        match t.link position with
        | none => some none
        | some position => do
            match ← t.searchChain (t.passes (sameIndex index)) position with
            | some (_, position) => some ((t.entries position).item.map (·.2))
            | none => some none
    | none => t.primitiveGet index
  else some none

/-- `nextItem` again and again, from an item on. -/
def nextItems (t : HashTable κ ν) (index : κ) : Nat → ν → Option (List ν)
  | 0, _ => none
  | fuel + 1, value => do
      match ← t.nextItem value index with
      | none => some [value]
      | some next => do
          let items ← t.nextItems index fuel next
          some (value :: items)

end Identity

omit [Hashable κ] in
theorem itemsAt_filter (t : HashTable κ ν) (test : κ × ν → Bool) (l : List Nat) :
    t.itemsAt (l.filter (t.passes test)) = (t.itemsAt l).filter test := by
  induction l with
  | nil => rfl
  | cons i l ih =>
      rw [List.filter_cons]
      cases hitem : (t.entries i).item with
      | none =>
          rw [if_neg (by simp [passes, hitem]), ih, itemsAt_cons_none _ hitem]
      | some entry =>
          rw [itemsAt_cons _ hitem, List.filter_cons, passes, hitem, Option.any_some]
          cases test entry with
          | true => exact (itemsAt_cons _ hitem).trans (congrArg _ ih)
          | false => exact ih

theorem getAll_eq [BEq κ] (h : t.Represents L) (index : κ) :
    t.getAll index =
      some (((L (t.hashIndex index)).filter fun entry => index == entry.1).map (·.2)) := by
  have hb := t.hashIndex_lt h.pos index
  dsimp only [getAll]
  by_cases hitem : (t.entries (t.hashIndex index)).item.isSome
  · obtain ⟨rest, hchained, hitems⟩ := h.chains
    rw [if_pos hitem, collect_eq _ (hchained.links _ hb) (hchained.length_le hb), ← hitems _ hb,
      ← itemsAt_filter]
    rfl
  · rw [if_neg hitem, h.eq_nil hb (Option.not_isSome_iff_eq_none.mp hitem)]
    rfl

section Identity

variable [DecidableEq κ] [DecidableEq ν]

/-- The items of an index, as it is compared by `nextItem`. -/
def ownItems (index : κ) (l : List (κ × ν)) : List ν := (l.filter (sameIndex index)).map (·.2)

omit [Hashable κ] [DecidableEq ν] in
theorem ownItems_append (index : κ) (l l' : List (κ × ν)) :
    ownItems index (l ++ l') = ownItems index l ++ ownItems index l' := by
  simp [ownItems]

omit [Hashable κ] in
theorem dropWhile_ne_append {us vs : List ν} {v : ν} (h : v ∉ us) :
    (us ++ v :: vs).dropWhile (fun u => decide (u ≠ v)) = v :: vs := by
  rw [List.dropWhile_append_of_pos fun u hu => by simpa using ne_of_mem_of_not_mem hu h]
  simp

theorem nextItem_eq (h : t.Represents L) (index : κ) {us vs : List ν} {v : ν}
    (hown : ownItems index (L (t.hashIndex index)) = us ++ v :: vs) (hv : v ∉ us) :
    t.nextItem v index = some vs.head? := by
  have hb := t.hashIndex_lt h.pos index
  obtain ⟨rest, hchained, hitems⟩ := h.chains
  have hitem : (t.entries (t.hashIndex index)).item.isSome := by
    rw [Option.isSome_iff_ne_none]
    intro hnone
    rw [h.eq_nil hb hnone] at hown
    exact absurd hown.symm (by simp [ownItems])
  dsimp only [nextItem]
  rw [if_pos hitem]
  have hmem : v ∈ ownItems index (L (t.hashIndex index)) := by
    rw [hown]
    simp
  rcases searchChain_spec h hchained hitems
    (fun entry => sameIndex index entry && decide (v = entry.2)) index with
    ⟨xs, j, ys, entry, hfound⟩ | ⟨hnone, -⟩
  · have hsplit := hfound.split
    obtain ⟨hindex, hvalue⟩ : sameIndex index entry = true ∧ v = entry.2 := by
      have hpass := hfound.passes
      rw [Bool.and_eq_true, decide_eq_true_eq] at hpass
      exact hpass
    have hown' : ownItems index (L (t.hashIndex index)) =
        ownItems index (t.itemsAt xs) ++ v :: ownItems index (t.itemsAt ys) := by
      rw [← hitems _ hb, hsplit, itemsAt_append, itemsAt_cons ys hfound.item, ownItems_append]
      simp [ownItems, hindex, hvalue]
    have hxs : v ∉ ownItems index (t.itemsAt xs) := by
      intro hmem
      obtain ⟨e, he, rfl⟩ := List.mem_map.mp hmem
      obtain ⟨he, hsame⟩ := List.mem_filter.mp he
      have hfalse := hfound.first e he
      rw [hsame, Bool.true_and, decide_eq_false_iff_not] at hfalse
      exact hfalse rfl
    have htail : vs = ownItems index (t.itemsAt ys) := by
      have hdrop : (us ++ v :: vs).dropWhile (fun u => decide (u ≠ v)) = v :: vs :=
        dropWhile_ne_append hv
      rw [← hown, hown', dropWhile_ne_append hxs] at hdrop
      exact (List.cons.inj hdrop).2.symm
    have hsegment := hchained.links _ hb
    rw [hsplit, segment_append] at hsegment
    obtain ⟨r, -, -, hbehind⟩ := hsegment
    rw [hfound.search]
    simp only [Option.bind_eq_bind, Option.bind_some]
    cases ys with
    | nil =>
        have hlink : t.link j = none := hbehind
        rw [hlink, htail]
        rfl
    | cons n ys =>
        have hlink : t.link j = some n := hbehind.1
        rw [hlink] at hbehind ⊢
        have hlength : (n :: ys).length ≤ t.totalSlotsSize := by
          have hle := hchained.length_le hb
          rw [hsplit, List.length_append, List.length_cons] at hle
          omega
        dsimp only
        rw [searchChain]
        rcases search_first (t.passes (sameIndex index)) hbehind hlength with
          ⟨ms, m, ns, hsplit', hms, hm, hsearch⟩ | ⟨hnone, hsearch⟩
        · have hown : ownItems index (t.itemsAt (n :: ys)) =
              ownItems index (t.itemsAt (m :: ns)) := by
            rw [hsplit', ownItems, ← itemsAt_filter, List.filter_append,
              List.filter_eq_nil_iff.mpr fun i hi => by simp [hms i hi], List.nil_append,
              itemsAt_filter]
            rfl
          obtain ⟨entry, hentry, hsame⟩ := exists_item_of_passes hm
          rw [hsearch, htail, hown, itemsAt_cons ns hentry]
          simp [ownItems, hsame, hentry]
        · have hown : ownItems index (t.itemsAt (n :: ys)) = [] := by
            rw [ownItems, ← itemsAt_filter,
              List.filter_eq_nil_iff.mpr fun i hi => by simp [hnone i hi]]
            rfl
          rw [hsearch, htail, hown]
          rfl
  · obtain ⟨e, he, rfl⟩ := List.mem_map.mp hmem
    obtain ⟨he, hsame⟩ := List.mem_filter.mp he
    have hfalse := hnone e he
    rw [hsame, Bool.true_and, decide_eq_false_iff_not] at hfalse
    exact absurd rfl hfalse

theorem nextItems_eq (h : t.Represents L) (index : κ) {us vs : List ν} {v : ν}
    (hown : ownItems index (L (t.hashIndex index)) = us ++ v :: vs)
    (hnodup : (us ++ v :: vs).Nodup) :
    t.nextItems index (vs.length + 1) v = some (v :: vs) := by
  induction vs generalizing us v with
  | nil =>
      have hv : v ∉ us := fun hmem => (List.nodup_append.mp hnodup).2.2 v hmem v (by simp) rfl
      rw [nextItems, nextItem_eq h index hown hv]
      rfl
  | cons w vs ih =>
      have hv : v ∉ us := fun hmem => (List.nodup_append.mp hnodup).2.2 v hmem v (by simp) rfl
      have hregroup : us ++ v :: w :: vs = (us ++ [v]) ++ w :: vs := by simp
      rw [nextItems, nextItem_eq h index hown hv]
      rw [hregroup] at hown hnodup
      simp only [List.head?_cons, Option.bind_eq_bind, Option.bind_some]
      rw [List.length_cons, ih hown hnodup]
      rfl

end Identity

end Lookup

/-! ## Growth -/

section Growth

variable [Hashable κ]

theorem Represents.place (h : t.Represents L) {n : Nat} (hfresh : t.Fresh n) (hn : n < t.uSize)
    (entry : κ × ν) : (t.place entry).Represents
      (Function.update L (t.hashIndex entry.1) (entry :: L (t.hashIndex entry.1))) := by
  obtain ⟨hge, -⟩ := hfresh.findFree hn
  dsimp only [HashTable.place]
  by_cases hitem : (t.entries (t.hashIndex entry.1)).item.isSome
  · rw [if_pos hitem]
    exact h.insertAt entry.2 entry.1 hitem hge h.free_lt (hfresh.1 t.free hge le_rfl)
  · rw [if_neg hitem]
    exact h.fill entry.2 entry.1 (Option.not_isSome_iff_eq_none.mp hitem)

theorem Represents.foldl_place (l : List (κ × ν)) (h : t.Represents L) {n : Nat}
    (hfresh : t.Fresh n) (hroom : n + l.length ≤ t.uSize) :
    (l.foldl HashTable.place t).Represents fun b =>
      l.reverse.filter (fun entry => t.hashIndex entry.1 == b) ++ L b := by
  induction l generalizing t L n with
  | nil => exact h
  | cons entry l ih =>
      rw [List.length_cons] at hroom
      have hn : n < t.uSize := by omega
      have hrest := ih (h.place hfresh hn entry) (hfresh.place hn entry)
        (by rw [place_uSize]; omega)
      have hsame : ∀ index, (t.place entry).hashIndex index = t.hashIndex index := fun index => by
        rw [hashIndex, place_uSize]
        rfl
      simp only [hsame] at hrest
      rw [List.foldl_cons]
      convert hrest using 2 with b
      rw [List.reverse_cons, List.filter_append, List.append_assoc]
      congr 1
      by_cases hb : b = t.hashIndex entry.1
      · rw [hb, Function.update_self]
        simp
      · rw [Function.update_of_ne hb]
        simp [Ne.symm hb]

theorem merged_represents (t : HashTable κ ν) :
    t.merged.Represents fun b =>
      t.storedItems.filter fun entry => t.merged.hashIndex entry.1 == b := by
  have hlength := t.length_storedItems_le
  obtain ⟨-, -, -, hsize⟩ := t.merged_spec takesFree_insertRoom
  have hmerged := (represents_newHashTable (t.totalSlotsSize * 2)).foldl_place
    t.storedItems.reverse (newHashTable_fresh _)
    (by rw [uSize_newHashTable_double, List.length_reverse]; omega)
  have hsame : ∀ index, t.merged.hashIndex index =
      (newHashTable (t.totalSlotsSize * 2) : HashTable κ ν).hashIndex index := fun index => by
    rw [hashIndex, hashIndex, hsize, uSize_newHashTable_double]
  simp only [hsame]
  simp only [List.reverse_reverse, List.append_nil] at hmerged
  exact hmerged

end Growth

/-! ## Runs -/

section Order

variable [BEq κ] [Hashable κ]

def Ascending (t : HashTable κ ν) : Prop :=
  ∀ index l, Segment t.link (some (t.hashIndex index)) l none →
    (l.filter (t.holdsIndex index)).Pairwise (· < ·)

inductive OrderOp (κ ν : Type) where
  | add (value : ν) (index : κ)
  | remove (index : κ)

def orderStep (t : HashTable κ ν) : OrderOp κ ν → Option (HashTable κ ν)
  | .add value index => (t.add value index).map fun r => r.2.getD r.1
  | .remove index => (t.remove index).map (·.1)

def orderRun (t : HashTable κ ν) (ops : List (OrderOp κ ν)) : Option (HashTable κ ν) :=
  ops.foldlM orderStep t

def GrowsAscending (t : HashTable κ ν) : OrderOp κ ν → Prop
  | .add _ index =>
      (t.entries (t.hashIndex index)).item.isSome → t.findFree t.free = none → t.Ascending
  | .remove _ => True

def AllGrowAscending (t : HashTable κ ν) : List (OrderOp κ ν) → Prop
  | [] => True
  | op :: ops => t.GrowsAscending op ∧ ∀ t', t.orderStep op = some t' → t'.AllGrowAscending ops

def pending (s : List (κ × ν)) : OrderOp κ ν → List (κ × ν)
  | .add value index => (index, value) :: s
  | .remove index => s.eraseP fun entry => index == entry.1

def Orders (t : HashTable κ ν) (s : List (κ × ν)) : Prop :=
  ∃ L, t.Represents L ∧ ∀ index,
    (L (t.hashIndex index)).filter (fun entry => index == entry.1) =
      s.filter fun entry => index == entry.1

variable [EquivBEq κ] [LawfulHashable κ] {s : List (κ × ν)}

omit [BEq κ] [Hashable κ] [EquivBEq κ] [LawfulHashable κ] in
theorem filter_eraseP_self {α : Type} (p : α → Bool) (l : List α) :
    (l.eraseP p).filter p = (l.filter p).tail := by
  induction l with
  | nil => rfl
  | cons a l ih =>
      rw [List.eraseP_cons, List.filter_cons]
      cases ha : p a with
      | true => rfl
      | false => simp [ha, ih]

omit [BEq κ] [Hashable κ] [EquivBEq κ] [LawfulHashable κ] in
theorem filter_eraseP_of_disjoint {α : Type} {p q : α → Bool} (h : ∀ a, p a → q a = false)
    (l : List α) : (l.eraseP p).filter q = l.filter q := by
  induction l with
  | nil => rfl
  | cons a l ih =>
      rw [List.eraseP_cons]
      cases ha : p a with
      | true => simp [h a ha]
      | false => simp [List.filter_cons, ih]

omit [Hashable κ] [LawfulHashable κ] in
theorem filter_eraseP_congr {l l' : List (κ × ν)} {index index' : κ}
    (h : l.filter (fun entry => index' == entry.1) = l'.filter fun entry => index' == entry.1) :
    (l.eraseP fun entry => index == entry.1).filter (fun entry => index' == entry.1) =
      (l'.eraseP fun entry => index == entry.1).filter fun entry => index' == entry.1 := by
  cases heq : index' == index with
  | true =>
      have hsame : (fun entry : κ × ν => index == entry.1) = fun entry => index' == entry.1 :=
        funext fun entry => (BEq.congr_left heq).symm
      rw [hsame, filter_eraseP_self, filter_eraseP_self, h]
  | false =>
      have hdisjoint : ∀ entry : κ × ν, index == entry.1 → (index' == entry.1) = false := by
        intro entry hentry
        cases hentry' : index' == entry.1 with
        | false => rfl
        | true => rw [BEq.trans hentry' (BEq.symm hentry)] at heq; cases heq
      rw [filter_eraseP_of_disjoint hdisjoint, filter_eraseP_of_disjoint hdisjoint, h]

omit [EquivBEq κ] in
theorem Orders.cons {t' : HashTable κ ν} {value : ν} {index : κ}
    (hL : ∀ index, (L (t.hashIndex index)).filter (fun entry => index == entry.1) =
      s.filter fun entry => index == entry.1)
    (hrep : t'.Represents
      (Function.update L (t.hashIndex index) ((index, value) :: L (t.hashIndex index))))
    (hsize : t'.uSize = t.uSize) : t'.Orders ((index, value) :: s) := by
  refine ⟨_, hrep, fun index' => ?_⟩
  have hsame : t'.hashIndex index' = t.hashIndex index' := by
    rw [hashIndex, hsize]
    rfl
  rw [hsame, List.filter_cons, ← hL index']
  cases heq : index' == index with
  | true =>
      rw [t.hashIndex_congr heq, Function.update_self, List.filter_cons]
      simp [heq]
  | false =>
      by_cases hbucket : t.hashIndex index' = t.hashIndex index
      · rw [hbucket, Function.update_self, List.filter_cons]
        simp [heq]
      · rw [Function.update_of_ne hbucket]
        simp

omit [EquivBEq κ] in
theorem filter_storedItems (h : t.Represents L) (hascending : t.Ascending) (index : κ) :
    t.storedItems.filter (fun entry => index == entry.1) =
      (L (t.hashIndex index)).filter fun entry => index == entry.1 := by
  have hb := t.hashIndex_lt h.pos index
  obtain ⟨rest, hchained, hitems⟩ := h.chains
  rw [storedItems, ← itemsAt_filter, ← hitems _ hb, ← itemsAt_filter]
  refine congrArg _ (List.Pairwise.eq_of_mem_iff (List.pairwise_lt_range.filter _)
    (hascending index _ (hchained.links _ hb)) fun i => ?_)
  rw [List.mem_filter, List.mem_filter, List.mem_range]
  refine and_congr_left fun hpass => ⟨fun hi => ?_, fun hi => hchained.lt hb hi⟩
  obtain ⟨entry, hitem, heq⟩ := exists_item_of_passes hpass
  rw [t.hashIndex_congr heq]
  exact hchained.mem_chain h.pos ⟨hi, hitem⟩

omit [EquivBEq κ] in
theorem merged_orders (h : t.Orders s) (hascending : t.Ascending) : t.merged.Orders s := by
  obtain ⟨L, hrep, hL⟩ := h
  refine ⟨_, t.merged_represents, fun index => ?_⟩
  rw [← hL index, ← filter_storedItems hrep hascending, List.filter_filter]
  refine List.filter_congr fun entry _ => ?_
  cases heq : index == entry.1 with
  | true => simp [t.merged.hashIndex_congr heq]
  | false => rfl

omit [EquivBEq κ] in
theorem Orders.add (h : t.Orders s) (value : ν) (index : κ)
    (hgrows : t.GrowsAscending (.add value index)) :
    ∃ t' r, t.add value index = some (t', r) ∧ (r.getD t').Orders ((index, value) :: s) := by
  by_cases hfull : (t.entries (t.hashIndex index)).item.isSome ∧ t.findFree t.free = none
  · obtain ⟨hitem, hfind⟩ := hfull
    obtain ⟨-, hfresh, hlt, -⟩ := t.merged_spec (takesFree_insertWith 0)
    obtain ⟨L, hrep, hL⟩ := merged_orders h (hgrows hitem hfind)
    refine ⟨t, some (t.merged.place (index, value)), ?_,
      Orders.cons hL (hrep.place hfresh hlt (index, value)) (place_uSize ..)⟩
    rw [HashTable.add, addWith, if_pos hitem]
    exact insert_full hfind value index _
  · obtain ⟨L, hrep, hL⟩ := h
    obtain ⟨t', hadd, hsize, hrep'⟩ := addWith_spec_items hrep value index fun hitem => by
      obtain ⟨overflow, hfind⟩ := Option.ne_none_iff_exists'.mp fun hfind => hfull ⟨hitem, hfind⟩
      exact ⟨overflow, hfind, takesFree_insertWith 1 _ _ _ _ _ hfind⟩
    exact ⟨t', none, hadd, Orders.cons hL hrep' hsize⟩

theorem Orders.remove (h : t.Orders s) (index : κ) :
    ∃ t', t.remove index = some (t', (s.find? fun entry => index == entry.1).map (·.2)) ∧
      t'.Orders (s.eraseP fun entry => index == entry.1) := by
  obtain ⟨L, hrep, hL⟩ := h
  obtain ⟨t', hremove, hsize, hrep'⟩ :=
    removeWhere_erases hrep true (fun entry => index == entry.1) index
  refine ⟨t', ?_, _, hrep', fun index' => ?_⟩
  · rw [t.remove_eq_removeWhere index, hremove, ← List.head?_filter, hL index, List.head?_filter]
  · have hsame : t'.hashIndex index' = t.hashIndex index' := by
      rw [hashIndex, hsize]
      rfl
    rw [hsame]
    by_cases hbucket : t.hashIndex index' = t.hashIndex index
    · rw [hbucket, Function.update_self]
      exact filter_eraseP_congr (hbucket ▸ hL index')
    · rw [Function.update_of_ne hbucket, hL index', filter_eraseP_of_disjoint]
      intro entry hentry
      cases heq : index' == entry.1 with
      | false => rfl
      | true => exact absurd (t.hashIndex_congr (BEq.trans heq (BEq.symm hentry))) hbucket

theorem Orders.step (h : t.Orders s) (op : OrderOp κ ν) (hop : t.GrowsAscending op) :
    ∃ t', t.orderStep op = some t' ∧ t'.Orders (pending s op) := by
  cases op with
  | add value index =>
      obtain ⟨t', r, hadd, horders⟩ := h.add value index hop
      exact ⟨_, congrArg (Option.map _) hadd, horders⟩
  | remove index =>
      obtain ⟨t', hremove, horders⟩ := h.remove index
      exact ⟨_, congrArg (Option.map _) hremove, horders⟩

theorem Orders.run (ops : List (OrderOp κ ν)) (h : t.Orders s) (hops : t.AllGrowAscending ops) :
    ∃ t', t.orderRun ops = some t' ∧ t'.Orders (ops.foldl pending s) := by
  induction ops generalizing t s with
  | nil => exact ⟨t, rfl, h⟩
  | cons op ops ih =>
      obtain ⟨hop, hops⟩ := hops
      obtain ⟨t', hstep, horders⟩ := h.step op hop
      obtain ⟨t'', hrun, horders'⟩ := ih horders (hops t' hstep)
      refine ⟨t'', ?_, horders'⟩
      rw [orderRun, List.foldlM_cons, hstep]
      exact hrun

omit [EquivBEq κ] [LawfulHashable κ] in
theorem Orders.getAll (h : t.Orders s) (index : κ) :
    t.getAll index = some ((s.filter fun entry => index == entry.1).map (·.2)) := by
  obtain ⟨L, hrep, hL⟩ := h
  rw [getAll_eq hrep, hL]

variable [DecidableEq κ] [DecidableEq ν]

omit [DecidableEq ν] [Hashable κ] [LawfulHashable κ] in
theorem ownItems_filter (index : κ) (l : List (κ × ν)) :
    ownItems index (l.filter fun entry => index == entry.1) = ownItems index l := by
  rw [ownItems, List.filter_filter]
  refine congrArg _ (List.filter_congr fun entry _ => ?_)
  cases hsame : sameIndex index entry with
  | false => rfl
  | true =>
      have hindex : index = entry.1 := by simpa [sameIndex] using hsame
      rw [hindex]
      simp

omit [LawfulHashable κ] in
theorem Orders.nextItems (h : t.Orders s) (index : κ) {v : ν} {vs : List ν}
    (hown : ownItems index s = v :: vs) (hnodup : (v :: vs).Nodup) :
    t.nextItems index (vs.length + 1) v = some (v :: vs) := by
  obtain ⟨L, hrep, hL⟩ := h
  have hown' : ownItems index (L (t.hashIndex index)) = [] ++ v :: vs := by
    rw [← ownItems_filter, hL, ownItems_filter, hown]
    rfl
  exact nextItems_eq hrep index hown' hnodup

end Order

end HashTable

end LeooRexx
