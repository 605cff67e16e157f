import Mathlib.Data.List.Perm.Basic
import LeooRexx.Runtime.HashTableItems

/-!
# Growth of hash tables

A table without a free overflow slot is merged into one of twice the size, which has one bucket
more than the table has slots.  Its overflow holds all the entries even where every one of them
falls into the same bucket, and the pending entry on top of them.
-/

namespace LeooRexx

variable {κ ν : Type}

namespace HashTable

variable {t : HashTable κ ν} {n : Nat}

def storedItems (t : HashTable κ ν) : List (κ × ν) := t.itemsAt (List.range t.totalSlotsSize)

theorem length_storedItems_le (t : HashTable κ ν) :
    t.storedItems.length ≤ t.totalSlotsSize := by
  have hle := List.length_filterMap_le (fun i => (t.entries i).item) (List.range t.totalSlotsSize)
  rwa [List.length_range] at hle

@[simp] theorem storedItems_newHashTable (entries : Nat) :
    (newHashTable entries : HashTable κ ν).storedItems = [] :=
  List.filterMap_eq_nil_iff.mpr fun _ _ => rfl

@[simp] theorem uSize_newHashTable_double (t : HashTable κ ν) :
    (newHashTable (t.totalSlotsSize * 2) : HashTable κ ν).uSize = t.totalSlotsSize + 1 := by
  rw [newHashTable, totalSlotsSize]
  have heven : t.uSize * 2 * 2 / 2 % 2 = 0 := by omega
  simp only [heven, if_true]
  omega

theorem itemsAt_range (t : HashTable κ ν) {i : Nat} (hi : i < t.totalSlotsSize) :
    t.storedItems.Perm (t.itemsAt (i :: (List.range t.totalSlotsSize).erase i)) :=
  (List.perm_cons_erase (List.mem_range.mpr hi)).filterMap _

theorem not_mem_erase_range (m i : Nat) : i ∉ (List.range m).erase i :=
  fun h => absurd rfl ((List.nodup_range.mem_erase_iff.mp h).1)

/-! ## Room in the overflow -/

section Room

variable [Hashable κ]

def place (t : HashTable κ ν) (entry : κ × ν) : HashTable κ ν :=
  let position := t.hashIndex entry.1
  if (t.entries position).item.isSome then t.insertAt entry.2 entry.1 position t.free
  else t.setItem position (some entry)

/-- `insert` without the larger table: no result where no overflow slot is free. -/
def insertRoom (t : HashTable κ ν) (value : ν) (index : κ) (position : Nat) :
    Option (HashTable κ ν × Option (HashTable κ ν)) :=
  (t.findFree t.free).map fun overflow => (t.insertAt value index position overflow, none)

def TakesFree (insert : HashTable κ ν → ν → κ → Nat →
    Option (HashTable κ ν × Option (HashTable κ ν))) : Prop :=
  ∀ t value index position overflow, t.findFree t.free = some overflow →
    insert t value index position = some (t.insertAt value index position overflow, none)

omit [Hashable κ] in
theorem takesFree_insertRoom : TakesFree (κ := κ) (ν := ν) insertRoom := by
  intro t value index position overflow hfind
  rw [insertRoom, hfind]
  rfl

theorem takesFree_insertWith (fuel : Nat) :
    TakesFree (κ := κ) (ν := ν) (insertWith (fuel + 1)) := by
  intro t value index position overflow hfind
  rw [insertWith, hfind]

omit [Hashable κ] in
theorem Fresh.findFree (h : t.Fresh n) (hn : n < t.uSize) :
    t.uSize ≤ t.free ∧ t.findFree t.free = some t.free := by
  obtain ⟨hempty, hroom⟩ := h
  rw [totalSlotsSize] at hroom
  have hge : t.uSize ≤ t.free := by omega
  have hitem := hempty t.free hge le_rfl
  obtain ⟨free, hfree⟩ : ∃ free, t.free = free + 1 :=
    ⟨t.free - 1, by omega⟩
  refine ⟨hge, ?_⟩
  rw [hfree] at hge hitem ⊢
  rw [HashTable.findFree, if_neg (not_lt.mpr hge), hitem]
  rfl

variable {insert : HashTable κ ν → ν → κ → Nat →
  Option (HashTable κ ν × Option (HashTable κ ν))}

@[simp] theorem place_uSize (t : HashTable κ ν) (entry : κ × ν) :
    (t.place entry).uSize = t.uSize := by
  dsimp only [place]
  split <;> rfl

theorem Fresh.place (h : t.Fresh n) (hn : n < t.uSize) (entry : κ × ν) :
    (t.place entry).Fresh (n + 1) := by
  obtain ⟨hge, -⟩ := h.findFree hn
  have hb := t.hashIndex_lt (by omega) entry.1
  obtain ⟨hempty, hroom⟩ := h
  dsimp only [HashTable.place]
  split
  · refine ⟨fun i hgei hle => ?_, ?_⟩
    · change t.uSize ≤ i at hgei
      change i ≤ t.free - 1 at hle
      rw [insertAt, setFree_entries, item_setEntry, item_setEntry, if_neg (by omega),
        if_neg (by omega)]
      exact hempty i hgei (by omega)
    · change t.totalSlotsSize ≤ t.free - 1 + 1 + (n + 1)
      omega
  · refine ⟨fun i hgei hle => ?_, Nat.le_succ_of_le hroom⟩
    change t.uSize ≤ i at hgei
    rw [item_setItem, if_neg (by omega)]
    exact hempty i hgei hle

theorem addWith_eq_place (hinsert : TakesFree insert) (h : t.Fresh n) (hn : n < t.uSize)
    (entry : κ × ν) : addWith insert t entry.2 entry.1 = some (t.place entry, none) := by
  obtain ⟨-, hfind⟩ := h.findFree hn
  unfold addWith HashTable.place
  by_cases hitem : (t.entries (t.hashIndex entry.1)).item.isSome
  · rw [if_pos hitem, if_pos hitem, hinsert _ _ _ _ _ hfind]
  · rw [if_neg hitem, if_neg hitem]

theorem storedItems_place (h : t.Fresh n) (hn : n < t.uSize) (hlt : t.free < t.totalSlotsSize)
    (entry : κ × ν) : (t.place entry).storedItems.Perm (entry :: t.storedItems) := by
  obtain ⟨hge, -⟩ := h.findFree hn
  have hb := t.hashIndex_lt (by omega) entry.1
  have hbt : t.hashIndex entry.1 < t.totalSlotsSize := by
    unfold totalSlotsSize
    omega
  obtain ⟨b, hbdef⟩ : ∃ b, b = t.hashIndex entry.1 := ⟨_, rfl⟩
  have hnot := not_mem_erase_range t.totalSlotsSize b
  have hsplit := t.itemsAt_range (hbdef ▸ hbt)
  cases hitem : (t.entries b).item with
  | none =>
      have hplace : t.place entry = t.setItem b (some entry) := by
        rw [HashTable.place, ← hbdef, if_neg (by simp [hitem])]
      have hrest : (t.setItem b (some entry)).itemsAt ((List.range t.totalSlotsSize).erase b) =
          t.itemsAt ((List.range t.totalSlotsSize).erase b) :=
        itemsAt_congr fun i hi => by
          rw [item_setItem, if_neg (ne_of_mem_of_not_mem hi hnot)]
      have hsplit' := (t.setItem b (some entry)).itemsAt_range (i := b) (hbdef ▸ hbt)
      rw [itemsAt_cons_none _ hitem] at hsplit
      rw [itemsAt_cons _ (by rw [item_setItem, if_pos rfl])] at hsplit'
      rw [hplace]
      refine hsplit'.trans (List.Perm.cons entry ?_)
      exact (List.Perm.of_eq hrest).trans hsplit.symm
  | some old =>
      have hplace : t.place entry = t.insertAt entry.2 entry.1 b t.free := by
        rw [HashTable.place, ← hbdef, if_pos (by simp [hitem])]
      have hentries : ∀ i, ((t.insertAt entry.2 entry.1 b t.free).entries i).item =
          if i = b then some entry else if i = t.free then some old
          else (t.entries i).item := by
        intro i
        rw [insertAt, setFree_entries, item_setEntry, item_setEntry, hitem]
      have hne : t.free ≠ b := by omega
      obtain ⟨others, hothers⟩ : ∃ others,
          others = ((List.range t.totalSlotsSize).erase b).erase t.free := ⟨_, rfl⟩
      have hmem : t.free ∈ (List.range t.totalSlotsSize).erase b :=
        List.nodup_range.mem_erase_iff.mpr ⟨hne, List.mem_range.mpr hlt⟩
      have hnodup : ((List.range t.totalSlotsSize).erase b).Nodup := List.nodup_range.erase b
      have hperm : ((List.range t.totalSlotsSize).erase b).Perm (t.free :: others) :=
        hothers ▸ List.perm_cons_erase hmem
      have hrest : (t.insertAt entry.2 entry.1 b t.free).itemsAt others = t.itemsAt others := by
        refine itemsAt_congr fun i hi => ?_
        obtain ⟨hif, hi⟩ := hnodup.mem_erase_iff.mp (hothers ▸ hi)
        rw [hentries, if_neg (ne_of_mem_of_not_mem hi hnot), if_neg hif]
      have hfree := h.1 t.free hge le_rfl
      have hsplit' := (t.insertAt entry.2 entry.1 b t.free).itemsAt_range (i := b) (hbdef ▸ hbt)
      rw [itemsAt_cons _ hitem] at hsplit
      rw [itemsAt_cons _ (by rw [hentries, if_pos rfl])] at hsplit'
      have hbehind : (t.itemsAt _).Perm (t.itemsAt _) := hperm.filterMap _
      have hbehind' : ((t.insertAt entry.2 entry.1 b t.free).itemsAt _).Perm
        ((t.insertAt entry.2 entry.1 b t.free).itemsAt _) := hperm.filterMap _
      rw [itemsAt_cons_none _ hfree] at hbehind
      have hmoved : ((t.insertAt entry.2 entry.1 b t.free).entries t.free).item = some old := by
        rw [hentries, if_neg hne, if_pos rfl]
      rw [itemsAt_cons _ hmoved] at hbehind'
      rw [hplace]
      refine hsplit'.trans (List.Perm.cons entry ?_)
      refine (hbehind'.trans (List.Perm.cons old ?_)).trans hsplit.symm
      exact (List.Perm.of_eq hrest).trans hbehind.symm

theorem place_free_lt (hlt : t.free < t.totalSlotsSize) (entry : κ × ν) :
    (t.place entry).free < (t.place entry).totalSlotsSize := by
  unfold totalSlotsSize at hlt ⊢
  rw [place_uSize]
  dsimp only [place]
  split
  · exact Nat.lt_of_le_of_lt (Nat.sub_le t.free 1) hlt
  · exact hlt

/-! ## Merging into the larger table -/

omit [Hashable κ] in
theorem reMerge_eq (add : HashTable κ ν → ν → κ → Option (HashTable κ ν × Option (HashTable κ ν)))
    (t newHash : HashTable κ ν) :
    t.reMerge add newHash = t.storedItems.reverse.foldlM
      (fun newHash entry => (add newHash entry.2 entry.1).map (·.1)) newHash := by
  have hreverse : t.storedItems.reverse = t.itemsAt (List.range t.totalSlotsSize).reverse :=
    List.filterMap_reverse.symm
  rw [reMerge, hreverse]
  generalize (List.range t.totalSlotsSize).reverse = l
  induction l generalizing newHash with
  | nil => rfl
  | cons i l ih =>
      rw [List.foldlM_cons]
      cases hitem : (t.entries i).item with
      | none =>
          rw [itemsAt_cons_none _ hitem]
          exact ih newHash
      | some entry =>
          rw [itemsAt_cons _ hitem, List.foldlM_cons]
          exact bind_congr ih

theorem foldlM_eq_place (hinsert : TakesFree insert) (l : List (κ × ν)) (h : t.Fresh n)
    (hroom : n + l.length ≤ t.uSize) :
    l.foldlM (fun t entry => (addWith insert t entry.2 entry.1).map (·.1)) t =
        some (l.foldl place t) ∧
      (l.foldl place t).Fresh (n + l.length) ∧ (l.foldl place t).uSize = t.uSize := by
  induction l generalizing t n with
  | nil => exact ⟨rfl, h, rfl⟩
  | cons entry l ih =>
      rw [List.length_cons] at hroom ⊢
      have hn : n < t.uSize := by omega
      obtain ⟨hrun, hfresh, hsize⟩ := ih (h.place hn entry) (by rw [place_uSize]; omega)
      refine ⟨?_, ?_, ?_⟩
      · rw [List.foldlM_cons, addWith_eq_place hinsert h hn entry]
        exact hrun
      · rw [List.foldl_cons, ← Nat.add_assoc, Nat.add_right_comm]
        exact hfresh
      · rw [List.foldl_cons, hsize, place_uSize]

theorem storedItems_foldl (l : List (κ × ν)) (h : t.Fresh n) (hroom : n + l.length ≤ t.uSize)
    (hlt : t.free < t.totalSlotsSize) :
    (l.foldl place t).storedItems.Perm (l.reverse ++ t.storedItems) ∧
      (l.foldl place t).free < (l.foldl place t).totalSlotsSize := by
  induction l generalizing t n with
  | nil => exact ⟨.refl _, hlt⟩
  | cons entry l ih =>
      rw [List.length_cons] at hroom
      have hn : n < t.uSize := by omega
      obtain ⟨hperm, hfree⟩ := ih (h.place hn entry) (by rw [place_uSize]; omega)
        (place_free_lt hlt entry)
      refine ⟨?_, hfree⟩
      rw [List.foldl_cons, List.reverse_cons, List.append_assoc, List.singleton_append]
      exact hperm.trans ((storedItems_place h hn hlt entry).append_left _)

def merged (t : HashTable κ ν) : HashTable κ ν :=
  t.storedItems.reverse.foldl place (newHashTable (t.totalSlotsSize * 2))

theorem merged_spec (t : HashTable κ ν) (hinsert : TakesFree insert) :
    t.reMerge (addWith insert) (newHashTable (t.totalSlotsSize * 2)) = some t.merged ∧
      t.merged.Fresh t.storedItems.length ∧ t.storedItems.length < t.merged.uSize ∧
      t.merged.uSize = t.totalSlotsSize + 1 := by
  have hlength := t.length_storedItems_le
  obtain ⟨hrun, hfresh, hsize⟩ := foldlM_eq_place hinsert t.storedItems.reverse
    (newHashTable_fresh (t.totalSlotsSize * 2))
    (by rw [uSize_newHashTable_double, List.length_reverse]; omega)
  rw [List.length_reverse, Nat.zero_add] at hfresh
  rw [uSize_newHashTable_double] at hsize
  refine ⟨?_, hfresh, ?_, hsize⟩
  · rw [reMerge_eq]
    exact hrun
  · rw [merged, hsize]
    omega

theorem insert_full (h : t.findFree t.free = none) (value : ν) (index : κ) (position : Nat) :
    t.insert value index position = some (t, some (t.merged.place (index, value))) := by
  obtain ⟨hmerge, hfresh, hlt, -⟩ := t.merged_spec (takesFree_insertWith 0)
  rw [HashTable.insert, insertWith, h]
  change ((t.reMerge (addWith (insertWith (0 + 1))) (newHashTable (t.totalSlotsSize * 2))).bind
    fun newHash => _) = _
  rw [hmerge, Option.bind_some]
  have hadd := addWith_eq_place (takesFree_insertWith 0) hfresh hlt (index, value)
  rw [Nat.zero_add] at hadd
  rw [hadd]
  rfl

theorem storedItems_merged (t : HashTable κ ν) :
    t.merged.storedItems.Perm t.storedItems ∧ t.merged.free < t.merged.totalSlotsSize := by
  have hlength := t.length_storedItems_le
  obtain ⟨hperm, hlt⟩ := storedItems_foldl t.storedItems.reverse
    (newHashTable_fresh (t.totalSlotsSize * 2))
    (by rw [uSize_newHashTable_double, List.length_reverse]; omega)
    (Nat.lt_of_succ_le (newHashTable_free (t.totalSlotsSize * 2)).le)
  rw [List.reverse_reverse, storedItems_newHashTable, List.append_nil] at hperm
  exact ⟨hperm, hlt⟩

/--
No insertion on the way into the larger table runs out of overflow slots, whatever the entries
hash to: each of them succeeds without a table larger than that, and so does the last one.  The
larger table then holds all the entries and the new one.
-/
theorem insert_full_loses_nothing (t : HashTable κ ν) (value : ν) (index : κ) (position : Nat)
    (h : t.findFree t.free = none) :
    ∃ newHash newHash' : HashTable κ ν,
      t.reMerge (addWith insertRoom) (newHashTable (t.totalSlotsSize * 2)) = some newHash ∧
      addWith insertRoom newHash value index = some (newHash', none) ∧
      t.insert value index position = some (t, some newHash') ∧
      newHash'.storedItems.Perm ((index, value) :: t.storedItems) := by
  obtain ⟨hmerge, hfresh, hlt, -⟩ := t.merged_spec takesFree_insertRoom
  obtain ⟨hperm, hfree⟩ := t.storedItems_merged
  refine ⟨t.merged, t.merged.place (index, value), hmerge,
    addWith_eq_place takesFree_insertRoom hfresh hlt (index, value),
    insert_full h value index position, ?_⟩
  exact (storedItems_place hfresh hlt hfree (index, value)).trans (hperm.cons _)

/-- One bucket and one overflow slot, both in use, and a third item of the same index. -/
theorem insert_full_loses_nothing_collision :
    let t : HashTable Nat Nat := ⟨1, 0, fun i => ⟨some (7, i), 1 - i⟩⟩
    ∃ newHash newHash' : HashTable Nat Nat,
      t.reMerge (addWith insertRoom) (newHashTable (t.totalSlotsSize * 2)) = some newHash ∧
      addWith insertRoom newHash 2 7 = some (newHash', none) ∧
      t.insert 2 7 0 = some (t, some newHash') ∧
      newHash'.storedItems.Perm ((7, 2) :: t.storedItems) :=
  insert_full_loses_nothing _ 2 7 0 rfl

end Room

end HashTable

end LeooRexx
