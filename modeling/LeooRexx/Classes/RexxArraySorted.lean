import LeooRexx.Classes.RexxArrayMergeSort

/-!
# The sort methods

Each method leaves the items of the first slots in another order, which is the one of the
comparator if that is consistent.  An array with a gap is not sorted; with a comparator, an
array of one item is not looked at.
-/

namespace LeooRexx

open Sorting

namespace RexxArray

variable {σ ν : Type} {a a' : RexxArray ν} {n : Nat} {cmp : Comparator σ ν}

def items (a : RexxArray ν) (n : Nat) : List ν := (List.range' 1 n).filterMap a.slot

structure Sorts (cmp : Comparator σ ν) (n : Nat) (a a' : RexxArray ν) : Prop where
  within : Within 1 n a a'
  filled : Filled a' 1 n
  perm : (items a' n).Perm (items a n)
  ordered : ∀ le, Consistent cmp le → (items a' n).Pairwise le

def Stable (cmp : Comparator σ ν) (n : Nat) (a a' : RexxArray ν) : Prop :=
  ∀ le, Consistent cmp le → ∀ p, Alike le p → (items a' n).filter p = (items a n).filter p

theorem Holds.items_eq {L : List ν} (h : Holds a 1 L) : items a L.length = L := by
  have hmap := congrArg (List.filterMap id) h.map
  rwa [List.filterMap_map, List.filterMap_map, Function.id_comp, Function.id_comp,
    List.filterMap_some] at hmap

theorem Filled.holds (h : Filled a 1 n) : ∃ L, L.length = n ∧ Holds a 1 L :=
  exists_holds fun i hi hi' => h.2.2 i hi (by omega)

theorem Filled.holds_items (h : Filled a 1 n) : Holds a 1 (items a n) ∧ (items a n).length = n := by
  obtain ⟨L, rfl, hL⟩ := h.holds
  rw [hL.items_eq]
  exact ⟨hL, rfl⟩

theorem Filled.of_holds {L : List ν} (h : Holds a 1 L) (hn : L.length = n) (hle : n ≤ a.arraySize) :
    Filled a 1 n := by
  refine ⟨le_rfl, hle, fun i hi hi' => ?_⟩
  have hget := h.get (show i - 1 < L.length by omega)
  rw [Nat.add_sub_cancel' hi] at hget
  rw [hget]
  rfl

theorem quickSortAll_spec (cmp : Comparator σ ν) (hn : 1 ≤ n) (h : Filled a 1 n) (s : σ) :
    ∃ a' s', quickSortAll cmp n a s = .ok (a', s') ∧ Sorts cmp n a a' := by
  obtain ⟨a', s', hsort, hsorted⟩ := quickSort_spec cmp h hn (show n - 1 < n by omega) s
  have hfilled := h.rearranged hsorted.within hsorted.rearranged
  refine ⟨a', s', hsort, hsorted.within, hfilled, ?_, fun le hc => ?_⟩
  · have hperm := (hsorted.rearranged.perm (Nat.add_comm n 1)).filterMap id
    rwa [List.filterMap_map, List.filterMap_map, Function.id_comp, Function.id_comp] at hperm
  · obtain ⟨hholds, hlength⟩ := hfilled.holds_items
    rw [List.pairwise_iff_get]
    intro i j hij
    have hi := hholds.get i.isLt
    have hj := hholds.get j.isLt
    exact hsorted.ordered le hc (1 + i) (1 + j) _ _ (Nat.le_add_right 1 i) (by omega)
      (by have := j.isLt; omega) hi hj

theorem mergeSortAll_spec (cmp : Comparator σ ν) (hn : 1 ≤ n) (h : Filled a 1 n) (s : σ) :
    ∃ a' s', mergeSortAll cmp n a s = .ok (a', s') ∧ Sorts cmp n a a' ∧ Stable cmp n a a' := by
  obtain ⟨hholds, hlength⟩ := h.holds_items
  have hne : items a n ≠ [] := List.length_pos_iff.mp (by omega)
  obtain ⟨a', w, s', L', hsort, hL', hwithin, -, hstable⟩ :=
    mergeSort_spec cmp hholds (by omega) le_rfl hne h.2.1
      (show n ≤ (newArray none n : RexxArray ν).arraySize from le_rfl) s
  have hlength' : L'.length = n := by rw [hstable.perm.length_eq, hlength]
  have hitems : items a' n = L' := by
    rw [← hlength']
    exact hL'.items_eq
  refine ⟨a', s', ?_, ⟨hwithin, .of_holds hL' hlength' (hwithin.arraySize ▸ h.2.1), ?_, ?_⟩, ?_⟩
  · simp only [mergeSortAll, hsort, sort_ok_bind]
  · rw [hitems]
    exact hstable.perm
  · rw [hitems]
    exact hstable.ordered
  · rw [Stable, hitems]
    exact hstable.stable

/-! ## Methods -/

inductive SortMethod where
  | sort
  | sortWith
  | stableSort
  | stableSortWith
deriving DecidableEq

namespace SortMethod

def call (cmp : Comparator σ ν) : SortMethod → RexxArray ν → σ → Except SortError σ × RexxArray ν
  | sort => sortRexx cmp
  | sortWith => sortWithRexx cmp
  | stableSort => stableSortRexx cmp
  | stableSortWith => stableSortWithRexx cmp

def isStable : SortMethod → Bool
  | sort | sortWith => false
  | stableSort | stableSortWith => true

def takesComparator : SortMethod → Bool
  | sort | stableSort => false
  | sortWith | stableSortWith => true

end SortMethod

def SortLaw (cmp : Comparator σ ν) (a : RexxArray ν) (s : σ) (method : SortMethod) : Prop :=
  (Filled a 1 a.numItems → ∃ s' a', method.call cmp a s = (.ok s', a') ∧
    Sorts cmp a.numItems a a' ∧ (method.isStable = true → Stable cmp a.numItems a a')) ∧
  ((∃ pos, 1 ≤ pos ∧ pos ≤ a.numItems ∧ a.slot pos = none) →
    ∃ pos, method.call cmp a s = (.error (.sparseArray pos), a))

theorem checkSlots_ok {pos count : Nat}
    (h : ∀ i, pos ≤ i → i < pos + count → (a.slot i).isSome) : checkSlots a pos count = .ok () := by
  induction count generalizing pos with
  | zero => rfl
  | succ count ih =>
      obtain ⟨x, hx⟩ := Option.isSome_iff_exists.mp (h pos le_rfl (by omega))
      rw [checkSlots, hx, if_neg (by simp)]
      exact ih fun i hi hi' => h i (by omega) (by omega)

theorem checkSlots_error {pos count i : Nat} (hpos : pos ≤ i) (hi : i < pos + count)
    (hnone : a.slot i = none) : ∃ pos', checkSlots a pos count = .error (.sparseArray pos') := by
  induction count generalizing pos with
  | zero => exact absurd hi (by omega)
  | succ count ih =>
      rw [checkSlots]
      by_cases hhere : (a.slot pos).isNone
      · exact ⟨pos, if_pos hhere⟩
      · rw [if_neg hhere]
        apply ih _ (by omega)
        by_contra hlt
        have heq : pos = i := by omega
        rw [heq, hnone] at hhere
        exact hhere rfl

theorem Sorts.refl (h : Filled a 1 n) (hn : n ≤ 1) : Sorts cmp n a a := by
  refine ⟨.refl _ _ _, h, .refl _, fun le _ => ?_⟩
  obtain ⟨-, hlength⟩ := h.holds_items
  rcases hitems : items a n with _ | ⟨x, _ | ⟨y, L⟩⟩
  · exact .nil
  · exact List.pairwise_singleton _ _
  · rw [hitems] at hlength
    simp only [List.length_cons] at hlength
    omega

theorem sortItems_law {few : Nat} {sort : Nat → RexxArray ν → σ → Except SortError (RexxArray ν × σ)}
    {stable : Bool} (hfew : few ≤ 1)
    (hsort : Filled a 1 a.numItems → 1 ≤ a.numItems → ∀ s, ∃ a' s',
      sort a.numItems a s = .ok (a', s') ∧ Sorts cmp a.numItems a a' ∧
        (stable = true → Stable cmp a.numItems a a')) (s : σ) :
    (Filled a 1 a.numItems → ∃ s' a', sortItems few sort a s = (.ok s', a') ∧
      Sorts cmp a.numItems a a' ∧ (stable = true → Stable cmp a.numItems a a')) ∧
    (((∃ pos, 1 ≤ pos ∧ pos ≤ a.numItems ∧ a.slot pos = none) →
      ∃ pos, sortItems few sort a s = (.error (.sparseArray pos), a)) ↔
      (a.numItems = few → few = 1 → (a.slot 1).isSome)) := by
  constructor
  · intro hfilled
    rw [sortItems]
    by_cases hle : a.numItems ≤ few
    · rw [if_pos hle]
      exact ⟨s, a, rfl, .refl hfilled (hle.trans hfew), fun _ _ _ _ _ => rfl⟩
    · rw [if_neg hle, checkSlots_ok fun i hi hi' => hfilled.2.2 i hi (by omega)]
      obtain ⟨a', s', heq, hsorts, hstable⟩ := hsort hfilled (by omega) s
      simp only [heq]
      exact ⟨s', a', rfl, hsorts, hstable⟩
  · constructor
    · intro hlaw heq hone
      by_contra hempty
      have hnone : a.slot 1 = none := Option.not_isSome_iff_eq_none.mp hempty
      obtain ⟨pos, hcall⟩ := hlaw ⟨1, le_rfl, by omega, hnone⟩
      rw [sortItems, if_pos (by omega)] at hcall
      cases hcall
    · rintro hone ⟨pos, h1, h2, hnone⟩
      by_cases hle : a.numItems ≤ few
      · have hpos : pos = 1 := by omega
        have hsome := hone (by omega) (by omega)
        rw [hpos] at hnone
        rw [hnone] at hsome
        cases hsome
      · obtain ⟨pos', herror⟩ := checkSlots_error h1 (show pos < 1 + a.numItems by omega) hnone
        exact ⟨pos', by rw [sortItems, if_neg hle, herror]⟩

/--
The quick sort and the merge sort of the first slots, and the methods: a method with a
comparator obeys the law unless the only item is not in the first slot.
-/
theorem sorts_iff (cmp : Comparator σ ν) (a : RexxArray ν) (s : σ) :
    (∀ n, 1 ≤ n → Filled a 1 n →
      (∃ a' s', quickSortAll cmp n a s = .ok (a', s') ∧ Sorts cmp n a a') ∧
      ∃ a' s', mergeSortAll cmp n a s = .ok (a', s') ∧ Sorts cmp n a a' ∧ Stable cmp n a a') ∧
    ∀ method : SortMethod, SortLaw cmp a s method ↔
      (method.takesComparator = true → a.numItems = 1 → (a.slot 1).isSome) := by
  have hquick : Filled a 1 a.numItems → 1 ≤ a.numItems → ∀ s, ∃ a' s',
      quickSortAll cmp a.numItems a s = .ok (a', s') ∧ Sorts cmp a.numItems a a' ∧
        (false = true → Stable cmp a.numItems a a') := fun hfilled hn s => by
    obtain ⟨a', s', hsort, hsorts⟩ := quickSortAll_spec cmp hn hfilled s
    exact ⟨a', s', hsort, hsorts, nofun⟩
  have hmerge : Filled a 1 a.numItems → 1 ≤ a.numItems → ∀ s, ∃ a' s',
      mergeSortAll cmp a.numItems a s = .ok (a', s') ∧ Sorts cmp a.numItems a a' ∧
        (true = true → Stable cmp a.numItems a a') := fun hfilled hn s => by
    obtain ⟨a', s', hsort, hsorts, hstable⟩ := mergeSortAll_spec cmp hn hfilled s
    exact ⟨a', s', hsort, hsorts, fun _ => hstable⟩
  refine ⟨fun n hn hfilled => ⟨quickSortAll_spec cmp hn hfilled s,
    mergeSortAll_spec cmp hn hfilled s⟩, fun method => ?_⟩
  cases method with
  | sort =>
      obtain ⟨hsorts, herror⟩ := sortItems_law (Nat.zero_le 1) hquick s
      exact ⟨fun _ => nofun, fun _ => ⟨hsorts, herror.mpr fun _ => nofun⟩⟩
  | sortWith =>
      obtain ⟨hsorts, herror⟩ := sortItems_law le_rfl hquick s
      exact ⟨fun hlaw _ hone => herror.mp hlaw.2 hone rfl,
        fun hone => ⟨hsorts, herror.mpr fun h _ => hone rfl h⟩⟩
  | stableSort =>
      obtain ⟨hsorts, herror⟩ := sortItems_law (Nat.zero_le 1) hmerge s
      exact ⟨fun _ => nofun, fun _ => ⟨hsorts, herror.mpr fun _ => nofun⟩⟩
  | stableSortWith =>
      obtain ⟨hsorts, herror⟩ := sortItems_law le_rfl hmerge s
      exact ⟨fun hlaw _ hone => herror.mp hlaw.2 hone rfl,
        fun hone => ⟨hsorts, herror.mpr fun h _ => hone rfl h⟩⟩

/-- `a = .array~of(, 7); a~sortWith(comparator)` does not raise. -/
theorem sortWith_gap :
    ¬ SortLaw (fun (s : Unit) (x y : Int) => (x - y, s))
      ((newArray none 2 : RexxArray Int).put 7 2) () .sortWith := by
  rintro ⟨-, herror⟩
  obtain ⟨pos, hcall⟩ := herror ⟨1, le_rfl, by decide, by decide⟩
  rw [SortMethod.call, sortWithRexx, sortItems, if_pos (by decide)] at hcall
  cases hcall

end RexxArray

end LeooRexx
