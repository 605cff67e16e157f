import Mathlib.Data.List.Range
import LeooRexx.Runtime.MemorySegmentSweep

/-!
# The dead chains of the two segment sets

The chains of the normal set are one chain of large blocks and a subpool for each small size,
with an index that leads a search to a pool of larger blocks.  The large set has one chain
that is sorted by size.
-/

namespace LeooRexx

namespace MemorySegment

variable {header header' : Headers} {mark : HEADINFO} {length : ℕ}

/-! ## The normal set -/

namespace NormalChains

variable {chains chains' : NormalChains} {object : ℕ}

def chained (chains : NormalChains) : List ℕ :=
  chains.largeDead ++ (List.range DeadPools).flatMap chains.subpools

structure Proper (header : Headers) (chains : NormalChains) : Prop where
  pools : ∀ i, ∀ o ∈ chains.subpools i, ObjectSize header o = i * ObjectGrain
  unswept : ∀ i, ¬ IsSweptPool i → chains.subpools i = []
  redirect : ∀ i, i < DeadPools → i ≤ chains.lastUsedSubpool i

theorem perm_flatMap_update {f : ℕ → List ℕ} {l : List ℕ} {i x : ℕ} (hl : l.Nodup) (hi : i ∈ l) :
    (l.flatMap (Function.update f i (x :: f i))).Perm (x :: l.flatMap f) := by
  induction l with
  | nil => cases hi
  | cons j l ih =>
      obtain ⟨hj, hl⟩ := List.nodup_cons.mp hl
      rw [List.flatMap_cons, List.flatMap_cons]
      rcases eq_or_ne j i with rfl | hne
      · have htail : l.flatMap (Function.update f j (x :: f j)) = l.flatMap f := by
          apply List.flatMap_congr
          intro k hk
          exact Function.update_of_ne (fun heq => hj (by rw [← heq]; exact hk)) _ _
        rw [Function.update_self, htail]
        rfl
      · rw [Function.update_of_ne hne]
        have hmem : i ∈ l := (List.mem_cons.mp hi).resolve_left (Ne.symm hne)
        exact ((ih hl hmem).append_left (f j)).trans List.perm_middle

theorem mem_chained {o : ℕ} : o ∈ chains.chained ↔
    o ∈ chains.largeDead ∨ ∃ i < DeadPools, o ∈ chains.subpools i := by
  simp [chained]

theorem Proper.congr (h : Proper header chains)
    (hsize : ∀ o ∈ chains.chained, ObjectSize header' o = ObjectSize header o) :
    Proper header' chains where
  pools i o ho := by
    have hi : i < DeadPools := by
      by_contra hge
      rw [h.unswept i fun hswept => hge hswept.2] at ho
      cases ho
    rw [hsize o (mem_chained.mpr (.inr ⟨i, hi, ho⟩))]
    exact h.pools i o ho
  unswept := h.unswept
  redirect := h.redirect

theorem pool_swept (hlength : DeadObjectSize ≤ length) (hsmall : ¬ LargestSubpool < length) :
    IsSweptPool (LengthToDeadPool length) := by
  simp only [DeadObjectSize, LargestSubpool] at hlength hsmall
  simp only [IsSweptPool, FirstDeadPool, DeadPools, LengthToDeadPool, ObjectGrain,
    MinimumObjectSize, LargestSubpool]
  omega

theorem perm_add (chains : NormalChains) (object : ℕ) (hlength : DeadObjectSize ≤ length) :
    (addNormalDeadObject chains object length).chained.Perm (object :: chains.chained) := by
  rw [addNormalDeadObject]
  split
  · exact .refl _
  · rename_i hsmall
    have hmem : LengthToDeadPool length ∈ List.range DeadPools :=
      List.mem_range.mpr (pool_swept hlength hsmall).2
    exact ((perm_flatMap_update List.nodup_range hmem).append_left chains.largeDead).trans
      List.perm_middle

theorem add_small (chains : NormalChains) (object : ℕ) (h : ¬ LargestSubpool < length) :
    addNormalDeadObject chains object length =
      { chains with
        subpools := Function.update chains.subpools (LengthToDeadPool length)
          (object :: chains.subpools (LengthToDeadPool length))
        lastUsedSubpool := Function.update chains.lastUsedSubpool (LengthToDeadPool length)
          (LengthToDeadPool length) } :=
  if_neg h

theorem Proper.add (h : Proper header chains) (hlength : DeadObjectSize ≤ length)
    (hgrain : length % ObjectGrain = 0)
    (hsize : length < LargeObjectMinSize → ObjectSize header object = length) :
    Proper header (addNormalDeadObject chains object length) := by
  by_cases hlarge : LargestSubpool < length
  · rw [addNormalDeadObject, if_pos hlarge]
    exact ⟨h.pools, h.unswept, h.redirect⟩
  · have hswept := pool_swept hlength hlarge
    rw [add_small chains object hlarge]
    constructor
    · intro i o ho
      rcases eq_or_ne i (LengthToDeadPool length) with rfl | hne
      · simp only [Function.update_self] at ho
        rcases List.mem_cons.mp ho with rfl | ho
        · simp only [LargestSubpool] at hlarge
          rw [hsize (by simp only [LargeObjectMinSize]; omega), LengthToDeadPool]
          simp only [ObjectGrain] at hgrain ⊢
          omega
        · exact h.pools _ o ho
      · simp only [Function.update_of_ne hne] at ho
        exact h.pools i o ho
    · intro i hi
      have hne : i ≠ LengthToDeadPool length := by
        rintro rfl
        exact hi hswept
      simp only [Function.update_of_ne hne]
      exact h.unswept i hi
    · intro i hi
      rcases eq_or_ne i (LengthToDeadPool length) with rfl | hne
      · simp only [Function.update_self]
        exact le_rfl
      · simp only [Function.update_of_ne hne]
        exact h.redirect i hi

theorem prepared (h : Proper header chains) (i : ℕ) :
    (SegmentSet.prepareForSweep chains).subpools i = [] := by
  change (if IsSweptPool i then [] else chains.subpools i) = []
  split
  · rfl
  · rename_i hi
    exact h.unswept i hi

theorem complete_redirect (h : Proper header chains) {i : ℕ} (hi : i < DeadPools) :
    i ≤ (SegmentSet.completeSweepOperation chains).lastUsedSubpool i := by
  change i ≤ if IsSweptPool i then _ else chains.lastUsedSubpool i
  split
  · split
    · exact le_rfl
    · cases hfind : (List.range' (i + 1) (DeadPools - (i + 1))).find? fun _ =>
        decide ((chains.subpools i).isEmpty = false) with
      | none => exact hi.le
      | some j =>
          have := List.mem_range'_1.mp (List.mem_of_find?_eq_some hfind)
          rw [Option.getD_some]
          omega
  · exact h.redirect i hi

instance : DeadChains NormalChains where
  chained := chained
  Proper := Proper
  chained_none := rfl
  proper_none :=
    { pools := fun _ _ ho => by cases ho
      unswept := fun _ _ => rfl
      redirect := fun _ hi => Nat.le_of_lt hi }
  proper_congr := Proper.congr
  prepare {header chains} h := by
    have hempty : (SegmentSet.prepareForSweep chains).chained = [] := by
      rw [chained, List.append_eq_nil_iff]
      refine ⟨rfl, ?_⟩
      rw [List.flatMap_eq_nil_iff]
      intro i _
      exact prepared h i
    refine ⟨hempty, ?_, fun i _ => prepared h i, h.redirect⟩
    intro i o ho
    rw [prepared h i] at ho
    cases ho
  complete h := ⟨rfl, h.pools, h.unswept, fun _ hi => complete_redirect h hi⟩
  add _ _ h hlength hgrain hsize := ⟨perm_add _ _ hlength, h.add hlength hgrain hsize⟩

end NormalChains

/-! ## The large set -/

theorem perm_addSortedBySize (header : Headers) (chain : List ℕ) (object : ℕ) :
    (addSortedBySize header chain object).Perm (object :: chain) := by
  rw [addSortedBySize]
  apply List.perm_middle.trans
  rw [List.takeWhile_append_dropWhile]

instance : DeadChains LargeChains where
  chained := LargeChains.deadCache
  Proper _ _ := True
  chained_none := rfl
  proper_none := trivial
  proper_congr _ _ := trivial
  prepare _ := ⟨rfl, trivial⟩
  complete _ := ⟨rfl, trivial⟩
  add _ _ _ _ _ _ := ⟨perm_addSortedBySize _ _ _, trivial⟩

/-! ## Searching a chain -/

variable {allocationLength object realLength : ℕ} {chain before tail rest : List ℕ}

theorem firstFit_eq (h : firstFit header allocationLength chain = some (before, object, tail)) :
    chain = before ++ object :: tail ∧ allocationLength ≤ ObjectSize header object := by
  induction chain generalizing before with
  | nil => cases h
  | cons o chain ih =>
      rw [firstFit] at h
      split at h
      · rename_i hfits
        cases h
        exact ⟨rfl, hfits⟩
      · cases hrest : firstFit header allocationLength chain with
        | none =>
            rw [hrest] at h
            cases h
        | some found =>
            obtain ⟨before', object', tail'⟩ := found
            rw [hrest] at h
            cases h
            obtain ⟨rfl, hfits⟩ := ih hrest
            exact ⟨rfl, hfits⟩

theorem perm_reorder (header : Headers) (before tail : List ℕ) :
    (reorder header allocationLength before tail).Perm (before ++ tail) := by
  have hparts := List.filter_append_perm
    (fun object => decide (allocationLength < ObjectSize header object)) tail
  have hkept : (tail.filter fun object =>
      decide (¬ allocationLength < ObjectSize header object)) =
      tail.filter fun object => !decide (allocationLength < ObjectSize header object) := by
    apply List.filter_congr
    intro x _
    exact decide_not
  rw [reorder]
  simp only [hkept]
  apply List.perm_append_comm.trans
  rw [List.append_assoc]
  apply List.Perm.append_left
  apply List.perm_append_comm.trans
  exact ((List.reverse_perm _).append_right _).trans hparts

theorem findFit_eq (h : findFit header allocationLength chain = some (object, realLength, rest)) :
    chain.Perm (object :: rest) ∧ realLength = ObjectSize header object ∧
      allocationLength ≤ realLength := by
  rw [findFit] at h
  cases hfirst : firstFit header allocationLength chain with
  | none =>
      rw [hfirst] at h
      cases h
  | some found =>
      obtain ⟨before, object', tail⟩ := found
      rw [hfirst] at h
      cases h
      obtain ⟨rfl, hfits⟩ := firstFit_eq hfirst
      refine ⟨List.perm_middle.trans (.cons _ ?_), rfl, hfits⟩
      split
      · exact (perm_reorder header before tail).symm
      · exact .refl _

theorem bestFit_eq {largest : Option ℕ}
    (h : bestFit header allocationLength chain largest = some object) :
    largest = some object ∨ (object ∈ chain ∧ allocationLength ≤ ObjectSize header object) := by
  induction chain generalizing largest with
  | nil => exact .inl h
  | cons o chain ih =>
      have hkeep : ∀ {largest'}, bestFit header allocationLength chain largest' = some object →
          (largest' = largest ∨ largest' = some o ∧ allocationLength ≤ ObjectSize header o) →
          largest = some object ∨
            (object ∈ o :: chain ∧ allocationLength ≤ ObjectSize header object) := by
        intro largest' hbest hlargest
        rcases ih hbest with hsame | ⟨hmem, hfits⟩
        · rcases hlargest with rfl | ⟨rfl, hfits⟩
          · exact .inl hsame
          · cases hsame
            exact .inr ⟨List.mem_cons_self, hfits⟩
        · exact .inr ⟨List.mem_cons_of_mem o hmem, hfits⟩
      rw [bestFit] at h
      split at h
      · rename_i hfits
        split at h
        · cases h
          exact .inr ⟨List.mem_cons_self, hfits⟩
        · split at h
          · exact hkeep h (.inr ⟨rfl, hfits⟩)
          · exact hkeep h (.inl rfl)
      · exact hkeep h (.inl rfl)

theorem findBestFit_eq (h : findBestFit header allocationLength chain = some (object, rest)) :
    chain.Perm (object :: rest) ∧ allocationLength ≤ ObjectSize header object := by
  rw [findBestFit] at h
  cases hbest : bestFit header allocationLength chain none with
  | none =>
      rw [hbest] at h
      cases h
  | some found =>
      rw [hbest] at h
      cases h
      rcases bestFit_eq hbest with hnone | ⟨hmem, hfits⟩
      · cases hnone
      · exact ⟨List.perm_cons_erase hmem, hfits⟩

end MemorySegment

end LeooRexx
