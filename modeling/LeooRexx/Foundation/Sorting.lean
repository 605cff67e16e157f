import Mathlib.Data.List.Perm.Basic
import Mathlib.Data.List.Nodup
import Mathlib.Data.List.Range
import Mathlib.Logic.Equiv.Basic

/-!
# Sorting with a comparator

A comparator may answer differently each time: it takes and returns a state.  What a sort
does with its items does not depend on the answers; the order does, when the comparator
follows a total preorder.
-/

namespace Sorting

variable {σ α : Type}

abbrev Comparator (σ α : Type) := σ → α → α → Int × σ

structure Consistent (cmp : Comparator σ α) (le : α → α → Prop) : Prop where
  total : ∀ x y, le x y ∨ le y x
  trans : ∀ x y z, le x y → le y z → le x z
  nonpos_iff : ∀ s x y, (cmp s x y).1 ≤ 0 ↔ le x y
  nonneg_iff : ∀ s x y, 0 ≤ (cmp s x y).1 ↔ le y x

variable {cmp : Comparator σ α} {le : α → α → Prop}

/-! ## Merging -/

/-- Merge two lists, with the left one first where the comparator has no preference. -/
def mergeRuns (cmp : Comparator σ α) : List α → List α → σ → List α × σ
  | [], right, s => (right, s)
  | left, [], s => (left, s)
  | x :: left, y :: right, s =>
      if (cmp s x y).1 ≤ 0 then
        let merged := mergeRuns cmp left (y :: right) (cmp s x y).2
        (x :: merged.1, merged.2)
      else
        let merged := mergeRuns cmp (x :: left) right (cmp s x y).2
        (y :: merged.1, merged.2)
termination_by left right => left.length + right.length

@[simp]
theorem mergeRuns_nil_left (right : List α) (s : σ) : mergeRuns cmp [] right s = (right, s) := by
  rw [mergeRuns]

@[simp]
theorem mergeRuns_nil_right (left : List α) (s : σ) : mergeRuns cmp left [] s = (left, s) := by
  cases left with
  | nil => rw [mergeRuns]
  | cons x left => rw [mergeRuns]; simp

theorem mergeRuns_perm (left right : List α) (s : σ) :
    (mergeRuns cmp left right s).1.Perm (left ++ right) := by
  induction left, right, s using mergeRuns.induct cmp with
  | case1 right s => rw [mergeRuns_nil_left, List.nil_append]
  | case2 left s => rw [mergeRuns_nil_right, List.append_nil]
  | case3 x left y right s hle ih =>
      rw [mergeRuns, if_pos hle]
      exact ih.cons x
  | case4 x left y right s hle ih =>
      rw [mergeRuns, if_neg hle]
      exact (ih.cons y).trans List.perm_middle.symm

theorem Consistent.refl (hc : Consistent cmp le) (x : α) : le x x := by
  rcases hc.total x x with h | h <;> exact h

theorem Consistent.of_not (hc : Consistent cmp le) {s : σ} {x y : α} (h : ¬ (cmp s x y).1 ≤ 0) :
    ¬ le x y ∧ le y x := by
  have hnot : ¬ le x y := fun hle => h ((hc.nonpos_iff s x y).mpr hle)
  exact ⟨hnot, (hc.total x y).resolve_left hnot⟩

theorem mergeRuns_pairwise (hc : Consistent cmp le) {left right : List α} (s : σ)
    (hleft : left.Pairwise le) (hright : right.Pairwise le) :
    (mergeRuns cmp left right s).1.Pairwise le := by
  induction left, right, s using mergeRuns.induct cmp with
  | case1 right s => rwa [mergeRuns_nil_left]
  | case2 left s => rwa [mergeRuns_nil_right]
  | case3 x left y right s hle ih =>
      obtain ⟨hx, hleft⟩ := List.pairwise_cons.mp hleft
      have hy := (List.pairwise_cons.mp hright).1
      have hxy : le x y := (hc.nonpos_iff s x y).mp hle
      rw [mergeRuns, if_pos hle]
      apply List.Pairwise.cons _ (ih hleft hright)
      intro z hz
      rcases List.mem_append.mp ((mergeRuns_perm left (y :: right) _).mem_iff.mp hz) with hz | hz
      · exact hx z hz
      · rcases List.mem_cons.mp hz with rfl | hz
        · exact hxy
        · exact hc.trans x y z hxy (hy z hz)
  | case4 x left y right s hle ih =>
      have hx := (List.pairwise_cons.mp hleft).1
      obtain ⟨hy, hright⟩ := List.pairwise_cons.mp hright
      have hyx := (hc.of_not hle).2
      rw [mergeRuns, if_neg hle]
      apply List.Pairwise.cons _ (ih hleft hright)
      intro z hz
      rcases List.mem_append.mp ((mergeRuns_perm (x :: left) right _).mem_iff.mp hz) with hz | hz
      · rcases List.mem_cons.mp hz with rfl | hz
        · exact hyx
        · exact hc.trans y x z hyx (hx z hz)
      · exact hy z hz

def Alike (le : α → α → Prop) (p : α → Bool) : Prop := ∀ x y, p x → p y → le x y

theorem mergeRuns_stable (hc : Consistent cmp le) {left right : List α} (s : σ)
    (hleft : left.Pairwise le) {p : α → Bool} (hp : Alike le p) :
    (mergeRuns cmp left right s).1.filter p = left.filter p ++ right.filter p := by
  induction left, right, s using mergeRuns.induct cmp with
  | case1 right s => rw [mergeRuns_nil_left, List.filter_nil, List.nil_append]
  | case2 left s => rw [mergeRuns_nil_right, List.filter_nil, List.append_nil]
  | case3 x left y right s hle ih =>
      rw [mergeRuns, if_pos hle, List.filter_cons, List.filter_cons,
        ih (List.pairwise_cons.mp hleft).2]
      split <;> rfl
  | case4 x left y right s hle ih =>
      rw [mergeRuns, if_neg hle, List.filter_cons, ih hleft, @List.filter_cons _ y right]
      by_cases hy : p y
      · -- the left items are larger than `y`, so that none of them is alike
        have hnone : (x :: left).filter p = [] := by
          rw [List.filter_eq_nil_iff]
          intro z hz hpz
          have hxz : le x z := by
            rcases List.mem_cons.mp hz with rfl | hz
            · exact hc.refl z
            · exact (List.pairwise_cons.mp hleft).1 z hz
          exact (hc.of_not hle).1 (hc.trans x z y hxz (hp z y hpz hy))
        rw [hnone, if_pos hy, if_pos hy, List.nil_append, List.nil_append]
      · rw [if_neg hy, if_neg hy]

/-! ## Rearrangement -/

def Rearranged (l r : ℕ) (f g : ℕ → α) : Prop :=
  ∃ e : Equiv.Perm ℕ, (∀ i, i < l ∨ r < i → e i = i) ∧ ∀ i, g i = f (e i)

namespace Rearranged

variable {l r l' r' : ℕ} {f g h : ℕ → α}

theorem refl (l r : ℕ) (f : ℕ → α) : Rearranged l r f f :=
  ⟨Equiv.refl ℕ, fun _ _ => rfl, fun _ => rfl⟩

theorem trans (hfg : Rearranged l r f g) (hgh : Rearranged l r g h) : Rearranged l r f h := by
  obtain ⟨e, he, hg⟩ := hfg
  obtain ⟨e', he', hh⟩ := hgh
  refine ⟨e'.trans e, fun i hi => ?_, fun i => ?_⟩
  · rw [Equiv.trans_apply, he' i hi, he i hi]
  · rw [Equiv.trans_apply, hh, hg]

theorem mono (hfg : Rearranged l r f g) (hl : l' ≤ l) (hr : r ≤ r') : Rearranged l' r' f g := by
  obtain ⟨e, he, hg⟩ := hfg
  exact ⟨e, fun i hi => he i (by omega), hg⟩

theorem exists_inside (hfg : Rearranged l r f g) {i : ℕ} (hl : l ≤ i) (hr : i ≤ r) :
    ∃ j, l ≤ j ∧ j ≤ r ∧ g i = f j := by
  obtain ⟨e, he, hg⟩ := hfg
  have hin : l ≤ e i ∧ e i ≤ r := by
    by_contra hout
    have heq : e i = i := e.injective (he (e i) (by omega))
    omega
  exact ⟨e i, hin.1, hin.2, hg i⟩

theorem move {p q : ℕ} (hp : l ≤ p ∧ p ≤ r) (hq : l ≤ q ∧ q ≤ r) (f : ℕ → α) (v : α) :
    Rearranged l r (Function.update f p v)
      (Function.update (Function.update f p (f q)) q v) := by
  refine ⟨Equiv.swap p q, fun i hi => Equiv.swap_apply_of_ne_of_ne (by omega) (by omega),
    fun i => ?_⟩
  by_cases hiq : i = q
  · rw [hiq, Equiv.swap_apply_right, Function.update_self, Function.update_self]
  · rw [Function.update_of_ne hiq]
    by_cases hip : i = p
    · rw [hip, Equiv.swap_apply_left, Function.update_self]
      rw [hip] at hiq
      rw [Function.update_of_ne (Ne.symm hiq)]
    · rw [Equiv.swap_apply_of_ne_of_ne hip hiq, Function.update_of_ne hip,
        Function.update_of_ne hip]

theorem perm (hfg : Rearranged l r f g) {n : ℕ} (hn : r + 1 = l + n) :
    ((List.range' l n).map g).Perm ((List.range' l n).map f) := by
  obtain ⟨e, he, hg⟩ := hfg
  have hmap : (List.range' l n).map g = ((List.range' l n).map e).map f := by
    rw [List.map_map]
    exact List.map_congr_left fun i _ => hg i
  have hmem : ∀ i, e i ∈ List.range' l n ↔ i ∈ List.range' l n := by
    intro i
    rw [List.mem_range'_1, List.mem_range'_1]
    by_cases hin : l ≤ i ∧ i < l + n
    · have heq : e i = i ∨ l ≤ e i ∧ e i ≤ r := by
        by_cases hout : e i < l ∨ r < e i
        · exact Or.inl (e.injective (he (e i) hout))
        · exact Or.inr (by omega)
      omega
    · rw [he i (by omega)]
  rw [hmap]
  apply List.Perm.map
  apply (List.perm_ext_iff_of_nodup _ List.nodup_range').mpr
  · intro i
    rw [List.mem_map]
    constructor
    · rintro ⟨j, hj, rfl⟩
      exact (hmem j).mpr hj
    · intro hi
      refine ⟨e.symm i, ?_, e.apply_symm_apply i⟩
      rw [← hmem, e.apply_symm_apply]
      exact hi
  · exact List.Nodup.map e.injective List.nodup_range'

end Rearranged

end Sorting
