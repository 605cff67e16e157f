import LeooRexx.Classes.RexxArrayQuickSort

/-!
# The merge sort

`merge` leaves in the array the merge of the lists that its two segments hold.
-/

namespace LeooRexx

open Sorting

namespace RexxArray

variable {σ ν : Type} {a a' working : RexxArray ν} {p l r : Nat} {L M R : List ν}

/-! ## Segments -/

def Holds (a : RexxArray ν) : Nat → List ν → Prop
  | _, [] => True
  | p, x :: L => a.slot p = some x ∧ Holds a (p + 1) L

theorem holds_append : Holds a p (L ++ M) ↔ Holds a p L ∧ Holds a (p + L.length) M := by
  induction L generalizing p with
  | nil => simp [Holds]
  | cons x L ih =>
      rw [List.cons_append, Holds, Holds, ih, and_assoc, List.length_cons, Nat.add_assoc p 1,
        Nat.add_comm 1]

theorem Holds.congr (h : Holds a p L)
    (heq : ∀ i, p ≤ i → i < p + L.length → a'.slot i = a.slot i) : Holds a' p L := by
  induction L generalizing p with
  | nil => trivial
  | cons x L ih =>
      rw [List.length_cons] at heq
      exact ⟨(heq p le_rfl (by omega)).trans h.1,
        ih h.2 fun i hi hi' => heq i (by omega) (by omega)⟩

theorem Holds.within (h : Holds a p L) (hw : Within l r a a')
    (hout : p + L.length ≤ l ∨ r < p) : Holds a' p L :=
  h.congr fun i hi hi' => hw.slot (by omega)

theorem Holds.map (h : Holds a p L) : (List.range' p L.length).map a.slot = L.map some := by
  induction L generalizing p with
  | nil => rfl
  | cons x L ih =>
      rw [List.length_cons, List.range'_succ, List.map_cons, List.map_cons, h.1, ih h.2]

theorem Holds.get (h : Holds a p L) {i : Nat} (hi : i < L.length) :
    a.slot (p + i) = some (L.get ⟨i, hi⟩) := by
  induction L generalizing p i with
  | nil => exact absurd hi (Nat.not_lt_zero i)
  | cons x L ih =>
      cases i with
      | zero => exact h.1
      | succ i =>
          rw [← Nat.add_assoc, Nat.add_right_comm]
          exact ih h.2 (Nat.lt_of_succ_lt_succ hi)

theorem exists_holds {n : Nat} (h : ∀ i, p ≤ i → i < p + n → (a.slot i).isSome) :
    ∃ L, L.length = n ∧ Holds a p L := by
  induction n generalizing p with
  | zero => exact ⟨[], rfl, trivial⟩
  | succ n ih =>
      obtain ⟨x, hx⟩ := Option.isSome_iff_exists.mp (h p le_rfl (by omega))
      obtain ⟨L, hlength, hL⟩ : ∃ L, L.length = n ∧ Holds a (p + 1) L :=
        ih fun i hi hi' => h i (by omega) (by omega)
      exact ⟨x :: L, by rw [List.length_cons, hlength], hx, hL⟩

/-! ## Merging -/

variable {cmp : Comparator σ ν}

def FilledWith (working : RexxArray ν) (p : Nat) (L : List ν) (working' : RexxArray ν) : Prop :=
  Holds working' p L ∧ Within p (p + L.length - 1) working working'

theorem FilledWith.cons {x : ν} {working' : RexxArray ν} (h1 : 1 ≤ p)
    (h2 : p ≤ working.arraySize) (h : FilledWith (working.put x p) (p + 1) L working') :
    FilledWith working p (x :: L) working' := by
  obtain ⟨hL, hw⟩ := h
  rw [Nat.add_right_comm, Nat.add_sub_cancel] at hw
  refine ⟨⟨?_, hL⟩, ?_⟩
  · rw [hw.slot (Or.inl (Nat.lt_succ_self p)), slot_put h1 h2, Function.update_self]
  · rw [List.length_cons, ← Nat.add_assoc, Nat.add_sub_cancel]
    exact (within_put le_rfl (by omega) h1 x).trans (hw.mono (by omega) le_rfl)

theorem copyRest_spec {last : Nat} (h : Holds a p L) (hlast : p + L.length = last + 1) {pos : Nat}
    (h1 : 1 ≤ pos) (h2 : pos + L.length ≤ working.arraySize + 1) :
    ∃ working', copyRest a last p pos working = .ok (pos + L.length, working') ∧
      FilledWith working pos L working' := by
  induction L generalizing p pos working with
  | nil =>
      rw [List.length_nil] at hlast
      rw [copyRest, dif_neg (by omega)]
      exact ⟨working, rfl, trivial, .refl _ _ _⟩
  | cons x L ih =>
      rw [List.length_cons] at hlast h2
      have hfit : pos + 1 + L.length ≤ (working.put x pos).arraySize + 1 := by
        change _ ≤ working.arraySize + 1
        omega
      obtain ⟨working', hcopy, hfilled⟩ := ih h.2 (by omega) (Nat.le_add_left 1 pos) hfit
      refine ⟨working', ?_, hfilled.cons h1 (by omega)⟩
      rw [copyRest, dif_pos (by omega), getItem_eq h.1, sort_ok_bind,
        putItem_eq h1 (by omega), sort_ok_bind, hcopy, List.length_cons, Nat.add_right_comm,
        Nat.add_assoc]

theorem copyRest_end {last first pos : Nat} (h : last < first) :
    copyRest a last first pos working = .ok (pos, working) := by
  rw [copyRest, dif_neg (by omega)]

theorem mergeLoop_end {left mid leftEnd right pos : Nat} {s : σ}
    (h : ¬ (left ≤ leftEnd ∧ mid ≤ right)) :
    mergeLoop cmp a leftEnd right left mid pos working s =
      .ok (left, mid, pos, working, s) := by
  rw [mergeLoop, dif_neg h]

theorem mergeInto_spec (cmp : Comparator σ ν) {left mid leftEnd right pos : Nat} (s : σ)
    (hL : Holds a left L)
    (hR : Holds a mid R) (hleft : left + L.length = leftEnd + 1)
    (hright : mid + R.length = right + 1) (h1 : 1 ≤ pos)
    (h2 : pos + (L.length + R.length) ≤ working.arraySize + 1) :
    ∃ working', mergeInto cmp a leftEnd right left mid pos working s =
        .ok (working', (mergeRuns cmp L R s).2) ∧
      FilledWith working pos (mergeRuns cmp L R s).1 working' := by
  induction L, R, s using mergeRuns.induct cmp generalizing left mid pos working with
  | case1 R s =>
      rw [List.length_nil, Nat.zero_add] at h2
      rw [List.length_nil] at hleft
      rw [mergeRuns_nil_left]
      obtain ⟨working', hcopy, hfilled⟩ := copyRest_spec hR hright h1 h2
      refine ⟨working', ?_, hfilled⟩
      rw [mergeInto, mergeLoop_end (by omega)]
      simp only [sort_ok_bind, copyRest_end (show leftEnd < left by omega), hcopy]
  | case2 L s =>
      rw [List.length_nil, Nat.add_zero] at h2
      rw [List.length_nil] at hright
      rw [mergeRuns_nil_right]
      obtain ⟨working', hcopy, hfilled⟩ := copyRest_spec hL hleft h1 h2
      refine ⟨working', ?_, hfilled⟩
      rw [mergeInto, mergeLoop_end (by omega)]
      simp only [sort_ok_bind, hcopy, copyRest_end (show right < mid by omega)]
  | case3 x L y R s hle ih =>
      rw [List.length_cons] at hleft h2
      have hfit : pos + 1 + (L.length + (y :: R).length) ≤ (working.put x pos).arraySize + 1 := by
        change _ ≤ working.arraySize + 1
        omega
      obtain ⟨working', hmerge, hfilled⟩ :=
        ih hL.2 hR (by omega) hright (Nat.le_add_left 1 pos) hfit
      rw [List.length_cons] at hright h2
      rw [mergeRuns, if_pos hle]
      refine ⟨working', ?_, hfilled.cons h1 (by omega)⟩
      rw [← hmerge, mergeInto, mergeLoop, dif_pos (by omega), getItem_eq hL.1, sort_ok_bind,
        getItem_eq hR.1, sort_ok_bind, if_pos hle, putItem_eq h1 (by omega), sort_ok_bind]
      rfl
  | case4 x L y R s hle ih =>
      have hfit : pos + 1 + ((x :: L).length + R.length) ≤ (working.put y pos).arraySize + 1 := by
        rw [@List.length_cons _ y R] at h2
        change _ ≤ working.arraySize + 1
        omega
      rw [List.length_cons] at hright
      obtain ⟨working', hmerge, hfilled⟩ :=
        ih hL hR.2 hleft (by omega) (Nat.le_add_left 1 pos) hfit
      rw [List.length_cons] at hleft
      rw [List.length_cons, List.length_cons] at h2
      rw [mergeRuns, if_neg hle]
      refine ⟨working', ?_, hfilled.cons h1 (by omega)⟩
      rw [← hmerge, mergeInto, mergeLoop, dif_pos (by omega), getItem_eq hL.1, sort_ok_bind,
        getItem_eq hR.1, sort_ok_bind, if_neg hle, putItem_eq h1 (by omega), sort_ok_bind]
      rfl

theorem copyBack_spec {elements right : Nat} (hright : right ≤ a.arraySize)
    (hle : elements ≤ right)
    (h : ∀ i, right < i + elements → i ≤ right → (working.slot i).isSome) :
    ∃ a', copyBack working elements right a = .ok a' ∧
      Within (right + 1 - elements) right a a' ∧
      ∀ i, right < i + elements → i ≤ right → a'.slot i = working.slot i := by
  induction elements generalizing right a with
  | zero => exact ⟨a, rfl, .refl _ _ _, fun i hi hi' => absurd hi (by omega)⟩
  | succ elements ih =>
      obtain ⟨item, hitem⟩ := Option.isSome_iff_exists.mp (h right (by omega) le_rfl)
      have h1 : 1 ≤ right := by omega
      have hright' : right - 1 ≤ (a.put item right).arraySize := by
        change right - 1 ≤ a.arraySize
        omega
      obtain ⟨a', hcopy, hw, hslots⟩ :=
        ih hright' (by omega) fun i hi hi' => h i (by omega) (by omega)
      refine ⟨a', ?_, (within_put (by omega) le_rfl h1 item).trans (hw.mono (by omega) (by omega)),
        fun i hi hi' => ?_⟩
      · rw [copyBack, getItem_eq hitem, sort_ok_bind, putItem_eq h1 hright, sort_ok_bind, hcopy]
      · by_cases heq : i = right
        · rw [heq, hw.slot (by omega), slot_put h1 hright, Function.update_self, hitem]
        · exact hslots i (by omega) (by omega)

theorem merge_spec (cmp : Comparator σ ν) {left mid right : Nat} (s : σ) (hL : Holds a left L)
    (hR : Holds a mid R)
    (hmid : left + L.length = mid) (hend : mid + R.length = right + 1) (h1 : 1 ≤ left)
    (hne : L ≠ []) (ha : right ≤ a.arraySize) (hw : right ≤ working.arraySize) :
    ∃ a' working', merge cmp left mid right a working s =
        .ok (a', working', (mergeRuns cmp L R s).2) ∧
      Holds a' left (mergeRuns cmp L R s).1 ∧ Within left right a a' ∧
      working'.arraySize = working.arraySize := by
  have hpos : 0 < L.length := List.length_pos_iff.mpr hne
  have hleft : left + L.length = mid - 1 + 1 := by omega
  have hfit : left + (L.length + R.length) ≤ working.arraySize + 1 := by omega
  obtain ⟨working', hmerge, hholds, hwithin⟩ := mergeInto_spec cmp s hL hR hleft hend h1 hfit
  have hlength : (mergeRuns cmp L R s).1.length = right + 1 - left := by
    rw [(mergeRuns_perm L R s).length_eq, List.length_append]
    omega
  have hfilled : ∀ i, right < i + (right - left + 1) → i ≤ right → (working'.slot i).isSome := by
    intro i hi hi'
    have hget := hholds.get (show i - left < _ by omega)
    rw [Nat.add_sub_cancel' (by omega)] at hget
    rw [hget]
    rfl
  obtain ⟨a', hcopy, hw', hslots⟩ := copyBack_spec ha (by omega) hfilled
  refine ⟨a', working', ?_, ?_, hw'.mono (by omega) le_rfl, hwithin.arraySize⟩
  · simp only [merge, hmerge, sort_ok_bind, hcopy]
  · exact hholds.congr fun i hi hi' => hslots i (by omega) (by omega)

/-! ## The sort -/

structure StableSort (cmp : Comparator σ ν) (L L' : List ν) : Prop where
  perm : L'.Perm L
  ordered : ∀ le, Consistent cmp le → L'.Pairwise le
  stable : ∀ le, Consistent cmp le → ∀ p, Alike le p → L'.filter p = L.filter p

theorem StableSort.merge {L' R' : List ν} (hL : StableSort cmp L L') (hR : StableSort cmp R R')
    (s : σ) : StableSort cmp (L ++ R) (mergeRuns cmp L' R' s).1 := by
  constructor
  · exact (mergeRuns_perm L' R' s).trans (hL.perm.append hR.perm)
  · exact fun le hc => mergeRuns_pairwise hc s (hL.ordered le hc) (hR.ordered le hc)
  · intro le hc p hp
    rw [mergeRuns_stable hc s (hL.ordered le hc) hp, List.filter_append, hL.stable le hc p hp,
      hR.stable le hc p hp]

theorem mergeSort_spec (cmp : Comparator σ ν) {left right : Nat} (hL : Holds a left L)
    (hend : left + L.length = right + 1) (h1 : 1 ≤ left) (hne : L ≠ [])
    (ha : right ≤ a.arraySize) (hw : right ≤ working.arraySize) (s : σ) :
    ∃ a' working' s' L', mergeSort cmp left right a working s = .ok (a', working', s') ∧
      Holds a' left L' ∧ Within left right a a' ∧ working'.arraySize = working.arraySize ∧
      StableSort cmp L L' := by
  induction hn : right - left using Nat.strong_induction_on
    generalizing left right a working s L with
  | _ n ih =>
      have hpos : 0 < L.length := List.length_pos_iff.mpr hne
      by_cases hlt : left < right
      · have hmid₁ : left ≤ (right + left) / 2 := by omega
        have hmid₂ : (right + left) / 2 < right := by omega
        generalize hm : (right + left) / 2 = mid at hmid₁ hmid₂
        have hsplit : L.take (mid + 1 - left) ++ L.drop (mid + 1 - left) = L :=
          List.take_append_drop ..
        generalize hL₁ : L.take (mid + 1 - left) = L₁ at hsplit
        generalize hL₂ : L.drop (mid + 1 - left) = L₂ at hsplit
        have hlen₁ : left + L₁.length = mid + 1 := by
          rw [← hL₁, List.length_take]
          omega
        have hlen₂ : mid + 1 + L₂.length = right + 1 := by
          rw [← hL₂, List.length_drop]
          omega
        have hne₁ : L₁ ≠ [] := List.length_pos_iff.mp (by omega)
        have hne₂ : L₂ ≠ [] := List.length_pos_iff.mp (by omega)
        obtain ⟨hholds₁, hholds₂⟩ := holds_append.mp (hsplit ▸ hL)
        rw [hlen₁] at hholds₂
        obtain ⟨b, w₁, s₁, L₁', hsort₁, hb, hwb, hw₁, hstable₁⟩ :=
          ih (mid - left) (by omega) hholds₁ hlen₁ h1 hne₁ (by omega)
            (show mid ≤ working.arraySize by omega) s rfl
        have hholds₂' : Holds b (mid + 1) L₂ := hholds₂.within hwb (Or.inr (Nat.lt_succ_self mid))
        obtain ⟨c, w₂, s₂, L₂', hsort₂, hc, hwc, hw₂, hstable₂⟩ :=
          ih (right - (mid + 1)) (by omega) hholds₂' hlen₂ (by omega) hne₂
            (hwb.arraySize ▸ ha) (hw₁ ▸ hw) s₁ rfl
        have hlen₁' := hstable₁.perm.length_eq
        have hlen₂' := hstable₂.perm.length_eq
        have hleft : Holds c left L₁' := hb.within hwc (Or.inl (by omega))
        have hsize : right ≤ c.arraySize := by rwa [hwc.arraySize, hwb.arraySize]
        have hsize' : right ≤ w₂.arraySize := by rwa [hw₂, hw₁]
        obtain ⟨a', w₃, hmerge, hholds, hwithin, hw₃⟩ :=
          merge_spec cmp s₂ hleft hc (by omega) (by omega) h1
            (List.length_pos_iff.mp (by omega)) hsize hsize'
        have hstable : StableSort cmp L (mergeRuns cmp L₁' L₂' s₂).1 := by
          rw [← hsplit]
          exact hstable₁.merge hstable₂ s₂
        refine ⟨a', w₃, (mergeRuns cmp L₁' L₂' s₂).2, _, ?_, hholds, ?_, by rw [hw₃, hw₂, hw₁], hstable⟩
        · rw [mergeSort, dif_pos hlt]
          simp only [hm, hsort₁, sort_ok_bind, hsort₂, hmerge]
        · exact ((hwb.mono le_rfl (by omega)).trans (hwc.mono (by omega) le_rfl)).trans hwithin
      · have hlength : L.length = 1 := by omega
        obtain ⟨x, rfl⟩ := List.length_eq_one_iff.mp hlength
        refine ⟨a, working, s, [x], ?_, hL, .refl _ _ _, rfl, .refl _,
          fun _ _ => List.pairwise_singleton _ _, fun _ _ _ _ => rfl⟩
        rw [mergeSort, dif_neg hlt]

end RexxArray

end LeooRexx
