import LeooRexx.Classes.RexxArraySort
import LeooRexx.Foundation.RowMajor

/-!
# The quick sort

The partition keeps a hole, from which the pivot was taken: with the pivot in the hole, the
items are always a rearrangement of the first ones.
-/

namespace LeooRexx

open Sorting

namespace RexxArray

variable {σ ν : Type} {a a' a'' : RexxArray ν} {l r p q : Nat}

@[simp]
theorem sort_ok_bind {α β : Type} (x : α) (f : α → Except SortError β) :
    (Except.ok x >>= f) = f x := rfl

/-! ## Slots -/

/-- The slots from `l` to `r` are in the array and have items. -/
def Filled (a : RexxArray ν) (l r : Nat) : Prop :=
  1 ≤ l ∧ r ≤ a.arraySize ∧ ∀ i, l ≤ i → i ≤ r → (a.slot i).isSome

/-- Nothing but the slots from `l` to `r` is different. -/
structure Within (l r : Nat) (a a' : RexxArray ν) : Prop where
  dimensions : a'.dimensions = a.dimensions
  arraySize : a'.arraySize = a.arraySize
  maximumSize : a'.maximumSize = a.maximumSize
  objects : ∀ i, i + 1 < l ∨ r < i + 1 → a'.objects i = a.objects i

theorem Within.refl (l r : Nat) (a : RexxArray ν) : Within l r a a := ⟨rfl, rfl, rfl, fun _ _ => rfl⟩

theorem Within.trans (h : Within l r a a') (h' : Within l r a' a'') : Within l r a a'' :=
  ⟨h'.dimensions.trans h.dimensions, h'.arraySize.trans h.arraySize,
    h'.maximumSize.trans h.maximumSize, fun i hi => (h'.objects i hi).trans (h.objects i hi)⟩

theorem Within.mono {l' r' : Nat} (h : Within l r a a') (hl : l' ≤ l) (hr : r ≤ r') :
    Within l' r' a a' :=
  ⟨h.dimensions, h.arraySize, h.maximumSize, fun i hi => h.objects i (by omega)⟩

theorem Within.slot (h : Within l r a a') {i : Nat} (hi : i < l ∨ r < i) :
    a'.slot i = a.slot i := by
  rw [RexxArray.slot, RexxArray.slot, h.arraySize]
  split
  · exact h.objects (i - 1) (by omega)
  · rfl

theorem getItem_eq {item : ν} (h : a.slot p = some item) : a.getItem p = .ok item := by
  rw [getItem, h]

theorem putItem_eq (h1 : 1 ≤ p) (h2 : p ≤ a.arraySize) (item : ν) :
    a.putItem item p = .ok (a.put item p) := if_pos ⟨h1, h2⟩

theorem slot_put (h1 : 1 ≤ p) (h2 : p ≤ a.arraySize) (item : ν) :
    (a.put item p).slot = Function.update a.slot p (some item) := by
  funext i
  change (if 1 ≤ i ∧ i ≤ a.arraySize then
    Function.update a.objects (p - 1) (some item) (i - 1) else none) = _
  by_cases hi : i = p
  · rw [hi, if_pos ⟨h1, h2⟩, Function.update_self, Function.update_self]
  · rw [Function.update_of_ne hi, slot]
    split
    · exact Function.update_of_ne (by omega) ..
    · rfl

theorem within_put (h1 : l ≤ p) (h2 : p ≤ r) (h3 : 1 ≤ p) (item : ν) :
    Within l r a (a.put item p) :=
  ⟨rfl, rfl, rfl, fun i hi => Function.update_of_ne (by omega) ..⟩

theorem Filled.get (h : Filled a l r) (hl : l ≤ p) (hr : p ≤ r) : ∃ item, a.slot p = some item :=
  Option.isSome_iff_exists.mp (h.2.2 p hl hr)

theorem Filled.mono {l' r' : Nat} (h : Filled a l r) (hl : l ≤ l') (hr : r' ≤ r) :
    Filled a l' r' :=
  ⟨h.1.trans hl, hr.trans h.2.1, fun i hi hi' => h.2.2 i (hl.trans hi) (hi'.trans hr)⟩

theorem Filled.rearranged (h : Filled a l r) (hw : Within l r a a')
    (hslots : Rearranged l r a.slot a'.slot) : Filled a' l r := by
  refine ⟨h.1, hw.arraySize ▸ h.2.1, fun i hl hr => ?_⟩
  obtain ⟨j, hjl, hjr, heq⟩ := hslots.exists_inside hl hr
  rw [heq]
  exact h.2.2 j hjl hjr

theorem Filled.put (h : Filled a l r) (hl : l ≤ p) (hr : p ≤ r) (item : ν) :
    Filled (a.put item p) l r := by
  refine ⟨h.1, h.2.1, fun i hil hir => ?_⟩
  rw [slot_put (h.1.trans hl) (hr.trans h.2.1)]
  by_cases hi : i = p
  · rw [hi, Function.update_self]
    rfl
  · rw [Function.update_of_ne hi]
    exact h.2.2 i hil hir

theorem moveItem_eq {source : Nat} {item : ν} (hsource : a.slot source = some item) (h1 : 1 ≤ p)
    (h2 : p ≤ a.arraySize) : a.moveItem source p = .ok (a.put item p) := by
  rw [moveItem, getItem_eq hsource, sort_ok_bind, putItem_eq h1 h2]

/-! ## The partition -/

variable {cmp : Comparator σ ν} {pivot : ν}

def LowAt (cmp : Comparator σ ν) (pivot : ν) (item : Option ν) : Prop :=
  ∃ x s, item = some x ∧ (cmp s x pivot).1 ≤ 0

def HighAt (cmp : Comparator σ ν) (pivot : ν) (item : Option ν) : Prop :=
  ∃ x s, item = some x ∧ 0 ≤ (cmp s x pivot).1

theorem fixRight_spec (cmp : Comparator σ ν) (pivot : ν) (h : Filled a l r) (hle : l ≤ r) (s : σ) :
    ∃ r' s', fixRight cmp a pivot l r s = .ok (r', s') ∧ l ≤ r' ∧ r' ≤ r ∧
      (∀ i, r' < i → i ≤ r → HighAt cmp pivot (a.slot i)) ∧
      (l < r' → LowAt cmp pivot (a.slot r')) := by
  induction r, s using fixRight.induct cmp pivot l with
  | case1 right s ih =>
      obtain ⟨item, hitem⟩ := h.get hle le_rfl
      rw [fixRight, getItem_eq hitem, sort_ok_bind]
      by_cases hcond : 0 ≤ (cmp s item pivot).1 ∧ l < right
      · rw [dif_pos hcond]
        obtain ⟨r', s', heq, hl', hr', hhigh, hlow⟩ :=
          ih item hcond (h.mono le_rfl (Nat.sub_le right 1)) (by omega)
        refine ⟨r', s', heq, hl', by omega, fun i hi hi' => ?_, hlow⟩
        by_cases hlast : i = right
        · rw [hlast]
          exact ⟨item, s, hitem, hcond.1⟩
        · exact hhigh i hi (by omega)
      · rw [dif_neg hcond]
        refine ⟨right, _, rfl, hle, le_rfl, fun i hi hi' => absurd hi (by omega), fun hlt => ?_⟩
        exact ⟨item, s, hitem, by omega⟩

theorem fixLeft_spec (cmp : Comparator σ ν) (pivot : ν) (h : Filled a l r) (hle : l ≤ r) (s : σ) :
    ∃ l' s', fixLeft cmp a pivot r l s = .ok (l', s') ∧ l ≤ l' ∧ l' ≤ r ∧
      (∀ i, l ≤ i → i < l' → LowAt cmp pivot (a.slot i)) ∧
      (l' < r → HighAt cmp pivot (a.slot l')) := by
  induction l, s using fixLeft.induct cmp pivot r with
  | case1 left s ih =>
      obtain ⟨item, hitem⟩ := h.get le_rfl hle
      rw [fixLeft, getItem_eq hitem, sort_ok_bind]
      by_cases hcond : (cmp s item pivot).1 ≤ 0 ∧ left < r
      · rw [dif_pos hcond]
        obtain ⟨l', s', heq, hl', hr', hlow, hhigh⟩ :=
          ih item hcond (h.mono (Nat.le_succ left) le_rfl) hcond.2
        refine ⟨l', s', heq, by omega, hr', fun i hi hi' => ?_, hhigh⟩
        by_cases hfirst : i = left
        · rw [hfirst]
          exact ⟨item, s, hitem, hcond.1⟩
        · exact hlow i (by omega) hi'
      · rw [dif_neg hcond]
        refine ⟨left, _, rfl, le_rfl, hle, fun i hi hi' => absurd hi (by omega), fun hlt => ?_⟩
        exact ⟨item, s, hitem, by omega⟩

/--
A partition of the slots from `l` to `r` that is left with those from `lo` to `hi`, and with
the hole of the pivot.
-/
structure Narrowed (cmp : Comparator σ ν) (pivot : ν) (l r : Nat) (a : RexxArray ν)
    (lo hi hole : Nat) (a' : RexxArray ν) : Prop where
  le_lo : l ≤ lo
  lo_le : lo ≤ hi
  hi_le : hi ≤ r
  hole_in : l ≤ hole ∧ hole ≤ r
  filled : Filled a' l r
  within : Within l r a a'
  rearranged : Rearranged l r (Function.update a.slot l (some pivot))
    (Function.update a'.slot hole (some pivot))
  low : ∀ i, l ≤ i → i < lo → LowAt cmp pivot (a'.slot i)
  high : ∀ i, hi < i → i ≤ r → HighAt cmp pivot (a'.slot i)

variable {lo hi hole : Nat}

theorem Narrowed.refl (h : Filled a l r) (hle : l ≤ r) : Narrowed cmp pivot l r a l r l a :=
  ⟨le_rfl, hle, le_rfl, ⟨le_rfl, hle⟩, h, .refl _ _ _, .refl _ _ _,
    fun i hi hi' => absurd hi (by omega), fun i hi hi' => absurd hi (by omega)⟩

theorem Narrowed.dropRight (h : Narrowed cmp pivot l r a lo hi hole a') {hi' : Nat}
    (hlo : lo ≤ hi') (hle : hi' ≤ hi)
    (hhigh : ∀ i, hi' < i → i ≤ hi → HighAt cmp pivot (a'.slot i)) :
    Narrowed cmp pivot l r a lo hi' hole a' := by
  refine { h with lo_le := hlo, hi_le := hle.trans h.hi_le, high := fun i hi₁ hi₂ => ?_ }
  by_cases hi₃ : i ≤ hi
  · exact hhigh i hi₁ hi₃
  · exact h.high i (by omega) hi₂

theorem Narrowed.dropLeft (h : Narrowed cmp pivot l r a lo hi hole a') {lo' : Nat}
    (hle : lo ≤ lo') (hhi : lo' ≤ hi)
    (hlow : ∀ i, lo ≤ i → i < lo' → LowAt cmp pivot (a'.slot i)) :
    Narrowed cmp pivot l r a lo' hi hole a' := by
  refine { h with le_lo := h.le_lo.trans hle, lo_le := hhi, low := fun i hi₁ hi₂ => ?_ }
  by_cases hi₃ : lo ≤ i
  · exact hlow i hi₃ hi₂
  · exact h.low i hi₁ (by omega)

theorem Narrowed.moveLeft (h : Narrowed cmp pivot l r a lo hi lo a') (hlt : lo < hi) {item : ν}
    (hitem : a'.slot hi = some item) (hlow : LowAt cmp pivot (a'.slot hi)) :
    Narrowed cmp pivot l r a (lo + 1) hi hi (a'.put item lo) := by
  have h1 : 1 ≤ lo := h.filled.1.trans h.le_lo
  have h2 : lo ≤ a'.arraySize := (h.lo_le.trans h.hi_le).trans h.filled.2.1
  have hlo : l ≤ lo ∧ lo ≤ r := h.hole_in
  have hhi : l ≤ hi ∧ hi ≤ r := ⟨h.le_lo.trans h.lo_le, h.hi_le⟩
  have hslot := slot_put h1 h2 item
  refine ⟨by have := h.le_lo; omega, hlt, h.hi_le, hhi, h.filled.put hlo.1 hlo.2 item,
    h.within.trans (within_put hlo.1 hlo.2 h1 item), ?_, fun i hi₁ hi₂ => ?_,
    fun i hi₁ hi₂ => ?_⟩
  · have hmove := Rearranged.move hlo hhi a'.slot (some pivot)
    rw [hitem, ← hslot] at hmove
    exact h.rearranged.trans hmove
  · rw [hslot]
    by_cases heq : i = lo
    · rw [heq, Function.update_self, ← hitem]
      exact hlow
    · rw [Function.update_of_ne heq]
      exact h.low i hi₁ (by omega)
  · rw [hslot, Function.update_of_ne (by omega)]
    exact h.high i hi₁ hi₂

theorem Narrowed.moveRight (h : Narrowed cmp pivot l r a lo hi hi a') (hlt : lo < hi) {item : ν}
    (hitem : a'.slot lo = some item) (hhigh : HighAt cmp pivot (a'.slot lo)) :
    Narrowed cmp pivot l r a lo (hi - 1) lo (a'.put item hi) := by
  have h1 : 1 ≤ hi := Nat.one_le_of_lt hlt
  have h2 : hi ≤ a'.arraySize := h.hi_le.trans h.filled.2.1
  have hlo : l ≤ lo ∧ lo ≤ r := ⟨h.le_lo, h.lo_le.trans h.hi_le⟩
  have hhi : l ≤ hi ∧ hi ≤ r := h.hole_in
  have hslot := slot_put h1 h2 item
  refine ⟨h.le_lo, by omega, by omega, hlo, h.filled.put hhi.1 hhi.2 item,
    h.within.trans (within_put hhi.1 hhi.2 h1 item), ?_, fun i hi₁ hi₂ => ?_,
    fun i hi₁ hi₂ => ?_⟩
  · have hmove := Rearranged.move hhi hlo a'.slot (some pivot)
    rw [hitem, ← hslot] at hmove
    exact h.rearranged.trans hmove
  · rw [hslot, Function.update_of_ne (by omega)]
    exact h.low i hi₁ hi₂
  · rw [hslot]
    by_cases heq : i = hi
    · rw [heq, Function.update_self, ← hitem]
      exact hhigh
    · rw [Function.update_of_ne heq]
      exact h.high i (by omega) hi₂

theorem partition_spec {fuel : Nat} {b : RexxArray ν}
    (h : Narrowed cmp pivot l r a lo hi lo b) (hfuel : hi - lo < fuel) (s : σ) :
    ∃ p a' s', partition cmp pivot fuel lo hi b s = .ok (p, a', s') ∧
      Narrowed cmp pivot l r a p p p a' := by
  induction fuel generalizing lo hi b s with
  | zero => exact absurd hfuel (Nat.not_lt_zero _)
  | succ fuel ih =>
      by_cases hlt : lo < hi
      swap
      · have heq : lo = hi := Nat.le_antisymm h.lo_le (Nat.le_of_not_lt hlt)
        subst heq
        exact ⟨lo, b, s, if_neg hlt, h⟩
      have hfilled := h.filled.mono h.le_lo h.hi_le
      obtain ⟨hi₁, s₁, hright, hlo₁, hle₁, hhigh, hlast⟩ :=
        fixRight_spec cmp pivot hfilled h.lo_le s
      have h₁ := h.dropRight hlo₁ hle₁ hhigh
      by_cases hmeet : lo = hi₁
      · -- no item on the right is less than the pivot
        subst hmeet
        obtain ⟨lo₂, s₂, hleft, hlo₂, hle₂, -⟩ :=
          fixLeft_spec cmp pivot (hfilled.mono le_rfl hle₁) le_rfl s₁
        have heq : lo = lo₂ := Nat.le_antisymm hlo₂ hle₂
        subst heq
        obtain ⟨p, a', s', hrest, hresult⟩ := ih h₁ (by omega) s₂
        refine ⟨p, a', s', ?_, hresult⟩
        simp only [partition, if_pos hlt, hright, sort_ok_bind, if_true, hleft, hrest]
      · have hlt₁ : lo < hi₁ := by omega
        obtain ⟨item, hitem⟩ := hfilled.get hlo₁ hle₁
        have h₂ := h₁.moveLeft hlt₁ hitem (hlast hlt₁)
        have hmoved : b.moveItem hi₁ lo = .ok (b.put item lo) :=
          moveItem_eq hitem hfilled.1 ((h₁.lo_le.trans h₁.hi_le).trans h₁.filled.2.1)
        obtain ⟨lo₂, s₂, hleft, hlo₂, hle₂, hlow, hnext⟩ :=
          fixLeft_spec cmp pivot (h₂.filled.mono h₂.le_lo h₂.hi_le) h₂.lo_le s₁
        have h₃ := h₂.dropLeft hlo₂ hle₂ hlow
        by_cases hmeet₂ : lo₂ = hi₁
        · subst hmeet₂
          obtain ⟨p, a', s', hrest, hresult⟩ := ih h₃ (by omega) s₂
          refine ⟨p, a', s', ?_, hresult⟩
          simp only [partition, if_pos hlt, hright, sort_ok_bind, if_neg hmeet, hmoved, hleft,
            if_true, hrest]
        · have hlt₂ : lo₂ < hi₁ := by omega
          obtain ⟨item₂, hitem₂⟩ := h₃.filled.get h₃.le_lo (h₃.lo_le.trans h₃.hi_le)
          have h₄ := h₃.moveRight hlt₂ hitem₂ (hnext hlt₂)
          have hmoved₂ : (b.put item lo).moveItem lo₂ hi₁ = .ok ((b.put item lo).put item₂ hi₁) :=
            moveItem_eq hitem₂ (by omega) (h₃.hi_le.trans h₃.filled.2.1)
          obtain ⟨p, a', s', hrest, hresult⟩ := ih h₄ (by omega) s₂
          refine ⟨p, a', s', ?_, hresult⟩
          simp only [partition, if_pos hlt, hright, sort_ok_bind, if_neg hmeet, hmoved, hleft,
            if_neg hmeet₂, hmoved₂, hrest]

/-! ## The sort -/

variable {le : ν → ν → Prop}

def OrderedOn (le : ν → ν → Prop) (l r : Nat) (slots : Nat → Option ν) : Prop :=
  ∀ i j x y, l ≤ i → i < j → j ≤ r → slots i = some x → slots j = some y → le x y

structure SortedOn (cmp : Comparator σ ν) (l r : Nat) (a a' : RexxArray ν) : Prop where
  within : Within l r a a'
  rearranged : Rearranged l r a.slot a'.slot
  ordered : ∀ le, Consistent cmp le → OrderedOn le l r a'.slot

theorem SortedOn.empty (hlt : r < l) : SortedOn cmp l r a a :=
  ⟨.refl _ _ _, .refl _ _ _, fun _ _ i j _ _ hi hij hj => absurd hi (by omega)⟩

theorem SortedOn.join {b c : RexxArray ν} (hp : l ≤ p ∧ p ≤ r)
    (hwithin : Within l r a b) (hrearranged : Rearranged l r a.slot b.slot)
    (hpivot : b.slot p = some pivot)
    (hlow : ∀ i, l ≤ i → i < p → LowAt cmp pivot (b.slot i))
    (hhigh : ∀ i, p < i → i ≤ r → HighAt cmp pivot (b.slot i))
    (hleft : SortedOn cmp l (p - 1) b c) (hright : SortedOn cmp (p + 1) r c a') (h1 : 1 ≤ p) :
    SortedOn cmp l r a a' := by
  constructor
  · exact (hwithin.trans (hleft.within.mono le_rfl (by omega))).trans
      (hright.within.mono (by omega) le_rfl)
  · exact (hrearranged.trans (hleft.rearranged.mono le_rfl (by omega))).trans
      (hright.rearranged.mono (by omega) le_rfl)
  · intro le hc i j x y hi hij hj hx hy
    have hmid : a'.slot p = some pivot := by
      rw [hright.within.slot (Or.inl (Nat.lt_succ_self p)), hleft.within.slot (by omega), hpivot]
    have hleft_le : ∀ {k z}, l ≤ k → k < p → a'.slot k = some z → le z pivot := by
      intro k z hk hkp hz
      rw [hright.within.slot (by omega)] at hz
      obtain ⟨k', hk', hkp', heq⟩ := hleft.rearranged.exists_inside hk (by omega)
      obtain ⟨z', s, hz', hle⟩ := hlow k' hk' (by omega)
      rw [hz, hz'] at heq
      cases heq
      exact (hc.nonpos_iff s z pivot).mp hle
    have hright_le : ∀ {k z}, p < k → k ≤ r → a'.slot k = some z → le pivot z := by
      intro k z hk hkr hz
      obtain ⟨k', hk', hkr', heq⟩ := hright.rearranged.exists_inside hk hkr
      obtain ⟨z', s, hz', hle⟩ := hhigh k' hk' hkr'
      rw [hz, hleft.within.slot (by omega), hz'] at heq
      cases heq
      exact (hc.nonneg_iff s z pivot).mp hle
    rcases Nat.lt_trichotomy i p with hip | rfl | hip
    · rcases Nat.lt_trichotomy j p with hjp | rfl | hjp
      · rw [hright.within.slot (by omega)] at hx hy
        exact hleft.ordered le hc i j x y hi hij (by omega) hx hy
      · rw [hmid] at hy
        cases hy
        exact hleft_le hi hip hx
      · exact hc.trans x pivot y (hleft_le hi hip hx) (hright_le hjp hj hy)
    · rw [hmid] at hx
      cases hx
      exact hright_le hij hj hy
    · exact hright.ordered le hc i j x y hip hij hj hx hy

theorem quickSort_spec (cmp : Comparator σ ν) {fuel : Nat} (h : Filled a l r) (hle : l ≤ r)
    (hfuel : r - l < fuel) (s : σ) :
    ∃ a' s', quickSort cmp fuel l r a s = .ok (a', s') ∧ SortedOn cmp l r a a' := by
  induction fuel generalizing l r a s with
  | zero => exact absurd hfuel (Nat.not_lt_zero _)
  | succ fuel ih =>
      obtain ⟨pivot, hpivot⟩ := h.get le_rfl hle
      have hstart : Narrowed cmp pivot l r a l r l a := .refl h hle
      obtain ⟨p, b, s₁, hpartition, hn⟩ := partition_spec hstart (Nat.lt_add_one (r - l)) s
      have hp : l ≤ p ∧ p ≤ r := hn.hole_in
      have h1 : 1 ≤ p := h.1.trans hp.1
      have h2 : p ≤ b.arraySize := hp.2.trans hn.filled.2.1
      have hslot := slot_put h1 h2 pivot
      have hwithin : Within l r a (b.put pivot p) := hn.within.trans (within_put hp.1 hp.2 h1 pivot)
      have hrearranged : Rearranged l r a.slot (b.put pivot p).slot := by
        have hhole := hn.rearranged
        rwa [← hpivot, Function.update_eq_self, hpivot, ← hslot] at hhole
      have hfilled := h.rearranged hwithin hrearranged
      have hsame : ∀ i, i ≠ p → (b.put pivot p).slot i = b.slot i := fun i hi => by
        rw [hslot, Function.update_of_ne hi]
      have hleft : ∃ c s₂, (if l < p then quickSort cmp fuel l (p - 1) (b.put pivot p) s₁
          else .ok (b.put pivot p, s₁)) = .ok (c, s₂) ∧
          SortedOn cmp l (p - 1) (b.put pivot p) c := by
        split
        · exact ih (hfilled.mono le_rfl (by omega)) (by omega) (by omega) s₁
        · exact ⟨_, _, rfl, .empty (by omega)⟩
      obtain ⟨c, s₂, hsort, hleft⟩ := hleft
      have hfilled' : Filled c (p + 1) r := by
        have hc := hfilled.rearranged (hleft.within.mono le_rfl (by omega))
          (hleft.rearranged.mono le_rfl (by omega))
        exact hc.mono (by omega) le_rfl
      have hright : ∃ a' s₃, (if p < r then quickSort cmp fuel (p + 1) r c s₂
          else .ok (c, s₂)) = .ok (a', s₃) ∧ SortedOn cmp (p + 1) r c a' := by
        split
        · exact ih hfilled' (by omega) (by omega) s₂
        · exact ⟨_, _, rfl, .empty (by omega)⟩
      obtain ⟨a', s₃, hsort', hright⟩ := hright
      have hmiddle : (b.put pivot p).slot p = some pivot := by rw [hslot, Function.update_self]
      refine ⟨a', s₃, ?_, .join hp hwithin hrearranged hmiddle (fun i hi hi' => ?_)
        (fun i hi hi' => ?_) hleft hright h1⟩
      · simp only [quickSort, getItem_eq hpivot, sort_ok_bind, hpartition, putItem_eq h1 h2]
        by_cases hlp : l < p
        · rw [if_pos hlp] at hsort ⊢
          rw [hsort]
          exact hsort'
        · rw [if_neg hlp] at hsort ⊢
          cases hsort
          exact hsort'
      · rw [hsame i (by omega)]
        exact hn.low i hi hi'
      · rw [hsame i (by omega)]
        exact hn.high i hi hi'

end RexxArray

end LeooRexx
