import Mathlib.Data.List.Perm.Subperm
import Mathlib.Data.List.Range
import LeooRexx.Runtime.HashTable

/-!
# The invariant of hash tables

Every bucket heads a chain of the entries that hash to it, and every entry in
use is in the chain of its bucket.  Indexes are distinct.  Each routine keeps
this, and changes the set of entries as a finite map is changed.
-/

namespace LeooRexx

open Chain

variable {κ ν : Type}

namespace HashTable

section Invariant

variable [Hashable κ]

def bucketOf (t : HashTable κ ν) (i : Nat) : Option Nat :=
  (t.entries i).item.map fun entry => t.hashIndex entry.1

structure Chained (t : HashTable κ ν) (rest : Nat → List Nat) : Prop where
  links : ∀ b < t.uSize, Segment t.link (some b) (b :: rest b) none
  mem_rest : ∀ b < t.uSize, ∀ i,
    i ∈ rest b ↔ t.uSize ≤ i ∧ i < t.totalSlotsSize ∧ t.bucketOf i = some b
  main : ∀ b < t.uSize, ∀ c, t.bucketOf b = some c → c = b
  empty : ∀ b < t.uSize, t.bucketOf b = none → rest b = []

def Live (t : HashTable κ ν) (i : Nat) (entry : κ × ν) : Prop :=
  i < t.totalSlotsSize ∧ (t.entries i).item = some entry

def Distinct [BEq κ] (t : HashTable κ ν) : Prop :=
  ∀ i j entry entry', t.Live i entry → t.Live j entry' → entry.1 == entry'.1 → i = j

structure Valid [BEq κ] (t : HashTable κ ν) : Prop where
  pos : 0 < t.uSize
  free_lt : t.free < t.totalSlotsSize
  chained : ∃ rest, t.Chained rest
  distinct : t.Distinct

def Holds [BEq κ] (t : HashTable κ ν) (index : κ) (value : ν) : Prop :=
  ∃ i entry, t.Live i entry ∧ index == entry.1 ∧ entry.2 = value

theorem hashIndex_lt (t : HashTable κ ν) (h : 0 < t.uSize) (index : κ) :
    t.hashIndex index < t.uSize := Nat.mod_lt _ h

theorem bucketOf_eq_some_iff {t : HashTable κ ν} {i b : Nat} :
    t.bucketOf i = some b ↔
      ∃ entry, (t.entries i).item = some entry ∧ t.hashIndex entry.1 = b := by
  simp [bucketOf]

theorem bucketOf_eq_none_iff {t : HashTable κ ν} {i : Nat} :
    t.bucketOf i = none ↔ (t.entries i).item = none := by
  simp [bucketOf]

theorem bucketOf_setEntry (t : HashTable κ ν) (i : Nat) (entry : TabEntry κ ν) :
    (t.setEntry i entry).bucketOf =
      Function.update t.bucketOf i (entry.item.map fun e => t.hashIndex e.1) := by
  funext j
  by_cases h : j = i
  · subst h
    simp [bucketOf, hashIndex]
  · simp [bucketOf, hashIndex, h]

variable {t : HashTable κ ν} {rest : Nat → List Nat}

theorem Chained.mem_chain (h : t.Chained rest) (hpos : 0 < t.uSize) {i : Nat}
    {entry : κ × ν} (hi : t.Live i entry) :
    i ∈ t.hashIndex entry.1 :: rest (t.hashIndex entry.1) := by
  have hlt := t.hashIndex_lt hpos entry.1
  have hbucket : t.bucketOf i = some (t.hashIndex entry.1) :=
    bucketOf_eq_some_iff.mpr ⟨entry, hi.2, rfl⟩
  by_cases hmain : i < t.uSize
  · exact (h.main i hmain _ hbucket) ▸ List.mem_cons_self
  · exact List.mem_cons_of_mem _ ((h.mem_rest _ hlt i).mpr ⟨not_lt.mp hmain, hi.1, hbucket⟩)

theorem Chained.disjoint (h : t.Chained rest) {b c i : Nat} (hb : b < t.uSize)
    (hc : c < t.uSize) (hib : i ∈ b :: rest b) (hic : i ∈ c :: rest c) : b = c := by
  rcases List.mem_cons.mp hib with rfl | hib
  · rcases List.mem_cons.mp hic with rfl | hic
    · rfl
    · have hge := ((h.mem_rest c hc i).mp hic).1
      omega
  · obtain ⟨hge, -, hbucket⟩ := (h.mem_rest b hb i).mp hib
    rcases List.mem_cons.mp hic with rfl | hic
    · omega
    · have hbucket' := ((h.mem_rest c hc i).mp hic).2.2
      exact Option.some.inj (hbucket.symm.trans hbucket')

theorem Chained.lt (h : t.Chained rest) {b i : Nat} (hb : b < t.uSize)
    (hi : i ∈ b :: rest b) : i < t.totalSlotsSize := by
  rcases List.mem_cons.mp hi with rfl | hi
  · rw [totalSlotsSize]
    omega
  · exact ((h.mem_rest b hb i).mp hi).2.1

theorem Chained.length_le (h : t.Chained rest) {b : Nat} (hb : b < t.uSize) :
    (b :: rest b).length ≤ t.totalSlotsSize := by
  have hsub : b :: rest b ⊆ List.range t.totalSlotsSize := fun i hi =>
    List.mem_range.mpr (h.lt hb hi)
  have hle := (List.subperm_of_subset (h.links b hb).nodup hsub).length_le
  rwa [List.length_range] at hle

/-! ## Chains after an assignment -/

theorem bucketOf_setItem (t : HashTable κ ν) (i : Nat) (item : Option (κ × ν)) :
    (t.setItem i item).bucketOf =
      Function.update t.bucketOf i (item.map fun e => t.hashIndex e.1) :=
  bucketOf_setEntry ..

@[simp] theorem bucketOf_setNext (t : HashTable κ ν) (i next : Nat) :
    (t.setNext i next).bucketOf = t.bucketOf := by
  rw [setNext, bucketOf_setEntry]
  exact Function.update_eq_self i t.bucketOf

@[simp] theorem bucketOf_setFree (t : HashTable κ ν) (free : Nat) :
    (t.setFree free).bucketOf = t.bucketOf := rfl

theorem Chained.congr {t' : HashTable κ ν} (h : t.Chained rest)
    (hsize : t'.uSize = t.uSize) (hlink : t'.link = t.link)
    (hbucket : t'.bucketOf = t.bucketOf) : t'.Chained rest := by
  have htotal : t'.totalSlotsSize = t.totalSlotsSize := by
    rw [totalSlotsSize, totalSlotsSize, hsize]
  constructor
  · rw [hsize, hlink]
    exact h.links
  · rw [hsize, htotal, hbucket]
    exact h.mem_rest
  · rw [hsize, hbucket]
    exact h.main
  · rw [hsize, hbucket]
    exact h.empty

theorem Chained.setBucket {t' : HashTable κ ν} (h : t.Chained rest) {b : Nat}
    {bucket : Option Nat} (hb : b < t.uSize) (hrest : rest b = [])
    (hself : ∀ c, bucket = some c → c = b) (hsize : t'.uSize = t.uSize)
    (hlink : t'.link = t.link)
    (hbucket : t'.bucketOf = Function.update t.bucketOf b bucket) : t'.Chained rest := by
  have htotal : t'.totalSlotsSize = t.totalSlotsSize := by
    rw [totalSlotsSize, totalSlotsSize, hsize]
  constructor
  · rw [hsize, hlink]
    exact h.links
  · rw [hsize, htotal, hbucket]
    intro c hc i
    rw [h.mem_rest c hc i]
    by_cases hi : i = b
    · subst hi
      simp only [not_le.mpr hb, false_and]
    · rw [Function.update_of_ne hi]
  · rw [hsize, hbucket]
    intro c hc d hd
    by_cases hcb : c = b
    · subst hcb
      rw [Function.update_self] at hd
      exact hself d hd
    · rw [Function.update_of_ne hcb] at hd
      exact h.main c hc d hd
  · rw [hsize, hbucket]
    intro c hc hempty
    by_cases hcb : c = b
    · rw [hcb, hrest]
    · rw [Function.update_of_ne hcb] at hempty
      exact h.empty c hc hempty

theorem Chained.unlink_update {t' : HashTable κ ν} (h : t.Chained rest) {b i x : Nat}
    {xs ys : List Nat} (hb : b < t.uSize) (hsplit : b :: rest b = xs ++ i :: x :: ys)
    (hsize : t'.uSize = t.uSize)
    (hlink : ∃ r, t'.link = Function.update (Function.update t.link i (t.link x)) x r)
    (hbucket : t'.bucketOf = Function.update t.bucketOf x none) :
    b :: (rest b).erase x = xs ++ i :: ys ∧
      t'.Chained (Function.update rest b ((rest b).erase x)) := by
  have htotal : t'.totalSlotsSize = t.totalSlotsSize := by
    rw [totalSlotsSize, totalSlotsSize, hsize]
  have hlinks := h.links b hb
  have hnodup := hlinks.nodup
  have hxb : x ∈ b :: rest b := by rw [hsplit]; simp
  have hib : i ∈ b :: rest b := by rw [hsplit]; simp
  rw [hsplit] at hlinks
  have hnodup' := List.nodup_append.mp hlinks.nodup
  have hxxs : x ∉ xs := fun hx => hnodup'.2.2 x hx x (by simp) rfl
  have hix : i ≠ x := fun hix => (List.nodup_cons.mp hnodup'.2.1).1 (by simp [hix])
  have hxys : x ∉ ys := (List.nodup_cons.mp (List.nodup_cons.mp hnodup'.2.1).2).1
  have hbx : b ≠ x := by
    rintro rfl
    cases xs with
    | nil =>
        rw [List.nil_append, List.cons.injEq] at hsplit
        exact hix hsplit.1.symm
    | cons y ys' =>
        rw [List.cons_append, List.cons.injEq] at hsplit
        exact hxxs (hsplit.1 ▸ List.mem_cons_self)
  have hxrest : x ∈ rest b := List.mem_of_ne_of_mem hbx.symm hxb
  obtain ⟨hxge, hxlt, hxbucket⟩ := (h.mem_rest b hb x).mp hxrest
  have hchain : b :: (rest b).erase x = xs ++ i :: ys := by
    have herase : (b :: rest b).erase x = b :: (rest b).erase x :=
      List.erase_cons_tail (by simpa using hbx)
    rw [← herase, hsplit, List.erase_append_right _ hxxs,
      List.erase_cons_tail (by simpa using hix), List.erase_cons_head]
  obtain ⟨r, hlink⟩ := hlink
  refine ⟨hchain, ?_, ?_, ?_, ?_⟩
  · rw [hsize, hlink]
    intro c hc
    by_cases hcb : c = b
    · subst hcb
      have hx : x ∉ xs ++ i :: ys := by
        simp only [List.mem_append, List.mem_cons, not_or]
        exact ⟨hxxs, hix.symm, hxys⟩
      rw [Function.update_self, hchain, segment_update_of_notMem hx]
      exact hlinks.bypass
    · have hxc : x ∉ c :: rest c := fun hx => hcb (h.disjoint hc hb hx hxb)
      have hic : i ∉ c :: rest c := fun hi => hcb (h.disjoint hc hb hi hib)
      rw [Function.update_of_ne hcb, segment_update_of_notMem hxc,
        segment_update_of_notMem hic]
      exact h.links c hc
  · rw [hsize, htotal, hbucket]
    intro c hc j
    by_cases hcb : c = b
    · subst hcb
      rw [Function.update_self, (List.nodup_cons.mp hnodup).2.mem_erase_iff,
        h.mem_rest c hc j]
      by_cases hjx : j = x
      · simp [hjx]
      · simp [hjx]
    · rw [Function.update_of_ne hcb, h.mem_rest c hc j]
      by_cases hjx : j = x
      · subst hjx
        have hne : b ≠ c := fun hbc => hcb hbc.symm
        simp [hxbucket, hne]
      · rw [Function.update_of_ne hjx]
  · rw [hsize, hbucket]
    intro c hc d hd
    rw [Function.update_of_ne (by omega)] at hd
    exact h.main c hc d hd
  · rw [hsize, hbucket]
    intro c hc hempty
    rw [Function.update_of_ne (by omega)] at hempty
    have hnil := h.empty c hc hempty
    by_cases hcb : c = b
    · subst hcb
      rw [Function.update_self, hnil]
      rfl
    · rwa [Function.update_of_ne hcb]

theorem Chained.unlink {t' : HashTable κ ν} (h : t.Chained rest) {b i x : Nat}
    {xs ys : List Nat} (hb : b < t.uSize) (hsplit : b :: rest b = xs ++ i :: x :: ys)
    (hsize : t'.uSize = t.uSize)
    (hlink : ∃ r, t'.link = Function.update (Function.update t.link i (t.link x)) x r)
    (hbucket : t'.bucketOf = Function.update t.bucketOf x none) :
    ∃ rest', t'.Chained rest' :=
  ⟨_, (h.unlink_update hb hsplit hsize hlink hbucket).2⟩

omit [Hashable κ] in
theorem link_insertAt (t : HashTable κ ν) (value : ν) (index : κ) (position : Nat) {overflow : Nat}
    (hover : overflow ≠ 0) :
    (t.insertAt value index position overflow).link =
      Function.update (Function.update t.link overflow (t.link position)) position
        (some overflow) := by
  rw [insertAt, link_setFree, link_setEntry, link_setEntry, if_neg hover]
  rfl

theorem bucketOf_insertAt (t : HashTable κ ν) (value : ν) (index : κ) (position overflow : Nat) :
    (t.insertAt value index position overflow).bucketOf =
      Function.update (Function.update t.bucketOf overflow (t.bucketOf position)) position
        (some (t.hashIndex index)) := by
  rw [insertAt, bucketOf_setFree, bucketOf_setEntry, bucketOf_setEntry]
  rfl

theorem Chained.insertAt (h : t.Chained rest) {overflow : Nat} (value : ν) {index : κ}
    (hpos : 0 < t.uSize) (hocc : t.bucketOf (t.hashIndex index) ≠ none)
    (hge : t.uSize ≤ overflow) (hlt : overflow < t.totalSlotsSize) (hfree : t.bucketOf overflow = none) :
    (t.insertAt value index (t.hashIndex index) overflow).Chained
      (Function.update rest (t.hashIndex index) (overflow :: rest (t.hashIndex index))) := by
  have hb := t.hashIndex_lt hpos index
  have hover : overflow ≠ 0 := by omega
  have hlink := t.link_insertAt value index (t.hashIndex index) hover
  have hbucket := t.bucketOf_insertAt value index (t.hashIndex index) overflow
  have hsize : (t.insertAt value index (t.hashIndex index) overflow).uSize = t.uSize := rfl
  have htotal : (t.insertAt value index (t.hashIndex index) overflow).totalSlotsSize =
      t.totalSlotsSize := rfl
  obtain ⟨b, hbdef⟩ : ∃ b, b = t.hashIndex index := ⟨_, rfl⟩
  have hself : t.bucketOf b = some b := by
    obtain ⟨c, hc⟩ := Option.ne_none_iff_exists'.mp (hbdef ▸ hocc)
    rw [hc, h.main b (hbdef ▸ hb) c hc]
  rw [← hbdef] at hb hlink hbucket hsize htotal ⊢
  rw [hself] at hbucket
  have hnotin : ∀ c < t.uSize, overflow ∉ c :: rest c := by
    intro c hc hmem
    rcases List.mem_cons.mp hmem with rfl | hmem
    · omega
    · rw [((h.mem_rest c hc overflow).mp hmem).2.2] at hfree
      exact absurd hfree (by simp)
  constructor
  · rw [hsize, hlink]
    intro c hc
    by_cases hcb : c = b
    · subst hcb
      rw [Function.update_self]
      have hlinks : Segment t.link (some c) ([] ++ c :: rest c) none := h.links c hc
      exact hlinks.splice (hnotin c hc)
    · have hbc : b ∉ c :: rest c := fun hmem =>
        hcb (h.disjoint hc hb hmem List.mem_cons_self)
      rw [Function.update_of_ne hcb, segment_update_of_notMem hbc,
        segment_update_of_notMem (hnotin c hc)]
      exact h.links c hc
  · rw [hsize, htotal, hbucket]
    intro c hc j
    have hmem := h.mem_rest c hc j
    by_cases hjb : j = b
    · subst hjb
      have hnot : j ∉ Function.update rest j (overflow :: rest j) c := by
        intro hj
        by_cases hcj : c = j
        · subst hcj
          rw [Function.update_self] at hj
          rcases List.mem_cons.mp hj with hj | hj
          · omega
          · have hge' := (hmem.mp hj).1
            omega
        · rw [Function.update_of_ne hcj] at hj
          have hge' := (hmem.mp hj).1
          omega
      simp only [hnot, not_le.mpr hb, false_and]
    · rw [Function.update_of_ne hjb]
      by_cases hjo : j = overflow
      · subst hjo
        rw [Function.update_self]
        by_cases hcb : c = b
        · subst hcb
          simp [hge, hlt]
        · have hbc : b ≠ c := fun hbc => hcb hbc.symm
          rw [Function.update_of_ne hcb]
          have hnot : j ∉ rest c := fun hj => hnotin c hc (List.mem_cons_of_mem c hj)
          simp [hnot, hbc]
      · rw [Function.update_of_ne hjo, ← hmem]
        by_cases hcb : c = b
        · subst hcb
          simp [hjo]
        · rw [Function.update_of_ne hcb]
  · rw [hsize, hbucket]
    intro c hc d hd
    by_cases hcb : c = b
    · subst hcb
      rw [Function.update_self] at hd
      exact (Option.some.inj hd).symm
    · rw [Function.update_of_ne hcb, Function.update_of_ne (by omega)] at hd
      exact h.main c hc d hd
  · rw [hsize, hbucket]
    intro c hc hempty
    by_cases hcb : c = b
    · subst hcb
      rw [Function.update_self] at hempty
      exact absurd hempty (by simp)
    · rw [Function.update_of_ne hcb, Function.update_of_ne (by omega)] at hempty
      rw [Function.update_of_ne hcb]
      exact h.empty c hc hempty

end Invariant

/-! ## The search for an index -/

section Find

variable [BEq κ] [Hashable κ] [EquivBEq κ] [LawfulHashable κ]
  {t : HashTable κ ν} {rest : Nat → List Nat}

omit [EquivBEq κ] in
theorem hashIndex_congr (t : HashTable κ ν) {index index' : κ} (h : index == index') :
    t.hashIndex index = t.hashIndex index' := by
  rw [hashIndex, hashIndex, hash_eq h]

omit [Hashable κ] [EquivBEq κ] [LawfulHashable κ] in
theorem holdsIndex_iff {t : HashTable κ ν} {index : κ} {i : Nat} :
    t.holdsIndex index i ↔ ∃ entry, (t.entries i).item = some entry ∧ index == entry.1 := by
  rw [holdsIndex]
  cases (t.entries i).item <;> simp

omit [BEq κ] [EquivBEq κ] [LawfulHashable κ] in
theorem Chained.search (h : t.Chained rest) {b : Nat} (hb : b < t.uSize)
    (test : Nat → Bool) :
    (∃ xs j ys, b :: rest b = xs ++ j :: ys ∧ test j = true ∧
      t.searchChain test b = some (some (xs.getLast?, j))) ∨
      ((∀ i ∈ b :: rest b, test i = false) ∧ t.searchChain test b = some none) :=
  search_cases test (h.links b hb) (h.length_le hb)

omit [EquivBEq κ] in
theorem Valid.find (hv : t.Valid) (index : κ) :
    ((t.entries (t.hashIndex index)).item = none →
      ∀ i entry, t.Live i entry → (index == entry.1) = false) ∧
    ((∃ rest xs j ys entry, t.Chained rest ∧
        t.hashIndex index :: rest (t.hashIndex index) = xs ++ j :: ys ∧
        t.Live j entry ∧ index == entry.1 ∧
        t.searchChain (t.holdsIndex index) (t.hashIndex index) =
          some (some (xs.getLast?, j))) ∨
      (t.searchChain (t.holdsIndex index) (t.hashIndex index) = some none ∧
        ∀ i entry, t.Live i entry → (index == entry.1) = false)) := by
  obtain ⟨rest, h⟩ := hv.chained
  have hlt := t.hashIndex_lt hv.pos index
  have hmem : ∀ i entry, t.Live i entry → index == entry.1 →
      i ∈ t.hashIndex index :: rest (t.hashIndex index) := by
    intro i entry hi heq
    rw [t.hashIndex_congr heq]
    exact h.mem_chain hv.pos hi
  constructor
  · intro hnone i entry hi
    by_contra heq
    have heq : index == entry.1 := by simpa using heq
    have hrest := h.empty _ hlt (bucketOf_eq_none_iff.mpr hnone)
    have hib := hmem i entry hi heq
    rw [hrest, List.mem_singleton] at hib
    rw [hib, Live, hnone] at hi
    exact absurd hi.2 (by simp)
  · rcases h.search hlt (t.holdsIndex index) with ⟨xs, j, ys, hsplit, hj, hfound⟩ |
      ⟨hnone, hfound⟩
    · obtain ⟨entry, hentry, heq⟩ := holdsIndex_iff.mp hj
      have hjlt := h.lt hlt (i := j) (by rw [hsplit]; simp)
      exact .inl ⟨rest, xs, j, ys, entry, h, hsplit, ⟨hjlt, hentry⟩, heq, hfound⟩
    · refine .inr ⟨hfound, fun i entry hi => ?_⟩
      by_contra heq
      have heq : index == entry.1 := by simpa using heq
      have hfalse := hnone i (hmem i entry hi heq)
      rw [holdsIndex_iff.mpr ⟨entry, hi.2, heq⟩] at hfalse
      exact absurd hfalse (by decide)

end Find

end HashTable

end LeooRexx
