import LeooRexx.Runtime.HashTableMap
import LeooRexx.Runtime.MarkObjects
import Mathlib.Data.Finset.Card

/-!
# Tables in the mark phase

Entries are removed from the subclass table while it is walked.  A removed entry is replaced by
its successor in the chain, which may come from a place that was passed already; it is looked at
before the walk goes on, so that the entries in front of it always have live values.
-/

namespace LeooRexx

variable {α : Type} [DecidableEq α] [Hashable α]

namespace HashTable

structure PairTable (t : HashTable α α) : Prop where
  pos : 0 < t.uSize
  chained : ∃ rest, t.Chained rest
  unique : ∀ i j e, t.Live i e → t.Live j e → i = j

def Pair (t : HashTable α α) (e : α × α) : Prop := ∃ i, t.Live i e

variable {t t' : HashTable α α}

/-- The entry at `i` is removed: the item at `n`, which may be `i`, takes its place. -/
structure Removed (t t' : HashTable α α) (i n : Nat) : Prop where
  uSize_eq : t'.uSize = t.uSize
  lt : n < t.totalSlotsSize
  isSome : (t.entries n).item.isSome
  item_eq : ∀ j, (t'.entries j).item =
    if j = n then none else if j = i then (t.entries n).item else (t.entries j).item

omit [DecidableEq α] [Hashable α] in
theorem Removed.totalSlotsSize_eq {i n : Nat} (h : Removed t t' i n) :
    t'.totalSlotsSize = t.totalSlotsSize := by
  rw [totalSlotsSize, totalSlotsSize, h.uSize_eq]

omit [DecidableEq α] [Hashable α] in
theorem Removed.origin {i n j : Nat} {e : α × α} (h : Removed t t' i n) (hj : t'.Live j e) :
    j ≠ n ∧ t.Live (if j = i then n else j) e := by
  obtain ⟨hlt, hitem⟩ := hj
  rw [h.totalSlotsSize_eq] at hlt
  rw [h.item_eq] at hitem
  by_cases hjn : j = n
  · rw [if_pos hjn] at hitem
    contradiction
  · rw [if_neg hjn] at hitem
    refine ⟨hjn, ?_⟩
    by_cases hji : j = i
    · rw [if_pos hji] at hitem ⊢
      exact ⟨h.lt, hitem⟩
    · rw [if_neg hji] at hitem ⊢
      exact ⟨hlt, hitem⟩

omit [DecidableEq α] [Hashable α] in
theorem Removed.pair_iff {i n : Nat} {e₀ : α × α} (h : Removed t t' i n) (hi : t.Live i e₀)
    (hunique : ∀ i j e, t.Live i e → t.Live j e → i = j) (e : α × α) :
    t'.Pair e ↔ t.Pair e ∧ e ≠ e₀ := by
  constructor
  · rintro ⟨j, hj⟩
    obtain ⟨hjn, horigin⟩ := h.origin hj
    refine ⟨⟨_, horigin⟩, ?_⟩
    rintro rfl
    have hsame := hunique _ _ _ horigin hi
    split at hsame <;> omega
  · rintro ⟨⟨j, hlt, hitem⟩, hne⟩
    have hji : j ≠ i := by
      rintro rfl
      exact hne (Option.some.inj (hitem.symm.trans hi.2))
    by_cases hjn : j = n
    · subst hjn
      refine ⟨i, h.totalSlotsSize_eq ▸ hi.1, ?_⟩
      rw [h.item_eq, if_neg (Ne.symm hji), if_pos rfl, hitem]
    · refine ⟨j, h.totalSlotsSize_eq ▸ hlt, ?_⟩
      rw [h.item_eq, if_neg hjn, if_neg hji, hitem]

omit [DecidableEq α] [Hashable α] in
theorem Removed.unique {i n : Nat} (h : Removed t t' i n)
    (hunique : ∀ i j e, t.Live i e → t.Live j e → i = j) :
    ∀ i j e, t'.Live i e → t'.Live j e → i = j := by
  intro j k e hj hk
  obtain ⟨hjn, hj⟩ := h.origin hj
  obtain ⟨hkn, hk⟩ := h.origin hk
  have hsame := hunique _ _ _ hj hk
  split at hsame <;> split at hsame <;> omega

/-! ## Removing -/

omit [DecidableEq α] [Hashable α] in
theorem removed_last {i : Nat} {e : α × α} (hsize : t'.uSize = t.uSize) (hi : t.Live i e)
    (hitem : ∀ j, (t'.entries j).item = if j = i then none else (t.entries j).item) :
    Removed t t' i i := by
  refine ⟨hsize, hi.1, by rw [hi.2]; rfl, fun j => ?_⟩
  rw [hitem]
  split
  · rfl
  · rfl

omit [DecidableEq α] in
theorem Removed.pairTable {i n : Nat} (h : Removed t t' i n) (ht : t.PairTable)
    (hchained : ∃ rest, t'.Chained rest) : t'.PairTable :=
  ⟨h.uSize_eq ▸ ht.pos, hchained, h.unique ht.unique⟩

theorem PairTable.removeItem (h : t.PairTable) {i : Nat} {index value : α}
    (hi : t.Live i (index, value)) :
    ∃ t' n, t.removeItem value index = some t' ∧ Removed t t' i n ∧ t'.PairTable := by
  obtain ⟨rest, hchained⟩ := h.chained
  have hlt := t.hashIndex_lt h.pos index
  have hmem := hchained.mem_chain h.pos hi
  have hbucket : (t.entries (t.hashIndex index)).item.isSome := by
    by_contra hnone
    have hempty := hchained.empty _ hlt (bucketOf_eq_none_iff.mpr (by simpa using hnone))
    rw [hempty, List.mem_singleton] at hmem
    rw [hmem] at hi
    simp [hi.2] at hnone
  obtain ⟨test, htest⟩ : ∃ test : Nat → Bool, test = fun position =>
      (t.entries position).item.any fun entry => index == entry.1 && value == entry.2 := ⟨_, rfl⟩
  have hpair : ∀ j, test j = true ↔ (t.entries j).item = some (index, value) := by
    intro j
    rw [htest]
    change (t.entries j).item.any _ = true ↔ _
    cases hitem : (t.entries j).item with
    | none => simp
    | some entry =>
        obtain ⟨index', value'⟩ := entry
        simp only [Option.any_some, Bool.and_eq_true, beq_iff_eq, Option.some.injEq,
          Prod.mk.injEq]
        exact and_congr eq_comm eq_comm
  rcases hchained.search hlt test with ⟨xs, j, ys, hsplit, hj, hfound⟩ | ⟨hall, -⟩
  · have hjlt : j < t.totalSlotsSize := hchained.lt hlt (by rw [hsplit]; simp)
    have hji : j = i := h.unique j i _ ⟨hjlt, (hpair j).mp hj⟩ hi
    subst hji
    have hnext := hchained.link_eq hlt hsplit
    have hunique := h.unique
    subst htest
    simp only [HashTable.removeItem, hbucket, if_true, hfound, Option.bind_eq_bind,
      Option.bind_some]
    cases ys with
    | nil =>
        have hzero : (t.entries j).next = 0 := by simpa [link] using hnext
        have hlink : t.link j = none := hnext
        rw [if_pos hzero]
        cases hlast : xs.getLast? with
        | none =>
            obtain rfl := List.getLast?_eq_none_iff.mp hlast
            obtain ⟨rfl, hrest⟩ := List.cons.inj hsplit
            have hremoved : Removed t (t.setItem (t.hashIndex index) none) _ _ :=
              removed_last rfl hi (t.item_setItem _ none)
            refine ⟨_, _, rfl, hremoved, hremoved.pairTable h ⟨rest, ?_⟩⟩
            exact hchained.setBucket hlt hrest (by simp) rfl (link_setItem ..) (bucketOf_setItem ..)
        | some p =>
            obtain ⟨xs', rfl⟩ := List.getLast?_eq_some_iff.mp hlast
            rw [List.append_assoc] at hsplit
            have hremoved : Removed t ((t.setItem j none).setNext p 0) j j :=
              removed_last rfl hi fun i => by rw [item_setNext, item_setItem]
            refine ⟨_, _, rfl, hremoved, hremoved.pairTable h (hchained.unlink hlt hsplit rfl
              ⟨Function.update t.link p none j, ?_⟩ ?_)⟩
            · rw [link_setNext, link_setItem, if_pos rfl, hlink]
              exact (Function.update_eq_self ..).symm
            · rw [bucketOf_setNext, bucketOf_setItem, Option.map_none]
    | cons n ys =>
        have hlink : t.link j = some n := hnext.1
        obtain ⟨hzero, hn⟩ : (t.entries j).next ≠ 0 ∧ (t.entries j).next = n := by
          simpa [link] using hlink
        have hnrest : n ∈ rest (t.hashIndex index) := by
          have htail := congrArg List.tail hsplit
          rw [List.tail_cons] at htail
          rw [htail]
          cases xs <;> simp
        obtain ⟨hge, hnlt, hbucketn⟩ := (hchained.mem_rest _ hlt n).mp hnrest
        have hbucketj : t.bucketOf j = some (t.hashIndex index) :=
          bucketOf_eq_some_iff.mpr ⟨_, hi.2, rfl⟩
        rw [if_neg hzero, hn]
        obtain ⟨moved, hmoved⟩ : ∃ u, u = (((t.setNext j (t.entries n).next).setItem j
          ((t.setNext j (t.entries n).next).entries n).item).setItem n none).setNext n 0 :=
          ⟨_, rfl⟩
        obtain ⟨free, hraise, -⟩ := moved.raise_free n (moved.free < n)
        simp only [← hmoved, hraise]
        have hremoved : Removed t (moved.setFree free) j n := by
          refine ⟨hmoved ▸ rfl, hnlt, ?_, fun i => ?_⟩
          · obtain ⟨entry, hentry, -⟩ := bucketOf_eq_some_iff.mp hbucketn
            rw [hentry]
            rfl
          · rw [setFree_entries, hmoved]
            simp only [item_setNext, item_setItem]
        refine ⟨_, _, rfl, hremoved, hremoved.pairTable h (hchained.unlink hlt hsplit
          (hmoved ▸ rfl) ⟨none, ?_⟩ ?_)⟩
        · rw [link_setFree, hmoved, link_setNext, link_setItem, link_setItem, link_setNext]
          rfl
        · rw [bucketOf_setFree, hmoved, bucketOf_setNext, bucketOf_setItem, bucketOf_setItem,
            bucketOf_setNext, item_setNext]
          have hself : Function.update t.bucketOf j (t.bucketOf n) = t.bucketOf := by
            rw [hbucketn, ← hbucketj]
            exact Function.update_eq_self ..
          exact congrArg (Function.update · n none) hself
  · have hi' := (hpair i).mpr hi.2
    rw [hall i hmem] at hi'
    contradiction

/-! ## The walk over the subclass table -/

omit [DecidableEq α] [Hashable α] in
theorem scanFrom_spec (t : HashTable α α) (count i : Nat) :
    i ≤ t.scanFrom count i ∧ t.scanFrom count i ≤ i + count ∧
      (∀ j, i ≤ j → j < t.scanFrom count i → (t.entries j).item = none) ∧
      (t.scanFrom count i < i + count → (t.entries (t.scanFrom count i)).item.isSome) := by
  induction count generalizing i with
  | zero =>
      refine ⟨Nat.le_refl i, Nat.le_refl i, fun j hj hlt => ?_, fun hlt => ?_⟩
      · rw [scanFrom] at hlt
        omega
      · rw [scanFrom] at hlt
        omega
  | succ count ih =>
      rw [scanFrom]
      cases hitem : (t.entries i).item with
      | some e =>
          simp only [Option.isNone_some, Bool.false_eq_true, if_false]
          exact ⟨Nat.le_refl i, by omega, fun j hj hlt => by omega, fun _ => by simp [hitem]⟩
      | none =>
          simp only [Option.isNone_none, if_true]
          obtain ⟨hle, hge, hnone, hsome⟩ := ih (i + 1)
          refine ⟨by omega, by omega, fun j hj hlt => ?_, fun hlt => hsome (by omega)⟩
          by_cases heq : j = i
          · rw [heq, hitem]
          · exact hnone j (by omega) hlt

def AtEntry (t : HashTable α α) (p : Nat) : Prop :=
  p = t.totalSlotsSize ∨ p < t.totalSlotsSize ∧ (t.entries p).item.isSome

omit [DecidableEq α] [Hashable α] in
theorem itemAt_eq_some {p : Nat} {e : α × α} (h : t.itemAt p = some e) : t.Live p e := by
  rw [itemAt] at h
  split at h
  · exact ⟨‹_›, h⟩
  · contradiction

omit [DecidableEq α] [Hashable α] in
theorem AtEntry.eq_total {p : Nat} (h : t.AtEntry p) (hnone : t.itemAt p = none) :
    p = t.totalSlotsSize := by
  rcases h with heq | ⟨hlt, hsome⟩
  · exact heq
  · rw [itemAt, if_pos hlt] at hnone
    rw [hnone] at hsome
    contradiction

omit [DecidableEq α] [Hashable α] in
theorem first_spec (t : HashTable α α) :
    t.AtEntry t.first ∧ ∀ j < t.first, (t.entries j).item = none := by
  obtain ⟨-, hle, hnone, hsome⟩ := t.scanFrom_spec t.totalSlotsSize 0
  rw [Nat.zero_add] at hle hsome
  refine ⟨?_, fun j hj => hnone j (Nat.zero_le j) hj⟩
  rcases Nat.lt_or_ge t.first t.totalSlotsSize with hlt | hge
  · exact .inr ⟨hlt, hsome hlt⟩
  · exact .inl (Nat.le_antisymm hle hge)

omit [DecidableEq α] [Hashable α] in
theorem next_spec {p : Nat} (hp : p < t.totalSlotsSize) :
    t.AtEntry (t.next p) ∧ p < t.next p ∧
      ∀ j, p < j → j < t.next p → (t.entries j).item = none := by
  obtain ⟨hge, hle, hnone, hsome⟩ := t.scanFrom_spec (t.totalSlotsSize - (p + 1)) (p + 1)
  have htotal : p + 1 + (t.totalSlotsSize - (p + 1)) = t.totalSlotsSize := by omega
  rw [htotal] at hle hsome
  refine ⟨?_, hge, fun j hj => hnone j hj⟩
  rcases Nat.lt_or_ge (t.next p) t.totalSlotsSize with hlt | hge'
  · exact .inr ⟨hlt, hsome hlt⟩
  · exact .inl (Nat.le_antisymm hle hge')

def used (t : HashTable α α) : Nat :=
  ((Finset.range t.totalSlotsSize).filter fun j => (t.entries j).item.isSome).card

omit [DecidableEq α] [Hashable α] in
theorem used_le (t : HashTable α α) : t.used ≤ t.totalSlotsSize :=
  (Finset.card_filter_le _ _).trans (Finset.card_range _).le

omit [DecidableEq α] [Hashable α] in
theorem Removed.used_lt {i n : Nat} {e : α × α} (h : Removed t t' i n) (hi : t.Live i e) :
    t'.used < t.used := by
  rw [used, used, h.totalSlotsSize_eq]
  apply Finset.card_lt_card
  rw [Finset.ssubset_iff_of_subset]
  · refine ⟨n, ?_, ?_⟩
    · rw [Finset.mem_filter, Finset.mem_range]
      exact ⟨h.lt, h.isSome⟩
    · rw [Finset.mem_filter, h.item_eq, if_pos rfl]
      simp
  · intro j hj
    rw [Finset.mem_filter] at hj ⊢
    refine ⟨hj.1, ?_⟩
    obtain ⟨e', he'⟩ := Option.isSome_iff_exists.mp hj.2
    by_cases hji : j = i
    · rw [hji, hi.2]
      rfl
    · obtain ⟨-, horigin⟩ := h.origin ⟨h.totalSlotsSize_eq ▸ Finset.mem_range.mp hj.1, he'⟩
      rw [if_neg hji] at horigin
      rw [horigin.2]
      rfl

variable {marked : α → Bool}

structure Cleaned (marked : α → Bool) (t t' : HashTable α α) : Prop where
  table : t'.PairTable
  uSize_eq : t'.uSize = t.uSize
  subset : ∀ e, t'.Pair e → t.Pair e
  kept : ∀ e, t.Pair e → marked e.2 → t'.Pair e

omit [DecidableEq α] in
theorem Cleaned.refl (h : t.PairTable) : Cleaned marked t t :=
  ⟨h, rfl, fun _ he => he, fun _ he _ => he⟩

omit [DecidableEq α] in
theorem Cleaned.trans {t'' : HashTable α α} (h : Cleaned marked t t')
    (h' : Cleaned marked t' t'') : Cleaned marked t t'' :=
  ⟨h'.table, h'.uSize_eq.trans h.uSize_eq, fun e he => h.subset e (h'.subset e he),
    fun e he hmarked => h'.kept e (h.kept e he hmarked) hmarked⟩

def CleanBefore (marked : α → Bool) (t : HashTable α α) (p : Nat) : Prop :=
  ∀ j < p, ∀ e, t.Live j e → marked e.2

theorem clearSlot_spec {fuel p : Nat} {t : HashTable α α} (h : t.PairTable)
    (hclean : CleanBefore marked t p) (hfuel : t.used < fuel) :
    ∃ t', clearSlot marked fuel t p = some t' ∧ Cleaned marked t t' ∧
      CleanBefore marked t' (p + 1) := by
  induction fuel generalizing t with
  | zero => omega
  | succ fuel ih =>
      rw [clearSlot]
      cases hitem : t.itemAt p with
      | none =>
          refine ⟨t, rfl, .refl h, fun j hj e he => ?_⟩
          rcases Nat.lt_succ_iff_lt_or_eq.mp hj with hj | rfl
          · exact hclean j hj e he
          · rw [itemAt, if_pos he.1, he.2] at hitem
            contradiction
      | some e =>
          obtain ⟨index, classObject⟩ := e
          have hlive := itemAt_eq_some hitem
          cases hmarked : marked classObject with
          | true =>
              refine ⟨t, by simp [hmarked], .refl h, fun j hj e he => ?_⟩
              rcases Nat.lt_succ_iff_lt_or_eq.mp hj with hj | rfl
              · exact hclean j hj e he
              · rw [Option.some.inj (he.2.symm.trans hlive.2)]
                exact hmarked
          | false =>
              obtain ⟨t₁, n, hremove, hremoved, htable⟩ := h.removeItem hlive
              have hcleaned : Cleaned marked t t₁ := by
                refine ⟨htable, hremoved.uSize_eq, fun e he => ?_, fun e he hlives => ?_⟩
                · exact ((hremoved.pair_iff hlive h.unique e).mp he).1
                · refine (hremoved.pair_iff hlive h.unique e).mpr ⟨he, ?_⟩
                  rintro rfl
                  rw [hmarked] at hlives
                  contradiction
              have hclean₁ : CleanBefore marked t₁ p := by
                intro j hj e he
                obtain ⟨-, horigin⟩ := hremoved.origin he
                rw [if_neg (by omega)] at horigin
                exact hclean j hj e horigin
              have hless := hremoved.used_lt hlive
              obtain ⟨t', hrest, hcleaned', hclean'⟩ := ih htable hclean₁ (by omega)
              refine ⟨t', ?_, hcleaned.trans hcleaned', hclean'⟩
              simpa [hmarked, hremove] using hrest

theorem checkFrom_spec {fuel p : Nat} {t : HashTable α α} (h : t.PairTable) (hp : t.AtEntry p)
    (hclean : CleanBefore marked t p) (hfuel : t.totalSlotsSize < p + fuel) :
    ∃ t', checkFrom marked fuel t p = some t' ∧ Cleaned marked t t' ∧
      ∀ e, t'.Pair e → marked e.2 := by
  induction fuel generalizing t p with
  | zero =>
      rcases hp with heq | ⟨hlt, -⟩ <;> omega
  | succ fuel ih =>
      rw [checkFrom]
      cases hitem : t.itemAt p with
      | none =>
          have hend := hp.eq_total hitem
          refine ⟨t, rfl, .refl h, ?_⟩
          rintro e ⟨j, hj⟩
          exact hclean j (hend ▸ hj.1) e hj
      | some e =>
          have hlive := itemAt_eq_some hitem
          have hused : t.used < t.totalSlotsSize + 1 := Nat.lt_succ_of_le t.used_le
          obtain ⟨t₁, hclear, hcleaned, hclean₁⟩ := clearSlot_spec h hclean hused
          have htotal : t₁.totalSlotsSize = t.totalSlotsSize := by
            rw [totalSlotsSize, totalSlotsSize, hcleaned.uSize_eq]
          obtain ⟨hentry, hlt, hnone⟩ := next_spec (t := t₁) (htotal ▸ hlive.1)
          have hcleanNext : CleanBefore marked t₁ (t₁.next p) := by
            intro j hj e' he'
            rcases Nat.lt_or_ge j (p + 1) with hjp | hjp
            · exact hclean₁ j hjp e' he'
            · have hempty := hnone j hjp hj
              rw [he'.2] at hempty
              contradiction
          obtain ⟨t', hrest, hcleaned', hall⟩ := ih hcleaned.table hentry hcleanNext (by omega)
          refine ⟨t', ?_, hcleaned.trans hcleaned', hall⟩
          simp [hclear, hrest]

theorem checkFrom_first (marked : α → Bool) (h : t.PairTable) :
    ∃ t', checkFrom marked (t.totalSlotsSize + 1) t t.first = some t' ∧ t'.PairTable ∧
      ∀ e, t'.Pair e ↔ t.Pair e ∧ marked e.2 := by
  obtain ⟨hentry, hnone⟩ := t.first_spec
  have hclean : CleanBefore marked t t.first := by
    intro j hj e he
    have hempty := hnone j hj
    rw [he.2] at hempty
    contradiction
  have hfuel : t.totalSlotsSize < t.first + (t.totalSlotsSize + 1) := by omega
  obtain ⟨t', hcheck, hcleaned, hall⟩ := checkFrom_spec h hentry hclean hfuel
  exact ⟨t', hcheck, hcleaned.table, fun e =>
    ⟨fun he => ⟨hcleaned.subset e he, hall e he⟩, fun he => hcleaned.kept e he.1 he.2⟩⟩

/-! ## The walk over an uninit table -/

def flagged (marked : α → Bool) (trueObject : α) (e : α × α) : α × α :=
  if marked e.1 then e else (e.1, trueObject)

omit [DecidableEq α] [Hashable α] in
theorem flagFrom_spec (marked : α → Bool) (trueObject : α) {fuel p : Nat} {t : HashTable α α}
    (hp : t.AtEntry p) (hfuel : t.totalSlotsSize < p + fuel) :
    ∃ t' pending, flagFrom marked trueObject fuel t p = some (t', pending) ∧
      t'.uSize = t.uSize ∧ ∀ j, (t'.entries j).item =
        if p ≤ j ∧ j < t.totalSlotsSize then
          (t.entries j).item.map (flagged marked trueObject)
        else (t.entries j).item := by
  induction fuel generalizing t p with
  | zero => rcases hp with heq | ⟨hlt, -⟩ <;> omega
  | succ fuel ih =>
      rw [flagFrom]
      cases hitem : t.itemAt p with
      | none =>
          have hend := hp.eq_total hitem
          exact ⟨t, 0, rfl, rfl, fun j => (if_neg (by omega)).symm⟩
      | some e =>
          obtain ⟨uninitObject, value⟩ := e
          have hlive := itemAt_eq_some hitem
          obtain ⟨t₁, ht₁⟩ : ∃ t₁, t₁ = t.setItem p
            (some (flagged marked trueObject (uninitObject, value))) := ⟨_, rfl⟩
          have hsize : t₁.uSize = t.uSize := ht₁ ▸ rfl
          have htotal : t₁.totalSlotsSize = t.totalSlotsSize := by
            rw [totalSlotsSize, totalSlotsSize, hsize]
          have hitems : ∀ j, (t₁.entries j).item = if j = p then
              some (flagged marked trueObject (uninitObject, value)) else (t.entries j).item := by
            rw [ht₁]
            exact t.item_setItem p _
          obtain ⟨hentry, hlt, hnone⟩ := next_spec (t := t₁) (htotal ▸ hlive.1)
          obtain ⟨t', pending, hrest, hsize', hitems'⟩ := ih hentry (by omega)
          have hresult : ∀ j, (t'.entries j).item = if p ≤ j ∧ j < t.totalSlotsSize then
              (t.entries j).item.map (flagged marked trueObject) else (t.entries j).item := by
            intro j
            have hplt := hlive.1
            rw [hitems', htotal]
            rcases Nat.lt_trichotomy j p with hjp | rfl | hjp
            · rw [if_neg (by omega), if_neg (by omega), hitems, if_neg (by omega)]
            · rw [if_neg (by omega), if_pos ⟨Nat.le_refl _, hplt⟩, hitems, if_pos rfl, hlive.2]
              rfl
            · have hsame : (t₁.entries j).item = (t.entries j).item := by
                rw [hitems, if_neg (by omega)]
              rw [hsame]
              by_cases hnext : t₁.next p ≤ j
              · congr 1
                exact propext ⟨fun h => ⟨by omega, h.2⟩, fun h => ⟨hnext, h.2⟩⟩
              · have hempty := hnone j hjp (by omega)
                rw [hsame] at hempty
                rw [hempty]
                simp
          cases hmarked : marked uninitObject with
          | true =>
              have hsame : t₁ = t := by
                rw [ht₁, flagged, if_pos hmarked, setItem, setEntry, ← hlive.2]
                simp
              rw [hsame] at hrest
              exact ⟨t', pending, by simpa [hmarked] using hrest, hsize'.trans hsize, hresult⟩
          | false =>
              have hflag : t₁ = t.setItem p (some (uninitObject, trueObject)) := by
                rw [ht₁, flagged, if_neg (by simp [hmarked])]
              rw [hflag] at hrest
              exact ⟨t', pending + 1, by simp [hmarked, hrest], hsize'.trans hsize, hresult⟩

omit [DecidableEq α] [Hashable α] in
theorem flagFrom_first (marked : α → Bool) (trueObject : α) (t : HashTable α α) :
    ∃ t' pending, flagFrom marked trueObject (t.totalSlotsSize + 1) t t.first =
        some (t', pending) ∧ t'.uSize = t.uSize ∧
      ∀ j < t.totalSlotsSize, (t'.entries j).item =
        (t.entries j).item.map (flagged marked trueObject) := by
  obtain ⟨hentry, hnone⟩ := t.first_spec
  have hfuel : t.totalSlotsSize < t.first + (t.totalSlotsSize + 1) := by omega
  obtain ⟨t', pending, hflag, hsize, hitems⟩ := flagFrom_spec marked trueObject hentry hfuel
  refine ⟨t', pending, hflag, hsize, fun j hj => ?_⟩
  rw [hitems]
  split
  · rfl
  · rw [hnone j (by omega)]
    rfl

end HashTable

end LeooRexx
