import LeooRexx.Runtime.HashTableChains

/-!
# Hash tables refine finite maps

A finite map sends an index to a value, without regard to which of several
equal indexes is given.  Every routine of a hash table does to the table what
the operation of its name does to the map, across every expansion.
-/

namespace LeooRexx

variable {κ ν : Type} [BEq κ] [Hashable κ]

/-! ## Finite maps -/

abbrev KeyMap (κ ν : Type) := κ → Option ν

namespace KeyMap

omit [Hashable κ]

def empty : KeyMap κ ν := fun _ => none

def put (m : KeyMap κ ν) (value : ν) (index : κ) : KeyMap κ ν :=
  fun index' => if index' == index then some value else m index'

def remove (m : KeyMap κ ν) (index : κ) : KeyMap κ ν :=
  fun index' => if index' == index then none else m index'

def Lists (m : KeyMap κ ν) (items : List (κ × ν)) : Prop :=
  items.Pairwise (fun a b => (a.1 == b.1) = false) ∧
    ∀ index value, m index = some value ↔
      ∃ item ∈ items, index == item.1 ∧ item.2 = value

end KeyMap

namespace HashTable

def Refines (t : HashTable κ ν) (m : KeyMap κ ν) : Prop :=
  ∀ index value, m index = some value ↔ t.Holds index value

variable [EquivBEq κ] [LawfulHashable κ]

section Entries

variable {t t' : HashTable κ ν}

/--
The table gains the entry `entry` at `p`; the entry `i` of the new table was
the entry `g i` before.
-/
structure Gains (t t' : HashTable κ ν) (p : Nat) (entry : κ × ν) (g : Nat → Nat) : Prop where
  at_self : ∀ e, t'.Live p e ↔ e = entry
  of_ne : ∀ i ≠ p, ∀ e, t'.Live i e ↔ t.Live (g i) e
  inj : ∀ i ≠ p, ∀ j ≠ p, g i = g j → i = j
  surj : ∀ j e, t.Live j e → ∃ i ≠ p, g i = j

structure Loses (t t' : HashTable κ ν) (q r : Nat) (g : Nat → Nat) : Prop where
  at_self : ∀ e, ¬ t'.Live q e
  of_ne : ∀ i ≠ q, ∀ e, t'.Live i e ↔ t.Live (g i) e
  inj : ∀ i ≠ q, ∀ j ≠ q, g i = g j → i = j
  ne : ∀ i ≠ q, g i ≠ r
  surj : ∀ j ≠ r, ∀ e, t.Live j e → ∃ i ≠ q, g i = j

omit [Hashable κ] [LawfulHashable κ] in
theorem Gains.distinct {p : Nat} {entry : κ × ν} {g : Nat → Nat} (h : Gains t t' p entry g)
    (hd : t.Distinct) (hnew : ∀ i e, t.Live i e → (entry.1 == e.1) = false) :
    t'.Distinct := by
  intro i j e e' hi hj heq
  by_cases hip : i = p
  · subst hip
    rw [(h.at_self e).mp hi] at heq
    by_contra hji
    have hfalse := hnew _ _ ((h.of_ne j (fun hj => hji hj.symm) e').mp hj)
    rw [heq] at hfalse
    exact absurd hfalse (by decide)
  · have hi' := (h.of_ne i hip e).mp hi
    by_cases hjp : j = p
    · subst hjp
      rw [(h.at_self e').mp hj] at heq
      have hfalse := hnew _ _ hi'
      rw [BEq.symm heq] at hfalse
      exact absurd hfalse (by decide)
    · exact h.inj i hip j hjp (hd _ _ _ _ hi' ((h.of_ne j hjp e').mp hj) heq)

omit [Hashable κ] [EquivBEq κ] [LawfulHashable κ] in
theorem Gains.holds_iff {p : Nat} {entry : κ × ν} {g : Nat → Nat} (h : Gains t t' p entry g)
    (index : κ) (value : ν) :
    t'.Holds index value ↔ (index == entry.1 ∧ entry.2 = value) ∨ t.Holds index value := by
  constructor
  · rintro ⟨i, e, hi, heq, hvalue⟩
    by_cases hip : i = p
    · subst hip
      rw [(h.at_self e).mp hi] at heq hvalue
      exact .inl ⟨heq, hvalue⟩
    · exact .inr ⟨g i, e, (h.of_ne i hip e).mp hi, heq, hvalue⟩
  · rintro (⟨heq, hvalue⟩ | ⟨j, e, hj, heq, hvalue⟩)
    · exact ⟨p, entry, (h.at_self entry).mpr rfl, heq, hvalue⟩
    · obtain ⟨i, hip, rfl⟩ := h.surj j e hj
      exact ⟨i, e, (h.of_ne i hip e).mpr hj, heq, hvalue⟩

omit [Hashable κ] [EquivBEq κ] [LawfulHashable κ] in
theorem Loses.distinct {q r : Nat} {g : Nat → Nat} (h : Loses t t' q r g)
    (hd : t.Distinct) : t'.Distinct := by
  intro i j e e' hi hj heq
  have hiq : i ≠ q := fun hiq => h.at_self e (hiq ▸ hi)
  have hjq : j ≠ q := fun hjq => h.at_self e' (hjq ▸ hj)
  exact h.inj i hiq j hjq
    (hd _ _ _ _ ((h.of_ne i hiq e).mp hi) ((h.of_ne j hjq e').mp hj) heq)

omit [Hashable κ] [LawfulHashable κ] in
theorem Loses.holds_iff {q r : Nat} {g : Nat → Nat} {entry : κ × ν}
    (h : Loses t t' q r g) (hd : t.Distinct) (hr : t.Live r entry) (index : κ) (value : ν) :
    t'.Holds index value ↔ (index == entry.1) = false ∧ t.Holds index value := by
  constructor
  · rintro ⟨i, e, hi, heq, hvalue⟩
    have hiq : i ≠ q := fun hiq => h.at_self e (hiq ▸ hi)
    have hi' := (h.of_ne i hiq e).mp hi
    refine ⟨?_, g i, e, hi', heq, hvalue⟩
    by_contra hne
    have heq' : index == entry.1 := by simpa using hne
    exact h.ne i hiq (hd _ _ _ _ hi' hr (BEq.trans (BEq.symm heq) heq'))
  · rintro ⟨hne, j, e, hj, heq, hvalue⟩
    have hjr : j ≠ r := by
      rintro rfl
      have he : e = entry := Option.some.inj (hj.2.symm.trans hr.2)
      rw [he] at heq
      rw [heq] at hne
      exact absurd hne (by decide)
    obtain ⟨i, hiq, rfl⟩ := h.surj j hjr e hj
    exact ⟨i, e, (h.of_ne i hiq e).mpr hj, heq, hvalue⟩

end Entries

/-! ## Assignments as gains and losses -/

section Assignments

omit [BEq κ] [Hashable κ] [EquivBEq κ] [LawfulHashable κ]

variable {t : HashTable κ ν}

theorem gains_fill {p : Nat} (entry : κ × ν) (hp : p < t.totalSlotsSize)
    (hnone : (t.entries p).item = none) : Gains t (t.setItem p (some entry)) p entry id where
  at_self := by
    intro e
    simp only [Live, item_setItem, if_true, Option.some.injEq]
    exact ⟨fun h => h.2.symm, fun h => ⟨hp, h.symm⟩⟩
  of_ne := by
    intro i hi e
    simp only [Live, item_setItem, if_neg hi]
    rfl
  inj := fun _ _ _ _ h => h
  surj := by
    intro j e hj
    refine ⟨j, ?_, rfl⟩
    rintro rfl
    rw [Live, hnone] at hj
    exact absurd hj.2 (by simp)

theorem gains_insertAt {b overflow : Nat} (value : ν) (index : κ) (hb : b < t.totalSlotsSize)
    (hover : overflow < t.totalSlotsSize) (hne : overflow ≠ b)
    (hfree : (t.entries overflow).item = none) :
    Gains t (t.insertAt value index b overflow) b (index, value)
      (fun i => if i = overflow then b else i) where
  at_self := by
    intro e
    simp only [Live, insertAt, setFree_entries, item_setEntry, if_true, Option.some.injEq]
    exact ⟨fun h => h.2.symm, fun h => ⟨hb, h.symm⟩⟩
  of_ne := by
    intro i hi e
    simp only [Live, insertAt, setFree_entries, item_setEntry, if_neg hi]
    by_cases hio : i = overflow
    · simp only [hio, if_true]
      exact ⟨fun h => ⟨hb, h.2⟩, fun h => ⟨hover, h.2⟩⟩
    · simp only [if_neg hio]
      rfl
  inj := by
    intro i hi j hj h
    split at h <;> split at h <;> omega
  surj := by
    intro j e hj
    by_cases hjb : j = b
    · exact ⟨overflow, hne, by simp [hjb]⟩
    · refine ⟨j, hjb, if_neg ?_⟩
      rintro rfl
      rw [Live, hfree] at hj
      exact absurd hj.2 (by simp)

theorem loses_clear {t' : HashTable κ ν} {j : Nat} (hsize : t'.uSize = t.uSize)
    (hitem : ∀ i, (t'.entries i).item = if i = j then none else (t.entries i).item) :
    Loses t t' j j id where
  at_self := by
    intro e he
    rw [Live, hitem, if_pos rfl] at he
    exact absurd he.2 (by simp)
  of_ne := by
    intro i hi e
    rw [Live, hitem, if_neg hi, totalSlotsSize, hsize]
    rfl
  inj := fun _ _ _ _ h => h
  ne := fun _ hi => hi
  surj := fun i hi _ _ => ⟨i, hi, rfl⟩

theorem loses_move {t' : HashTable κ ν} {j n : Nat} (hsize : t'.uSize = t.uSize)
    (hjn : j ≠ n) (hj : j < t.totalSlotsSize) (hn : n < t.totalSlotsSize)
    (hitem : ∀ i, (t'.entries i).item =
      if i = n then none else if i = j then (t.entries n).item else (t.entries i).item) :
    Loses t t' n j (fun i => if i = j then n else i) where
  at_self := by
    intro e he
    rw [Live, hitem, if_pos rfl] at he
    exact absurd he.2 (by simp)
  of_ne := by
    intro i hi e
    rw [Live, hitem, if_neg hi, totalSlotsSize, hsize]
    by_cases hij : i = j
    · simp only [hij, if_true]
      exact ⟨fun h => ⟨hn, h.2⟩, fun h => ⟨hj, h.2⟩⟩
    · simp only [if_neg hij]
      rfl
  inj := by
    intro i hi i' hi' h
    split at h <;> split at h <;> omega
  ne := by
    intro i hi
    split <;> omega
  surj := by
    intro i hi e he
    by_cases hin : i = n
    · exact ⟨j, hjn, by simp [hin]⟩
    · exact ⟨i, hin, if_neg hi⟩

end Assignments

/-! ## get, hasItem and remove -/

section Operations

variable {t : HashTable κ ν} {m : KeyMap κ ν}

omit [Hashable κ] [EquivBEq κ] [LawfulHashable κ] in
theorem Refines.eq_some (hm : t.Refines m) {i : Nat} {entry : κ × ν} {index : κ}
    (hi : t.Live i entry) (heq : index == entry.1) : m index = some entry.2 :=
  (hm index entry.2).mpr ⟨i, entry, hi, heq, rfl⟩

omit [Hashable κ] [EquivBEq κ] [LawfulHashable κ] in
theorem Refines.eq_none (hm : t.Refines m) {index : κ}
    (hnone : ∀ i entry, t.Live i entry → (index == entry.1) = false) : m index = none := by
  cases hvalue : m index with
  | none => rfl
  | some value =>
      obtain ⟨i, entry, hi, heq, -⟩ := (hm index value).mp hvalue
      rw [hnone i entry hi] at heq
      exact absurd heq (by decide)

omit [EquivBEq κ] in
theorem get_spec (hv : t.Valid) (hm : t.Refines m) (index : κ) :
    t.get index = some (m index) := by
  obtain ⟨hempty, hfind⟩ := hv.find index
  cases hitem : (t.entries (t.hashIndex index)).item with
  | none =>
      rw [hm.eq_none (hempty hitem)]
      simp [get, hitem]
  | some e =>
      simp only [get, hitem, Option.isSome_some, if_true]
      rcases hfind with ⟨rest, xs, j, ys, entry, -, -, hj, heq, hfound⟩ | ⟨hfound, hnone⟩
      · rw [hfound, hm.eq_some hj heq]
        simp [hj.2]
      · rw [hfound, hm.eq_none hnone]
        rfl

omit [EquivBEq κ] in
theorem hasItem_spec [BEq ν] (hv : t.Valid) (hm : t.Refines m) (value : ν) (index : κ) :
    t.hasItem value index = some ((m index).any fun value' => value == value') := by
  cases hitem : (t.entries (t.hashIndex index)).item with
  | none =>
      rw [hm.eq_none ((hv.find index).1 hitem)]
      simp [hasItem, hitem]
  | some e =>
      simp only [hasItem, hitem, Option.isSome_some, if_true]
      obtain ⟨rest, h⟩ := hv.chained
      rcases h.search (t.hashIndex_lt hv.pos index) (fun position =>
          (t.entries position).item.any fun entry => index == entry.1 && value == entry.2)
        with ⟨xs, j, ys, hsplit, hj, hfound⟩ | ⟨hnone, hfound⟩
      · have hjlt := h.lt (t.hashIndex_lt hv.pos index) (i := j) (by rw [hsplit]; simp)
        rw [hfound]
        cases hentry : (t.entries j).item with
        | none => simp [hentry] at hj
        | some entry =>
            simp only [hentry, Option.any_some, Bool.and_eq_true] at hj
            rw [hm.eq_some ⟨hjlt, hentry⟩ hj.1]
            simp [hj.2]
      · rw [hfound]
        cases hvalue : m index with
        | none => rfl
        | some value' =>
            obtain ⟨i, entry, hi, heq, rfl⟩ := (hm index value').mp hvalue
            have hmem := h.mem_chain hv.pos hi
            rw [← t.hashIndex_congr heq] at hmem
            have htest := hnone i hmem
            simp only [hi.2, Option.any_some, heq, Bool.true_and] at htest
            simp [htest]

omit [Hashable κ] [LawfulHashable κ] in
theorem Refines.loses {t' : HashTable κ ν} {q r : Nat} {g : Nat → Nat} {entry : κ × ν}
    {index : κ} (hm : t.Refines m) (h : Loses t t' q r g) (hd : t.Distinct)
    (hr : t.Live r entry) (heq : index == entry.1) : t'.Refines (m.remove index) := by
  intro k v
  have hiff : (k == index) = (k == entry.1) := BEq.congr_right heq
  rw [h.holds_iff hd hr, KeyMap.remove, hiff]
  cases k == entry.1 with
  | true => simp
  | false => simpa using hm k v

omit [LawfulHashable κ] [EquivBEq κ] in
theorem Valid.loses {t' : HashTable κ ν} {q r : Nat} {g : Nat → Nat} (hv : t.Valid)
    (hsize : t'.uSize = t.uSize) (hfree : t'.free < t.totalSlotsSize)
    (hchained : ∃ rest, t'.Chained rest) (h : Loses t t' q r g) : t'.Valid where
  pos := hsize ▸ hv.pos
  free_lt := by rwa [totalSlotsSize, hsize]
  chained := hchained
  distinct := h.distinct hv.distinct

omit [BEq κ] [EquivBEq κ] [LawfulHashable κ] in
theorem Chained.link_eq {rest : Nat → List Nat} {b j : Nat} {xs ys : List Nat}
    (h : t.Chained rest) (hb : b < t.uSize) (hsplit : b :: rest b = xs ++ j :: ys) :
    Chain.Segment t.link (t.link j) ys none := by
  have hlinks := h.links b hb
  rw [hsplit, Chain.segment_append] at hlinks
  obtain ⟨-, -, -, hnext⟩ := hlinks
  exact hnext

omit [BEq κ] [Hashable κ] [EquivBEq κ] [LawfulHashable κ] in
theorem raise_free (t : HashTable κ ν) (free : Nat) (c : Prop) [Decidable c] :
    ∃ free', (if c then t.setFree free else t) = t.setFree free' ∧
      (free' = free ∨ free' = t.free) := by
  by_cases h : c
  · exact ⟨free, if_pos h, .inl rfl⟩
  · exact ⟨t.free, if_neg h, .inr rfl⟩

theorem remove_found {rest : Nat → List Nat} {xs ys : List Nat} {j : Nat} {entry : κ × ν}
    {index : κ} (hv : t.Valid) (hm : t.Refines m) (h : t.Chained rest)
    (hitem : (t.entries (t.hashIndex index)).item.isSome)
    (hsplit : t.hashIndex index :: rest (t.hashIndex index) = xs ++ j :: ys)
    (hj : t.Live j entry) (heq : index == entry.1)
    (hfound : t.searchChain (t.holdsIndex index) (t.hashIndex index) =
      some (some (xs.getLast?, j))) :
    ∃ t', t.remove index = some (t', some entry.2) ∧ t'.Valid ∧
      t'.Refines (m.remove index) := by
  have hlt := t.hashIndex_lt hv.pos index
  have hnext := h.link_eq hlt hsplit
  simp only [remove, hitem, if_true, hfound, Option.bind_eq_bind, Option.bind_some, hj.2,
    Option.map_some]
  cases ys with
  | nil =>
      have hzero : (t.entries j).next = 0 := by
        simpa [link] using hnext
      have hlink : t.link j = none := hnext
      rw [if_pos hzero]
      cases hlast : xs.getLast? with
      | none =>
          obtain rfl := List.getLast?_eq_none_iff.mp hlast
          obtain ⟨rfl, hrest⟩ := List.cons.inj hsplit
          have hloses : Loses t (t.setItem (t.hashIndex index) none) _ _ id :=
            loses_clear rfl (t.item_setItem _ none)
          refine ⟨_, rfl, hv.loses rfl hv.free_lt ⟨rest, ?_⟩ hloses,
            hm.loses hloses hv.distinct hj heq⟩
          exact h.setBucket hlt hrest (by simp) rfl (link_setItem ..) (bucketOf_setItem ..)
      | some p =>
          obtain ⟨xs', rfl⟩ := List.getLast?_eq_some_iff.mp hlast
          rw [List.append_assoc] at hsplit
          obtain ⟨free, hraise, hfree⟩ := (t.setItem j none).raise_free j
            (j > (t.setItem j none).free)
          simp only [hraise]
          have hloses : Loses t (((t.setItem j none).setFree free).setNext p 0) j j id :=
            loses_clear rfl fun i => by
              rw [item_setNext, setFree_entries, item_setItem]
          refine ⟨_, rfl, hv.loses rfl ?_ (h.unlink hlt hsplit rfl
            ⟨Function.update t.link p none j, ?_⟩ ?_) hloses,
            hm.loses hloses hv.distinct hj heq⟩
          · rcases hfree with rfl | rfl
            · exact hj.1
            · exact hv.free_lt
          · rw [link_setNext, link_setFree, link_setItem, if_pos rfl, hlink]
            exact (Function.update_eq_self ..).symm
          · rw [bucketOf_setNext, bucketOf_setFree, bucketOf_setItem, Option.map_none]
  | cons n ys =>
      have hlink : t.link j = some n := hnext.1
      obtain ⟨hzero, hn⟩ : (t.entries j).next ≠ 0 ∧ (t.entries j).next = n := by
        simpa [link] using hlink
      have hnrest : n ∈ rest (t.hashIndex index) := by
        have htail := congrArg List.tail hsplit
        rw [List.tail_cons] at htail
        rw [htail]
        cases xs <;> simp
      obtain ⟨hge, hnlt, hbucketn⟩ := (h.mem_rest _ hlt n).mp hnrest
      have hbucketj : t.bucketOf j = some (t.hashIndex index) :=
        bucketOf_eq_some_iff.mpr ⟨entry, hj.2, (t.hashIndex_congr heq).symm⟩
      have hjn : j ≠ n := by
        have hnodup := (h.links _ hlt).nodup
        rw [hsplit] at hnodup
        rintro rfl
        exact absurd hnodup (by simp [List.nodup_append])
      rw [if_neg hzero, hn]
      obtain ⟨moved, hmoved⟩ : ∃ u, u = (((t.setNext j (t.entries n).next).setItem j
        ((t.setNext j (t.entries n).next).entries n).item).setItem n none).setNext n 0 :=
        ⟨_, rfl⟩
      obtain ⟨free, hraise, hfree⟩ := moved.raise_free n (moved.free < n)
      simp only [← hmoved, hraise]
      have hloses : Loses t (moved.setFree free) n j (fun i => if i = j then n else i) :=
        loses_move (hmoved ▸ rfl) hjn hj.1 hnlt fun i => by
          rw [setFree_entries, hmoved]
          simp only [item_setNext, item_setItem]
      refine ⟨_, rfl, hv.loses (hmoved ▸ rfl) ?_
        (h.unlink hlt hsplit (hmoved ▸ rfl) ⟨none, ?_⟩ ?_) hloses,
        hm.loses hloses hv.distinct hj heq⟩
      · rcases hfree with rfl | rfl
        · exact hnlt
        · exact hmoved ▸ hv.free_lt
      · rw [link_setFree, hmoved, link_setNext, link_setItem, link_setItem, link_setNext]
        rfl
      · rw [bucketOf_setFree, hmoved, bucketOf_setNext, bucketOf_setItem, bucketOf_setItem,
          bucketOf_setNext, item_setNext]
        have hself : Function.update t.bucketOf j (t.bucketOf n) = t.bucketOf := by
          rw [hbucketn, ← hbucketj]
          exact Function.update_eq_self ..
        exact congrArg (Function.update · n none) hself

theorem remove_spec (hv : t.Valid) (hm : t.Refines m) (index : κ) :
    ∃ t', t.remove index = some (t', m index) ∧ t'.Valid ∧ t'.Refines (m.remove index) := by
  have habsent (hnone : ∀ i entry, t.Live i entry → (index == entry.1) = false) :
      t.Refines (m.remove index) := by
    intro k v
    rw [KeyMap.remove, ← hm k v]
    cases hk : k == index with
    | false => rfl
    | true =>
        have hk' : m k = none := hm.eq_none fun i entry hi => by
          rw [BEq.congr_left hk]
          exact hnone i entry hi
        simp [hk']
  obtain ⟨hempty, hfind⟩ := hv.find index
  cases hitem : (t.entries (t.hashIndex index)).item with
  | none =>
      refine ⟨t, ?_, hv, habsent (hempty hitem)⟩
      rw [hm.eq_none (hempty hitem)]
      simp [remove, hitem]
  | some e =>
      rcases hfind with ⟨rest, xs, j, ys, entry, h, hsplit, hj, heq, hfound⟩ |
        ⟨hfound, hnone⟩
      · rw [hm.eq_some hj heq]
        exact remove_found hv hm h (by simp [hitem]) hsplit hj heq hfound
      · refine ⟨t, ?_, hv, habsent hnone⟩
        rw [hm.eq_none hnone]
        simp [remove, hitem, hfound]

end Operations

end HashTable

end LeooRexx
