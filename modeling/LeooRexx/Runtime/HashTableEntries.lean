import Mathlib
import LeooRexx.Runtime.HashTableRuns

/-!
# All entries of a hash table

The routines that go over every entry: they count the entries, look for a value, or clear
the table bucket by bucket.
-/

namespace LeooRexx

open Chain

variable {κ ν : Type}

namespace HashTable

/-- `totalEntries` counts from the last entry down. -/
def totalEntries (t : HashTable κ ν) : Nat :=
  ((List.range t.totalSlotsSize).reverse.filter fun i => (t.entries i).item.isSome).length

def getIndex (t : HashTable κ ν) (equal : ν → Bool) : Option κ :=
  (List.range t.totalSlotsSize).reverse.findSome? fun i =>
    (t.entries i).item.bind fun entry => if equal entry.2 then some entry.1 else none

/-- The loop of `emptySlot` over the overflow entries. -/
def emptyChain : Nat → HashTable κ ν → Nat → Option (HashTable κ ν)
  | 0, _, _ => none
  | fuel + 1, t, next =>
      if next = 0 then some t
      else
        let position := next
        let t := t.setItem position none
        let next := (t.entries position).next
        let t := t.setNext position 0
        let t := if position > t.free then t.setFree position else t
        emptyChain fuel t next

def emptySlot (t : HashTable κ ν) (position : Nat) : Option (HashTable κ ν) :=
  if (t.entries position).item.isSome then
    let t := t.setItem position none
    let next := (t.entries position).next
    let t := t.setNext position 0
    emptyChain (t.totalSlotsSize + 1) t next
  else some t

def empty (t : HashTable κ ν) : Option (HashTable κ ν) :=
  (List.range t.uSize).foldlM emptySlot t

/-! ## Counting and searching -/

theorem filterMap_toList_length {α β : Type} (f : α → Option β) (l : List α) :
    (l.filterMap f).length = (l.filter fun a => (f a).isSome).length := by
  induction l with
  | nil => rfl
  | cons a l ih => cases h : f a <;> simp [h, ih]

theorem totalEntries_eq {t : HashTable κ ν} {items : List (κ × ν)}
    (h : t.iterate = some items) : t.totalEntries = items.length := by
  rw [iterate_eq, Option.some.injEq] at h
  subst h
  rw [filterMap_toList_length, totalEntries, List.filter_reverse, List.length_reverse,
    List.range_eq_range']

section Maps

variable [BEq κ] {t : HashTable κ ν} {m : KeyMap κ ν}

theorem getIndex_spec [LawfulBEq κ] (hm : t.Refines m) (equal : ν → Bool) :
    (∀ index, t.getIndex equal = some index → ∃ value, m index = some value ∧ equal value) ∧
      (t.getIndex equal = none → ∀ index value, m index = some value → equal value = false) := by
  constructor
  · intro index h
    obtain ⟨i, hi, hentry⟩ := List.exists_of_findSome?_eq_some h
    obtain ⟨entry, hitem, hequal⟩ := Option.bind_eq_some_iff.mp hentry
    split at hequal
    · cases hequal
      have hlive : t.Live i entry := ⟨by simpa using hi, hitem⟩
      exact ⟨entry.2, (hm _ _).mpr ⟨i, entry, hlive, beq_self_eq_true _, rfl⟩, ‹_›⟩
    · cases hequal
  · intro h index value hvalue
    obtain ⟨i, entry, hlive, -, rfl⟩ := (hm index value).mp hvalue
    have hnone := List.findSome?_eq_none_iff.mp h i (by simpa using hlive.1)
    rw [hlive.2, Option.bind_some] at hnone
    split at hnone
    · cases hnone
    · exact Bool.eq_false_iff.mpr ‹_›

end Maps

/-! ## Emptying -/

structure Cleared (t t' : HashTable κ ν) (l : List Nat) : Prop where
  uSize : t'.uSize = t.uSize
  free_lt : t.free < t.totalSlotsSize → t'.free < t.totalSlotsSize
  cleared : ∀ i ∈ l, t'.entries i = ⟨none, 0⟩
  kept : ∀ i, i ∉ l → t'.entries i = t.entries i

theorem Cleared.refl (t : HashTable κ ν) : Cleared t t [] :=
  ⟨rfl, id, nofun, fun _ _ => rfl⟩

theorem Cleared.trans {t t' t'' : HashTable κ ν} {l l' : List Nat} (h : Cleared t t' l)
    (h' : Cleared t' t'' l') : Cleared t t'' (l ++ l') where
  uSize := h'.uSize.trans h.uSize
  free_lt := by
    intro hfree
    have htotal : t'.totalSlotsSize = t.totalSlotsSize := by
      rw [totalSlotsSize, totalSlotsSize, h.uSize]
    exact htotal ▸ h'.free_lt (htotal ▸ h.free_lt hfree)
  cleared := by
    intro i hi
    by_cases hi' : i ∈ l'
    · exact h'.cleared i hi'
    · rw [h'.kept i hi']
      exact h.cleared i ((List.mem_append.mp hi).resolve_right hi')
  kept := by
    intro i hi
    rw [List.mem_append, not_or] at hi
    rw [h'.kept i hi.2, h.kept i hi.1]

theorem link_eq_of_entries {t t' : HashTable κ ν} {i : Nat} (h : t'.entries i = t.entries i) :
    t'.link i = t.link i := by
  rw [link, link, h]

theorem cleared_single (t : HashTable κ ν) (i free : Nat)
    (hfree : t.free < t.totalSlotsSize → free < t.totalSlotsSize) :
    Cleared t (((t.setItem i none).setNext i 0).setFree free) [i] where
  uSize := rfl
  free_lt := hfree
  cleared := by
    intro j hj
    rw [List.mem_singleton.mp hj]
    simp [setNext, setItem]
  kept := by
    intro j hj
    simp [setNext, setItem, List.mem_singleton.not.mp hj]

theorem emptyChain_spec {t : HashTable κ ν} {l : List Nat} {fuel next : Nat}
    (hl : Segment t.link (if next = 0 then none else some next) l none)
    (hlt : ∀ i ∈ l, i < t.totalSlotsSize) (hnodup : l.Nodup) (hfuel : l.length < fuel) :
    ∃ t', emptyChain fuel t next = some t' ∧ Cleared t t' l := by
  induction l generalizing t fuel next with
  | nil =>
      cases fuel with
      | zero => exact absurd hfuel (Nat.lt_irrefl 0)
      | succ fuel =>
          have hnext : next = 0 := by
            by_contra hne
            rw [if_neg hne] at hl
            cases hl
          exact ⟨t, by rw [emptyChain, if_pos hnext], .refl t⟩
  | cons i l ih =>
      cases fuel with
      | zero => exact absurd hfuel (Nat.not_lt_zero _)
      | succ fuel =>
          obtain ⟨hi, hl⟩ := hl
          have hne : next ≠ 0 := by
            rintro rfl
            cases hi
          rw [if_neg hne] at hi
          obtain rfl := Option.some.inj hi
          obtain ⟨hnotin, hnodup⟩ := List.nodup_cons.mp hnodup
          have hbound := hlt next List.mem_cons_self
          obtain ⟨free, hfree, hu⟩ : ∃ free, (t.free < t.totalSlotsSize → free < t.totalSlotsSize) ∧
              (if next > ((t.setItem next none).setNext next 0).free
                then ((t.setItem next none).setNext next 0).setFree next
                else (t.setItem next none).setNext next 0) =
              ((t.setItem next none).setNext next 0).setFree free := by
            split
            · exact ⟨next, fun _ => hbound, rfl⟩
            · exact ⟨t.free, id, rfl⟩
          have hsingle := cleared_single t next free hfree
          have hitem : ((t.setItem next none).entries next).next = (t.entries next).next := by
            simp [setItem]
          rw [emptyChain, if_neg hne]
          simp only [hu, hitem]
          have hsegment := hl.congr fun j hj => by
            have hji : j ∉ [next] := fun h => hnotin (List.mem_singleton.mp h ▸ hj)
            rw [← link_eq_of_entries (hsingle.kept j hji)]
          obtain ⟨t', hempty, hcleared⟩ := ih hsegment
            (fun j hj => hlt j (List.mem_cons_of_mem _ hj)) hnodup (Nat.lt_of_succ_lt_succ hfuel)
          exact ⟨t', hempty, hsingle.trans hcleared⟩

section Chains

variable [Hashable κ] {t : HashTable κ ν} {rest : Nat → List Nat}

theorem emptySlot_spec {t' : HashTable κ ν} (h : t.Chained rest) {b : Nat} (hb : b < t.uSize)
    {l : List Nat} (ht' : Cleared t t' l) (hl : ∀ i ∈ b :: rest b, i ∉ l) :
    ∃ t'', emptySlot t' b = some t'' ∧ Cleared t' t'' (b :: rest b) := by
  have hentry : ∀ i ∈ b :: rest b, t'.entries i = t.entries i := fun i hi => ht'.kept i (hl i hi)
  have htotal : t'.totalSlotsSize = t.totalSlotsSize := by
    rw [totalSlotsSize, totalSlotsSize, ht'.uSize]
  obtain ⟨-, hsegment⟩ := h.links b hb
  obtain ⟨hnotin, hnodup⟩ := List.nodup_cons.mp (h.links b hb).nodup
  rw [emptySlot]
  cases hitem : (t'.entries b).item with
  | none =>
      rw [hentry b List.mem_cons_self] at hitem
      have hrest := h.empty b hb (bucketOf_eq_none_iff.mpr hitem)
      rw [hrest] at hsegment ⊢
      have hnext : (t.entries b).next = 0 := by
        by_contra hne
        have hlink : t.link b = none := hsegment
        rw [link, if_neg hne] at hlink
        cases hlink
      refine ⟨t', rfl, rfl, id, fun i hi => ?_, fun _ _ => rfl⟩
      rw [List.mem_singleton.mp hi, hentry b List.mem_cons_self]
      cases hb' : t.entries b
      simp_all
  | some entry =>
      have hsingle := cleared_single t' b t'.free id
      have hnext : ((t'.setItem b none).entries b).next = (t.entries b).next := by
        simp [setItem, hentry b List.mem_cons_self]
      have hrest : ∀ i ∈ rest b, i ∉ [b] := fun i hi hib =>
        hnotin (List.mem_singleton.mp hib ▸ hi)
      simp only [Option.isSome_some, if_true, hnext]
      have hlinks : Segment ((t'.setItem b none).setNext b 0).link (t.link b) (rest b) none :=
        hsegment.congr fun i hi => link_eq_of_entries
          ((hsingle.kept i (hrest i hi)).trans (hentry i (List.mem_cons_of_mem b hi)))
      have hlength := h.length_le hb
      rw [List.length_cons] at hlength
      have hsize : ((t'.setItem b none).setNext b 0).totalSlotsSize = t.totalSlotsSize := htotal
      obtain ⟨t'', hempty, hcleared⟩ := emptyChain_spec hlinks
        (fun i hi => hsize ▸ h.lt hb (List.mem_cons_of_mem b hi)) hnodup
        (by omega : _ < ((t'.setItem b none).setNext b 0).totalSlotsSize + 1)
      exact ⟨t'', hempty, hsingle.trans hcleared⟩

theorem emptyLoop_spec {t' : HashTable κ ν} (h : t.Chained rest) {bs l : List Nat}
    (hbs : ∀ b ∈ bs, b < t.uSize) (hnodup : bs.Nodup) (ht' : Cleared t t' l)
    (hl : ∀ b ∈ bs, ∀ i ∈ b :: rest b, i ∉ l) :
    ∃ t'', bs.foldlM emptySlot t' = some t'' ∧
      Cleared t t'' (l ++ bs.flatMap fun b => b :: rest b) := by
  induction bs generalizing t' l with
  | nil => exact ⟨t', rfl, by simpa using ht'⟩
  | cons b bs ih =>
      obtain ⟨hnotin, hnodup⟩ := List.nodup_cons.mp hnodup
      have hb := hbs b List.mem_cons_self
      obtain ⟨u, hslot, hu⟩ := emptySlot_spec h hb ht' (hl b List.mem_cons_self)
      have hlater : ∀ c ∈ bs, ∀ i ∈ c :: rest c, i ∉ l ++ (b :: rest b) := by
        intro c hc i hi hmem
        rcases List.mem_append.mp hmem with hmem | hmem
        · exact hl c (List.mem_cons_of_mem b hc) i hi hmem
        · exact hnotin (h.disjoint hb (hbs c (List.mem_cons_of_mem b hc)) hmem hi ▸ hc)
      obtain ⟨t'', hloop, ht''⟩ := ih (fun c hc => hbs c (List.mem_cons_of_mem b hc)) hnodup
        (ht'.trans hu) hlater
      refine ⟨t'', by simp [hslot, hloop], ?_⟩
      rwa [List.append_assoc] at ht''

theorem empty_spec [BEq κ] (hv : t.Valid) :
    ∃ t', t.empty = some t' ∧ t'.Valid ∧ t'.Refines KeyMap.empty := by
  obtain ⟨rest, h⟩ := hv.chained
  obtain ⟨t', hempty, hcleared⟩ := emptyLoop_spec h
    (fun b (hb : b ∈ List.range t.uSize) => List.mem_range.mp hb) List.nodup_range (.refl t)
    (fun _ _ _ _ => List.not_mem_nil)
  rw [List.nil_append] at hcleared
  have htotal : t'.totalSlotsSize = t.totalSlotsSize := by
    rw [totalSlotsSize, totalSlotsSize, hcleared.uSize]
  have hmem : ∀ b < t.uSize, ∀ i ∈ b :: rest b, t'.entries i = ⟨none, 0⟩ := fun b hb i hi =>
    hcleared.cleared i (List.mem_flatMap.mpr ⟨b, List.mem_range.mpr hb, hi⟩)
  have hitem : ∀ i < t.totalSlotsSize, (t'.entries i).item = none := by
    intro i hi
    cases hentry : (t.entries i).item with
    | some entry =>
        rw [hmem _ (t.hashIndex_lt hv.pos entry.1) i (h.mem_chain hv.pos ⟨hi, hentry⟩)]
    | none =>
        by_cases hin : i ∈ (List.range t.uSize).flatMap fun b => b :: rest b
        · rw [hcleared.cleared i hin]
        · rw [hcleared.kept i hin, hentry]
  have hlive : ∀ i entry, ¬ t'.Live i entry := by
    rintro i entry ⟨hi, hentry⟩
    rw [hitem i (htotal ▸ hi)] at hentry
    cases hentry
  refine ⟨t', hempty, ⟨hcleared.uSize ▸ hv.pos, htotal ▸ hcleared.free_lt hv.free_lt,
    ⟨fun _ => [], ?_⟩, fun i _ entry _ hi => absurd hi (hlive i entry)⟩, fun index value => ?_⟩
  · have hbucket : ∀ i < t.totalSlotsSize, t'.bucketOf i = none := fun i hi =>
      bucketOf_eq_none_iff.mpr (hitem i hi)
    constructor
    · intro b hb
      rw [hcleared.uSize] at hb
      refine ⟨rfl, ?_⟩
      rw [link, hmem b hb b List.mem_cons_self]
      rfl
    · intro b hb i
      refine ⟨fun hi => absurd hi List.not_mem_nil, ?_⟩
      rintro ⟨-, hi, hsome⟩
      rw [hbucket i (htotal ▸ hi)] at hsome
      cases hsome
    · intro b hb c hc
      rw [hbucket b (by rw [hcleared.uSize] at hb; rw [totalSlotsSize]; omega)] at hc
      cases hc
    · exact fun _ _ _ => rfl
  · refine ⟨fun h => (by cases h), ?_⟩
    rintro ⟨i, entry, hi, -⟩
    exact absurd hi (hlive i entry)

end Chains

end HashTable

/-! ## The owner of a table -/

namespace HashTable

variable {κ ν : Type} [BEq κ] [Hashable κ]

/-- The owner goes on with the larger table that `put` returns. -/
def putIn (t : HashTable κ ν) (value : ν) (index : κ) : Option (HashTable κ ν) := do
  let (t, newHash) ← t.put value index
  some (newHash.getD t)

/-- `remove`, without the removed value. -/
def removeFrom (t : HashTable κ ν) (index : κ) : Option (HashTable κ ν) := do
  let (t, _) ← t.remove index
  some t

end HashTable

namespace KeyMap

variable {κ ν : Type} [BEq κ] [LawfulBEq κ] {m : KeyMap κ ν}

theorem put_self (m : KeyMap κ ν) (value : ν) (index : κ) : m.put value index index = some value :=
  if_pos (beq_self_eq_true index)

theorem put_of_ne (m : KeyMap κ ν) (value : ν) {index index' : κ} (h : index' ≠ index) :
    m.put value index index' = m index' :=
  if_neg (by simpa using h)

theorem put_put (m : KeyMap κ ν) (value : ν) (index : κ) :
    (m.put value index).put value index = m.put value index := by
  funext index'
  by_cases heq : index' = index
  · rw [heq, put_self, put_self]
  · rw [put_of_ne _ _ heq]

theorem remove_self (m : KeyMap κ ν) (index : κ) : m.remove index index = none :=
  if_pos (beq_self_eq_true index)

theorem remove_of_ne (m : KeyMap κ ν) {index index' : κ} (h : index' ≠ index) :
    m.remove index index' = m index' :=
  if_neg (by simpa using h)

theorem remove_eq_some {index index' : κ} {value : ν} (h : m.remove index index' = some value) :
    index' ≠ index ∧ m index' = some value := by
  by_cases heq : index' = index
  · rw [heq, remove_self] at h
    cases h
  · exact ⟨heq, remove_of_ne m heq ▸ h⟩

theorem remove_eq_self {index : κ} (h : m index = none) : m.remove index = m := by
  funext index'
  by_cases heq : index' = index
  · rw [heq, remove_self, h]
  · exact remove_of_ne m heq

theorem Lists.nodup {items : List (κ × ν)} (h : m.Lists items) : (items.map (·.1)).Nodup := by
  rw [List.Nodup, List.pairwise_map]
  exact h.1.imp fun hne => by simpa using hne

theorem Lists.mem {items : List (κ × ν)} (h : m.Lists items) {index : κ} {value : ν} :
    (index, value) ∈ items ↔ m index = some value := by
  rw [h.2]
  constructor
  · exact fun hmem => ⟨_, hmem, beq_self_eq_true index, rfl⟩
  · rintro ⟨item, hmem, heq, rfl⟩
    rwa [eq_of_beq heq]

end KeyMap

namespace HashTable

variable {κ ν : Type} [BEq κ] [Hashable κ] [EquivBEq κ] [LawfulHashable κ] {t : HashTable κ ν}
  {m : KeyMap κ ν}

theorem putIn_spec (hv : t.Valid) (hm : t.Refines m) (value : ν) (index : κ) :
    ∃ t', t.putIn value index = some t' ∧ t'.Valid ∧ t'.Refines (m.put value index) := by
  obtain ⟨t', r, hput, hv', hm'⟩ := put_spec hv hm value index
  exact ⟨r.getD t', by simp [putIn, hput], hv', hm'⟩

theorem removeFrom_spec (hv : t.Valid) (hm : t.Refines m) (index : κ) :
    ∃ t', t.removeFrom index = some t' ∧ t'.Valid ∧ t'.Refines (m.remove index) := by
  obtain ⟨t', hremove, hv', hm'⟩ := remove_spec hv hm index
  exact ⟨t', by simp [removeFrom, hremove], hv', hm'⟩

omit [EquivBEq κ] in
theorem putAll_spec [LawfulBEq κ] {l : List (κ × ν)} (hv : t.Valid) (hm : t.Refines m)
    (hnodup : (l.map (·.1)).Nodup) (hnew : ∀ entry ∈ l, m entry.1 = none) :
    ∃ t' m', l.foldlM (fun t entry => t.putIn entry.2 entry.1) t = some t' ∧ t'.Valid ∧
      t'.Refines m' ∧ ∀ index value, m' index = some value ↔
        (index, value) ∈ l ∨ m index = some value := by
  induction l generalizing t m with
  | nil => exact ⟨t, m, rfl, hv, hm, by simp⟩
  | cons entry l ih =>
      obtain ⟨hnotin, hnodup⟩ := List.nodup_cons.mp hnodup
      have hne : ∀ entry' ∈ l, entry'.1 ≠ entry.1 := fun entry' hentry' heq =>
        hnotin (List.mem_map.mpr ⟨entry', hentry', heq⟩)
      obtain ⟨u, hput, hu, hmu⟩ := putIn_spec hv hm entry.2 entry.1
      obtain ⟨t', m', hloop, hv', hm', hmaps⟩ := ih hu hmu hnodup fun entry' hentry' => by
        rw [KeyMap.put_of_ne m entry.2 (hne entry' hentry')]
        exact hnew entry' (List.mem_cons_of_mem _ hentry')
      refine ⟨t', m', by simp [hput, hloop], hv', hm', fun index value => ?_⟩
      rw [hmaps, List.mem_cons]
      by_cases heq : index = entry.1
      · subst heq
        rw [KeyMap.put_self, hnew entry List.mem_cons_self, Option.some.injEq, Prod.ext_iff]
        have hnotmem : (entry.1, value) ∉ l := fun hmem => hne _ hmem rfl
        simp [hnotmem, eq_comm]
      · rw [KeyMap.put_of_ne m entry.2 heq, Prod.ext_iff]
        simp [heq]

end HashTable

end LeooRexx
