import Mathlib
import LeooRexx.Runtime.HashTableMap

/-!
# Runs of hash tables

`put` and the larger table it moves to, iteration, and from these what a whole
run of routines returns: what the same run on a finite map returns.
-/

namespace LeooRexx

variable {κ ν : Type} [BEq κ] [Hashable κ]

inductive HashOp (κ ν : Type) where
  | put (value : ν) (index : κ)
  | get (index : κ)
  | remove (index : κ)
  | hasItem (value : ν) (index : κ)
  | iterate

inductive HashResult (κ ν : Type) where
  | done
  | value (value : Option ν)
  | found (found : Bool)
  | items (items : List (κ × ν))

namespace KeyMap

omit [Hashable κ]

def after (m : KeyMap κ ν) : HashOp κ ν → KeyMap κ ν
  | .put value index => m.put value index
  | .remove index => m.remove index
  | .get _ | .hasItem _ _ | .iterate => m

def Answers [BEq ν] (m : KeyMap κ ν) : HashOp κ ν → HashResult κ ν → Prop
  | .put _ _, result => result = .done
  | .get index, result => result = .value (m index)
  | .remove index, result => result = .value (m index)
  | .hasItem value index, result =>
      result = .found ((m index).any fun value' => value == value')
  | .iterate, result => ∃ items, result = .items items ∧ m.Lists items

def AnswersAll [BEq ν] (m : KeyMap κ ν) : List (HashOp κ ν) → List (HashResult κ ν) → Prop
  | [], results => results = []
  | op :: ops, results => ∃ result results', results = result :: results' ∧
      m.Answers op result ∧ (m.after op).AnswersAll ops results'

end KeyMap

namespace HashTable

variable [EquivBEq κ] [LawfulHashable κ]

/-! ## put -/

section Put

variable {t : HashTable κ ν}

omit [LawfulHashable κ] in
theorem replace_spec {m : KeyMap κ ν} {j : Nat} {entry : κ × ν} {value : ν} {index : κ}
    (hv : t.Valid) (hm : t.Refines m) (hj : t.Live j entry) (heq : index == entry.1) :
    (t.setItem j (some (entry.1, value))).Valid ∧
      (t.setItem j (some (entry.1, value))).Refines (m.put value index) := by
  have hlive : ∀ i e, (t.setItem j (some (entry.1, value))).Live i e →
      ∃ e', t.Live i e' ∧ e.1 = e'.1 := by
    rintro i e ⟨hi, hitem⟩
    rw [item_setItem] at hitem
    by_cases hij : i = j
    · subst hij
      rw [if_pos rfl, Option.some.injEq] at hitem
      exact ⟨entry, hj, hitem ▸ rfl⟩
    · rw [if_neg hij] at hitem
      exact ⟨e, ⟨hi, hitem⟩, rfl⟩
  refine ⟨⟨hv.pos, hv.free_lt, ?_, ?_⟩, ?_⟩
  · obtain ⟨rest, h⟩ := hv.chained
    refine ⟨rest, h.congr rfl (link_setItem ..) ?_⟩
    rw [bucketOf_setItem]
    have hself : t.bucketOf j = some (t.hashIndex entry.1) := by
      rw [bucketOf, hj.2, Option.map_some]
    rw [Option.map_some, ← hself]
    exact Function.update_eq_self ..
  · intro i i' e e' hi hi' heq'
    obtain ⟨f, hf, hef⟩ := hlive i e hi
    obtain ⟨f', hf', hef'⟩ := hlive i' e' hi'
    exact hv.distinct i i' f f' hf hf' (hef ▸ hef' ▸ heq')
  · intro k v
    rw [KeyMap.put]
    have hself : (t.setItem j (some (entry.1, value))).Live j (entry.1, value) :=
      ⟨hj.1, by rw [item_setItem, if_pos rfl]⟩
    cases hk : k == index with
    | true =>
        have hke : k == entry.1 := BEq.trans hk heq
        simp only [if_true, Option.some.injEq]
        constructor
        · rintro rfl
          exact ⟨j, _, hself, hke, rfl⟩
        · rintro ⟨i, e, hi, hie, rfl⟩
          obtain ⟨f, hf, hef⟩ := hlive i e hi
          have hij : i = j := hv.distinct i j f entry hf hj
            (BEq.trans (BEq.symm (hef ▸ hie)) hke)
          subst hij
          exact congrArg Prod.snd (Option.some.inj (hself.2.symm.trans hi.2))
    | false =>
        have hne : ∀ i e, t.Live i e → k == e.1 → i ≠ j := by
          rintro i e hi hie rfl
          obtain rfl : e = entry := Option.some.inj (hi.2.symm.trans hj.2)
          rw [BEq.trans hie (BEq.symm heq)] at hk
          exact absurd hk (by decide)
        rw [if_neg (by decide), hm k v]
        constructor
        · rintro ⟨i, e, hi, hie, hev⟩
          refine ⟨i, e, ⟨hi.1, ?_⟩, hie, hev⟩
          rw [item_setItem, if_neg (hne i e hi hie)]
          exact hi.2
        · rintro ⟨i, e, hi, hie, hev⟩
          obtain ⟨f, hf, hef⟩ := hlive i e hi
          have hij := hne i f hf (hef ▸ hie)
          have hitem := hi.2
          rw [item_setItem, if_neg hij] at hitem
          exact ⟨i, e, ⟨hi.1, hitem⟩, hie, hev⟩

omit [BEq κ] [Hashable κ] [EquivBEq κ] [LawfulHashable κ] in
theorem findFree_eq_some {n overflow : Nat} (h : t.findFree n = some overflow) :
    t.uSize ≤ overflow ∧ overflow ≤ n ∧ (t.entries overflow).item = none := by
  induction n with
  | zero => exact absurd h (by simp [findFree])
  | succ n ih =>
      rw [findFree] at h
      by_cases hlow : n + 1 < t.uSize
      · simp [hlow] at h
      · by_cases hnone : (t.entries (n + 1)).item.isNone
        · rw [if_neg hlow, if_pos hnone, Option.some.injEq] at h
          subst h
          exact ⟨not_lt.mp hlow, le_rfl, Option.isNone_iff_eq_none.mp hnone⟩
        · rw [if_neg hlow, if_neg hnone] at h
          obtain ⟨hge, hle, hitem⟩ := ih h
          exact ⟨hge, Nat.le_succ_of_le hle, hitem⟩

structure Extends (t t' : HashTable κ ν) (value : ν) (index : κ) : Prop where
  valid : t'.Valid
  holds_iff : ∀ k v, t'.Holds k v ↔ (k == index ∧ value = v) ∨ t.Holds k v

omit [LawfulHashable κ] in
theorem Refines.extends {m : KeyMap κ ν} {t' : HashTable κ ν} {value : ν} {index : κ}
    (hm : t.Refines m) (h : Extends t t' value index) (hnone : m index = none) :
    t'.Refines (m.put value index) := by
  intro k v
  rw [h.holds_iff, KeyMap.put, ← hm k v]
  cases hk : k == index with
  | false => simp
  | true =>
      have hk' : m k ≠ some v := by
        intro hkv
        obtain ⟨i, e, hi, hie, hev⟩ := (hm k v).mp hkv
        have hindex := hm.eq_some hi (BEq.trans (BEq.symm hk) hie)
        rw [hnone] at hindex
        exact absurd hindex (by simp)
      simp [hk']

omit [Hashable κ] [EquivBEq κ] [LawfulHashable κ] in
theorem live_ne_of_not_holds {index : κ} (hnone : ∀ v, ¬ t.Holds index v) (i : Nat)
    (e : κ × ν) (hi : t.Live i e) : (index == e.1) = false := by
  cases heq : index == e.1 with
  | false => rfl
  | true => exact absurd ⟨i, e, hi, heq, rfl⟩ (hnone e.2)

omit [LawfulHashable κ] in
theorem extends_fill (value : ν) {index : κ} (hv : t.Valid)
    (hitem : (t.entries (t.hashIndex index)).item = none)
    (hnone : ∀ v, ¬ t.Holds index v) :
    Extends t (t.setItem (t.hashIndex index) (some (index, value))) value index := by
  have hlt := t.hashIndex_lt hv.pos index
  have hgains := gains_fill (index, value)
    (Nat.lt_of_lt_of_le hlt (by rw [totalSlotsSize]; omega)) hitem
  obtain ⟨rest, h⟩ := hv.chained
  have hrest := h.empty _ hlt (bucketOf_eq_none_iff.mpr hitem)
  refine ⟨⟨hv.pos, hv.free_lt, ⟨rest, ?_⟩, hgains.distinct hv.distinct
    (live_ne_of_not_holds hnone)⟩, hgains.holds_iff⟩
  exact h.setBucket hlt hrest (fun c hc => (Option.some.inj hc).symm) rfl (link_setItem ..)
    (bucketOf_setItem ..)

omit [LawfulHashable κ] in
theorem extends_insertAt {value : ν} {index : κ} {overflow : Nat} (hv : t.Valid)
    (hitem : (t.entries (t.hashIndex index)).item ≠ none) (hge : t.uSize ≤ overflow)
    (hlt : overflow < t.totalSlotsSize) (hover : (t.entries overflow).item = none)
    (hnone : ∀ v, ¬ t.Holds index v) :
    Extends t (t.insertAt value index (t.hashIndex index) overflow) value index := by
  have hb := t.hashIndex_lt hv.pos index
  have hgains := gains_insertAt value index
    (show t.hashIndex index < t.totalSlotsSize by rw [totalSlotsSize]; omega) hlt
    (by omega) hover
  obtain ⟨rest, h⟩ := hv.chained
  have hchained := h.insertAt value hv.pos
    (fun hb' => hitem (bucketOf_eq_none_iff.mp hb')) hge hlt (bucketOf_eq_none_iff.mpr hover)
  exact ⟨⟨hv.pos, Nat.lt_of_le_of_lt (Nat.sub_le overflow 1) hlt, ⟨_, hchained⟩,
    hgains.distinct hv.distinct (live_ne_of_not_holds hnone)⟩, hgains.holds_iff⟩

/-! ## Expansion -/

/-- No overflow slot up to `free` is in use, and at most `n` of all of them are. -/
def Fresh (t : HashTable κ ν) (n : Nat) : Prop :=
  (∀ i, t.uSize ≤ i → i ≤ t.free → (t.entries i).item = none) ∧
    t.totalSlotsSize ≤ t.free + 1 + n

omit [BEq κ] [Hashable κ] [EquivBEq κ] [LawfulHashable κ] in
theorem Fresh.mono {n n' : Nat} (h : t.Fresh n) (hle : n ≤ n') : t.Fresh n' :=
  ⟨h.1, by have := h.2; omega⟩

omit [LawfulHashable κ] in
theorem addWith_spec (fuel : Nat) {n : Nat} (hv : t.Valid) (hfresh : t.Fresh n) (hn : n < t.uSize)
    (value : ν) {index : κ} (hnone : ∀ v, ¬ t.Holds index v) :
    ∃ t', addWith (insertWith (fuel + 1)) t value index = some (t', none) ∧
      t'.uSize = t.uSize ∧ t'.Fresh (n + 1) ∧ Extends t t' value index := by
  have hlt := t.hashIndex_lt hv.pos index
  obtain ⟨hempty, hroom⟩ := hfresh
  cases hitem : (t.entries (t.hashIndex index)).item with
  | none =>
      refine ⟨t.setItem (t.hashIndex index) (some (index, value)), ?_, rfl, ⟨?_, ?_⟩,
        extends_fill value hv hitem hnone⟩
      · simp [addWith, hitem]
      · intro i hge hle
        rw [item_setItem, if_neg (by change t.uSize ≤ i at hge; omega)]
        exact hempty i hge hle
      · exact Nat.le_succ_of_le hroom
  | some e =>
      rw [totalSlotsSize] at hroom
      have hge : t.uSize ≤ t.free := by omega
      have hfind : t.findFree t.free = some t.free := by
        have hitem' := hempty t.free hge le_rfl
        obtain ⟨free, hfree⟩ := Nat.exists_eq_add_one_of_ne_zero
          (Nat.pos_iff_ne_zero.mp (Nat.lt_of_lt_of_le hv.pos hge))
        rw [hfree] at hge hitem' ⊢
        rw [findFree, if_neg (not_lt.mpr hge), hitem']
        rfl
      refine ⟨t.insertAt value index (t.hashIndex index) t.free, ?_, rfl, ⟨?_, ?_⟩,
        extends_insertAt hv (by simp [hitem]) hge hv.free_lt (hempty t.free hge le_rfl) hnone⟩
      · simp [addWith, hitem, insertWith, hfind]
      · intro i hgei hle
        change t.uSize ≤ i at hgei
        change i ≤ t.free - 1 at hle
        rw [insertAt, setFree_entries, item_setEntry, item_setEntry, if_neg (by omega),
          if_neg (by omega)]
        exact hempty i hgei (by omega)
      · change t.uSize * 2 ≤ t.free - 1 + 1 + (n + 1)
        omega

omit [LawfulHashable κ] in
theorem reMerge_loop (fuel : Nat) {l : List Nat} (hl : l.Nodup)
    (hlt : ∀ i ∈ l, i < t.totalSlotsSize) (hd : t.Distinct) {n : Nat}
    {newHash : HashTable κ ν} (hv : newHash.Valid) (hfresh : newHash.Fresh n)
    (hroom : n + l.length ≤ newHash.uSize)
    (hnew : ∀ i ∈ l, ∀ e, t.Live i e → ∀ v, ¬ newHash.Holds e.1 v) :
    ∃ r, l.foldlM (fun newHash i =>
        match (t.entries i).item with
        | none => some newHash
        | some (index, value) =>
            (addWith (insertWith (fuel + 1)) newHash value index).map (·.1)) newHash = some r ∧
      r.uSize = newHash.uSize ∧ r.Valid ∧ r.Fresh (n + l.length) ∧
      ∀ k v, r.Holds k v ↔ newHash.Holds k v ∨
        ∃ i ∈ l, ∃ e, t.Live i e ∧ k == e.1 ∧ e.2 = v := by
  induction l generalizing newHash n with
  | nil => exact ⟨newHash, rfl, rfl, hv, hfresh, by simp⟩
  | cons i l ih =>
      obtain ⟨hil, hl⟩ := List.nodup_cons.mp hl
      have hlt' : ∀ i ∈ l, i < t.totalSlotsSize := fun j hj =>
        hlt j (List.mem_cons_of_mem i hj)
      rw [List.length_cons] at hroom ⊢
      rw [List.foldlM_cons]
      cases hitem : (t.entries i).item with
      | none =>
          obtain ⟨r, hr, hsize, hrv, hrfresh, hholds⟩ := ih hl hlt' hv hfresh (by omega)
            fun j hj => hnew j (List.mem_cons_of_mem i hj)
          refine ⟨r, hr, hsize, hrv, hrfresh.mono (by omega), fun k v => ?_⟩
          simp [hholds k v, Live, hitem]
      | some e =>
          obtain ⟨index, value⟩ := e
          have hi : t.Live i (index, value) := ⟨hlt i List.mem_cons_self, hitem⟩
          obtain ⟨t', hadd, hsize', hfresh', hextends⟩ := addWith_spec fuel hv hfresh
            (by omega) value (hnew i List.mem_cons_self (index, value) hi)
          have hnew' : ∀ j ∈ l, ∀ e, t.Live j e → ∀ v, ¬ t'.Holds e.1 v := by
            intro j hj e he v hholds
            rcases (hextends.holds_iff e.1 v).mp hholds with ⟨heq, -⟩ | hholds
            · exact hil (hd j i e (index, value) he hi heq ▸ hj)
            · exact hnew j (List.mem_cons_of_mem i hj) e he v hholds
          obtain ⟨r, hr, hsize, hrv, hrfresh, hholds⟩ := ih hl hlt' hextends.valid hfresh'
            (by omega) hnew'
          refine ⟨r, ?_, hsize.trans hsize', hrv, hrfresh.mono (by omega), fun k v => ?_⟩
          · simp only [hadd, Option.map_some]
            exact hr
          · rw [hholds, hextends.holds_iff]
            constructor
            · rintro ((⟨hk, rfl⟩ | hold) | ⟨j, hj, e, he⟩)
              · exact .inr ⟨i, List.mem_cons_self, _, hi, hk, rfl⟩
              · exact .inl hold
              · exact .inr ⟨j, List.mem_cons_of_mem i hj, e, he⟩
            · rintro (hold | ⟨j, hj, e, he, hk, hev⟩)
              · exact .inl (.inr hold)
              · rcases List.mem_cons.mp hj with rfl | hj
                · obtain rfl : e = (index, value) := Option.some.inj (he.2.symm.trans hi.2)
                  exact .inl (.inl ⟨hk, hev⟩)
                · exact .inr ⟨j, hj, e, he, hk, hev⟩

omit [BEq κ] [Hashable κ] [EquivBEq κ] [LawfulHashable κ] in
theorem newHashTable_uSize_pos (n : Nat) :
    0 < (newHashTable n : HashTable κ ν).uSize := by
  simp only [newHashTable]
  split <;> omega

omit [BEq κ] [Hashable κ] [EquivBEq κ] [LawfulHashable κ] in
theorem newHashTable_live (n i : Nat) (e : κ × ν) :
    ¬ (newHashTable n : HashTable κ ν).Live i e := by
  rintro ⟨-, hitem⟩
  exact absurd hitem (by simp [newHashTable])

omit [BEq κ] [Hashable κ] [EquivBEq κ] [LawfulHashable κ] in
theorem newHashTable_free (n : Nat) : (newHashTable n : HashTable κ ν).free + 1 =
    (newHashTable n : HashTable κ ν).totalSlotsSize := by
  have hpos := newHashTable_uSize_pos (κ := κ) (ν := ν) n
  simp only [newHashTable, totalSlotsSize] at hpos ⊢
  omega

omit [EquivBEq κ] [LawfulHashable κ] in
theorem newHashTable_valid (n : Nat) : (newHashTable n : HashTable κ ν).Valid where
  pos := newHashTable_uSize_pos n
  free_lt := by
    have hfree := newHashTable_free (κ := κ) (ν := ν) n
    omega
  chained := by
    refine ⟨fun _ => [], ⟨fun b _ => ⟨rfl, rfl⟩, ?_, ?_, fun _ _ _ => rfl⟩⟩
    · simp [bucketOf, newHashTable]
    · simp [bucketOf, newHashTable]
  distinct := fun i _ e _ hi => absurd hi (newHashTable_live n i e)

omit [BEq κ] [Hashable κ] [EquivBEq κ] [LawfulHashable κ] in
theorem newHashTable_fresh (n : Nat) : (newHashTable n : HashTable κ ν).Fresh 0 :=
  ⟨fun _ _ _ => rfl, (newHashTable_free n).ge⟩

omit [LawfulHashable κ] in
theorem insert_spec (hv : t.Valid) (value : ν) {index : κ}
    (hitem : (t.entries (t.hashIndex index)).item ≠ none)
    (hnone : ∀ v, ¬ t.Holds index v) :
    ∃ t' r, t.insert value index (t.hashIndex index) = some (t', r) ∧
      Extends t (r.getD t') value index := by
  rw [insert, insertWith]
  cases hfind : t.findFree t.free with
  | some overflow =>
      obtain ⟨hge, hle, hover⟩ := findFree_eq_some hfind
      exact ⟨_, none, rfl, extends_insertAt hv hitem hge (Nat.lt_of_le_of_lt hle hv.free_lt)
        hover hnone⟩
  | none =>
      have hsize : (newHashTable (t.totalSlotsSize * 2) : HashTable κ ν).uSize =
          t.totalSlotsSize + 1 := by
        rw [newHashTable, totalSlotsSize]
        have heven : t.uSize * 2 * 2 / 2 % 2 = 0 := by omega
        simp only [heven, if_true]
        omega
      obtain ⟨r, hr, hrsize, hrv, hrfresh, hholds⟩ := reMerge_loop 0
        (List.nodup_reverse.mpr List.nodup_range)
        (fun i hi => by simpa using hi) hv.distinct
        (newHashTable_valid (t.totalSlotsSize * 2)) (newHashTable_fresh _)
        (by rw [hsize, List.length_reverse, List.length_range]; omega)
        (fun _ _ _ _ _ h => by
          obtain ⟨j, e', hj, -⟩ := h
          exact newHashTable_live _ j e' hj)
      have hsame : ∀ k v, r.Holds k v ↔ t.Holds k v := by
        intro k v
        rw [hholds]
        constructor
        · rintro (⟨j, e, hj, -⟩ | ⟨i, -, e, he⟩)
          · exact absurd hj (newHashTable_live _ j e)
          · exact ⟨i, e, he⟩
        · rintro ⟨i, e, he⟩
          exact .inr ⟨i, by simpa using he.1.1, e, he⟩
      rw [List.length_reverse, List.length_range, Nat.zero_add] at hrfresh
      obtain ⟨t', hadd, -, -, hextends⟩ := addWith_spec 0 hrv hrfresh
        (by omega) value (fun v hold => hnone v ((hsame index v).mp hold))
      refine ⟨t, some t', ?_, hextends.valid, fun k v => ?_⟩
      · have hmerge : t.reMerge (addWith (insertWith 1))
            (newHashTable (t.totalSlotsSize * 2)) = some r := hr
        simp [hmerge, hadd]
      · exact (hextends.holds_iff k v).trans (by rw [hsame])

omit [Hashable κ] [EquivBEq κ] [LawfulHashable κ] in
theorem not_holds_of_eq_none {m : KeyMap κ ν} (hm : t.Refines m) {index : κ}
    (hnone : m index = none) (v : ν) : ¬ t.Holds index v := by
  intro hv
  rw [(hm index v).mpr hv] at hnone
  cases hnone

omit [LawfulHashable κ] in
theorem add_spec {m : KeyMap κ ν} (hv : t.Valid) (hm : t.Refines m) (value : ν) {index : κ}
    (hnone : m index = none) :
    ∃ t' r, t.add value index = some (t', r) ∧ (r.getD t').Valid ∧
      (r.getD t').Refines (m.put value index) := by
  have habsent := not_holds_of_eq_none hm hnone
  cases hitem : (t.entries (t.hashIndex index)).item with
  | none =>
      have hextends := extends_fill value hv hitem habsent
      refine ⟨_, none, ?_, hextends.valid, hm.extends hextends hnone⟩
      simp [add, addWith, hitem, setItem]
  | some e =>
      obtain ⟨t', r, hinsert, hextends⟩ := insert_spec hv value (by simp [hitem]) habsent
      refine ⟨t', r, ?_, hextends.valid, hm.extends hextends hnone⟩
      simpa [add, addWith, hitem, insert] using hinsert

theorem put_spec {m : KeyMap κ ν} (hv : t.Valid) (hm : t.Refines m) (value : ν) (index : κ) :
    ∃ t' r, t.put value index = some (t', r) ∧ (r.getD t').Valid ∧
      (r.getD t').Refines (m.put value index) := by
  have habsent (hnone : ∀ i e, t.Live i e → (index == e.1) = false) :
      ∀ v, ¬ t.Holds index v := by
    rintro v ⟨i, e, hi, heq, -⟩
    rw [hnone i e hi] at heq
    exact absurd heq (by decide)
  obtain ⟨hempty, hfind⟩ := hv.find index
  cases hitem : (t.entries (t.hashIndex index)).item with
  | none =>
      have hextends := extends_fill value hv hitem (habsent (hempty hitem))
      refine ⟨_, none, ?_, hextends.valid, hm.extends hextends (hm.eq_none (hempty hitem))⟩
      simp [put, hitem, setItem]
  | some e =>
      rcases hfind with ⟨rest, xs, j, ys, entry, h, hsplit, hj, heq, hfound⟩ |
        ⟨hfound, hnone⟩
      · refine ⟨_, none, ?_, replace_spec hv hm hj heq⟩
        simp [put, hitem, hfound, hj.2, setItem]
      · obtain ⟨t', r, hinsert, hextends⟩ := insert_spec hv value
          (by simp [hitem]) (habsent hnone)
        refine ⟨t', r, ?_, hextends.valid, hm.extends hextends (hm.eq_none hnone)⟩
        simp [put, hitem, hfound, hinsert]

end Put

/-! ## Iteration -/

section Iteration

variable {t : HashTable κ ν}

omit [BEq κ] [Hashable κ] [EquivBEq κ] [LawfulHashable κ] in
theorem iterateFrom_scanFrom {count i fuel : Nat} (hcount : i + count = t.totalSlotsSize)
    (hfuel : count < fuel) :
    t.iterateFrom fuel (t.scanFrom count i) =
      some ((List.range' i count).filterMap fun j => (t.entries j).item) := by
  induction count generalizing i fuel with
  | zero =>
      cases fuel with
      | zero => exact absurd hfuel (Nat.lt_irrefl 0)
      | succ fuel => simp [scanFrom, iterateFrom, available, ← hcount]
  | succ count ih =>
      rw [scanFrom, List.range'_succ]
      cases hitem : (t.entries i).item with
      | none =>
          simp only [List.filterMap_cons, hitem, Option.isNone_none, if_true]
          exact ih (by omega) (by omega)
      | some entry =>
          cases fuel with
          | zero => exact absurd hfuel (Nat.not_lt_zero _)
          | succ fuel =>
              have hnext : t.next i = t.scanFrom count (i + 1) := by
                rw [next]
                congr 1
                omega
              have hlater : count < fuel := by omega
              have hrest := ih (i := i + 1) (by omega) hlater
              simp [iterateFrom, available, hnext, hrest, hitem, ← hcount]

omit [BEq κ] [Hashable κ] [EquivBEq κ] [LawfulHashable κ] in
theorem iterate_eq (t : HashTable κ ν) : t.iterate =
    some ((List.range' 0 t.totalSlotsSize).filterMap fun i => (t.entries i).item) :=
  iterateFrom_scanFrom (Nat.zero_add _) (Nat.lt_succ_self _)

omit [EquivBEq κ] [LawfulHashable κ] in
theorem iterate_spec {m : KeyMap κ ν} (hv : t.Valid) (hm : t.Refines m) :
    ∃ items, t.iterate = some items ∧ m.Lists items := by
  refine ⟨_, t.iterate_eq, ?_, fun index value => ?_⟩
  · rw [List.pairwise_filterMap]
    refine List.Pairwise.imp_of_mem ?_ List.pairwise_lt_range'
    intro i j hi hj hij entry hentry entry' hentry'
    cases heq : entry.1 == entry'.1 with
    | false => rfl
    | true =>
        have hlive : t.Live i entry := ⟨by simpa using hi, hentry⟩
        have hlive' : t.Live j entry' := ⟨by simpa using hj, hentry'⟩
        exact absurd (hv.distinct _ _ _ _ hlive hlive' heq) (Nat.ne_of_lt hij)
  · rw [hm index value, Holds]
    simp only [List.mem_filterMap, List.mem_range'_1, Nat.zero_le, true_and, Nat.zero_add]
    constructor
    · rintro ⟨i, entry, hi, heq, hvalue⟩
      exact ⟨entry, ⟨i, hi⟩, heq, hvalue⟩
    · rintro ⟨entry, ⟨i, hi⟩, heq, hvalue⟩
      exact ⟨i, entry, hi, heq, hvalue⟩

end Iteration

/-! ## Runs -/

section Runs

omit [EquivBEq κ] [LawfulHashable κ]

variable [BEq ν]

/-- The owner of a table goes on with the larger one that `put` returns. -/
def step (t : HashTable κ ν) : HashOp κ ν → Option (HashTable κ ν × HashResult κ ν)
  | .put value index => do
      let (t, larger) ← t.put value index
      some (larger.getD t, .done)
  | .get index => do
      let value ← t.get index
      some (t, .value value)
  | .remove index => do
      let (t, removed) ← t.remove index
      some (t, .value removed)
  | .hasItem value index => do
      let found ← t.hasItem value index
      some (t, .found found)
  | .iterate => do
      let items ← t.iterate
      some (t, .items items)

def run (t : HashTable κ ν) :
    List (HashOp κ ν) → Option (HashTable κ ν × List (HashResult κ ν))
  | [] => some (t, [])
  | op :: ops => do
      let (t, result) ← t.step op
      let (t, results) ← t.run ops
      some (t, result :: results)

/-- Every bucket heads a chain that ends, without a cycle, of keys that hash to it. -/
def WellChained (t : HashTable κ ν) : Prop :=
  ∀ b < t.uSize, ∃ l, Chain.Segment t.link (some b) l none ∧ l.Nodup ∧
    ∀ i ∈ l, ∀ entry, (t.entries i).item = some entry → t.hashIndex entry.1 = b

omit [BEq ν] in
theorem Valid.wellChained {t : HashTable κ ν} (hv : t.Valid) : t.WellChained := by
  intro b hb
  obtain ⟨rest, h⟩ := hv.chained
  refine ⟨_, h.links b hb, (h.links b hb).nodup, fun i hi entry hentry => ?_⟩
  have hbucket : t.bucketOf i = some (t.hashIndex entry.1) :=
    bucketOf_eq_some_iff.mpr ⟨entry, hentry, rfl⟩
  rcases List.mem_cons.mp hi with rfl | hi
  · exact h.main i hb _ hbucket
  · exact Option.some.inj (hbucket.symm.trans ((h.mem_rest b hb i).mp hi).2.2)

variable [EquivBEq κ] [LawfulHashable κ] {t : HashTable κ ν} {m : KeyMap κ ν}

theorem step_spec (hv : t.Valid) (hm : t.Refines m) (op : HashOp κ ν) :
    ∃ t' result, t.step op = some (t', result) ∧ m.Answers op result ∧ t'.Valid ∧
      t'.Refines (m.after op) := by
  cases op with
  | put value index =>
      obtain ⟨t', larger, hput, hv', hm'⟩ := put_spec hv hm value index
      exact ⟨larger.getD t', .done, by simp [step, hput], rfl, hv', hm'⟩
  | get index =>
      exact ⟨t, _, by simp [step, get_spec hv hm], rfl, hv, hm⟩
  | remove index =>
      obtain ⟨t', hremove, hv', hm'⟩ := remove_spec hv hm index
      exact ⟨t', _, by simp [step, hremove], rfl, hv', hm'⟩
  | hasItem value index =>
      exact ⟨t, _, by simp [step, hasItem_spec hv hm], rfl, hv, hm⟩
  | iterate =>
      obtain ⟨items, hiterate, hlists⟩ := iterate_spec hv hm
      exact ⟨t, _, by simp [step, hiterate], ⟨items, rfl, hlists⟩, hv, hm⟩

theorem run_spec (hv : t.Valid) (hm : t.Refines m) (ops : List (HashOp κ ν)) :
    ∃ t' results, t.run ops = some (t', results) ∧ m.AnswersAll ops results ∧ t'.Valid := by
  induction ops generalizing t m with
  | nil => exact ⟨t, [], rfl, rfl, hv⟩
  | cons op ops ih =>
      obtain ⟨t', result, hstep, hanswer, hv', hm'⟩ := step_spec hv hm op
      obtain ⟨t'', results, hrun, hanswers, hv''⟩ := ih hv' hm'
      exact ⟨t'', result :: results, by simp [run, hstep, hrun],
        ⟨result, results, rfl, hanswer, hanswers⟩, hv''⟩

omit [BEq ν] [Hashable κ] [EquivBEq κ] [LawfulHashable κ] in
theorem newHashTable_refines (n : Nat) :
    (newHashTable n : HashTable κ ν).Refines KeyMap.empty := by
  intro index value
  refine ⟨fun h => absurd h (by simp [KeyMap.empty]), ?_⟩
  rintro ⟨i, e, hi, -⟩
  exact absurd hi (newHashTable_live n i e)

/--
A run on a new table of any size ends, returns what the same run on a finite
map returns, and leaves every chain as it has to be.
-/
theorem run_refines (entries : Nat) (ops : List (HashOp κ ν)) :
    ∃ t results, (newHashTable entries : HashTable κ ν).run ops = some (t, results) ∧
      KeyMap.empty.AnswersAll ops results ∧ t.WellChained := by
  obtain ⟨t, results, hrun, hanswers, hv⟩ :=
    run_spec (newHashTable_valid entries) (newHashTable_refines entries) ops
  exact ⟨t, results, hrun, hanswers, hv.wellChained⟩

/-- Three keys of one bucket: the third insertion expands the table. -/
theorem run_refines_collision :
    ∃ t results, (newHashTable 2 : HashTable Nat Nat).run
        [.put 1 10, .put 2 20, .put 3 30, .remove 20, .get 30] = some (t, results) ∧
      KeyMap.empty.AnswersAll [.put 1 10, .put 2 20, .put 3 30, .remove 20, .get 30] results ∧
      t.WellChained :=
  run_refines 2 _

end Runs

end HashTable

end LeooRexx
