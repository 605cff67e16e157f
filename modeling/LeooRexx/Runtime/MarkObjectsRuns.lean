import LeooRexx.Runtime.MarkObjectsPass
import LeooRexx.Runtime.MarkObjectsTables

/-!
# The passes of the mark phase

What the memory object reaches is the same after the tables were checked as before, since an
entry that is dropped or flagged belongs to an object that it did not reach.  So the later passes
start from a marked part that is complete.
-/

namespace LeooRexx

open Relation

variable {α : Type} [DecidableEq α] [Hashable α]

/-! ## The references of a hash table -/

namespace HashTable

variable {t t' : HashTable α α} {marked : α → Bool} {trueObject : α}

omit [DecidableEq α] [Hashable α] in
theorem mem_marks (b : α) :
    some b ∈ t.marks ↔ ∃ e, t.Pair e ∧ (b = e.1 ∨ b = e.2) := by
  simp only [marks, List.mem_flatMap, List.mem_range]
  constructor
  · rintro ⟨i, hi, hb⟩
    cases hitem : (t.entries i).item with
    | none => simp [hitem] at hb
    | some e => exact ⟨e, ⟨i, hi, hitem⟩, by simpa [hitem] using hb⟩
  · rintro ⟨e, ⟨i, hi, hitem⟩, hb⟩
    exact ⟨i, hi, by simpa [hitem] using hb⟩

structure FlaggedTable (marked : α → Bool) (trueObject : α) (t t' : HashTable α α) : Prop where
  uSize_eq : t'.uSize = t.uSize
  item_eq : ∀ j < t.totalSlotsSize, (t'.entries j).item =
    (t.entries j).item.map (flagged marked trueObject)

omit [DecidableEq α] [Hashable α] in
theorem flagged_flagged (e : α × α) :
    flagged marked trueObject (flagged marked trueObject e) = flagged marked trueObject e := by
  unfold flagged
  split <;> simp_all

omit [DecidableEq α] [Hashable α] in
theorem FlaggedTable.trans {t'' : HashTable α α} (h : FlaggedTable marked trueObject t t')
    (h' : FlaggedTable marked trueObject t' t'') : FlaggedTable marked trueObject t t'' := by
  refine ⟨h'.uSize_eq.trans h.uSize_eq, fun j hj => ?_⟩
  have htotal : t'.totalSlotsSize = t.totalSlotsSize := by
    rw [totalSlotsSize, totalSlotsSize, h.uSize_eq]
  rw [h'.item_eq j (htotal ▸ hj), h.item_eq j hj, Option.map_map]
  congr 1
  funext e
  exact flagged_flagged e

omit [DecidableEq α] [Hashable α] in
theorem FlaggedTable.live_iff (h : FlaggedTable marked trueObject t t') (j : Nat) (e' : α × α) :
    t'.Live j e' ↔ ∃ e, t.Live j e ∧ flagged marked trueObject e = e' := by
  have htotal : t'.totalSlotsSize = t.totalSlotsSize := by
    rw [totalSlotsSize, totalSlotsSize, h.uSize_eq]
  constructor
  · rintro ⟨hj, hitem⟩
    rw [htotal] at hj
    rw [h.item_eq j hj] at hitem
    obtain ⟨e, he, rfl⟩ := Option.map_eq_some_iff.mp hitem
    exact ⟨e, ⟨hj, he⟩, rfl⟩
  · rintro ⟨e, ⟨hj, hitem⟩, rfl⟩
    exact ⟨htotal ▸ hj, by rw [h.item_eq j hj, hitem]; rfl⟩

omit [DecidableEq α] [Hashable α] in
theorem FlaggedTable.entry_iff (h : FlaggedTable marked trueObject t t') (j : Nat) (o v' : α) :
    t'.Live j (o, v') ↔ ∃ v, t.Live j (o, v) ∧
      (marked o ∧ v' = v ∨ ¬ marked o ∧ v' = trueObject) := by
  rw [h.live_iff]
  constructor
  · rintro ⟨⟨o', v⟩, he, heq⟩
    rw [flagged] at heq
    split at heq
    · obtain ⟨rfl, rfl⟩ := Prod.mk.inj heq
      exact ⟨v, he, .inl ⟨‹_›, rfl⟩⟩
    · obtain ⟨rfl, rfl⟩ := Prod.mk.inj heq
      exact ⟨v, he, .inr ⟨‹_›, rfl⟩⟩
  · rintro ⟨v, he, ⟨hmarked, rfl⟩ | ⟨hmarked, rfl⟩⟩
    · exact ⟨_, he, if_pos hmarked⟩
    · exact ⟨_, he, if_neg hmarked⟩

omit [DecidableEq α] [Hashable α] in
theorem FlaggedTable.pair_iff (h : FlaggedTable marked trueObject t t')
    (hall : ∀ e, t.Pair e → marked e.1) (e : α × α) : t'.Pair e ↔ t.Pair e := by
  constructor
  · rintro ⟨j, hj⟩
    obtain ⟨e, he, rfl⟩ := (h.live_iff j _).mp hj
    rw [flagged, if_pos (hall e ⟨j, he⟩)]
    exact ⟨j, he⟩
  · rintro ⟨j, hj⟩
    exact ⟨j, (h.live_iff j e).mpr ⟨e, hj, if_pos (hall e ⟨j, hj⟩)⟩⟩

end HashTable

/-! ## Passes one after the other -/

namespace MarkState

variable [Fintype α] {g : ObjectGraph α} {m₀ m : MarkState α} {root : α}

omit [Hashable α] in
def Closed (g : ObjectGraph α) (m : MarkState α) : Prop :=
  ∀ o, m.marked o → ∀ b, g.Refers o b → m.marked b

omit [DecidableEq α] [Hashable α] [Fintype α] in
theorem Passed.closed (h : Passed g m₀ root m) (hclosed : m₀.Closed g) : m.Closed g := by
  intro o ho b hb
  rcases (h.marked_iff o).mp ho with hmarked | hreach
  · exact (h.marked_iff b).mpr (.inl (hclosed o hmarked b hb))
  · exact (h.marked_iff b).mpr (.inr (hreach.tail hb))

omit [Hashable α] [Fintype α] in
theorem Passed.count_le (h : Passed g m₀ root m) (o : α) :
    m.liveCalls.count o ≤ m₀.liveCalls.count o + 1 ∧
      (m₀.marked o → o ≠ root → m.liveCalls.count o = m₀.liveCalls.count o) ∧
      (m.marked o = false → m.liveCalls.count o = m₀.liveCalls.count o) := by
  obtain ⟨calls, heq, hnodup, hmarked, hfresh⟩ := h.calls
  rw [heq, List.count_append]
  refine ⟨Nat.add_le_add_left (List.nodup_iff_count_le_one.mp hnodup o) _, fun ho hne => ?_,
    fun ho => ?_⟩
  · have hmem : o ∉ calls := by
      intro hmem
      rcases hfresh o hmem with hunmarked | hroot
      · rw [ho] at hunmarked
        contradiction
      · exact hne hroot
    rw [List.count_eq_zero.mpr hmem, Nat.add_zero]
  · have hmem : o ∉ calls := by
      intro hmem
      have hcalled := hmarked o hmem
      rw [ho] at hcalled
      contradiction
    rw [List.count_eq_zero.mpr hmem, Nat.add_zero]

end MarkState

namespace ObjectHeap

variable {h h' : ObjectHeap α} {marked : α → Bool}

/-! ## The checks -/

structure SameObjects (h h' : ObjectHeap α) : Prop where
  behaviour : h'.behaviour = h.behaviour
  hasReferences : h'.hasReferences = h.hasReferences
  references : h'.references = h.references
  contents : h'.contents = h.contents
  memory : h'.memory = h.memory
  subClasses : h'.subClasses = h.subClasses
  uninitTables : h'.uninitTables = h.uninitTables
  trueObject : h'.trueObject = h.trueObject

omit [DecidableEq α] [Hashable α] in
theorem SameObjects.refl (h : ObjectHeap α) : SameObjects h h :=
  ⟨rfl, rfl, rfl, rfl, rfl, rfl, rfl, rfl⟩

omit [DecidableEq α] [Hashable α] in
theorem SameObjects.trans {h'' : ObjectHeap α} (hs : SameObjects h h') (hs' : SameObjects h' h'') :
    SameObjects h h'' :=
  ⟨hs'.behaviour.trans hs.behaviour, hs'.hasReferences.trans hs.hasReferences,
    hs'.references.trans hs.references, hs'.contents.trans hs.contents,
    hs'.memory.trans hs.memory, hs'.subClasses.trans hs.subClasses,
    hs'.uninitTables.trans hs.uninitTables, hs'.trueObject.trans hs.trueObject⟩

def HoldsUninit (h : ObjectHeap α) (tables : HashTable α α) (p : Nat) (c : α) : Prop :=
  ∃ j e, tables.Live j e ∧ p ≤ j ∧ h.contents e.2 = c

structure Flags (marked : α → Bool) (tables : HashTable α α) (p : Nat) (h h' : ObjectHeap α) :
    Prop where
  same : SameObjects h h'
  flagged : ∀ c, h.HoldsUninit tables p c → ∃ t t', h.hashTables c = some t ∧
    h'.hashTables c = some t' ∧ HashTable.FlaggedTable marked h.trueObject t t'
  kept : ∀ c, ¬ h.HoldsUninit tables p c → h'.hashTables c = h.hashTables c

omit [Hashable α] in
theorem checkUninitFrom_spec (marked : α → Bool) {tables : HashTable α α} {fuel p : Nat}
    {h : ObjectHeap α} (hp : tables.AtEntry p) (hfuel : tables.totalSlotsSize < p + fuel)
    (hopen : ∀ e, tables.Pair e → ∃ t, h.entriesOf e.2 = some t) :
    ∃ h', checkUninitFrom marked tables fuel h p = some h' ∧ Flags marked tables p h h' := by
  induction fuel generalizing h p with
  | zero => rcases hp with heq | ⟨hlt, -⟩ <;> omega
  | succ fuel ih =>
      rw [checkUninitFrom]
      cases hitem : tables.itemAt p with
      | none =>
          have hend := hp.eq_total hitem
          refine ⟨h, rfl, .refl h, ?_, fun _ _ => rfl⟩
          rintro c ⟨j, e, hj, hle, -⟩
          have hlt := hj.1
          omega
      | some e =>
          obtain ⟨process, uninitTable⟩ := e
          have hlive := HashTable.itemAt_eq_some hitem
          obtain ⟨t, ht⟩ := hopen _ ⟨p, hlive⟩
          obtain ⟨t₁, pending, hflag, hsize, hitems⟩ :=
            HashTable.flagFrom_first marked h.trueObject t
          have htable : HashTable.FlaggedTable marked h.trueObject t t₁ := ⟨hsize, hitems⟩
          obtain ⟨h₁, hh₁⟩ : ∃ h₁, h₁ = { h.setEntriesOf uninitTable t₁ with
            pendingUninits := h.pendingUninits + pending } := ⟨_, rfl⟩
          have hsame : SameObjects h h₁ := by
            rw [hh₁]
            exact ⟨rfl, rfl, rfl, rfl, rfl, rfl, rfl, rfl⟩
          have hself : h₁.hashTables (h.contents uninitTable) = some t₁ := by
            rw [hh₁]
            exact Function.update_self ..
          have hother : ∀ c, c ≠ h.contents uninitTable → h₁.hashTables c = h.hashTables c := by
            intro c hc
            rw [hh₁]
            exact Function.update_of_ne hc ..
          obtain ⟨hentry, hlt, hnone⟩ := HashTable.next_spec hlive.1
          have hopen₁ : ∀ e, tables.Pair e → ∃ t, h₁.entriesOf e.2 = some t := by
            intro e he
            rw [entriesOf, hsame.contents]
            by_cases hc : h.contents e.2 = h.contents uninitTable
            · exact ⟨t₁, by rw [hc, hself]⟩
            · rw [hother _ hc]
              exact hopen e he
          obtain ⟨h', hrest, hflags⟩ := ih hentry (by omega) hopen₁
          have hlater : ∀ c, h.HoldsUninit tables p c ↔
              c = h.contents uninitTable ∨ h₁.HoldsUninit tables (tables.next p) c := by
            intro c
            simp only [HoldsUninit, hsame.contents]
            constructor
            · rintro ⟨j, e, hj, hle, hc⟩
              rcases Nat.lt_trichotomy j (tables.next p) with hjn | rfl | hjn
              · rcases Nat.eq_or_lt_of_le hle with rfl | hpj
                · have he : e = (process, uninitTable) :=
                    Option.some.inj (hj.2.symm.trans hlive.2)
                  exact .inl (by rw [← hc, he])
                · have hempty := hnone j hpj hjn
                  rw [hj.2] at hempty
                  contradiction
              · exact .inr ⟨_, e, hj, Nat.le_refl _, hc⟩
              · exact .inr ⟨j, e, hj, Nat.le_of_lt hjn, hc⟩
            · rintro (rfl | ⟨j, e, hj, hle, hc⟩)
              · exact ⟨p, _, hlive, Nat.le_refl p, rfl⟩
              · exact ⟨j, e, hj, by omega, hc⟩
          refine ⟨h', ?_, hsame.trans hflags.same, fun c hc => ?_, fun c hc => ?_⟩
          · simp only [ht, Option.bind_eq_bind, Option.bind_some, hflag]
            rw [← hh₁]
            exact hrest
          · by_cases hlast : h₁.HoldsUninit tables (tables.next p) c
            · obtain ⟨t₂, t', ht₂, ht', hflagged⟩ := hflags.flagged c hlast
              rw [hsame.trueObject] at hflagged
              by_cases heq : c = h.contents uninitTable
              · subst heq
                obtain rfl := Option.some.inj (hself.symm.trans ht₂)
                exact ⟨t, t', ht, ht', htable.trans hflagged⟩
              · exact ⟨t₂, t', (hother c heq).symm.trans ht₂, ht', hflagged⟩
            · have heq := ((hlater c).mp hc).resolve_right hlast
              refine ⟨t, t₁, heq ▸ ht, ?_, htable⟩
              rw [hflags.kept c hlast, heq, hself]
          · obtain ⟨hne, hlast⟩ := not_or.mp (mt (hlater c).mpr hc)
            rw [hflags.kept c hlast, hother c hne]

/-! ## Heaps in order -/

structure Sound (h : ObjectHeap α) : Prop where
  plain : ∀ o, h.hasReferences o = false → h.hashTables o = none ∧ h.references o = []
  subClassEntries : ∃ t, h.entriesOf h.subClasses = some t ∧ t.PairTable
  uninitEntries : ∃ tables, h.entriesOf h.uninitTables = some tables ∧ ∀ e, tables.Pair e →
    (∃ t, h.entriesOf e.2 = some t) ∧ h.contents e.2 ≠ h.contents h.subClasses ∧
      h.contents e.2 ≠ h.contents h.uninitTables
  apart : h.contents h.uninitTables ≠ h.contents h.subClasses

omit [DecidableEq α] in
theorem Sound.flagged (hs : h.Sound) : h.graph.Flagged := by
  intro o ho
  obtain ⟨hnone, hrefs⟩ := hs.plain o ho
  simp [graph, hnone, hrefs]

structure Checked (marked : α → Bool) (h h' : ObjectHeap α) : Prop where
  same : SameObjects h h'
  subClassEntries : ∃ t t', h.entriesOf h.subClasses = some t ∧
    h'.entriesOf h.subClasses = some t' ∧ ∀ e, t'.Pair e ↔ t.Pair e ∧ marked e.2
  uninitEntries : ∃ tables, h.entriesOf h.uninitTables = some tables ∧
    h'.entriesOf h.uninitTables = some tables ∧ ∀ e, tables.Pair e → ∃ t t',
      h.entriesOf e.2 = some t ∧ h'.entriesOf e.2 = some t' ∧
      HashTable.FlaggedTable marked h.trueObject t t'
  kept : ∀ o, o ≠ h.contents h.subClasses →
    (∀ tables e, h.entriesOf h.uninitTables = some tables → tables.Pair e → h.contents e.2 ≠ o) →
    h'.hashTables o = h.hashTables o

theorem check_spec (marked : α → Bool) (hs : h.Sound) :
    ∃ h₁ h', h.checkSubClasses marked = some h₁ ∧ h₁.checkUninit marked = some h' ∧
      Checked marked h h' := by
  obtain ⟨t, ht, htable⟩ := hs.subClassEntries
  obtain ⟨tables, htables, hall⟩ := hs.uninitEntries
  obtain ⟨t', hcheck, -, hpairs⟩ := HashTable.checkFrom_first marked htable
  obtain ⟨h₁, hh₁⟩ : ∃ h₁, h₁ = h.setEntriesOf h.subClasses t' := ⟨_, rfl⟩
  have hsame : SameObjects h h₁ := by
    rw [hh₁]
    exact ⟨rfl, rfl, rfl, rfl, rfl, rfl, rfl, rfl⟩
  have hself : h₁.hashTables (h.contents h.subClasses) = some t' := by
    rw [hh₁]
    exact Function.update_self ..
  have hother : ∀ c, c ≠ h.contents h.subClasses → h₁.hashTables c = h.hashTables c := by
    intro c hc
    rw [hh₁]
    exact Function.update_of_ne hc ..
  have htables₁ : h₁.entriesOf h₁.uninitTables = some tables := by
    rw [entriesOf, hsame.contents, hsame.uninitTables, hother _ hs.apart]
    exact htables
  have hopen : ∀ e, tables.Pair e → ∃ t, h₁.entriesOf e.2 = some t := by
    intro e he
    rw [entriesOf, hsame.contents, hother _ (hall e he).2.1]
    exact (hall e he).1
  obtain ⟨hentry, hempty⟩ := tables.first_spec
  obtain ⟨h', hloop, hflags⟩ := checkUninitFrom_spec marked hentry
    (show tables.totalSlotsSize < tables.first + (tables.totalSlotsSize + 1) by omega) hopen
  have hholds : ∀ c, h₁.HoldsUninit tables tables.first c ↔
      ∃ e, tables.Pair e ∧ h.contents e.2 = c := by
    intro c
    rw [HoldsUninit, hsame.contents]
    constructor
    · rintro ⟨j, e, hj, -, hc⟩
      exact ⟨e, ⟨j, hj⟩, hc⟩
    · rintro ⟨e, ⟨j, hj⟩, hc⟩
      refine ⟨j, e, hj, ?_, hc⟩
      by_contra hlt
      have hnone := hempty j (Nat.lt_of_not_le hlt)
      rw [hj.2] at hnone
      contradiction
  refine ⟨h₁, h', ?_, ?_, hsame.trans hflags.same, ⟨t, t', ht, ?_, hpairs⟩,
    ⟨tables, htables, ?_, fun e he => ?_⟩, fun o ho hnot => ?_⟩
  · simp [checkSubClasses, ht, hcheck, hh₁]
  · simp [checkUninit, htables₁, hloop]
  · rw [entriesOf, hflags.same.contents, hsame.contents, hflags.kept, hself]
    rintro hc
    obtain ⟨e, he, hc⟩ := (hholds _).mp hc
    exact (hall e he).2.1 hc
  · rw [entriesOf, hflags.same.contents, hsame.contents, hflags.kept, hother _ hs.apart]
    · exact htables
    · intro hc
      obtain ⟨e, he, hc⟩ := (hholds _).mp hc
      exact (hall e he).2.2 hc
  · obtain ⟨t₁, t₂, ht₁, ht₂, hflagged⟩ :=
      hflags.flagged (h.contents e.2) ((hholds _).mpr ⟨e, he, rfl⟩)
    rw [hother _ (hall e he).2.1] at ht₁
    rw [hsame.trueObject] at hflagged
    refine ⟨t₁, t₂, ht₁, ?_, hflagged⟩
    rw [entriesOf, hflags.same.contents, hsame.contents]
    exact ht₂
  · rw [hflags.kept, hother o ho]
    intro hc
    obtain ⟨e, he, hc⟩ := (hholds _).mp hc
    exact hnot tables e htables he hc

omit [Hashable α] in
theorem Checked.refers (hc : Checked marked h h') {o b : α}
    (hmarked : ∀ b, h.graph.Refers o b → marked b) (hrefers : h'.graph.Refers o b) :
    h.graph.Refers o b := by
  obtain ⟨t, t', ht, ht', hpairs⟩ := hc.subClassEntries
  obtain ⟨tables, htables, -, hall⟩ := hc.uninitEntries
  rw [entriesOf] at ht ht'
  rw [hc.same.contents] at ht'
  rcases hrefers with hbehaviour | hlive
  · left
    change h'.behaviour o = some b at hbehaviour
    rwa [hc.same.behaviour] at hbehaviour
  · by_cases hsub : o = h.contents h.subClasses
    · subst hsub
      right
      simp only [graph, ht'] at hlive
      simp only [graph, ht]
      obtain ⟨e, he, hb⟩ := (HashTable.mem_marks b).mp hlive
      exact (HashTable.mem_marks b).mpr ⟨e, ((hpairs e).mp he).1, hb⟩
    · by_cases huninit : ∃ e, tables.Pair e ∧ h.contents e.2 = o
      · obtain ⟨e, he, rfl⟩ := huninit
        obtain ⟨t₁, t₂, ht₁, ht₂, hflagged⟩ := hall e he
        rw [entriesOf] at ht₁ ht₂
        rw [hc.same.contents] at ht₂
        have hindexes : ∀ e, t₁.Pair e → marked e.1 := by
          intro e he
          refine hmarked e.1 (.inr ?_)
          simp only [graph, ht₁]
          exact (HashTable.mem_marks e.1).mpr ⟨e, he, .inl rfl⟩
        right
        simp only [graph, ht₂] at hlive
        simp only [graph, ht₁]
        obtain ⟨e, he, hb⟩ := (HashTable.mem_marks b).mp hlive
        exact (HashTable.mem_marks b).mpr ⟨e, (hflagged.pair_iff hindexes e).mp he, hb⟩
      · have hkept := hc.kept o hsub fun tables' e htables' he heq => huninit ⟨e, by
          rw [htables] at htables'
          exact ⟨Option.some.inj htables' ▸ he, heq⟩⟩
        right
        simpa only [graph, hkept, hc.same.references] using hlive

/-! ## The whole phase -/

omit [DecidableEq α] in
theorem Sound.checked_flagged (hs : h.Sound) (hc : Checked marked h h') : h'.graph.Flagged := by
  intro o ho
  change h'.hasReferences o = false at ho
  rw [hc.same.hasReferences] at ho
  obtain ⟨hnone, hrefs⟩ := hs.plain o ho
  obtain ⟨t, -, ht, -⟩ := hc.subClassEntries
  obtain ⟨tables, htables, -, hall⟩ := hc.uninitEntries
  have hkept : h'.hashTables o = h.hashTables o := by
    refine hc.kept o ?_ fun tables' e htables' he heq => ?_
    · rintro rfl
      rw [entriesOf, hnone] at ht
      contradiction
    · rw [htables] at htables'
      obtain ⟨t₁, t₂, ht₁, -, -⟩ := hall e (Option.some.inj htables' ▸ he)
      rw [entriesOf, heq, hnone] at ht₁
      contradiction
  simp only [graph, hkept, hnone, hc.same.references, hrefs]

structure Collected (h h' : ObjectHeap α) (m' : MarkState α) : Prop where
  same : SameObjects h h'
  marked_iff : ∀ o, m'.marked o ↔ h.graph.Reaches h.memory o ∨
    h'.graph.Reaches h.subClasses o ∨ h'.graph.Reaches h.uninitTables o
  subClassEntries : ∃ t t', h.entriesOf h.subClasses = some t ∧
    h'.entriesOf h.subClasses = some t' ∧
    ∀ e, t'.Pair e ↔ t.Pair e ∧ h.graph.Reaches h.memory e.2
  uninitEntries : ∃ tables, h.entriesOf h.uninitTables = some tables ∧
    h'.entriesOf h.uninitTables = some tables ∧ ∀ e, tables.Pair e → ∃ t t',
      h.entriesOf e.2 = some t ∧ h'.entriesOf e.2 = some t' ∧
      ∀ j o v', t'.Live j (o, v') ↔ ∃ v, t.Live j (o, v) ∧
        (h.graph.Reaches h.memory o ∧ v' = v ∨ ¬ h.graph.Reaches h.memory o ∧ v' = h.trueObject)
  calls_le_two : ∀ o, m'.liveCalls.count o ≤ 2
  calls_le_one : ∀ o, (o = h.subClasses → ¬ h.graph.Reaches h.memory o) →
    (o = h.uninitTables → ¬ h.graph.Reaches h.memory o ∧ ¬ h'.graph.Reaches h.subClasses o) →
    m'.liveCalls.count o ≤ 1
  stack : m'.expandedLiveStack = none ∧ m'.OriginalFits

omit [Hashable α] in
theorem calls_bound [Fintype α] {g g' : ObjectGraph α} {m m₁ m₂ m₃ : MarkState α} {a b c : α}
    (hcalls : m.liveCalls = []) (h₁ : MarkState.Passed g m a m₁) (h₂ : MarkState.Passed g' m₁ b m₂)
    (h₃ : MarkState.Passed g' m₂ c m₃) (hne : b ≠ c) (o : α) :
    m₃.liveCalls.count o ≤ 2 ∧
      ((o = b → ¬ m₁.marked o) → (o = c → ¬ m₂.marked o) → m₃.liveCalls.count o ≤ 1) := by
  obtain ⟨hle₁, -, hdead₁⟩ := h₁.count_le o
  obtain ⟨hle₂, hsame₂, hdead₂⟩ := h₂.count_le o
  obtain ⟨hle₃, hsame₃, -⟩ := h₃.count_le o
  rw [hcalls, List.count_nil] at hle₁ hdead₁
  have hmono : m₁.marked o → m₂.marked o := fun ho => (h₂.marked_iff o).mpr (.inl ho)
  cases hm₁ : m₁.marked o with
  | false =>
      have hzero := hdead₁ hm₁
      cases hm₂ : m₂.marked o with
      | false =>
          have hzero₂ := hdead₂ hm₂
          exact ⟨by omega, fun _ _ => by omega⟩
      | true =>
          refine ⟨by omega, fun _ hc => ?_⟩
          have hkeep := hsame₃ hm₂ fun heq => hc heq rfl
          omega
  | true =>
      have hm₂ := hmono hm₁
      by_cases hb : o = b
      · have hkeep := hsame₃ hm₂ (hb ▸ hne)
        exact ⟨by omega, fun hnot => absurd rfl (hnot hb)⟩
      · have hkeep := hsame₂ hm₁ hb
        refine ⟨by omega, fun _ hc => ?_⟩
        have hlast := hsame₃ hm₂ fun heq => hc heq hm₂
        omega

theorem markObjects_collected [Fintype α] (hs : h.Sound) {m : MarkState α}
    (hmarked : ∀ o, m.marked o = false) (hcalls : m.liveCalls = [])
    (hstack : m.expandedLiveStack = none) (hfits : m.OriginalFits) :
    ∃ h' m', h.markObjects (Fintype.card α + 2) m = some (h', m') ∧ Collected h h' m' := by
  have hlive : m.liveStack.top < m.liveStack.uSize := by
    rw [MarkState.liveStack, hstack]
    exact hfits
  have hempty : m.Closed h.graph := by
    intro o ho
    rw [hmarked o] at ho
    contradiction
  obtain ⟨m₁, hfirst, hpassed₁⟩ := MarkState.markObjectsMain_spec h.memory hs.flagged
    hlive hfits hempty
  have hreached : ∀ o, m₁.marked o ↔ h.graph.Reaches h.memory o := by
    intro o
    rw [hpassed₁.marked_iff, hmarked o]
    simp
  obtain ⟨h₁, h', hsub, huninit, hc⟩ := check_spec m₁.marked hs
  have hclosed₁ : m₁.Closed h'.graph := fun o ho b hb =>
    hpassed₁.closed hempty o ho b (hc.refers (hpassed₁.closed hempty o ho) hb)
  obtain ⟨m₂, hsecond, hpassed₂⟩ := MarkState.markObjectsMain_spec h.subClasses
    (hs.checked_flagged hc) hpassed₁.fits hpassed₁.original hclosed₁
  obtain ⟨m₃, hthird, hpassed₃⟩ := MarkState.markObjectsMain_spec h.uninitTables
    (hs.checked_flagged hc) hpassed₂.fits hpassed₂.original (hpassed₂.closed hclosed₁)
  have hne : h.subClasses ≠ h.uninitTables := fun heq => hs.apart (congrArg h.contents heq.symm)
  have hbound := calls_bound hcalls hpassed₁ hpassed₂ hpassed₃ hne
  refine ⟨h', { m₃ with expandedLiveStack := none }, ?_, hc.same, fun o => ?_, ?_, ?_,
    fun o => (hbound o).1, fun o hsubNot huninitNot => (hbound o).2 ?_ ?_, rfl, hpassed₃.original⟩
  · rw [← hc.same.subClasses] at hsecond
    rw [← hc.same.uninitTables] at hthird
    simp only [markObjects, hfirst, hsub, huninit, Option.bind_eq_bind, Option.bind_some, hsecond,
      hthird]
  · change m₃.marked o ↔ _
    rw [hpassed₃.marked_iff, hpassed₂.marked_iff, hreached, or_assoc]
  · obtain ⟨t, t', ht, ht', hpairs⟩ := hc.subClassEntries
    refine ⟨t, t', ht, ht', fun e => ?_⟩
    rw [hpairs, hreached]
  · obtain ⟨tables, htables, htables', hall⟩ := hc.uninitEntries
    refine ⟨tables, htables, htables', fun e he => ?_⟩
    obtain ⟨t, t', ht, ht', hflagged⟩ := hall e he
    refine ⟨t, t', ht, ht', fun j o v' => ?_⟩
    simp only [hflagged.entry_iff, hreached]
  · rw [hreached]
    exact hsubNot
  · rw [hpassed₂.marked_iff, hreached, not_or]
    exact huninitNot

end ObjectHeap

/-! ## A class that comes back -/

inductive Part where
  | memory | subClasses | subClassEntries | uninitTables | uninitTablesEntries | process
  | uninitTable | uninitTableEntries | uninitObject | subClass | superClass
  | nilObject | trueObject
  deriving DecidableEq

namespace Part

local instance : Hashable Part := ⟨fun _ => 0⟩

instance : Fintype Part where
  elems := {memory, subClasses, subClassEntries, uninitTables, uninitTablesEntries, process,
    uninitTable, uninitTableEntries, uninitObject, subClass, superClass, nilObject, trueObject}
  complete o := by cases o <;> decide

def single (index value : Part) : HashTable Part Part :=
  (HashTable.newHashTable 0).setItem 0 (some (index, value))

theorem single_live {index value : Part} {i : Nat} {e : Part × Part}
    (h : (single index value).Live i e) : i = 0 ∧ e = (index, value) := by
  obtain ⟨hlt, hitem⟩ := h
  match i, hlt, hitem with
  | 0, _, hitem => exact ⟨rfl, (Option.some.inj hitem).symm⟩

theorem single_pairTable (index value : Part) : (single index value).PairTable where
  pos := Nat.one_pos
  chained := by
    refine ⟨fun _ => [], fun b hb => ?_, fun b hb i => ?_, fun b hb c hc => ?_, fun _ _ _ => rfl⟩
    · obtain rfl := Nat.lt_one_iff.mp hb
      exact ⟨rfl, rfl⟩
    · refine ⟨nofun, ?_⟩
      rintro ⟨hle, hlt, hbucket⟩
      match i, hle, hlt, hbucket with
      | 1, _, _, hbucket => contradiction
    · obtain rfl := Nat.lt_one_iff.mp hb
      exact (Option.some.inj hc).symm
  unique i j e hi hj := (single_live hi).1.trans (single_live hj).1.symm

/-- An instance has to be sent `UNINIT`, and only it refers to its class. -/
def heap (roots : List (Option Part)) : ObjectHeap Part where
  behaviour _ := none
  hasReferences
    | process | subClass | superClass | nilObject | trueObject => false
    | _ => true
  references
    | memory => roots
    | subClasses => [some subClassEntries]
    | uninitTables => [some uninitTablesEntries]
    | uninitTable => [some uninitTableEntries]
    | uninitObject => [some subClass]
    | _ => []
  contents
    | subClasses => subClassEntries
    | uninitTables => uninitTablesEntries
    | uninitTable => uninitTableEntries
    | o => o
  hashTables
    | subClassEntries => some (single superClass subClass)
    | uninitTablesEntries => some (single process uninitTable)
    | uninitTableEntries => some (single uninitObject nilObject)
    | _ => none
  memory := memory
  subClasses := subClasses
  uninitTables := uninitTables
  trueObject := trueObject
  pendingUninits := 0

def unmarked : MarkState Part where
  marked _ := false
  originalLiveStack := ⟨4, 0, fun _ => none⟩
  expandedLiveStack := none
  liveCalls := []

theorem heap_sound (roots : List (Option Part)) : (heap roots).Sound where
  plain o ho := by cases o <;> first | contradiction | exact ⟨rfl, rfl⟩
  subClassEntries := ⟨_, rfl, single_pairTable ..⟩
  uninitEntries := by
    refine ⟨_, rfl, ?_⟩
    rintro e ⟨i, hi⟩
    rw [(single_live hi).2]
    exact ⟨⟨_, rfl⟩, nofun, nofun⟩
  apart := nofun

theorem markObjects_collected_heap :
    ∃ h' m', (heap []).markObjects (Fintype.card Part + 2) unmarked = some (h', m') ∧
      (heap []).Collected h' m' :=
  ObjectHeap.markObjects_collected (heap_sound []) (fun _ => rfl) rfl rfl
    (Nat.zero_lt_succ 3)

/--
The class comes back with the instance, but its entry is gone; and `live` is called for the
subclass table again where the memory object has reached it.
-/
theorem subClass_dropped :
    (∃ h' m' t', (heap []).Sound ∧ (heap []).markObjects 15 unmarked = some (h', m') ∧
      (heap []).entriesOf subClasses = some (single superClass subClass) ∧ m'.marked subClass ∧
      h'.entriesOf subClasses = some t' ∧ ∀ e, ¬ t'.Pair e) ∧
    ∃ h' m', (heap [some subClasses]).Sound ∧
      (heap [some subClasses]).markObjects 15 unmarked = some (h', m') ∧
      m'.liveCalls.count subClasses = 2 := by
  constructor
  · have hdrop : ((heap []).markObjects 15 unmarked).any (fun r => r.2.marked subClass &&
        (r.1.entriesOf subClasses).any fun t => t.marks = []) = true := by decide
    obtain ⟨⟨h', m'⟩, hrun, hboth⟩ := (Option.any_eq_true ..).mp hdrop
    obtain ⟨hmarked, hentries⟩ := Bool.and_eq_true_iff.mp hboth
    obtain ⟨t', ht', hempty⟩ := (Option.any_eq_true ..).mp hentries
    refine ⟨h', m', t', heap_sound [], hrun, rfl, hmarked, ht', fun e he => ?_⟩
    have hmem := (HashTable.mem_marks e.1).mpr ⟨e, he, .inl rfl⟩
    rw [of_decide_eq_true hempty] at hmem
    exact List.not_mem_nil hmem
  · have htwice : ((heap [some subClasses]).markObjects 15 unmarked).any
        (fun r => r.2.liveCalls.count subClasses = 2) = true := by decide
    obtain ⟨⟨h', m'⟩, hrun, hcount⟩ := (Option.any_eq_true ..).mp htwice
    exact ⟨h', m', heap_sound _, hrun, of_decide_eq_true hcount⟩

end Part

end LeooRexx
