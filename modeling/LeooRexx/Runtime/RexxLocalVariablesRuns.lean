import Mathlib
import LeooRexx.Runtime.RexxLocalVariables

/-!
# Local variables as a map

The map gives the variable that a name reaches.  A slot that is filled has the variable of
its own name, and while there is no dictionary every variable of the map has its slot.
-/

namespace LeooRexx

namespace RexxLocalVariables

variable {ν : Type} {s : RexxLocalVariables ν}

/-! ## Slots and names -/

def Named (s : RexxLocalVariables ν) (item : Nat) (name : List UInt8) : Prop :=
  ∃ object, s.memory[item]? = some object ∧ object.variableName = name

theorem Named.getName_eq {item : Nat} {name : List UInt8} (h : s.Named item name) :
    s.getName item = name := by
  obtain ⟨object, hobject, hname⟩ := h
  rw [getName, hobject]
  exact hname

theorem Named.unique {item : Nat} {name name' : List UInt8} (h : s.Named item name)
    (h' : s.Named item name') : name = name' :=
  h.getName_eq.symm.trans h'.getName_eq

theorem named_getName {item : Nat} (h : item < s.memory.length) :
    s.Named item (s.getName item) := by
  refine ⟨s.memory[item], List.getElem?_eq_getElem h, ?_⟩
  rw [getName, List.getElem?_eq_getElem h]

theorem Named.append {t : RexxLocalVariables ν} {item : Nat} {name : List UInt8}
    (h : s.Named item name) (hmemory : s.memory <+: t.memory) : t.Named item name := by
  obtain ⟨object, hobject, hname⟩ := h
  obtain ⟨more, hmore⟩ := hmemory
  refine ⟨object, ?_, hname⟩
  have hlt : item < s.memory.length := (List.getElem?_eq_some_iff.mp hobject).1
  rw [← hmore, List.getElem?_append_left hlt]
  exact hobject

theorem named_newVariable (s : RexxLocalVariables ν) (name : List UInt8) (value : Option ν) :
    (s.newVariable name value).1.Named s.memory.length name :=
  ⟨⟨name, value⟩, List.getElem?_concat_length, rfl⟩

theorem get_setLocal (s : RexxLocalVariables ν) (item : Option Nat) {index : Nat}
    (h : index < s.locals.length) (i : Nat) :
    (s.setLocal index item).get i = if i = index then item else s.get i := by
  rw [get, setLocal, List.getElem?_set]
  by_cases hi : i = index
  · subst hi
    simp [h]
  · rw [if_neg (Ne.symm hi), if_neg hi]
    rfl

/-! ## The invariant -/

structure Stands (b : CodeBlock) (s : RexxLocalVariables ν) (m : KeyMap (List UInt8) Nat) :
    Prop where
  size : s.size = b.vdictSize + 1
  length : s.locals.length = s.size
  named : ∀ name item, m name = some item → s.Named item name
  slot : ∀ i item, s.get i = some item → ∃ name, b.slot name = i ∧ i ≠ 0 ∧ m name = some item

variable {b : CodeBlock} {m : KeyMap (List UInt8) Nat}

theorem Stands.get_zero (h : s.Stands b m) : s.get 0 = none := by
  apply Option.eq_none_iff_forall_ne_some.mpr
  intro item hitem
  obtain ⟨-, -, hne, -⟩ := h.slot 0 item hitem
  exact hne rfl

theorem Stands.get_slot (h : s.Stands b m) {name : List UInt8} {item : Nat}
    (hget : s.get (b.slot name) = some item) : m name = some item := by
  obtain ⟨name', hslot, hne, hitem⟩ := h.slot _ item hget
  rwa [b.slot_inj name name' hne hslot.symm]

theorem Stands.slot_lt (h : s.Stands b m) (name : List UInt8) :
    b.slot name < s.locals.length := by
  rw [h.length, h.size]
  exact Nat.lt_succ_of_le (b.slot_le name)

theorem Stands.lt_of_get (h : s.Stands b m) {i item : Nat} (hget : s.get i = some item) :
    i < s.size := by
  obtain ⟨name, rfl, -, -⟩ := h.slot i item hget
  rw [← h.length]
  exact h.slot_lt name

theorem Stands.scanLocals_eq_some (h : s.Stands b m) {name : List UInt8} {i : Nat}
    (hscan : s.scanLocals name = some i) :
    i = b.slot name ∧ i ≠ 0 ∧ ∃ item, s.get i = some item := by
  have hfound := List.find?_some hscan
  cases hget : s.get i with
  | none => simp [hget] at hfound
  | some item =>
      obtain ⟨name', hslot, hne, hitem⟩ := h.slot i item hget
      have hname : s.getName item = name' := (h.named name' item hitem).getName_eq
      rw [hget] at hfound
      have heq : name = name' := (beq_iff_eq.mp hfound).trans hname
      exact ⟨heq ▸ hslot.symm, hne, item, rfl⟩

theorem Stands.scanLocals_eq_none (h : s.Stands b m) {name : List UInt8}
    (hscan : s.scanLocals name = none) : s.get (b.slot name) = none := by
  apply Option.eq_none_iff_forall_ne_some.mpr
  intro item hget
  have hmem := List.mem_range.mpr (h.lt_of_get hget)
  have hne := List.find?_eq_none.mp hscan _ hmem
  have hname := (h.named name item (h.get_slot hget)).getName_eq
  simp [hget, hname] at hne

variable [Hashable (List UInt8)]

def DictionaryStands (b : CodeBlock) (s : RexxLocalVariables ν) (m : KeyMap (List UInt8) Nat) :
    Option (HashTable (List UInt8) Nat) → Prop
  | some dictionary => dictionary.Valid ∧ dictionary.Refines m
  | none => ∀ name item, m name = some item → s.get (b.slot name) = some item

theorem Stands.scan_get (h : s.Stands b m) (hd : s.DictionaryStands b m none)
    (name : List UInt8) : (s.scanLocals name).bind s.get = m name := by
  cases hscan : s.scanLocals name with
  | some i =>
      obtain ⟨rfl, -, item, hget⟩ := h.scanLocals_eq_some hscan
      rw [Option.bind_some, hget, h.get_slot hget]
  | none =>
      have hget := h.scanLocals_eq_none hscan
      cases hitem : m name with
      | none => rfl
      | some item =>
          rw [hd name item hitem] at hget
          cases hget

/-! ## Creating the dictionary -/

theorem createDictionary_loop {l : List Nat} {t : HashTable (List UInt8) Nat}
    {m' : KeyMap (List UInt8) Nat} (h : s.Stands b m) (hv : t.Valid) (hm : t.Refines m')
    (hsub : ∀ name item, m' name = some item → m name = some item) :
    ∃ t' m'', l.foldlM
        (fun dictionary i =>
          match s.get i with
          | none => some dictionary
          | some item => dictionary.putIn item (s.getName item)) t = some t' ∧
      t'.Valid ∧ t'.Refines m'' ∧
      (∀ name item, m'' name = some item → m name = some item) ∧
      ∀ name item, m' name = some item ∨ (b.slot name ∈ l ∧ s.get (b.slot name) = some item) →
        m'' name = some item := by
  induction l generalizing t m' with
  | nil => exact ⟨t, m', rfl, hv, hm, hsub, fun name item hitem => by simpa using hitem⟩
  | cons i l ih =>
      cases hget : s.get i with
      | none =>
          obtain ⟨t', m'', hloop, hv', hm', hsub', hcover⟩ := ih hv hm hsub
          refine ⟨t', m'', ?_, hv', hm', hsub', fun name item hitem => hcover name item ?_⟩
          · rw [List.foldlM_cons, hget]
            exact hloop
          · rcases hitem with hitem | ⟨hmem, hitem⟩
            · exact .inl hitem
            · rcases List.mem_cons.mp hmem with heq | hmem
              · rw [heq, hget] at hitem
                cases hitem
              · exact .inr ⟨hmem, hitem⟩
      | some item₀ =>
          obtain ⟨name₀, hslot, -, hitem₀⟩ := h.slot i item₀ hget
          have hname : s.getName item₀ = name₀ := (h.named name₀ item₀ hitem₀).getName_eq
          obtain ⟨u, hput, hu, hmu⟩ := HashTable.putIn_spec hv hm item₀ name₀
          obtain ⟨t', m'', hloop, hv', hm', hsub', hcover⟩ := ih hu hmu fun name item hitem => by
            by_cases heq : name = name₀
            · subst heq
              rw [KeyMap.put_self] at hitem
              exact hitem ▸ hitem₀
            · rw [KeyMap.put_of_ne _ _ heq] at hitem
              exact hsub name item hitem
          refine ⟨t', m'', ?_, hv', hm', hsub', fun name item hitem => hcover name item ?_⟩
          · rw [List.foldlM_cons, hget]
            simp only [hname, hput]
            exact hloop
          · by_cases heq : name = name₀
            · subst heq
              rw [KeyMap.put_self]
              rcases hitem with hitem | ⟨-, hitem⟩
              · exact .inl (hitem₀.symm.trans (hsub _ _ hitem))
              · rw [hslot, hget] at hitem
                exact .inl hitem
            · rw [KeyMap.put_of_ne _ _ heq]
              rcases hitem with hitem | ⟨hmem, hitem⟩
              · exact .inl hitem
              · rcases List.mem_cons.mp hmem with hi | hmem
                · rw [hi, hget, Option.some.injEq] at hitem
                  subst hitem
                  have hgetName := (h.named name item₀ (h.get_slot (hi ▸ hget))).getName_eq
                  exact absurd (hgetName.symm.trans hname) heq
                · exact .inr ⟨hmem, hitem⟩

theorem Stands.getDictionary (h : s.Stands b m) (hd : s.DictionaryStands b m s.dictionary) :
    ∃ t, s.getDictionary = some t ∧ t.Valid ∧ t.Refines m := by
  rw [RexxLocalVariables.getDictionary]
  cases hdictionary : s.dictionary with
  | some t =>
      rw [hdictionary] at hd
      exact ⟨t, rfl, hd⟩
  | none =>
      rw [hdictionary] at hd
      obtain ⟨t, m'', hloop, hv, hm, hsub, hcover⟩ := createDictionary_loop (l := List.range s.size) h
        (HashTable.newHashTable_valid (s.size * 2)) (HashTable.newHashTable_refines (s.size * 2))
        fun name item hitem => by cases hitem
      refine ⟨t, hloop, hv, ?_⟩
      have heq : m'' = m := by
        funext name
        apply Option.ext
        intro item
        refine ⟨hsub name item, fun hitem => hcover name item (.inr ⟨?_, hd name item hitem⟩)⟩
        exact List.mem_range.mpr (h.lt_of_get (hd name item hitem))
      exact heq ▸ hm

/-! ## Accesses -/

structure Reaches (b : CodeBlock) (s : RexxLocalVariables ν) (m : KeyMap (List UInt8) Nat) :
    Prop where
  stands : s.Stands b m
  dictionary : s.DictionaryStands b m s.dictionary

structure Accessed (b : CodeBlock) (s : RexxLocalVariables ν) (m : KeyMap (List UInt8) Nat)
    (name : List UInt8) (s' : RexxLocalVariables ν) (r : Option Nat)
    (m' : KeyMap (List UInt8) Nat) : Prop where
  reaches : s'.Reaches b m'
  memory : s.memory <+: s'.memory
  result : m' name = r
  keeps : ∀ name' item, m name' = some item → m' name' = some item

omit [Hashable (List UInt8)] in
theorem keeps_put {name : List UInt8} {item : Nat} (hitem : m name = none ∨ m name = some item)
    {name' : List UInt8} {item' : Nat} (h : m name' = some item') :
    m.put item name name' = some item' := by
  by_cases heq : name' = name
  · subst heq
    rw [KeyMap.put_self]
    rcases hitem with hnone | hitem
    · rw [hnone] at h
      cases h
    · exact hitem.symm.trans h
  · rwa [KeyMap.put_of_ne _ _ heq]

omit [Hashable (List UInt8)] in
theorem Stands.put {u : RexxLocalVariables ν} {name : List UInt8} {item : Nat}
    (h : s.Stands b m) (hsize : u.size = s.size) (hlength : u.locals.length = s.locals.length)
    (hmemory : s.memory <+: u.memory) (hnamed : u.Named item name)
    (hget : ∀ i x, u.get i = some x →
      (i = b.slot name ∧ i ≠ 0 ∧ x = item) ∨ (i ≠ b.slot name ∧ s.get i = some x)) :
    u.Stands b (m.put item name) where
  size := hsize.trans h.size
  length := by rw [hlength, h.length, hsize]
  named name' item' hitem' := by
    by_cases heq : name' = name
    · subst heq
      rw [KeyMap.put_self, Option.some.injEq] at hitem'
      exact hitem' ▸ hnamed
    · rw [KeyMap.put_of_ne _ _ heq] at hitem'
      exact (h.named name' item' hitem').append hmemory
  slot i x hx := by
    rcases hget i x hx with ⟨rfl, hne, rfl⟩ | ⟨hi, hx⟩
    · exact ⟨name, rfl, hne, KeyMap.put_self m x name⟩
    · obtain ⟨name', hslot, hne, hitem'⟩ := h.slot i x hx
      have heq : name' ≠ name := fun heq => hi (heq ▸ hslot.symm)
      exact ⟨name', hslot, hne, by rwa [KeyMap.put_of_ne _ _ heq]⟩

omit [Hashable (List UInt8)] in
theorem Stands.setDictionary (h : s.Stands b m)
    (dictionary : Option (HashTable (List UInt8) Nat)) :
    { s with dictionary := dictionary }.Stands b m :=
  ⟨h.size, h.length, h.named, h.slot⟩

omit [Hashable (List UInt8)] in
theorem Stands.newVariable (h : s.Stands b m) (name : List UInt8) (value : Option ν) :
    (s.newVariable name value).1.Stands b m where
  size := h.size
  length := h.length
  named name' item hitem := (h.named name' item hitem).append (List.prefix_append _ _)
  slot := h.slot

theorem Stands.getVariable {t : HashTable (List UInt8) Nat} (h : s.Stands b m)
    (ht : s.dictionary = some t) (hv : t.Valid) (hm : t.Refines m) (name : List UInt8)
    (value : Option ν) :
    ∃ s' item m', s.getVariable t name value = some (s', item) ∧
      Accessed b s m name s' (some item) m' ∧ s'.locals = s.locals ∧ ∃ t', s'.dictionary = some t' := by
  rw [RexxLocalVariables.getVariable, HashTable.get_spec hv hm]
  cases hitem : m name with
  | some item =>
      refine ⟨s, item, m, rfl, ⟨⟨h, ?_⟩, List.prefix_rfl, hitem, fun _ _ hkeep => hkeep⟩, rfl, t, ht⟩
      rw [ht]
      exact ⟨hv, hm⟩
  | none =>
      obtain ⟨t', r, hadd, hv', hm'⟩ := HashTable.add_spec hv hm s.memory.length hitem
      have hstands := h.put (u := (s.newVariable name value).1) rfl rfl (List.prefix_append _ _)
        (named_newVariable s name value) fun i x hx => by
          right
          refine ⟨fun hi => ?_, hx⟩
          rw [hi] at hx
          rw [h.get_slot hx] at hitem
          cases hitem
      refine ⟨{ (s.newVariable name value).1 with dictionary := some (r.getD t') }, _,
        m.put s.memory.length name, ?_, ⟨⟨hstands.setDictionary _, ⟨hv', hm'⟩⟩,
        List.prefix_append _ _, KeyMap.put_self _ _ _, fun _ _ => keeps_put (.inl hitem)⟩, rfl, _,
        rfl⟩
      simp [createVariable, hadd, RexxLocalVariables.newVariable]

def IsIndex (b : CodeBlock) (name : List UInt8) (index : Nat) : Prop :=
  index = 0 ∨ (index ≠ 0 ∧ index = b.slot name)

theorem Reaches.setLocal (h : s.Reaches b m) {name : List UInt8} {item : Nat}
    (hne : b.slot name ≠ 0) (hitem : m name = some item) {t : HashTable (List UInt8) Nat}
    (ht : s.dictionary = some t) : (s.setLocal (b.slot name) (some item)).Reaches b m where
  stands := by
    have hstands := h.stands.put (u := s.setLocal (b.slot name) (some item)) rfl
      (by simp [RexxLocalVariables.setLocal]) List.prefix_rfl
      (h.stands.named name item hitem) fun i x hx => by
        rw [get_setLocal s _ (h.stands.slot_lt name)] at hx
        split at hx
        · rename_i hi
          exact .inl ⟨hi, hi ▸ hne, (Option.some.inj hx).symm⟩
        · rename_i hi
          exact .inr ⟨hi, hx⟩
    have hput : m.put item name = m := by
      funext name'
      by_cases heq : name' = name
      · rw [heq, KeyMap.put_self, hitem]
      · exact KeyMap.put_of_ne _ _ heq
    rwa [hput] at hstands
  dictionary := by
    have hd := h.dictionary
    change DictionaryStands b _ m s.dictionary
    rw [ht] at hd ⊢
    exact hd

theorem Reaches.get (h : s.Reaches b m) {name : List UInt8} {index item : Nat}
    (hindex : IsIndex b name index) (hget : s.get index = some item) : m name = some item := by
  rcases hindex with rfl | ⟨-, rfl⟩
  · rw [h.stands.get_zero] at hget
    cases hget
  · exact h.stands.get_slot hget

theorem Reaches.refl (h : s.Reaches b m) {name : List UInt8} {r : Option Nat} (hr : m name = r) :
    Accessed b s m name s r m :=
  ⟨h, List.prefix_rfl, hr, fun _ _ hkeep => hkeep⟩

theorem Reaches.lookup (h : s.Reaches b m) {name : List UInt8} {index : Nat}
    (hindex : IsIndex b name index) (hget : s.get index = none) (value : Option ν) :
    ∃ s' item m', s.lookup name index value = some (s', some item) ∧
      Accessed b s m name s' (some item) m' := by
  have hd := h.dictionary
  rcases hindex with rfl | ⟨hne, rfl⟩
  · -- by the name alone: the scan, and then the dictionary
    obtain ⟨t, hdictionary, hv, hm⟩ := h.stands.getDictionary hd
    obtain ⟨s', item, m', hlookup, haccessed, -, -⟩ :=
      (h.stands.setDictionary (some t)).getVariable rfl hv hm name value
    have hcreate : (s.getDictionary >>= fun dictionary =>
        { s with dictionary := some dictionary }.getVariable dictionary name value >>=
          fun r => some (r.1, some r.2)) = some (s', some item) := by
      rw [hdictionary, Option.bind_eq_bind, Option.bind_some, hlookup]
      rfl
    have haccessed' : Accessed b s m name s' (some item) m' :=
      ⟨haccessed.reaches, haccessed.memory, haccessed.result, haccessed.keeps⟩
    rw [RexxLocalVariables.lookup, if_pos rfl]
    cases hs : s.dictionary with
    | some u => exact ⟨s', item, m', hcreate, haccessed'⟩
    | none =>
        rw [hs] at hd
        cases hscan : (s.scanLocals name).bind s.get with
        | none => exact ⟨s', item, m', hcreate, haccessed'⟩
        | some found => exact ⟨s, found, m, rfl, h.refl ((h.stands.scan_get hd name).symm.trans hscan)⟩
  · rw [RexxLocalVariables.lookup, if_neg hne]
    cases hs : s.dictionary with
    | some t =>
        rw [hs] at hd
        obtain ⟨s', item, m', hlookup, haccessed, hlocals, t', ht'⟩ :=
          h.stands.getVariable hs hd.1 hd.2 name value
        refine ⟨s'.setLocal (b.slot name) (some item), item, m', ?_,
          ⟨haccessed.reaches.setLocal hne haccessed.result ht', haccessed.memory,
            haccessed.result, haccessed.keeps⟩⟩
        simp [hlookup]
    | none =>
        rw [hs] at hd
        have hnone : m name = none := by
          apply Option.eq_none_iff_forall_ne_some.mpr
          intro item hitem
          rw [hd name item hitem] at hget
          cases hget
        have hlt := h.stands.slot_lt name
        have hset (i : Nat) : ((s.newVariable name value).1.setLocal (b.slot name)
            (some s.memory.length)).get i =
              if i = b.slot name then some s.memory.length else s.get i :=
          get_setLocal (s.newVariable name value).1 _ hlt i
        refine ⟨(s.newVariable name value).1.setLocal (b.slot name) (some s.memory.length), _,
          m.put s.memory.length name, rfl, ⟨⟨?_, ?_⟩, List.prefix_append _ _, KeyMap.put_self _ _ _,
            fun _ _ => keeps_put (.inl hnone)⟩⟩
        · apply h.stands.put (u := (s.newVariable name value).1.setLocal (b.slot name)
            (some s.memory.length)) rfl (by simp [RexxLocalVariables.setLocal, newVariable])
            (List.prefix_append _ _) (named_newVariable s name value)
          intro i x hx
          rw [hset] at hx
          split at hx
          · rename_i hi
            exact .inl ⟨hi, hi ▸ hne, (Option.some.inj hx).symm⟩
          · rename_i hi
            exact .inr ⟨hi, hx⟩
        · change DictionaryStands b _ _ s.dictionary
          rw [hs]
          intro name' item hitem
          rw [hset]
          by_cases heq : name' = name
          · subst heq
            rw [KeyMap.put_self] at hitem
            rw [if_pos rfl, hitem]
          · rw [KeyMap.put_of_ne _ _ heq] at hitem
            have hget' := hd name' item hitem
            have hslot : b.slot name' ≠ b.slot name := fun hslot => by
              rw [hslot, hget] at hget'
              cases hget'
            rw [if_neg hslot, hget']

theorem Reaches.findVariable (h : s.Reaches b m) {name : List UInt8} {index : Nat}
    (hindex : IsIndex b name index) (hget : s.get index = none) :
    ∃ s' r, s.findVariable name index = some (s', r) ∧ Accessed b s m name s' r m := by
  have hd := h.dictionary
  rw [RexxLocalVariables.findVariable]
  cases hs : s.dictionary with
  | none =>
      rw [hs] at hd
      rcases hindex with rfl | ⟨hne, rfl⟩
      · exact ⟨s, _, rfl, h.refl (by rw [if_pos rfl, h.stands.scan_get hd])⟩
      · refine ⟨s, _, rfl, h.refl ?_⟩
        rw [if_neg hne]
        apply Option.eq_none_iff_forall_ne_some.mpr
        intro item hitem
        rw [hd name item hitem] at hget
        cases hget
  | some t =>
      rw [hs] at hd
      simp only [HashTable.get_spec hd.1 hd.2, Option.bind_eq_bind, Option.bind_some]
      rcases hindex with rfl | ⟨hne, rfl⟩
      · exact ⟨s, _, rfl, h.refl rfl⟩
      · refine ⟨_, _, rfl, ?_⟩
        rw [if_pos hne]
        cases hitem : m name with
        | some item => exact ⟨h.setLocal hne hitem hs, List.prefix_rfl, hitem, fun _ _ hkeep => hkeep⟩
        | none =>
            have hsame : s.setLocal (b.slot name) none = s := by
              have hlt := h.stands.slot_lt name
              have hempty : s.locals[b.slot name] = none := by
                simpa [RexxLocalVariables.get, List.getElem?_eq_getElem hlt] using hget
              rw [RexxLocalVariables.setLocal, ← hempty, List.set_getElem_self]
            rw [hsame]
            exact h.refl hitem

variable {newStem : List UInt8 → ν}

variable (newStem) in
theorem Reaches.access (h : s.Reaches b m) (a : Access) :
    ∃ s' r m', s.access newStem b a = some (s', r) ∧ Accessed b s m a.name s' r m' ∧
      (a.kind ≠ .find → r.isSome) := by
  have hindex : IsIndex b a.name (a.index b) := by
    rw [Access.index]
    cases a.static with
    | false => exact .inl rfl
    | true =>
        by_cases hne : b.slot a.name = 0
        · exact .inl hne
        · exact .inr ⟨hne, rfl⟩
  rw [RexxLocalVariables.access]
  cases hget : s.get (a.index b) with
  | some item => exact ⟨s, _, m, rfl, h.refl (h.get hindex hget), fun _ => rfl⟩
  | none =>
      cases a.kind with
      | find =>
          obtain ⟨s', r, hfind, haccessed⟩ := h.findVariable hindex hget
          exact ⟨s', r, m, hfind, haccessed, fun hkind => absurd rfl hkind⟩
      | getLocalVariable =>
          obtain ⟨s', item, m', hlookup, haccessed⟩ := h.lookup hindex hget none
          exact ⟨s', _, m', hlookup, haccessed, fun _ => rfl⟩
      | getLocalStemVariable =>
          obtain ⟨s', item, m', hlookup, haccessed⟩ :=
            h.lookup hindex hget (some (newStem a.name))
          exact ⟨s', _, m', hlookup, haccessed, fun _ => rfl⟩

omit [Hashable (List UInt8)] in
theorem memory_overwriteLocal (s : RexxLocalVariables ν) (name : List UInt8) (item : Nat) :
    (s.overwriteLocal name item).memory = s.memory := by
  rw [overwriteLocal]
  split <;> rfl

theorem Reaches.overwriteLocal (h : s.Reaches b m) {name : List UInt8} {item : Nat}
    (hnamed : s.Named item name) :
    ∃ t m₀, (s.overwriteLocal name item).getDictionary = some t ∧ t.Valid ∧ t.Refines m₀ ∧
      m₀.put item name = m.put item name ∧
      (s.overwriteLocal name item).Stands b (m.put item name) := by
  have hd := h.dictionary
  rw [RexxLocalVariables.overwriteLocal]
  cases hscan : s.scanLocals name with
  | none =>
      obtain ⟨t, hget, hv, hm⟩ := h.stands.getDictionary hd
      refine ⟨t, m, hget, hv, hm, rfl, ?_⟩
      apply h.stands.put rfl rfl List.prefix_rfl hnamed
      intro i x hx
      refine .inr ⟨fun hi => ?_, hx⟩
      rw [hi, h.stands.scanLocals_eq_none hscan] at hx
      cases hx
  | some i =>
      obtain ⟨rfl, hne, -⟩ := h.stands.scanLocals_eq_some hscan
      have hget (i : Nat) : (s.setLocal (b.slot name) (some item)).get i =
          if i = b.slot name then some item else s.get i :=
        get_setLocal s _ (h.stands.slot_lt name) i
      have hstands : (s.setLocal (b.slot name) (some item)).Stands b (m.put item name) := by
        apply h.stands.put (u := s.setLocal (b.slot name) (some item)) rfl
          (by simp [RexxLocalVariables.setLocal]) List.prefix_rfl hnamed
        intro i x hx
        rw [hget] at hx
        split at hx
        · rename_i hi
          exact .inl ⟨hi, hi ▸ hne, (Option.some.inj hx).symm⟩
        · rename_i hi
          exact .inr ⟨hi, hx⟩
      cases hs : s.dictionary with
      | some t =>
          rw [hs] at hd
          refine ⟨t, m, ?_, hd.1, hd.2, rfl, hstands⟩
          rw [RexxLocalVariables.getDictionary]
          change (match s.dictionary with | some t => some t | none => _) = some t
          rw [hs]
      | none =>
          -- every variable is in the frame, the new one as well
          rw [hs] at hd
          obtain ⟨t, ht, hv, hm⟩ := hstands.getDictionary (by
            change DictionaryStands b _ _ s.dictionary
            rw [hs]
            intro name' item' hitem'
            rw [hget]
            by_cases heq : name' = name
            · subst heq
              rw [KeyMap.put_self] at hitem'
              rw [if_pos rfl, hitem']
            · rw [KeyMap.put_of_ne _ _ heq] at hitem'
              have hslot : b.slot name' ≠ b.slot name := fun hslot =>
                heq (b.slot_inj name name' hne hslot.symm).symm
              rw [if_neg hslot, hd name' item' hitem'])
          exact ⟨t, _, ht, hv, hm, KeyMap.put_put m item name, hstands⟩

theorem Reaches.updateVariable (h : s.Reaches b m) {item : Nat} (hitem : item < s.memory.length) :
    ∃ s', s.updateVariable item = some s' ∧ s'.Reaches b (m.put item (s.getName item)) ∧
      s.memory <+: s'.memory := by
  have hnamed := named_getName hitem
  have hd := h.dictionary
  obtain ⟨name, hname⟩ : ∃ name, s.getName item = name := ⟨_, rfl⟩
  rw [hname] at hnamed ⊢
  obtain ⟨t, m₀, hget, hv, hm, hput, hstands⟩ := h.overwriteLocal hnamed
  obtain ⟨t', hputIn, hv', hm'⟩ := HashTable.putIn_spec hv hm item name
  refine ⟨{ s.overwriteLocal name item with dictionary := some t' }, ?_,
    ⟨hstands.setDictionary _, hv', hput ▸ hm'⟩, ?_⟩
  · simp [RexxLocalVariables.updateVariable, hname, hget, hputIn]
  · exact ⟨[], by rw [List.append_nil, memory_overwriteLocal]⟩

theorem Reaches.migrate (h : s.Reaches b m) : s.migrate.Reaches b m := by
  have hcopy : memcpy (List.replicate s.size none) s.locals s.size = s.locals := by
    rw [memcpy, ← h.stands.length]
    simp
  rw [RexxLocalVariables.migrate, setFrame, hcopy]
  exact h

theorem Reaches.other (h : s.Reaches b m) (name : List UInt8) :
    (s.newVariable name none).1.Reaches b m :=
  ⟨h.stands.newVariable name none, h.dictionary⟩

/-! ## Runs -/

/-- The variable that was reached at first, or the last one of the name that was exposed. -/
def lastExposed (s : RexxLocalVariables ν) (name : List UInt8) (first : Option Nat)
    (ops : List Op) : Option Nat :=
  ops.foldl
    (fun last op =>
      match op with
      | .updateVariable item => if s.getName item = name then some item else last
      | _ => last)
    first

omit [Hashable (List UInt8)] in
theorem getName_append {t : RexxLocalVariables ν} {item : Nat} (h : item < s.memory.length)
    (hmemory : s.memory <+: t.memory) : t.getName item = s.getName item :=
  ((named_getName h).append hmemory).getName_eq

omit [Hashable (List UInt8)] in
theorem lastExposed_append {t : RexxLocalVariables ν} {op : Op} (hlive : op.Live s)
    (hmemory : s.memory <+: t.memory) (name : List UInt8) (first : Option Nat) :
    t.lastExposed name first [op] = s.lastExposed name first [op] := by
  cases op with
  | updateVariable item =>
      change (if t.getName item = name then some item else first) = _
      rw [getName_append hlive hmemory]
      rfl
  | access a => rfl
  | migrate => rfl
  | other name => rfl

variable (newStem) in
theorem Reaches.step (h : s.Reaches b m) {op : Op} (hlive : op.Live s) :
    ∃ s' m', s.step newStem b op = some s' ∧ s'.Reaches b m' ∧ s.memory <+: s'.memory ∧
      ∀ name first, (∀ item, first = some item → m name = some item) →
        ∀ item, s.lastExposed name first [op] = some item → m' name = some item := by
  cases op with
  | access a =>
      obtain ⟨s', r, m', haccess, haccessed, -⟩ := h.access newStem a
      refine ⟨s', m', ?_, haccessed.reaches, haccessed.memory, fun name first hfirst item hitem =>
        haccessed.keeps name item (hfirst item hitem)⟩
      rw [RexxLocalVariables.step, if_pos hlive, haccess]
      rfl
  | updateVariable item =>
      obtain ⟨s', hupdate, hreaches, hmemory⟩ := h.updateVariable hlive
      refine ⟨s', _, ?_, hreaches, hmemory, fun name first hfirst item' hitem' => ?_⟩
      · rw [RexxLocalVariables.step, if_pos hlive]
        exact hupdate
      · change (if s.getName item = name then some item else first) = some item' at hitem'
        by_cases heq : s.getName item = name
        · rw [if_pos heq] at hitem'
          rw [heq, KeyMap.put_self, hitem']
        · rw [if_neg heq] at hitem'
          rw [KeyMap.put_of_ne _ _ (Ne.symm heq)]
          exact hfirst item' hitem'
  | migrate =>
      exact ⟨_, m, if_pos hlive, h.migrate, List.prefix_rfl, fun _ _ hfirst => hfirst⟩
  | other name =>
      exact ⟨_, m, if_pos hlive, h.other name, List.prefix_append _ _, fun _ _ hfirst => hfirst⟩

theorem live_of_step {op : Op} {s' : RexxLocalVariables ν}
    (hstep : s.step newStem b op = some s') : op.Live s := by
  by_contra hlive
  have hnone : s.step newStem b op = none := if_neg hlive
  rw [hnone] at hstep
  cases hstep

theorem Reaches.run (h : s.Reaches b m) {ops : List Op} {s' : RexxLocalVariables ν}
    (hrun : s.run newStem b ops = some s') :
    ∃ m', s'.Reaches b m' ∧ s.memory <+: s'.memory ∧
      ∀ name first, (∀ item, first = some item → m name = some item) →
        ∀ item, s'.lastExposed name first ops = some item → m' name = some item := by
  induction ops generalizing s m with
  | nil =>
      cases hrun
      exact ⟨m, h, List.prefix_rfl, fun name first hfirst => hfirst⟩
  | cons op ops ih =>
      rw [RexxLocalVariables.run, List.foldlM_cons] at hrun
      obtain ⟨u, hstep, hrun⟩ := Option.bind_eq_some_iff.mp hrun
      have hlive := live_of_step hstep
      obtain ⟨u', m₁, hstep', hu, hmemory, hfirst₁⟩ := h.step newStem hlive
      obtain rfl : u' = u := Option.some.inj (hstep'.symm.trans hstep)
      obtain ⟨m', hs', hmemory', hlast⟩ := ih hu hrun
      refine ⟨m', hs', hmemory.trans hmemory', fun name first hfirst item hitem => ?_⟩
      apply hlast name (s'.lastExposed name first [op]) _ item hitem
      rw [lastExposed_append hlive (hmemory.trans hmemory')]
      exact hfirst₁ name first hfirst

omit [Hashable (List UInt8)] in
theorem get_init (memory : List (RexxVariable ν)) (poolSize i : Nat) :
    (init memory poolSize).get i = none := by
  rw [get, init, setFrame, List.getElem?_replicate]
  split <;> rfl

theorem init_reaches (b : CodeBlock) (memory : List (RexxVariable ν)) :
    (init memory b.vdictSize).Reaches b KeyMap.empty where
  stands :=
    { size := rfl
      length := List.length_replicate
      named := fun name item hitem => by cases hitem
      slot := fun i item hget => by
        rw [get_init] at hget
        cases hget }
  dictionary name item hitem := by cases hitem

/--
After any run, every operation goes on, and a lookup reaches a variable.  A later access to
the name, by slot or by name, reaches the same variable or the last one of the name that was
exposed in between; an access to another name reaches another variable.
-/
theorem access_agrees (newStem : List UInt8 → ν) (b : CodeBlock) (memory : List (RexxVariable ν))
    {ops : List Op} {s : RexxLocalVariables ν}
    (hrun : (init memory b.vdictSize).run newStem b ops = some s) :
    (∀ op, (s.step newStem b op).isSome ↔ op.Live s) ∧
      ∀ a, ∃ s₁ r, s.access newStem b a = some (s₁, r) ∧ (a.kind ≠ .find → r.isSome) ∧
        ∀ between s₂, s₁.run newStem b between = some s₂ →
          ∀ a', ∃ s₃ r', s₂.access newStem b a' = some (s₃, r') ∧
            (a'.name = a.name →
              ∀ item, s₂.lastExposed a.name r between = some item → r' = some item) ∧
            (a'.name ≠ a.name → ∀ item, r = some item → r' ≠ some item) := by
  obtain ⟨m, hs, -, -⟩ := (init_reaches b memory).run hrun
  refine ⟨fun op => ⟨fun hsome => ?_, fun hlive => ?_⟩, fun a => ?_⟩
  · obtain ⟨s', hstep⟩ := Option.isSome_iff_exists.mp hsome
    exact live_of_step hstep
  · obtain ⟨s', -, hstep, -⟩ := hs.step newStem hlive
    rw [hstep]
    rfl
  · obtain ⟨s₁, r, m₁, haccess, h₁, hfound⟩ := hs.access newStem a
    refine ⟨s₁, r, haccess, hfound, fun between s₂ hbetween a' => ?_⟩
    obtain ⟨m₂, hs₂, hmemory, hlast⟩ := h₁.reaches.run hbetween
    obtain ⟨s₃, r', m₃, haccess', h₃, -⟩ := hs₂.access newStem a'
    refine ⟨s₃, r', haccess', fun hname item hitem => ?_, fun hname item hr hr' => ?_⟩
    · have hitem₂ := hlast a.name r (fun item hr => h₁.result.trans hr) item hitem
      rw [← h₃.result, hname]
      exact h₃.keeps a.name item hitem₂
    · have hnamed := h₁.reaches.stands.named a.name item (h₁.result.trans hr)
      have hnamed' := h₃.reaches.stands.named a'.name item (h₃.result.trans hr')
      exact hname (hnamed'.unique (hnamed.append (hmemory.trans h₃.memory)))

/-- A block with a slot for `A`. -/
def blockA : CodeBlock where
  vdictSize := 1
  slot name := if name = [65] then 1 else 0
  slot_le name := by split <;> omega
  slot_inj name name' hne heq := by grind

omit [Hashable (List UInt8)] in
/-- `A` is looked up by its slot, `B` by its name, and another `A` is exposed. -/
theorem access_agrees_blockA :
    letI : Hashable (List UInt8) := ⟨fun name => name.length.toUInt64⟩
    ∃ s, (init [⟨[65], none⟩] blockA.vdictSize).run id blockA
        [.access ⟨.getLocalVariable, [65], true⟩, .access ⟨.getLocalVariable, [66], false⟩,
          .updateVariable 0, .migrate] = some s ∧
      (∀ op, (s.step id blockA op).isSome ↔ op.Live s) ∧
        ∀ a, ∃ s₁ r, s.access id blockA a = some (s₁, r) ∧ (a.kind ≠ .find → r.isSome) ∧
          ∀ between s₂, s₁.run id blockA between = some s₂ →
            ∀ a', ∃ s₃ r', s₂.access id blockA a' = some (s₃, r') ∧
              (a'.name = a.name →
                ∀ item, s₂.lastExposed a.name r between = some item → r' = some item) ∧
              (a'.name ≠ a.name → ∀ item, r = some item → r' ≠ some item) := by
  let _ : Hashable (List UInt8) := ⟨fun name => name.length.toUInt64⟩
  have hsome : ((init [⟨[65], none⟩] blockA.vdictSize).run id blockA
      [.access ⟨.getLocalVariable, [65], true⟩, .access ⟨.getLocalVariable, [66], false⟩,
        .updateVariable 0, .migrate]).isSome := by decide
  obtain ⟨s, hrun⟩ := Option.isSome_iff_exists.mp hsome
  exact ⟨s, hrun, access_agrees id blockA _ hrun⟩

end RexxLocalVariables

end LeooRexx
