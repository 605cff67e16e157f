import LeooRexx.Classes.RexxDirectory
import Mathlib.Data.List.Forall2

/-!
# The views of a directory

A name is held as a value or as a method.  The invariant of directories keeps the two
tables apart, and every method under an upper case name.  With it each view is compared
with what `at` gives: they agree but for `allItems`, which lists the names of the methods,
and `remove`, which takes the method under the name in upper case as well.
-/

namespace LeooRexx

/-! ## Names -/

theorem toupper_toupper (c : UInt8) : toupper (toupper c) = toupper c := by
  have hlow (c : UInt8) (h : ¬ (97 ≤ c ∧ c ≤ 122)) : toupper c = c := if_neg h
  by_cases h : 97 ≤ c ∧ c ≤ 122
  · have hupper : toupper c = c - 32 := if_pos h
    have hle : 97 ≤ c.toNat := h.1
    have hle' : c.toNat ≤ 122 := h.2
    have hval : (c - 32).toNat = c.toNat - 32 := by
      rw [UInt8.toNat_sub_of_le c 32 (UInt8.le_iff_toNat_le.mpr (by simp; omega))]
      rfl
    rw [hupper]
    apply hlow
    rintro ⟨h97, -⟩
    have h97' : 97 ≤ (c - 32).toNat := h97
    omega
  · rw [hlow c h, hlow c h]

theorem upper_upper (name : List UInt8) : upper (upper name) = upper name := by
  simp [upper, toupper_toupper]

/-! ## The invariant -/

namespace RexxDirectory

variable {ν μ : Type} [Hashable (List UInt8)] {o : DirectoryObjects ν μ}

structure MethodsStand (table : Option (HashTable (List UInt8) μ))
    (methods : KeyMap (List UInt8) μ) : Prop where
  of_some : ∀ t, table = some t → t.Valid ∧ t.Refines methods
  of_none : table = none → methods = KeyMap.empty

structure Stands (d : RexxDirectory ν μ) (values : KeyMap (List UInt8) ν)
    (methods : KeyMap (List UInt8) μ) : Prop where
  valid : d.contents.Valid
  refines : d.contents.Refines values
  stand : MethodsStand d.methodTable methods
  disjoint : ∀ name method, methods name = some method → values name = none
  upper : ∀ name method, methods name = some method → upper name = name
  unknown : d.unknownMethod = none

variable {d : RexxDirectory ν μ} {values : KeyMap (List UInt8) ν}
  {methods : KeyMap (List UInt8) μ}

theorem MethodsStand.get (h : MethodsStand d.methodTable methods) (name : List UInt8) :
    d.methodGet name = some (methods name) := by
  rw [methodGet]
  cases htable : d.methodTable with
  | none => rw [h.of_none htable, KeyMap.empty]
  | some t =>
      obtain ⟨hv, hm⟩ := h.of_some t htable
      exact HashTable.get_spec hv hm name

theorem MethodsStand.list (h : MethodsStand d.methodTable methods) :
    ∃ l, d.methods = some l ∧ methods.Lists l ∧
      l.length = match d.methodTable with
        | none => 0
        | some t => t.totalEntries := by
  rw [RexxDirectory.methods]
  cases htable : d.methodTable with
  | none =>
      refine ⟨[], rfl, ⟨List.Pairwise.nil, fun index value => ?_⟩, rfl⟩
      simp [h.of_none htable, KeyMap.empty]
  | some t =>
      obtain ⟨hv, hm⟩ := h.of_some t htable
      obtain ⟨l, hiterate, hlists⟩ := HashTable.iterate_spec hv hm
      exact ⟨l, hiterate, hlists, (HashTable.totalEntries_eq hiterate).symm⟩

theorem MethodsStand.remove (h : MethodsStand d.methodTable methods) (name : List UInt8) :
    ∃ table, d.methodRemove name = some { d with methodTable := table } ∧
      MethodsStand table (methods.remove name) := by
  rw [methodRemove]
  cases htable : d.methodTable with
  | none =>
      refine ⟨d.methodTable, rfl, fun t ht => absurd (htable.symm.trans ht) nofun, fun _ => ?_⟩
      rw [h.of_none htable]
      exact KeyMap.remove_eq_self rfl
  | some t =>
      obtain ⟨hv, hm⟩ := h.of_some t htable
      obtain ⟨t', hremove, hv', hm'⟩ := HashTable.removeFrom_spec hv hm name
      refine ⟨some t', by simp [hremove], ?_, nofun⟩
      rintro _ ⟨⟩
      exact ⟨hv', hm'⟩

/-- What `at` gives. -/
def valueAt (o : DirectoryObjects ν μ) (values : KeyMap (List UInt8) ν)
    (methods : KeyMap (List UInt8) μ) (name : List UInt8) : Option ν :=
  match values name with
  | some value => some value
  | none => (methods name).map fun method => o.run method name

theorem Stands.at_eq (h : d.Stands values methods) (name : List UInt8) :
    d.at' o name = some (valueAt o values methods name) := by
  simp only [at', HashTable.get_spec h.valid h.refines, h.stand.get, h.unknown, valueAt,
    Option.bind_eq_bind, Option.bind_some]
  cases values name with
  | some value => rfl
  | none => cases methods name <;> rfl

/-! ## Steps -/

theorem newDirectory_stands : (newDirectory : RexxDirectory ν μ).Stands KeyMap.empty KeyMap.empty
    where
  valid := HashTable.newHashTable_valid _
  refines := HashTable.newHashTable_refines _
  stand := ⟨nofun, fun _ => rfl⟩
  disjoint := nofun
  upper := nofun
  unknown := rfl

theorem Stands.putValue (h : d.Stands values methods) (value : ν) {name : List UInt8}
    {contents : HashTable (List UInt8) ν} {table : Option (HashTable (List UInt8) μ)}
    (hv : contents.Valid) (hm : contents.Refines (values.put value name))
    (htable : MethodsStand table (methods.remove name)) :
    Stands { d with contents := contents, methodTable := table } (values.put value name)
      (methods.remove name) where
  valid := hv
  refines := hm
  stand := htable
  disjoint := by
    intro name' method hmethod
    obtain ⟨hne, hmethod⟩ := KeyMap.remove_eq_some hmethod
    rw [KeyMap.put_of_ne values value hne]
    exact h.disjoint name' method hmethod
  upper := fun name' method hmethod => h.upper name' method (KeyMap.remove_eq_some hmethod).2
  unknown := h.unknown

theorem Stands.removeNames (h : d.Stands values methods) {values' : KeyMap (List UInt8) ν}
    {methods' : KeyMap (List UInt8) μ} {contents : HashTable (List UInt8) ν}
    {table : Option (HashTable (List UInt8) μ)} (hv : contents.Valid)
    (hm : contents.Refines values') (htable : MethodsStand table methods')
    (hvalues : ∀ name, values name = none → values' name = none)
    (hmethods : ∀ name method, methods' name = some method → methods name = some method) :
    Stands { d with contents := contents, methodTable := table } values' methods' where
  valid := hv
  refines := hm
  stand := htable
  disjoint := fun name method hmethod =>
    hvalues name (h.disjoint name method (hmethods name method hmethod))
  upper := fun name method hmethod => h.upper name method (hmethods name method hmethod)
  unknown := h.unknown

omit [Hashable (List UInt8)] in
theorem remove_eq_none {name name' : List UInt8} (h : values name' = none) :
    values.remove name name' = none := by
  by_cases heq : name' = name
  · rw [heq, KeyMap.remove_self]
  · rwa [KeyMap.remove_of_ne values heq]

theorem Stands.put (h : d.Stands values methods) (value : ν) (index : List UInt8) :
    ∃ d', d.put value index = some d' ∧
      d'.Stands (values.put value index) (methods.remove index) := by
  obtain ⟨table, hremove, htable⟩ := h.stand.remove index
  obtain ⟨contents, hput, hv, hm⟩ := HashTable.putIn_spec h.valid h.refines value index
  exact ⟨_, by simp [RexxDirectory.put, hremove, hput], h.putValue value hv hm htable⟩

theorem Stands.remove (h : d.Stands values methods) (name : List UInt8) :
    ∃ d', d.remove o name = some (valueAt o values methods name, d') ∧
      d'.Stands (values.remove name) (methods.remove (LeooRexx.upper name)) := by
  obtain ⟨contents, hcontents, hv, hm⟩ : ∃ contents,
      (if (values name).isSome then d.contents.removeFrom name else some d.contents) =
        some contents ∧ contents.Valid ∧ contents.Refines (values.remove name) := by
    cases hvalue : values name with
    | none =>
        refine ⟨d.contents, rfl, h.valid, ?_⟩
        rw [KeyMap.remove_eq_self hvalue]
        exact h.refines
    | some value => exact HashTable.removeFrom_spec h.valid h.refines name
  obtain ⟨table, hremove, htable⟩ := MethodsStand.remove
    (d := { d with contents := contents }) h.stand (LeooRexx.upper name)
  refine ⟨{ d with contents := contents, methodTable := table }, ?_, h.removeNames hv hm htable
    (fun _ => remove_eq_none) fun _ _ hmethod => (KeyMap.remove_eq_some hmethod).2⟩
  simp only [RexxDirectory.remove, h.at_eq, HashTable.get_spec h.valid h.refines,
    Option.bind_eq_bind, Option.bind_some]
  split at hcontents
  · rw [if_pos ‹_›, hcontents, Option.bind_some, hremove, Option.bind_some]
  · obtain rfl := Option.some.inj hcontents
    rw [if_neg ‹_›, hremove, Option.bind_some]

theorem Stands.setValue (h : d.Stands values methods) (name : List UInt8) (value : ν) :
    ∃ d', d.setEntry o name (some value) = some d' ∧
      d'.Stands (values.put value (LeooRexx.upper name))
        (methods.remove (LeooRexx.upper name)) := by
  obtain ⟨contents, hput, hv, hm⟩ :=
    HashTable.putIn_spec h.valid h.refines value (LeooRexx.upper name)
  obtain ⟨table, hremove, htable⟩ := MethodsStand.remove
    (d := { d with contents := contents }) h.stand (LeooRexx.upper name)
  exact ⟨_, by simp [RexxDirectory.setEntry, hput, hremove], h.putValue value hv hm htable⟩

theorem Stands.setEntry (h : d.Stands values methods) (name : List UInt8) (entryobj : Option ν) :
    ∃ d' values' methods', d.setEntry o name entryobj = some d' ∧ d'.Stands values' methods' := by
  cases entryobj with
  | some value =>
      obtain ⟨d', hset, hd'⟩ := h.setValue (o := o) name value
      exact ⟨d', _, _, hset, hd'⟩
  | none =>
      obtain ⟨d', hremove, hd'⟩ := h.remove (o := o) (LeooRexx.upper name)
      exact ⟨d', _, _, by simp [RexxDirectory.setEntry, hremove], hd'⟩

theorem Stands.removeValue (h : d.Stands values methods) {name : List UInt8}
    {methods' : KeyMap (List UInt8) μ} {table : Option (HashTable (List UInt8) μ)}
    (htable : MethodsStand table methods') (hname : LeooRexx.upper name = name)
    (hmethods : ∀ name' method, methods' name' = some method →
      name' = name ∨ methods name' = some method) :
    ∃ contents, d.contents.removeFrom name = some contents ∧
      Stands { d with contents := contents, methodTable := table } (values.remove name)
        methods' := by
  obtain ⟨contents, hremove, hv, hm⟩ := HashTable.removeFrom_spec h.valid h.refines name
  refine ⟨contents, hremove, hv, hm, htable, fun name' method hmethod => ?_,
    fun name' method hmethod => ?_, h.unknown⟩
  · rcases hmethods name' method hmethod with rfl | hmethod
    · exact KeyMap.remove_self values _
    · exact remove_eq_none (h.disjoint name' method hmethod)
  · rcases hmethods name' method hmethod with rfl | hmethod
    · exact hname
    · exact h.upper name' method hmethod

def Op.NoUnknown : Op ν μ → Prop
  | .setMethod entryname (some _) => LeooRexx.upper entryname ≠ chUnknown
  | _ => True

theorem Stands.setMethod (h : d.Stands values methods) (name : List UInt8)
    (methodobj : Option μ) (hknown : Op.NoUnknown (.setMethod name methodobj : Op ν μ)) :
    ∃ d' values' methods', d.setMethod o name methodobj = some d' ∧
      d'.Stands values' methods' := by
  have hname := upper_upper name
  cases methodobj with
  | some method =>
      obtain ⟨t, ht, hv, hm⟩ : ∃ t, d.methodTable.getD (.newHashTable defaultHashSize) = t ∧
          t.Valid ∧ t.Refines methods := by
        cases htable : d.methodTable with
        | none =>
            rw [h.stand.of_none htable]
            exact ⟨_, rfl, HashTable.newHashTable_valid _, HashTable.newHashTable_refines _⟩
        | some t => exact ⟨t, rfl, h.stand.of_some t htable⟩
      obtain ⟨t', hput, hv', hm'⟩ :=
        HashTable.putIn_spec hv hm (o.newScope method) (LeooRexx.upper name)
      have hstand :
          MethodsStand (some t') (methods.put (o.newScope method) (LeooRexx.upper name)) :=
        ⟨fun t ht => by cases ht; exact ⟨hv', hm'⟩, nofun⟩
      obtain ⟨contents, hremove, hstands⟩ :=
        h.removeValue hstand hname fun name' method' hmethod => by
          by_cases heq : name' = LeooRexx.upper name
          · exact .inl heq
          · exact .inr (KeyMap.put_of_ne methods _ heq ▸ hmethod)
      refine ⟨_, _, _, ?_, hstands⟩
      simp only [RexxDirectory.setMethod, if_neg hknown, ht, hput, hremove, Option.bind_eq_bind,
        Option.bind_some]
  | none =>
      by_cases hunknown : LeooRexx.upper name = chUnknown
      · obtain ⟨contents, hremove, hstands⟩ := h.removeValue h.stand hname
          fun name' method hmethod => .inr hmethod
        refine ⟨_, _, _, ?_, hstands⟩
        simp [RexxDirectory.setMethod, hunknown, hunknown ▸ hremove, h.unknown]
      · obtain ⟨table, hmethod, htable⟩ := h.stand.remove (LeooRexx.upper name)
        obtain ⟨contents, hremove, hstands⟩ := h.removeValue htable hname
          fun name' method hmethod => .inr (KeyMap.remove_eq_some hmethod).2
        refine ⟨_, _, _, ?_, hstands⟩
        simp only [RexxDirectory.setMethod, if_neg hunknown, hmethod, hremove,
          Option.bind_eq_bind, Option.bind_some]

theorem Stands.empty (h : d.Stands values methods) :
    ∃ d', d.empty = some d' ∧ d'.Stands KeyMap.empty KeyMap.empty := by
  obtain ⟨contents, hempty, hv, hm⟩ := HashTable.empty_spec h.valid
  simp only [RexxDirectory.empty, hempty, Option.bind_eq_bind, Option.bind_some]
  cases htable : d.methodTable with
  | none =>
      exact ⟨⟨contents, none, none⟩, rfl, hv, hm, ⟨nofun, fun _ => rfl⟩, nofun, nofun, rfl⟩
  | some t =>
      obtain ⟨t', hempty', hv', hm'⟩ := HashTable.empty_spec (h.stand.of_some t htable).1
      refine ⟨⟨contents, some t', none⟩, by simp [hempty'], hv, hm, ⟨?_, nofun⟩, nofun, nofun, rfl⟩
      rintro _ ⟨⟩
      exact ⟨hv', hm'⟩

theorem step_stands (h : d.Stands values methods) (op : Op ν μ) (hknown : op.NoUnknown) :
    ∃ d' values' methods', d.step o op = some d' ∧ d'.Stands values' methods' := by
  cases op with
  | put value index =>
      obtain ⟨d', hput, hd'⟩ := h.put value index
      exact ⟨d', _, _, hput, hd'⟩
  | setEntry name entryobj => exact h.setEntry name entryobj
  | setMethod name methodobj => exact h.setMethod name methodobj hknown
  | remove name =>
      obtain ⟨d', hremove, hd'⟩ := h.remove (o := o) name
      exact ⟨d', _, _, by simp [step, hremove], hd'⟩
  | removeItem target =>
      obtain ⟨l, hmethods, -, -⟩ := h.stand.list
      obtain ⟨index, hindex⟩ : ∃ index, d.indexRexx o target = some index := by
        rw [indexRexx, hmethods]
        cases d.contents.getIndex (o.equalValue target) with
        | some name => exact ⟨_, rfl⟩
        | none => exact ⟨_, rfl⟩
      cases index with
      | none => exact ⟨d, _, _, by simp [step, removeItem, hindex], h⟩
      | some name =>
          obtain ⟨d', hremove, hd'⟩ := h.remove (o := o) name
          exact ⟨d', _, _, by simp [step, removeItem, hindex, hremove], hd'⟩
  | empty =>
      obtain ⟨d', hempty, hd'⟩ := h.empty
      exact ⟨d', _, _, hempty, hd'⟩

theorem run_stands {ops : List (Op ν μ)} (h : d.Stands values methods)
    (hknown : ∀ op ∈ ops, op.NoUnknown) :
    ∃ d' values' methods', d.run o ops = some d' ∧ d'.Stands values' methods' := by
  induction ops generalizing d values methods with
  | nil => exact ⟨d, values, methods, rfl, h⟩
  | cons op ops ih =>
      obtain ⟨u, values', methods', hstep, hu⟩ := step_stands h op (hknown op List.mem_cons_self)
      obtain ⟨d', values'', methods'', hrun, hd'⟩ :=
        ih hu fun op hop => hknown op (List.mem_cons_of_mem _ hop)
      refine ⟨d', values'', methods'', ?_, hd'⟩
      rw [run, List.foldlM_cons, hstep]
      exact hrun

/-! ## Views -/

def HoldsValue (d : RexxDirectory ν μ) (name : List UInt8) : Prop :=
  ∃ value, d.contents.get name = some (some value)

def HoldsMethod (d : RexxDirectory ν μ) (name : List UInt8) (method : μ) : Prop :=
  d.methodGet name = some (some method)

def Held (d : RexxDirectory ν μ) (name : List UInt8) : Prop :=
  d.HoldsValue name ∨ ∃ method, d.HoldsMethod name method

structure ViewsAgree (o : DirectoryObjects ν μ) (d : RexxDirectory ν μ) : Prop where
  disjoint : ∀ name method, d.HoldsMethod name method → ¬ d.HoldsValue name
  at_held : ∀ name, ∃ r, d.at' o name = some r ∧ (r.isSome = true ↔ d.Held name)
  lists : ∃ names items, d.allIndexes = some names ∧ names.Nodup ∧
    (∀ name, name ∈ names ↔ d.Held name) ∧ d.items = names.length ∧
    d.allItems o = some items ∧
    List.Forall₂ (fun name value => d.at' o name = some (some value)) names items
  supplier : ∃ items, d.supplier o = some items ∧ (items.map (·.1)).Nodup ∧
    ∀ name value, (name, value) ∈ items ↔ d.at' o name = some (some value)
  hasIndex : ∀ name, ∃ b, d.hasIndex name = some b ∧ (b = true ↔ d.Held name)
  hasItem : ∀ target, ∃ b, d.hasItem o target = some b ∧
    (b = true ↔ ∃ name value, d.at' o name = some (some value) ∧ o.equalValue target value = true)

/-- `remove` takes the entry under the name and no other. -/
def RemovesOnly (o : DirectoryObjects ν μ) (d : RexxDirectory ν μ) (name : List UInt8) : Prop :=
  ∃ value d', d.remove o name = some (value, d') ∧ d.at' o name = some value ∧
    ∀ name', d'.contents.get name' = (if name' = name then some none else d.contents.get name') ∧
      d'.methodGet name' = (if name' = name then some none else d.methodGet name')

theorem Stands.holdsValue_iff (h : d.Stands values methods) (name : List UInt8) :
    d.HoldsValue name ↔ ∃ value, values name = some value := by
  simp only [HoldsValue, HashTable.get_spec h.valid h.refines, Option.some.injEq]

theorem Stands.holdsMethod_iff (h : d.Stands values methods) (name : List UInt8) (method : μ) :
    d.HoldsMethod name method ↔ methods name = some method := by
  rw [HoldsMethod, h.stand.get, Option.some.injEq]

theorem Stands.valueAt_eq_some (h : d.Stands values methods) {name : List UInt8} {value : ν} :
    valueAt o values methods name = some value ↔ values name = some value ∨
      ∃ method, methods name = some method ∧ o.run method name = value := by
  rw [valueAt]
  cases hvalue : values name with
  | none => simp
  | some value' =>
      have hnone : ∀ method, methods name ≠ some method := fun method hmethod => by
        rw [h.disjoint name method hmethod] at hvalue
        cases hvalue
      simp [hnone]

theorem Stands.valueAt_isSome (h : d.Stands values methods) (name : List UInt8) :
    (valueAt o values methods name).isSome = true ↔ d.Held name := by
  simp only [Option.isSome_iff_exists, h.valueAt_eq_some, Held, h.holdsValue_iff,
    h.holdsMethod_iff, exists_or]
  constructor
  · rintro (hvalue | ⟨_, method, hmethod, -⟩)
    · exact .inl hvalue
    · exact .inr ⟨method, hmethod⟩
  · rintro (hvalue | ⟨method, hmethod⟩)
    · exact .inl hvalue
    · exact .inr ⟨_, method, hmethod, rfl⟩

structure Entries (d : RexxDirectory ν μ) (values : KeyMap (List UInt8) ν)
    (methods : KeyMap (List UInt8) μ) (vs : List (List UInt8 × ν)) (ms : List (List UInt8 × μ)) :
    Prop where
  iterate : d.contents.iterate = some vs
  methods_eq : d.methods = some ms
  items : d.items = vs.length + ms.length
  nodup : (vs.map (·.1) ++ ms.map (·.1)).Nodup
  mem_values : ∀ name value, (name, value) ∈ vs ↔ values name = some value
  mem_methods : ∀ name method, (name, method) ∈ ms ↔ methods name = some method

theorem Stands.entries (h : d.Stands values methods) : ∃ vs ms, d.Entries values methods vs ms := by
  obtain ⟨vs, hiterate, hvs⟩ := HashTable.iterate_spec h.valid h.refines
  obtain ⟨ms, hmethods, hms, hlength⟩ := h.stand.list
  refine ⟨vs, ms, hiterate, hmethods, ?_, ?_, fun _ _ => hvs.mem, fun _ _ => hms.mem⟩
  · rw [items, hlength]
    cases d.methodTable <;> simp [HashTable.totalEntries_eq hiterate]
  · rw [List.nodup_append]
    refine ⟨hvs.nodup, hms.nodup, ?_⟩
    rintro name hname _ hname' rfl
    obtain ⟨⟨_, value⟩, hmem, rfl⟩ := List.mem_map.mp hname
    obtain ⟨⟨name', method⟩, hmem', rfl⟩ := List.mem_map.mp hname'
    have hnone := h.disjoint _ method (hms.mem.mp hmem')
    rw [hvs.mem.mp hmem] at hnone
    cases hnone

variable {vs : List (List UInt8 × ν)} {ms : List (List UInt8 × μ)}

omit [Hashable (List UInt8)] in
theorem Entries.allIndexes (e : d.Entries values methods vs ms) :
    d.allIndexes = some (vs.map (·.1) ++ ms.map (·.1)) := by
  simp [RexxDirectory.allIndexes, e.iterate, e.methods_eq]

omit [Hashable (List UInt8)] in
theorem Entries.allItems (e : d.Entries values methods vs ms) :
    d.allItems o = some (vs.map (·.2) ++ ms.map fun entry => o.string entry.1) := by
  simp [RexxDirectory.allItems, e.iterate, e.methods_eq]

theorem Entries.mem_names (e : d.Entries values methods vs ms) (h : d.Stands values methods)
    (name : List UInt8) : name ∈ vs.map (·.1) ++ ms.map (·.1) ↔ d.Held name := by
  simp only [List.mem_append, List.mem_map, Prod.exists, exists_and_right, exists_eq_right,
    e.mem_values, e.mem_methods, Held, h.holdsValue_iff, h.holdsMethod_iff]

theorem Entries.forall₂_iff (e : d.Entries values methods vs ms) (h : d.Stands values methods) :
    List.Forall₂ (fun name value => d.at' o name = some (some value))
        (vs.map (·.1) ++ ms.map (·.1)) (vs.map (·.2) ++ ms.map fun entry => o.string entry.1) ↔
      ∀ name method, d.HoldsMethod name method → o.run method name = o.string name := by
  have hnames : vs.map (·.1) ++ ms.map (·.1) =
      (vs.map Sum.inl ++ ms.map Sum.inr).map
        (Sum.elim (fun entry : List UInt8 × ν => entry.1) fun entry : List UInt8 × μ => entry.1) := by
    simp
  have hitems : (vs.map (·.2) ++ ms.map fun entry => o.string entry.1) =
      (vs.map Sum.inl ++ ms.map Sum.inr).map
        (Sum.elim (fun entry : List UInt8 × ν => entry.2)
          fun entry : List UInt8 × μ => o.string entry.1) := by
    simp
  rw [hnames, hitems, List.forall₂_map_left_iff, List.forall₂_map_right_iff, List.forall₂_same]
  simp only [List.mem_append, List.mem_map, h.at_eq, Option.some.injEq, h.valueAt_eq_some,
    h.holdsMethod_iff]
  constructor
  · intro hall name method hmethod
    have hmem := hall (.inr (name, method)) (.inr ⟨_, (e.mem_methods name method).mpr hmethod, rfl⟩)
    rcases hmem with hvalue | ⟨method', hmethod', hrun⟩
    · have hnone := h.disjoint name method hmethod
      rw [show values name = _ from hvalue] at hnone
      cases hnone
    · rw [show methods name = _ from hmethod', Option.some.injEq] at hmethod
      exact hmethod ▸ hrun
  · rintro hrun entry (⟨⟨name, value⟩, hmem, rfl⟩ | ⟨⟨name, method⟩, hmem, rfl⟩)
    · exact .inl ((e.mem_values name value).mp hmem)
    · have hmethod := (e.mem_methods name method).mp hmem
      exact .inr ⟨method, hmethod, hrun name method hmethod⟩

theorem Entries.supplier (e : d.Entries values methods vs ms) (h : d.Stands values methods) :
    ∃ items, d.supplier o = some items ∧ (items.map (·.1)).Nodup ∧
      ∀ name value, (name, value) ∈ items ↔ d.at' o name = some (some value) := by
  have hnames : ((vs ++ ms.map fun entry => (entry.1, o.run entry.2 entry.1)).map (·.1)).Nodup := by
    simpa [Function.comp_def] using e.nodup
  obtain ⟨t, m, hfill, hv, hm, hmaps⟩ := HashTable.putAll_spec
    (HashTable.newHashTable_valid defaultHashSize) (HashTable.newHashTable_refines defaultHashSize)
    hnames fun _ _ => rfl
  obtain ⟨items, hiterate, hlists⟩ := HashTable.iterate_spec hv hm
  refine ⟨items, ?_, hlists.nodup, fun name value => ?_⟩
  · rw [RexxDirectory.supplier, e.iterate, e.methods_eq]
    simp only [Option.bind_eq_bind, Option.bind_some]
    rw [hfill]
    exact hiterate
  · rw [hlists.mem, hmaps, h.at_eq, Option.some.injEq, h.valueAt_eq_some]
    simp only [List.mem_append, List.mem_map, Prod.exists, Prod.mk.injEq, e.mem_values,
      e.mem_methods, KeyMap.empty, reduceCtorEq, or_false]
    constructor
    · rintro (hvalue | ⟨name', method, hmethod, rfl, hrun⟩)
      · exact .inl hvalue
      · exact .inr ⟨method, hmethod, hrun⟩
    · rintro (hvalue | ⟨method, hmethod, hrun⟩)
      · exact .inl hvalue
      · exact .inr ⟨name, method, hmethod, rfl, hrun⟩

theorem Entries.hasItem (e : d.Entries values methods vs ms) (h : d.Stands values methods)
    (target : ν) : ∃ b, d.hasItem o target = some b ∧
      (b = true ↔ ∃ name value, d.at' o name = some (some value) ∧
        o.equalValue target value = true) := by
  simp only [h.at_eq, Option.some.injEq, h.valueAt_eq_some, RexxDirectory.hasItem, indexRexx]
  obtain ⟨hfound, hnone⟩ := HashTable.getIndex_spec h.refines (o.equalValue target)
  cases hindex : d.contents.getIndex (o.equalValue target) with
  | some name =>
      obtain ⟨value, hvalue, hequal⟩ := hfound name hindex
      exact ⟨true, rfl, by simpa using ⟨name, value, .inl hvalue, hequal⟩⟩
  | none =>
      simp only [e.methods_eq, Option.bind_eq_bind, Option.bind_some]
      refine ⟨_, rfl, ?_⟩
      rw [Option.isSome_map, List.find?_isSome]
      constructor
      · rintro ⟨⟨name, method⟩, hmem, hequal⟩
        exact ⟨name, _, .inr ⟨method, (e.mem_methods name method).mp hmem, rfl⟩, hequal⟩
      · rintro ⟨name, value, hvalue | ⟨method, hmethod, rfl⟩, hequal⟩
        · rw [hnone hindex name value hvalue] at hequal
          cases hequal
        · exact ⟨(name, method), (e.mem_methods name method).mpr hmethod, hequal⟩

theorem Stands.hasIndex (h : d.Stands values methods) (name : List UInt8) :
    ∃ b, d.hasIndex name = some b ∧ (b = true ↔ d.Held name) := by
  simp only [RexxDirectory.hasIndex, HashTable.get_spec h.valid h.refines, h.stand.get,
    Option.bind_eq_bind, Option.bind_some, Held, h.holdsValue_iff, h.holdsMethod_iff]
  cases values name with
  | some value => exact ⟨true, rfl, by simp⟩
  | none => exact ⟨_, rfl, by simp [Option.isSome_iff_exists]⟩

theorem Stands.viewsAgree_iff (h : d.Stands values methods) :
    d.ViewsAgree o ↔ ∀ name method, d.HoldsMethod name method → o.run method name = o.string name := by
  obtain ⟨vs, ms, e⟩ := h.entries
  rw [← e.forall₂_iff h]
  constructor
  · rintro ⟨-, -, ⟨names, items, hindexes, -, -, -, hitems, hall⟩, -⟩
    rw [e.allIndexes, Option.some.injEq] at hindexes
    rw [e.allItems, Option.some.injEq] at hitems
    exact hindexes ▸ hitems ▸ hall
  · intro hall
    refine ⟨fun name method hmethod => ?_, fun name => ⟨_, h.at_eq name, h.valueAt_isSome name⟩,
      ⟨_, _, e.allIndexes, e.nodup, fun name => e.mem_names h name, by simp [e.items],
        e.allItems, hall⟩, e.supplier h, h.hasIndex, e.hasItem h⟩
    rw [h.holdsMethod_iff] at hmethod
    simp [h.holdsValue_iff, h.disjoint name method hmethod]

theorem Stands.removesOnly_iff (h : d.Stands values methods) (name : List UInt8) :
    d.RemovesOnly o name ↔
      LeooRexx.upper name = name ∨ ∀ method, ¬ d.HoldsMethod (LeooRexx.upper name) method := by
  obtain ⟨d', hremove, hd'⟩ := h.remove (o := o) name
  have hat := h.at_eq (o := o) name
  simp only [h.holdsMethod_iff]
  constructor
  · rintro ⟨value, d'', hremove', -, hkeep⟩
    rw [hremove, Option.some.injEq, Prod.mk.injEq] at hremove'
    obtain ⟨-, rfl⟩ := hremove'
    by_cases hname : LeooRexx.upper name = name
    · exact .inl hname
    · refine .inr fun method hmethod => ?_
      have hmethods := (hkeep (LeooRexx.upper name)).2
      rw [if_neg hname, hd'.stand.get, h.stand.get, KeyMap.remove_self, hmethod] at hmethods
      cases hmethods
  · intro hname
    refine ⟨_, d', hremove, hat, fun name' => ⟨?_, ?_⟩⟩
    · rw [HashTable.get_spec hd'.valid hd'.refines, HashTable.get_spec h.valid h.refines,
        KeyMap.remove]
      simp only [beq_iff_eq]
      split <;> rfl
    · rw [hd'.stand.get, h.stand.get]
      have hmethods : methods.remove (LeooRexx.upper name) name' =
          if name' = name then none else methods name' := by
        rcases hname with hname | hnone
        · rw [hname, KeyMap.remove]
          simp only [beq_iff_eq]
        · rw [KeyMap.remove_eq_self (Option.eq_none_iff_forall_ne_some.mpr hnone)]
          split
          · subst name'
            refine Option.eq_none_iff_forall_ne_some.mpr fun method hmethod => ?_
            exact hnone method ((h.upper name method hmethod).symm ▸ hmethod)
          · rfl
      rw [hmethods]
      split <;> rfl

/--
In every directory that a run reaches: the views agree if and only if every method that is
held returns its own name, and a name is removed alone if and only if it is in upper case
or is not the name of a method in upper case.
-/
theorem run_viewsAgree_iff (o : DirectoryObjects ν μ) (ops : List (Op ν μ))
    (hknown : ∀ op ∈ ops, op.NoUnknown) :
    ∃ d, (newDirectory : RexxDirectory ν μ).run o ops = some d ∧
      (d.ViewsAgree o ↔
        ∀ name method, d.HoldsMethod name method → o.run method name = o.string name) ∧
      ∀ name, d.RemovesOnly o name ↔
        LeooRexx.upper name = name ∨ ∀ method, ¬ d.HoldsMethod (LeooRexx.upper name) method := by
  obtain ⟨d, values, methods, hrun, h⟩ := run_stands newDirectory_stands hknown
  exact ⟨d, hrun, h.viewsAgree_iff, h.removesOnly_iff⟩

def constants : DirectoryObjects (List UInt8) (List UInt8) where
  string name := name
  newScope method := method
  run method _ := method
  runUnknown _ name := name
  equalValue value value' := value == value'

/-- `FOO` returns `X`, and `BAR` is a value. -/
def fooReturnsX : List (Op (List UInt8) (List UInt8)) :=
  [.setMethod [70, 79, 79] (some [88]), .setEntry [66, 65, 82] (some [89])]

omit [Hashable (List UInt8)] in
theorem fooReturnsX_noUnknown : ∀ op ∈ fooReturnsX, op.NoUnknown := by
  intro op hop
  rcases List.mem_pair.mp hop with rfl | rfl
  · change LeooRexx.upper [70, 79, 79] ≠ chUnknown
    decide
  · exact trivial

omit [Hashable (List UInt8)] in
theorem run_viewsAgree_iff_fooReturnsX :
    letI : Hashable (List UInt8) := ⟨fun name => name.length.toUInt64⟩
    ∃ d, (newDirectory : RexxDirectory _ _).run constants fooReturnsX = some d ∧
      (d.ViewsAgree constants ↔
        ∀ name method, d.HoldsMethod name method →
          constants.run method name = constants.string name) ∧
      ∀ name, d.RemovesOnly constants name ↔
        LeooRexx.upper name = name ∨ ∀ method, ¬ d.HoldsMethod (LeooRexx.upper name) method :=
  letI : Hashable (List UInt8) := ⟨fun name => name.length.toUInt64⟩
  run_viewsAgree_iff constants fooReturnsX fooReturnsX_noUnknown

omit [Hashable (List UInt8)] in
/-- `allItems` gives `FOO` in the place of `X`, and `remove` of `foo` takes `FOO`. -/
theorem fooReturnsX_views :
    letI : Hashable (List UInt8) := ⟨fun name => name.length.toUInt64⟩
    ∃ d, (newDirectory : RexxDirectory _ _).run constants fooReturnsX = some d ∧
      d.allItems constants = some [[89], [70, 79, 79]] ∧
      d.at' constants [70, 79, 79] = some (some [88]) ∧ ¬ d.ViewsAgree constants ∧
      ¬ d.RemovesOnly constants [102, 111, 111] := by
  let _ : Hashable (List UInt8) := ⟨fun name => name.length.toUInt64⟩
  obtain ⟨d, values, methods, hrun, h⟩ :=
    run_stands (o := constants) newDirectory_stands fooReturnsX_noUnknown
  have hitems : ((newDirectory : RexxDirectory _ _).run constants fooReturnsX).bind
      (allItems constants) = some [[89], [70, 79, 79]] := by decide
  have hat : ((newDirectory : RexxDirectory _ _).run constants fooReturnsX).bind
      (fun d => d.at' constants [70, 79, 79]) = some (some [88]) := by decide
  have hmethod : ((newDirectory : RexxDirectory _ _).run constants fooReturnsX).bind
      (fun d => d.methodGet [70, 79, 79]) = some (some [88]) := by decide
  rw [hrun, Option.bind_some] at hitems hat hmethod
  refine ⟨d, hrun, hitems, hat, fun hviews => ?_, fun hremoves => ?_⟩
  · have hnames := h.viewsAgree_iff.mp hviews _ _ hmethod
    revert hnames
    decide
  · rcases (h.removesOnly_iff _).mp hremoves with hupper | hnone
    · revert hupper
      decide
    · exact hnone _ hmethod

end RexxDirectory

end LeooRexx
