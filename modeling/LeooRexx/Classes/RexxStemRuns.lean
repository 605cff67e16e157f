import LeooRexx.Classes.RexxStem
import LeooRexx.Runtime.CompoundTableRuns

/-!
# Stems as maps with a default

What a stem is for: a default, and a map that knows which tails were set and which were
dropped.  As long as the default is removed only where there is none, every method of a
stem returns what this map gives.
-/

namespace LeooRexx

open LinkedTree

variable {ν : Type}

/-! ## The table as a map -/

namespace CompoundTable

def Denotes (t : CompoundTable ν) (m : List UInt8 → Option (Option ν)) : Prop :=
  ∃ T, t.Valid T ∧ ∀ tail value, m tail = some value ↔
    ∃ i ∈ inorder T, (t.elements i).variableName = tail ∧ (t.elements i).variableValue = value

variable {t : CompoundTable ν} {m : List UInt8 → Option (Option ν)}

theorem denotes_clear (t : CompoundTable ν) : t.clear.Denotes fun _ => none := by
  refine ⟨.nil, ⟨rfl, List.Pairwise.nil, fun i hi => ?_⟩, fun tail value => ?_⟩
  · exact absurd hi List.not_mem_nil
  · simp [inorder]

theorem denotes_init : (init : CompoundTable ν).Denotes fun _ => none :=
  ⟨.nil, init_valid, by simp [inorder]⟩

theorem Denotes.find (h : t.Denotes m) (tail : List UInt8) :
    ∃ r, t.findEntry tail false = some (t, r) ∧
      m tail = r.map fun i => (t.elements i).variableValue := by
  obtain ⟨T, hv, hm⟩ := h
  obtain ⟨r, hfind, hr⟩ := findEntry_false_spec hv tail
  refine ⟨r, hfind, ?_⟩
  cases r with
  | some i =>
      obtain ⟨hi, hname⟩ := (hr i).mp rfl
      exact (hm tail _).mpr ⟨i, hi, hname, rfl⟩
  | none =>
      apply Option.eq_none_iff_forall_ne_some.mpr
      intro value hvalue
      obtain ⟨i, hi, hname, -⟩ := (hm tail value).mp hvalue
      exact absurd ((hr i).mpr ⟨hi, hname⟩) (by simp)

theorem denotes_setValue {T : BinaryTree Nat} (hv : t.Valid T)
    (hm : ∀ tail value, m tail = some value ↔ ∃ i ∈ inorder T,
      (t.elements i).variableName = tail ∧ (t.elements i).variableValue = value)
    {i : Nat} (hi : i ∈ inorder T) (value : Option ν) :
    (t.setValue i value).Denotes
      (Function.update m (t.elements i).variableName (some value)) := by
  refine ⟨T, hv.setValue i value, fun tail value' => ?_⟩
  simp only [name_setValue, value_setValue]
  by_cases htail : tail = (t.elements i).variableName
  · subst htail
    rw [Function.update_self, Option.some.injEq]
    constructor
    · rintro rfl
      exact ⟨i, hi, rfl, if_pos rfl⟩
    · rintro ⟨j, hj, hname, hvalue⟩
      rwa [if_pos (hv.name_inj hj hi hname)] at hvalue
  · rw [Function.update_of_ne htail, hm]
    have hne : ∀ j, (t.elements j).variableName = tail → j ≠ i :=
      fun j hname hji => htail (hji ▸ hname).symm
    constructor
    · rintro ⟨j, hj, hname, hvalue⟩
      exact ⟨j, hj, hname, by rwa [if_neg (hne j hname)]⟩
    · rintro ⟨j, hj, hname, hvalue⟩
      exact ⟨j, hj, hname, by rwa [if_neg (hne j hname)] at hvalue⟩

theorem Denotes.create (h : t.Denotes m) (tail : List UInt8) :
    ∃ t' i, t.findEntry tail true = some (t', some i) ∧
      ∀ value, (t'.setValue i value).Denotes (Function.update m tail (some value)) := by
  obtain ⟨T, hv, hm⟩ := h
  obtain ⟨t', T', i, hfind, hinserted⟩ := findEntry_true_spec hv tail
  refine ⟨t', i, hfind, fun value => ?_⟩
  have hi : i ∈ inorder T' := (hinserted.mem i).mpr (.inl rfl)
  have hset := denotes_setValue hinserted.valid (m := fun tail' =>
      if tail' = tail then some (t'.elements i).variableValue else m tail') ?_ hi value
  · rw [hinserted.name_self] at hset
    convert hset using 1
    funext tail'
    by_cases htail : tail' = tail
    · subst htail
      simp
    · simp [htail]
  · intro tail' value'
    by_cases htail : tail' = tail
    · subst htail
      rw [if_pos rfl, Option.some.injEq]
      constructor
      · rintro rfl
        exact ⟨i, hi, hinserted.name_self, rfl⟩
      · rintro ⟨j, hj, hname, hvalue⟩
        rwa [hinserted.valid.name_inj hj hi (hname.trans hinserted.name_self.symm)] at hvalue
    · rw [if_neg htail, hm]
      constructor
      · rintro ⟨j, hj, hname, hvalue⟩
        exact ⟨j, (hinserted.mem j).mpr (.inr hj), (hinserted.name_of j hj).trans hname,
          (hinserted.value_of j hj).trans hvalue⟩
      · rintro ⟨j, hj, hname, hvalue⟩
        rcases (hinserted.mem j).mp hj with rfl | hj
        · exact absurd (hname.symm.trans hinserted.name_self) htail
        · exact ⟨j, hj, (hinserted.name_of j hj).symm.trans hname,
            (hinserted.value_of j hj).symm.trans hvalue⟩

theorem Denotes.set (h : t.Denotes m) {tail : List UInt8} {i : Nat}
    (hfind : t.findEntry tail false = some (t, some i)) (value : Option ν) :
    (t.setValue i value).Denotes (Function.update m tail (some value)) := by
  obtain ⟨T, hv, hm⟩ := h
  obtain ⟨r, hfind', hr⟩ := findEntry_false_spec hv tail
  rw [hfind, Option.some.injEq, Prod.mk.injEq] at hfind'
  obtain ⟨hi, hname⟩ := (hr i).mp hfind'.2.symm
  exact hname ▸ denotes_setValue hv hm hi value

theorem Denotes.iterate (h : t.Denotes m) :
    ∃ l, t.iterate = some l ∧ (l.map fun i => (t.elements i).variableName).Nodup ∧
      (∀ i ∈ l, t.findEntry (t.elements i).variableName false = some (t, some i)) ∧
      ∀ tail value, m tail = some value ↔
        ∃ i ∈ l, (t.elements i).variableName = tail ∧ (t.elements i).variableValue = value := by
  obtain ⟨T, hv, hm⟩ := h
  refine ⟨postorder T, iterate_spec hv, ?_, fun i hi => ?_, fun tail value => ?_⟩
  · exact ((postorder_perm T).map _).nodup_iff.mpr hv.nodup_names
  · obtain ⟨r, hfind, hr⟩ := findEntry_false_spec hv (t.elements i).variableName
    rw [hfind, (hr i).mpr ⟨mem_postorder.mp hi, rfl⟩]
  · simp only [hm, mem_postorder]

end CompoundTable

/-! ## The model -/

/-- What a stem is for: a tail is set, dropped (`some none`) or was never set. -/
structure StemModel (ν : Type) where
  default : Option ν
  tails : List UInt8 → Option (Option ν)

namespace StemModel

variable (o : StemObjects ν) (name : List UInt8)

def setTail (m : StemModel ν) (tail : List UInt8) (value : Option ν) : StemModel ν :=
  { m with tails := Function.update m.tails tail (some value) }

def defaultValue (m : StemModel ν) : ν := m.default.getD (o.string name)

def lookup (m : StemModel ν) (tail : List UInt8) : ν :=
  match m.tails tail with
  | some (some value) => value
  | some none => o.string (name ++ tail)
  | none => m.default.getD (o.string (name ++ tail))

def Lists (m : StemModel ν) (items : List (ν × List UInt8)) : Prop :=
  (items.map (·.2)).Nodup ∧
    ∀ tail value, m.tails tail = some (some value) ↔ (value, tail) ∈ items

def Removes (m : StemModel ν) (tail : List UInt8) (m' : StemModel ν) (r : StemResult ν) : Prop :=
  match m.tails tail with
  | some (some value) => m' = m.setTail tail none ∧ r = .object value
  | _ => m' = m ∧ r = .nil

def Step (m : StemModel ν) (op : RexxStem.Op ν) (m' : StemModel ν) (r : StemResult ν) : Prop :=
  match op with
  | .bracketEqual none _ => m' = m ∧ r = .error .noarg
  | .bracketEqual (some value) [] =>
      if o.isStem value then m' = m ∧ r = .error .nostem
      else m' = ⟨some value, fun _ => none⟩ ∧ r = .object value
  | .bracketEqual (some value) (tail :: tails) =>
      m' = m.setTail (buildTail (tail :: tails)) (some value) ∧ r = .nothing
  | .setCompoundVariable tail value => m' = m.setTail tail (some value) ∧ r = .nothing
  | .dropCompoundVariable tail => m' = m.setTail tail none ∧ r = .nothing
  | .remove [] => m' = { m with default := none } ∧ r = .object (m.defaultValue o name)
  | .remove (tail :: tails) => m.Removes (buildTail (tail :: tails)) m' r
  | .removeItem target =>
      (∃ tail value, m.tails tail = some (some value) ∧ o.equalValue target value = true ∧
        m' = m.setTail tail none ∧ r = .object value) ∨
      ((∀ tail value, m.tails tail = some (some value) → o.equalValue target value = false) ∧
        m' = m ∧ r = .nil)
  | .empty => m' = { m with tails := fun _ => none } ∧ r = .nothing
  | .dropValue => m' = { m with default := none } ∧ r = .nothing
  | .bracket [] => m' = m ∧ r = .object (m.defaultValue o name)
  | .bracket (tail :: tails) =>
      m' = m ∧ r = .object (m.lookup o name (buildTail (tail :: tails)))
  | .evaluate tail => m' = m ∧ r = .object (m.lookup o name tail)
  | .hasIndex [] => m' = m ∧ r = .logical true
  | .hasIndex (tail :: tails) =>
      m' = m ∧ r = .logical ((m.tails (buildTail (tail :: tails))).getD none).isSome
  | .items => m' = m ∧ ∃ items, m.Lists items ∧ r = .count items.length
  | .allItems => m' = m ∧ ∃ items, m.Lists items ∧ r = .values (items.map (·.1))
  | .allIndexes => m' = m ∧ ∃ items, m.Lists items ∧ r = .indexes (items.map (·.2))
  | .supplier => m' = m ∧ ∃ items, m.Lists items ∧ r = .supplier items

def Answers : StemModel ν → List (RexxStem.Op ν) → List (StemResult ν) → Prop
  | _, [], [] => True
  | m, op :: ops, r :: results => ∃ m' : StemModel ν, m.Step o name op m' r ∧
      m'.Answers ops results
  | _, _, _ => False

end StemModel

/-! ## Steps -/

namespace RexxStem

structure Agrees (o : StemObjects ν) (s : RexxStem ν) (m : StemModel ν) : Prop where
  default : m.default = if s.dropped then none else some s.value
  dropped : s.dropped = true → s.value = o.string s.uName
  tails : s.tails.Denotes m.tails

variable {o : StemObjects ν} {s : RexxStem ν} {m : StemModel ν}

theorem Agrees.value_eq (h : s.Agrees o m) : s.value = m.defaultValue o s.uName := by
  rw [StemModel.defaultValue, h.default]
  cases hdropped : s.dropped with
  | true => exact h.dropped hdropped
  | false => rfl

theorem Agrees.find (h : s.Agrees o m) (tail : List UInt8) :
    ∃ r, s.findCompoundVariable tail = some r ∧ m.tails tail = r.map s.variableValue ∧
      ∀ i, r = some i → s.tails.findEntry tail false = some (s.tails, some i) := by
  obtain ⟨r, hfind, hr⟩ := h.tails.find tail
  refine ⟨r, by simp [findCompoundVariable, hfind], hr, ?_⟩
  rintro i rfl
  exact hfind

theorem Agrees.evaluate (h : s.Agrees o m) (tail : List UInt8) :
    s.evaluateCompoundVariableValue o tail = some (m.lookup o s.uName tail) := by
  obtain ⟨r, hfind, hr, -⟩ := h.find tail
  simp only [evaluateCompoundVariableValue, hfind, StemModel.lookup, hr, createCompoundName,
    Option.bind_eq_bind, Option.bind_some]
  cases r with
  | none =>
      rw [h.default]
      cases s.dropped <;> rfl
  | some i =>
      simp only [Option.map_some]
      cases s.variableValue i <;> rfl

theorem Agrees.setTail (h : s.Agrees o m) {t : CompoundTable ν} {tail : List UInt8}
    {value : Option ν} (ht : t.Denotes (Function.update m.tails tail (some value))) :
    Agrees o { s with tails := t } (m.setTail tail value) :=
  ⟨h.default, h.dropped, ht⟩

theorem Agrees.get (h : s.Agrees o m) (tail : List UInt8) :
    ∃ s' i, s.getCompoundVariable tail = some (s', i) ∧ s'.uName = s.uName ∧
      ∀ value, (s'.setVariableValue i value).Agrees o (m.setTail tail value) := by
  obtain ⟨t, i, hfind, ht⟩ := h.tails.create tail
  exact ⟨{ s with tails := t }, i, by simp [getCompoundVariable, hfind], rfl,
    fun value => h.setTail (ht value)⟩

theorem Agrees.setCompoundVariable (h : s.Agrees o m) (tail : List UInt8) (value : ν) :
    ∃ s', s.setCompoundVariable tail value = some s' ∧ s'.uName = s.uName ∧
      s'.Agrees o (m.setTail tail (some value)) := by
  obtain ⟨s', i, hget, hname, hagrees⟩ := h.get tail
  exact ⟨s'.setVariableValue i (some value), by simp [RexxStem.setCompoundVariable, hget], hname,
    hagrees _⟩

theorem Agrees.dropCompoundVariable (h : s.Agrees o m) (tail : List UInt8) :
    ∃ s', s.dropCompoundVariable tail = some s' ∧ s'.uName = s.uName ∧
      s'.Agrees o (m.setTail tail none) := by
  obtain ⟨s', i, hget, hname, hagrees⟩ := h.get tail
  exact ⟨s'.setVariableValue i none, by simp [RexxStem.dropCompoundVariable, hget], hname,
    hagrees _⟩

theorem Agrees.removeElement (h : s.Agrees o m) {tail : List UInt8} {r : Option Nat}
    (hr : m.tails tail = r.map s.variableValue)
    (hfind : ∀ i, r = some i → s.tails.findEntry tail false = some (s.tails, some i)) :
    ∃ m', m.Removes tail m' (s.removeElement r).2 ∧ (s.removeElement r).1.uName = s.uName ∧
      (s.removeElement r).1.Agrees o m' := by
  cases r with
  | none =>
      refine ⟨m, ?_, rfl, h⟩
      simp [StemModel.Removes, hr, RexxStem.removeElement]
  | some i =>
      simp only [Option.map_some] at hr
      simp only [RexxStem.removeElement]
      cases hvalue : s.variableValue i with
      | none =>
          refine ⟨m, ?_, rfl, h⟩
          simp [StemModel.Removes, hr, hvalue]
      | some value =>
          refine ⟨m.setTail tail none, ?_, rfl, h.setTail (h.tails.set (hfind i rfl) none)⟩
          simp [StemModel.Removes, hr, hvalue]

theorem sublist_filterMap {α β γ : Type} (f : α → Option β) (g : α → γ) (l : List α) :
    ((l.filterMap fun a => (f a).map fun b => (a, b)).map fun entry => g entry.1).Sublist
      (l.map g) := by
  induction l with
  | nil => exact .slnil
  | cons a l ih =>
      cases hfa : f a with
      | none => simpa [List.filterMap_cons, hfa] using ih.trans (List.sublist_cons_self _ _)
      | some b => simpa [List.filterMap_cons, hfa] using ih

theorem Agrees.realVariables (h : s.Agrees o m) :
    ∃ l, s.realVariables = some l ∧
      m.Lists (l.map fun entry => (entry.2, (s.tails.elements entry.1).variableName)) ∧
      ∀ entry ∈ l, s.variableValue entry.1 = some entry.2 ∧
        s.tails.findEntry (s.tails.elements entry.1).variableName false =
          some (s.tails, some entry.1) := by
  obtain ⟨l, hiterate, hnodup, hfind, hl⟩ := h.tails.iterate
  have hmem (entry : Nat × ν) : entry ∈ (l.filterMap fun entry =>
      (s.variableValue entry).map fun value => (entry, value)) ↔
      entry.1 ∈ l ∧ s.variableValue entry.1 = some entry.2 := by
    simp only [List.mem_filterMap, Option.map_eq_some_iff]
    constructor
    · rintro ⟨i, hi, value, hvalue, rfl⟩
      exact ⟨hi, hvalue⟩
    · rintro ⟨hi, hvalue⟩
      exact ⟨entry.1, hi, entry.2, hvalue, rfl⟩
  refine ⟨_, by rw [RexxStem.realVariables, hiterate]; rfl, ⟨?_, fun tail value => ?_⟩,
    fun entry hentry => ?_⟩
  · rw [List.map_map]
    exact hnodup.sublist
      (sublist_filterMap s.variableValue (fun i => (s.tails.elements i).variableName) l)
  · rw [hl, List.mem_map]
    constructor
    · rintro ⟨i, hi, rfl, hvalue⟩
      exact ⟨(i, value), (hmem _).mpr ⟨hi, hvalue⟩, rfl⟩
    · rintro ⟨entry, hentry, heq⟩
      obtain ⟨hi, hvalue⟩ := (hmem _).mp hentry
      cases heq
      exact ⟨entry.1, hi, rfl, hvalue⟩
  · obtain ⟨hi, hvalue⟩ := (hmem _).mp hentry
    exact ⟨hvalue, hfind _ hi⟩

theorem agrees_clear (s : RexxStem ν) {default : Option ν} {value : ν} {dropped : Bool}
    (hdefault : default = if dropped then none else some value)
    (hvalue : dropped = true → value = o.string s.uName) :
    Agrees o { s with value := value, tails := s.tails.clear, dropped := dropped }
      ⟨default, fun _ => none⟩ :=
  ⟨hdefault, hvalue, CompoundTable.denotes_clear s.tails⟩

theorem Agrees.removeDefault (h : s.Agrees o m) (hdropped : s.dropped = true) :
    Agrees o { s with value := o.string s.uName } { m with default := none } :=
  ⟨by simp [hdropped], fun _ => rfl, h.tails⟩

theorem Agrees.dropValue (h : s.Agrees o m) :
    (s.dropValue o).Agrees o { m with default := none } :=
  ⟨rfl, fun _ => rfl, h.tails⟩

theorem Agrees.removeItem (h : s.Agrees o m) (target : ν) :
    ∃ s' r m', s.removeItem o target = some (s', r) ∧ s'.uName = s.uName ∧
      m.Step o s.uName (.removeItem target) m' r ∧ s'.Agrees o m' := by
  obtain ⟨l, hreal, ⟨-, hl⟩, hfind⟩ := h.realVariables
  simp only [RexxStem.removeItem, findByValue, hreal, Option.bind_eq_bind, Option.bind_some]
  cases hsearch : l.find? fun entry => o.equalValue target entry.2 with
  | none =>
      refine ⟨s, .nil, m, rfl, rfl, .inr ⟨fun tail value htail => ?_, rfl, rfl⟩, h⟩
      obtain ⟨entry, hentry, heq⟩ := List.mem_map.mp ((hl tail value).mp htail)
      cases heq
      simpa using List.find?_eq_none.mp hsearch entry hentry
  | some entry =>
      have hentry := List.mem_of_find?_eq_some hsearch
      have hequal : o.equalValue target entry.2 = true :=
        List.find?_some (p := fun entry : Nat × ν => o.equalValue target entry.2) hsearch
      obtain ⟨hvalue, hfound⟩ := hfind entry hentry
      have htail := (hl _ _).mpr (List.mem_map.mpr ⟨entry, hentry, rfl⟩)
      refine ⟨s.setVariableValue entry.1 none, .object entry.2,
        m.setTail (s.tails.elements entry.1).variableName none, ?_, rfl,
        .inl ⟨_, _, htail, hequal, rfl, rfl⟩, h.setTail (h.tails.set hfound none)⟩
      simp [RexxStem.removeElement, hvalue]

def Clean (s : RexxStem ν) (op : Op ν) : Prop := op = .remove [] → s.dropped = true

theorem step_agrees (h : s.Agrees o m) (op : Op ν) (hclean : s.Clean op) :
    ∃ s' r m', s.step o op = some (s', r) ∧ s'.uName = s.uName ∧
      m.Step o s.uName op m' r ∧ s'.Agrees o m' := by
  cases op with
  | bracketEqual newValue tails =>
      cases newValue with
      | none => exact ⟨s, .error .noarg, m, rfl, rfl, ⟨rfl, rfl⟩, h⟩
      | some value =>
          cases tails with
          | nil =>
              simp only [step, bracketEqual, StemModel.Step, if_true]
              cases o.isStem value with
              | true => exact ⟨s, .error .nostem, m, rfl, rfl, ⟨rfl, rfl⟩, h⟩
              | false => exact ⟨_, _, _, rfl, rfl, ⟨rfl, rfl⟩, agrees_clear s rfl nofun⟩
          | cons tail tails =>
              obtain ⟨s', hset, hname, hagrees⟩ :=
                h.setCompoundVariable (buildTail (tail :: tails)) value
              exact ⟨s', .nothing, _, by simp [step, bracketEqual, hset], hname, ⟨rfl, rfl⟩,
                hagrees⟩
  | setCompoundVariable tail value =>
      obtain ⟨s', hset, hname, hagrees⟩ := h.setCompoundVariable tail value
      exact ⟨s', .nothing, _, by simp [step, hset], hname, ⟨rfl, rfl⟩, hagrees⟩
  | dropCompoundVariable tail =>
      obtain ⟨s', hdrop, hname, hagrees⟩ := h.dropCompoundVariable tail
      exact ⟨s', .nothing, _, by simp [step, hdrop], hname, ⟨rfl, rfl⟩, hagrees⟩
  | remove tails =>
      cases tails with
      | nil =>
          exact ⟨_, _, _, rfl, rfl, ⟨rfl, by rw [h.value_eq]⟩, h.removeDefault (hclean rfl)⟩
      | cons tail tails =>
          obtain ⟨r, hfind, hr, hfound⟩ := h.find (buildTail (tail :: tails))
          obtain ⟨m', hremoves, hname, hagrees⟩ := h.removeElement hr hfound
          exact ⟨_, _, m', by simp [step, remove, hfind], hname, hremoves, hagrees⟩
  | removeItem target => exact h.removeItem target
  | empty =>
      exact ⟨_, _, _, rfl, rfl, ⟨rfl, rfl⟩, agrees_clear s h.default h.dropped⟩
  | dropValue => exact ⟨_, _, _, rfl, rfl, ⟨rfl, rfl⟩, h.dropValue⟩
  | bracket tails =>
      cases tails with
      | nil => exact ⟨s, _, m, rfl, rfl, ⟨rfl, by rw [h.value_eq]⟩, h⟩
      | cons tail tails =>
          exact ⟨s, _, m, by simp [step, bracket, h.evaluate], rfl, ⟨rfl, rfl⟩, h⟩
  | evaluate tail => exact ⟨s, _, m, by simp [step, h.evaluate], rfl, ⟨rfl, rfl⟩, h⟩
  | hasIndex tails =>
      cases tails with
      | nil => exact ⟨s, _, m, rfl, rfl, ⟨rfl, rfl⟩, h⟩
      | cons tail tails =>
          obtain ⟨r, hfind, hr, -⟩ := h.find (buildTail (tail :: tails))
          refine ⟨s, .logical ((m.tails (buildTail (tail :: tails))).getD none).isSome, m, ?_, rfl,
            ⟨rfl, rfl⟩, h⟩
          cases r <;> simp [step, hasIndex, hfind, hr]
  | items =>
      obtain ⟨l, hreal, hlists, -⟩ := h.realVariables
      exact ⟨s, .count l.length, m, by simp [step, items, hreal], rfl,
        ⟨rfl, _, hlists, by rw [List.length_map]⟩, h⟩
  | allItems =>
      obtain ⟨l, hreal, hlists, -⟩ := h.realVariables
      exact ⟨s, .values (l.map (·.2)), m, by simp [step, allItems, hreal], rfl,
        ⟨rfl, _, hlists, by rw [List.map_map]; rfl⟩, h⟩
  | allIndexes =>
      obtain ⟨l, hreal, hlists, -⟩ := h.realVariables
      exact ⟨s, .indexes (l.map fun entry => (s.tails.elements entry.1).variableName), m,
        by simp [step, tailArray, hreal], rfl, ⟨rfl, _, hlists, by rw [List.map_map]; rfl⟩, h⟩
  | supplier =>
      obtain ⟨l, hreal, hlists, -⟩ := h.realVariables
      exact ⟨s, .supplier _, m, by simp [step, supplier, hreal], rfl, ⟨rfl, _, hlists, rfl⟩, h⟩

def CleanRun (o : StemObjects ν) (s : RexxStem ν) : List (Op ν) → Prop
  | [] => True
  | op :: ops => s.Clean op ∧ ∀ s' r, s.step o op = some (s', r) → CleanRun o s' ops

theorem run_agrees {ops : List (Op ν)} (h : s.Agrees o m) (hclean : s.CleanRun o ops) :
    ∃ s' results, s.run o ops = some (s', results) ∧ m.Answers o s.uName ops results ∧
      ∃ m', s'.Agrees o m' := by
  induction ops generalizing s m with
  | nil => exact ⟨s, [], rfl, trivial, m, h⟩
  | cons op ops ih =>
      obtain ⟨s', r, m', hstep, hname, hmodel, h'⟩ := step_agrees h op hclean.1
      obtain ⟨s'', results, hrun, hanswers, hlast⟩ := ih h' (hclean.2 s' r hstep)
      exact ⟨s'', r :: results, by simp [run, hstep, hrun], ⟨m', hmodel, hname ▸ hanswers⟩, hlast⟩

theorem new_agrees (o : StemObjects ν) (name : List UInt8) :
    (new o name).Agrees o ⟨none, fun _ => none⟩ :=
  ⟨rfl, fun _ => rfl, CompoundTable.denotes_init⟩

/-- A run on a new stem returns what the same run of the model returns. -/
theorem run_refinesTails (o : StemObjects ν) (name : List UInt8) (ops : List (Op ν))
    (hclean : (new o name).CleanRun o ops) :
    ∃ s results, (new o name).run o ops = some (s, results) ∧
      (⟨none, fun _ => none⟩ : StemModel ν).Answers o name ops results := by
  obtain ⟨s, results, hrun, hanswers, -⟩ := run_agrees (new_agrees o name) hclean
  exact ⟨s, results, hrun, hanswers⟩

def stringObjects : StemObjects (List UInt8) := ⟨id, fun _ => false, fun a b => a == b⟩

/-- The stem `A.`: its default is removed while there is none. -/
theorem run_refinesTails_set_and_dropped :
    ∃ s results, (new stringObjects [65, 46]).run stringObjects
        [.remove [], .bracketEqual (some [53]) [], .setCompoundVariable [66] [49],
          .remove [some [66]], .evaluate [66], .evaluate [67], .allIndexes] =
          some (s, results) ∧
      (⟨none, fun _ => none⟩ : StemModel (List UInt8)).Answers stringObjects [65, 46]
        [.remove [], .bracketEqual (some [53]) [], .setCompoundVariable [66] [49],
          .remove [some [66]], .evaluate [66], .evaluate [67], .allIndexes] results :=
  run_refinesTails stringObjects [65, 46] _
    ⟨fun _ => rfl, fun _ _ _ => ⟨nofun, fun _ _ _ => ⟨nofun, fun _ _ _ => ⟨nofun, fun _ _ _ =>
      ⟨nofun, fun _ _ _ => ⟨nofun, fun _ _ _ => ⟨nofun, fun _ _ _ => trivial⟩⟩⟩⟩⟩⟩⟩

/-- The default 5 of `A.` is removed: `A.B` is then `A.`. -/
theorem remove_keeps_default :
    ∃ s results, (new stringObjects [65, 46]).run stringObjects
        [.bracketEqual (some [53]) [], .remove [], .evaluate [66]] = some (s, results) ∧
      ¬ (⟨none, fun _ => none⟩ : StemModel (List UInt8)).Answers stringObjects [65, 46]
        [.bracketEqual (some [53]) [], .remove [], .evaluate [66]] results := by
  refine ⟨_, [.object [53], .object [53], .object [65, 46]], rfl, ?_⟩
  rintro ⟨m₁, hset, m₂, hremove, m₃, hlookup, -⟩
  simp only [StemModel.Step, stringObjects, if_false, Bool.false_eq_true] at hset
  obtain ⟨rfl, -⟩ := hset
  obtain ⟨rfl, -⟩ := hremove
  exact absurd hlookup.2 (by decide)

end RexxStem

end LeooRexx
