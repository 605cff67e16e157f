import LeooRexx.Classes.RexxDirectoryViews
import LeooRexx.Foundation.DependencyOrder

/-!
# Dependencies between class directives

Every `::CLASS` directive gets a directory of the classes of the file that it refers to.
`resolveDependencies` installs a class whose directory is empty, takes its name out of the other
directories and starts again.  The directories are objects, so the table of the classes holds
references.
-/

namespace LeooRexx

open Relation

/-- The references of a `::CLASS` directive; the subclass may be named by `MIXINCLASS`. -/
structure ClassDirective where
  name : List UInt8
  metaclass : Option (List UInt8)
  subclassName : Option (List UInt8)
  inherits : Option (List (List UInt8))
  deriving DecidableEq

namespace ClassDirective

def publicName (c : ClassDirective) : List UInt8 := upper c.name

def references (c : ClassDirective) : List (List UInt8) :=
  c.metaclass.toList ++ c.subclassName.toList ++ c.inherits.getD []

def RefersTo (c c' : ClassDirective) : Prop := ∃ name ∈ c.references, upper name = c'.publicName

instance (c c' : ClassDirective) : Decidable (c.RefersTo c') :=
  inferInstanceAs (Decidable (∃ name ∈ c.references, upper name = c'.publicName))

end ClassDirective

inductive SourceError where
  | errorTranslationDuplicateClass
  | errorExecutionCyclic (programName : List UInt8)
  deriving DecidableEq

/-- `dependencies` are the directories that the table refers to. -/
structure RexxSource (μ : Type) where
  programName : List UInt8
  classes : List ClassDirective
  classDependencies : RexxDirectory Nat μ
  dependencies : Nat → RexxDirectory (List UInt8) μ

namespace RexxSource

variable {μ : Type} [Hashable (List UInt8)] (o : DirectoryObjects Nat μ)
  (names : DirectoryObjects (List UInt8) μ)

def newSource (programName : List UInt8) : RexxSource μ :=
  ⟨programName, [], .newDirectory, fun _ => .newDirectory⟩

def setDependencies (s : RexxSource μ) (r : Nat) (d : RexxDirectory (List UInt8) μ) :
    RexxSource μ :=
  { s with dependencies := Function.update s.dependencies r d }

def classDirective (s : RexxSource μ) (c : ClassDirective) :
    Option (Except SourceError (RexxSource μ)) := do
  match ← s.classDependencies.entry o c.publicName with
  | some _ => some (.error .errorTranslationDuplicateClass)
  | none =>
      let r := s.classes.length
      let table ← s.classDependencies.put r c.publicName
      some (.ok (RexxSource.mk s.programName (s.classes ++ [c]) table
        (Function.update s.dependencies r .newDirectory)))

def classDirectives (s : RexxSource μ) :
    List ClassDirective → Option (Except SourceError (RexxSource μ))
  | [] => some (.ok s)
  | c :: cs => do
      match ← s.classDirective o c with
      | .ok s => s.classDirectives cs
      | .error e => some (.error e)

/-- `class_dependencies->fastAt`, which must find the directory. -/
def fastAt (s : RexxSource μ) (c : ClassDirective) : Option Nat := do
  (← s.classDependencies.contents.get c.publicName)

def addDependency (s : RexxSource μ) (d : RexxDirectory (List UInt8) μ) (name : List UInt8) :
    Option (RexxDirectory (List UInt8) μ) := do
  match ← s.classDependencies.entry o name with
  | some _ => d.setEntry names name (some name)
  | none => some d

def collectDependencies (s : RexxSource μ) (c : ClassDirective) : Option (RexxSource μ) := do
  let r ← s.fastAt c
  let d ← c.references.foldlM (s.addDependency o names) (s.dependencies r)
  some (s.setDependencies r d)

def nextInstall (s : RexxSource μ) (i : Nat) :
    List (Option ClassDirective) → Option (Option (Nat × ClassDirective))
  | [] => some none
  | none :: slots => s.nextInstall (i + 1) slots
  | some currentClass :: slots => do
      let r ← s.fastAt currentClass
      if (s.dependencies r).items = 0 then some (some (i, currentClass))
      else s.nextInstall (i + 1) slots

def removeDependency (className : List UInt8) (s : RexxSource μ) :
    Option ClassDirective → Option (RexxSource μ)
  | none => some s
  | some currentClass => do
      let r ← s.fastAt currentClass
      let (_, d) ← (s.dependencies r).remove names className
      some (s.setDependencies r d)

/-- `next_class` runs up to the number of the classes. -/
def installLoop (s : RexxSource μ) (slots : List (Option ClassDirective))
    (classOrder : List ClassDirective) :
    Nat → Option (Except SourceError (List ClassDirective))
  | 0 => some (.ok classOrder)
  | left + 1 => do
      match ← s.nextInstall 0 slots with
      | none => some (.error (.errorExecutionCyclic s.programName))
      | some (i, next) => do
          let s ← slots.foldlM (removeDependency names next.publicName) s
          s.installLoop (slots.set i none) (classOrder ++ [next]) left

def resolveDependencies (s : RexxSource μ) :
    Option (Except SourceError (List ClassDirective)) := do
  let collected ← s.classes.foldlM (collectDependencies o names) s
  collected.installLoop names (s.classes.map some) [] s.classes.length

/-! ## Directories of names -/

def Holds (d : RexxDirectory (List UInt8) μ) (p : List UInt8 → Prop) : Prop :=
  ∃ values, d.Stands values KeyMap.empty ∧ ∀ name, (values name).isSome ↔ p name

variable {d : RexxDirectory (List UInt8) μ} {p q : List UInt8 → Prop}

theorem Holds.congr (h : Holds d p) (hpq : ∀ name, p name ↔ q name) : Holds d q := by
  obtain ⟨values, hstands, hnames⟩ := h
  exact ⟨values, hstands, fun name => (hnames name).trans (hpq name)⟩

theorem newDirectory_holds : Holds (.newDirectory : RexxDirectory (List UInt8) μ) fun _ => False :=
  ⟨KeyMap.empty, RexxDirectory.newDirectory_stands, fun _ => by simp [KeyMap.empty]⟩

theorem Holds.items_eq_zero (h : Holds d p) : d.items = 0 ↔ ∀ name, ¬ p name := by
  obtain ⟨values, hstands, hnames⟩ := h
  obtain ⟨vs, ms, hentries⟩ := hstands.entries
  have hms : ms = [] := by
    rw [List.eq_nil_iff_forall_not_mem]
    intro entry hentry
    exact absurd ((hentries.mem_methods entry.1 entry.2).mp hentry) nofun
  have hvs : vs = [] ↔ ∀ name, ¬ p name := by
    constructor
    · intro hnil name hname
      obtain ⟨value, hvalue⟩ := Option.isSome_iff_exists.mp ((hnames name).mpr hname)
      have hmem := (hentries.mem_values name value).mpr hvalue
      simp [hnil] at hmem
    · intro hnone
      rw [List.eq_nil_iff_forall_not_mem]
      intro entry hentry
      have hvalue := (hentries.mem_values entry.1 entry.2).mp hentry
      exact hnone entry.1 ((hnames entry.1).mp (by simp [hvalue]))
  rw [hentries.items, hms, ← hvs]
  simp

theorem Holds.setEntry (h : Holds d p) (name value : List UInt8) :
    ∃ d', d.setEntry names name (some value) = some d' ∧
      Holds d' fun name' => p name' ∨ name' = upper name := by
  obtain ⟨values, hstands, hnames⟩ := h
  obtain ⟨d', hset, hstands'⟩ := hstands.setValue (o := names) name value
  rw [KeyMap.remove_eq_self rfl] at hstands'
  refine ⟨d', hset, _, hstands', fun name' => ?_⟩
  by_cases heq : name' = upper name
  · simp [heq, KeyMap.put_self]
  · rw [KeyMap.put_of_ne values value heq, hnames name']
    simp [heq]

theorem Holds.remove (h : Holds d p) (name : List UInt8) :
    ∃ value d', d.remove names name = some (value, d') ∧
      Holds d' fun name' => p name' ∧ name' ≠ name := by
  obtain ⟨values, hstands, hnames⟩ := h
  obtain ⟨d', hremove, hstands'⟩ := hstands.remove (o := names) name
  rw [KeyMap.remove_eq_self (m := KeyMap.empty) rfl] at hstands'
  refine ⟨_, d', hremove, _, hstands', fun name' => ?_⟩
  by_cases heq : name' = name
  · simp [heq, KeyMap.remove_self]
  · rw [KeyMap.remove_of_ne values heq, hnames name']
    simp [heq]

/-! ## The table of the classes -/

variable {s : RexxSource μ} {refs : KeyMap (List UInt8) Nat} {c : ClassDirective}

structure TableOf (classes : List ClassDirective) (table : RexxDirectory Nat μ)
    (refs : KeyMap (List UInt8) Nat) : Prop where
  stands : table.Stands refs KeyMap.empty
  named : ∀ name, (refs name).isSome ↔ ∃ c ∈ classes, c.publicName = name
  inj : ∀ name name' r, refs name = some r → refs name' = some r → name = name'
  lt : ∀ name r, refs name = some r → r < classes.length

theorem TableOf.entry (h : TableOf s.classes s.classDependencies refs) (name : List UInt8) :
    s.classDependencies.entry o name = some (refs (upper name)) := by
  rw [RexxDirectory.entry, h.stands.at_eq, RexxDirectory.valueAt]
  cases refs (upper name) <;> rfl

theorem TableOf.fastAt (h : TableOf s.classes s.classDependencies refs) (hc : c ∈ s.classes) :
    ∃ r, s.fastAt c = some r ∧ refs c.publicName = some r := by
  obtain ⟨r, hr⟩ := Option.isSome_iff_exists.mp ((h.named _).mpr ⟨c, hc, rfl⟩)
  refine ⟨r, ?_, hr⟩
  simp [RexxSource.fastAt, HashTable.get_spec h.stands.valid h.stands.refines, hr]

theorem TableOf.put (h : TableOf s.classes s.classDependencies refs)
    (hnew : ∀ c' ∈ s.classes, c'.publicName ≠ c.publicName) :
    ∃ table refs', s.classDependencies.put s.classes.length c.publicName = some table ∧
      TableOf (s.classes ++ [c]) table refs' := by
  obtain ⟨table, hput, hstands⟩ := h.stands.put s.classes.length c.publicName
  rw [KeyMap.remove_eq_self rfl] at hstands
  refine ⟨table, _, hput, hstands, ?_, ?_, ?_⟩
  · intro name
    by_cases heq : name = c.publicName
    · simp [heq, KeyMap.put_self]
    · have hlast : ∀ c' ∈ [c], c'.publicName ≠ name := by simpa using Ne.symm heq
      rw [KeyMap.put_of_ne refs _ heq, h.named name]
      simp only [List.mem_append, or_and_right, exists_or]
      exact ⟨.inl, fun hor => hor.resolve_right fun ⟨c', hc', hname⟩ => hlast c' hc' hname⟩
  · intro name name' r hname hname'
    by_cases heq : name = c.publicName
    · by_cases heq' : name' = c.publicName
      · rw [heq, heq']
      · rw [heq, KeyMap.put_self] at hname
        rw [KeyMap.put_of_ne refs _ heq'] at hname'
        have hlt := h.lt name' r hname'
        have := Option.some.inj hname
        omega
    · rw [KeyMap.put_of_ne refs _ heq] at hname
      by_cases heq' : name' = c.publicName
      · rw [heq', KeyMap.put_self] at hname'
        have hlt := h.lt name r hname
        have := Option.some.inj hname'
        omega
      · rw [KeyMap.put_of_ne refs _ heq'] at hname'
        exact h.inj name name' r hname hname'
  · intro name r hname
    rw [List.length_append, List.length_singleton]
    by_cases heq : name = c.publicName
    · rw [heq, KeyMap.put_self] at hname
      have := Option.some.inj hname
      omega
    · rw [KeyMap.put_of_ne refs _ heq] at hname
      have := h.lt name r hname
      omega

/-! ## The dependencies of each class -/

variable {left : ClassDirective → Prop} {needed needed' : ClassDirective → List UInt8 → Prop}

structure Pending (s : RexxSource μ) (refs : KeyMap (List UInt8) Nat)
    (left : ClassDirective → Prop) (needed : ClassDirective → List UInt8 → Prop) : Prop where
  distinct : (s.classes.map ClassDirective.publicName).Nodup
  table : TableOf s.classes s.classDependencies refs
  holds : ∀ c ∈ s.classes, left c → ∀ r, refs c.publicName = some r →
    Holds (s.dependencies r) (needed c)

theorem Pending.congr (h : Pending s refs left needed)
    (hneeded : ∀ c ∈ s.classes, left c → ∀ name, needed c name ↔ needed' c name) :
    Pending s refs left needed' :=
  ⟨h.distinct, h.table, fun c hc hleft r hr =>
    (h.holds c hc hleft r hr).congr (hneeded c hc hleft)⟩

theorem Pending.imp {left' : ClassDirective → Prop} (h : Pending s refs left needed)
    (hleft : ∀ c, left' c → left c) : Pending s refs left' needed :=
  ⟨h.distinct, h.table, fun c hc hleft' => h.holds c hc (hleft c hleft')⟩

theorem Pending.eq_of_publicName (h : Pending s refs left needed) {c' : ClassDirective}
    (hc : c ∈ s.classes) (hc' : c' ∈ s.classes) (hname : c.publicName = c'.publicName) : c = c' :=
  List.inj_on_of_nodup_map h.distinct hc hc' hname

theorem Pending.set (h : Pending s refs left needed) (hc : c ∈ s.classes) {r : Nat}
    (hr : refs c.publicName = some r) (hd : Holds d p)
    (hneeded : ∀ name, needed' c name ↔ p name)
    (hother : ∀ c' ≠ c, ∀ name, needed c' name ↔ needed' c' name) :
    Pending (s.setDependencies r d) refs left needed' := by
  refine ⟨h.distinct, h.table, fun c' hc' hleft r' hr' => ?_⟩
  change Holds (Function.update s.dependencies r d r') (needed' c')
  by_cases heq : r' = r
  · subst heq
    have hsame := h.eq_of_publicName hc' hc (h.table.inj _ _ _ hr' hr)
    subst hsame
    rw [Function.update_self]
    exact hd.congr fun name => (hneeded name).symm
  · have hne : c' ≠ c := by
      rintro rfl
      exact heq (Option.some.inj (hr'.symm.trans hr))
    rw [Function.update_of_ne heq]
    exact (h.holds c' hc' hleft r' hr').congr (hother c' hne)

def NeedsName (classes : List ClassDirective) (order : List ClassDirective) (c : ClassDirective)
    (name : List UInt8) : Prop :=
  ∃ c' ∈ classes, c' ∉ order ∧ c'.publicName = name ∧ c.RefersTo c'

omit [Hashable (List UInt8)] in
theorem not_needsName_iff {classes order : List ClassDirective} :
    (∀ name, ¬ NeedsName classes order c name) ↔
      ReadyAfter classes order ClassDirective.RefersTo c := by
  constructor
  · intro hnone c' hc' hrefers
    by_contra hout
    exact hnone c'.publicName ⟨c', hc', hout, rfl, hrefers⟩
  · rintro hready name ⟨c', hc', hout, -, hrefers⟩
    exact hout (hready c' hc' hrefers)

/-! ## Collecting -/

theorem addDependency_spec (h : TableOf s.classes s.classDependencies refs) (hd : Holds d p)
    (name : List UInt8) :
    ∃ d', s.addDependency o names d name = some d' ∧ Holds d' fun name' =>
      p name' ∨ name' = upper name ∧ ∃ c ∈ s.classes, c.publicName = name' := by
  rw [addDependency, h.entry]
  cases hr : refs (upper name) with
  | none =>
      refine ⟨d, rfl, hd.congr fun name' => ⟨.inl, fun hor => hor.resolve_right ?_⟩⟩
      rintro ⟨rfl, hclass⟩
      have hsome := (h.named _).mpr hclass
      simp [hr] at hsome
  | some r =>
      obtain ⟨d', hset, hd'⟩ := hd.setEntry names name name
      refine ⟨d', hset, hd'.congr fun name' => or_congr_right ⟨fun heq => ⟨heq, ?_⟩, And.left⟩⟩
      rw [heq]
      exact (h.named _).mp (by simp [hr])

theorem addDependencies_spec (h : TableOf s.classes s.classDependencies refs)
    (references : List (List UInt8)) {d : RexxDirectory (List UInt8) μ} {p : List UInt8 → Prop}
    (hd : Holds d p) :
    ∃ d', references.foldlM (s.addDependency o names) d = some d' ∧
      Holds d' fun name' => p name' ∨
        (∃ name ∈ references, upper name = name') ∧ ∃ c ∈ s.classes, c.publicName = name' := by
  induction references generalizing d p with
  | nil => exact ⟨d, rfl, hd.congr fun name' => by simp⟩
  | cons name references ih =>
      obtain ⟨d₁, hadd, hd₁⟩ := addDependency_spec o names h hd name
      obtain ⟨d', hfold, hd'⟩ := ih hd₁
      refine ⟨d', ?_, hd'.congr fun name' => ?_⟩
      · simp [List.foldlM_cons, hadd, hfold]
      · simp only [List.exists_mem_cons_iff, or_and_right, or_assoc, eq_comm (a := name')]

theorem collectDependencies_spec (h : Pending s refs left needed) (hc : c ∈ s.classes)
    (hleft : left c) :
    ∃ ds, s.collectDependencies o names c = some { s with dependencies := ds } ∧
      Pending { s with dependencies := ds } refs left
        fun c' name => needed c' name ∨ c' = c ∧ NeedsName s.classes [] c' name := by
  obtain ⟨r, hfast, hr⟩ := h.table.fastAt hc
  obtain ⟨d, hfold, hd⟩ :=
    addDependencies_spec o names h.table c.references (h.holds c hc hleft r hr)
  refine ⟨_, by simp only [collectDependencies, hfast, hfold, Option.bind_eq_bind,
    Option.bind_some]; rfl, h.set hc hr hd (fun name => ?_) fun c' hne name => by simp [hne]⟩
  simp only [true_and, NeedsName, List.not_mem_nil, not_false_eq_true]
  refine or_congr_right ⟨?_, ?_⟩
  · rintro ⟨c', hc', rfl, hrefers⟩
    exact ⟨hrefers, c', hc', rfl⟩
  · rintro ⟨hrefers, c', hc', rfl⟩
    exact ⟨c', hc', rfl, hrefers⟩

theorem collectAll_spec {part : List ClassDirective} (hpart : part ⊆ s.classes)
    (h : Pending s refs (fun _ => True) needed) :
    ∃ ds, part.foldlM (collectDependencies o names) s = some { s with dependencies := ds } ∧
      Pending { s with dependencies := ds } refs (fun _ => True)
        fun c name => needed c name ∨ c ∈ part ∧ NeedsName s.classes [] c name := by
  induction part generalizing s needed with
  | nil => exact ⟨s.dependencies, rfl, h.congr fun c _ _ name => by simp⟩
  | cons c part ih =>
      obtain ⟨hc, hpart⟩ := List.cons_subset.mp hpart
      obtain ⟨ds₁, hcollect, h₁⟩ := collectDependencies_spec o names h hc trivial
      obtain ⟨ds, hfold, h'⟩ := ih (s := { s with dependencies := ds₁ }) hpart h₁
      refine ⟨ds, ?_, h'.congr fun c' _ _ name => ?_⟩
      · rw [List.foldlM_cons, hcollect]
        exact hfold
      · simp only [List.mem_cons, or_and_right, or_assoc]

/-! ## Installing -/

def slot (order : List ClassDirective) (c : ClassDirective) : Option ClassDirective :=
  if c ∈ order then none else some c

variable {order : List ClassDirective}

theorem removeDependency_spec (h : Pending s refs (· ∉ order) needed) (hc : c ∈ s.classes)
    (className : List UInt8) :
    ∃ ds, s.removeDependency names className (slot order c) = some { s with dependencies := ds } ∧
      Pending { s with dependencies := ds } refs (· ∉ order)
        fun c' name => needed c' name ∧ (c' = c → name ≠ className) := by
  rw [slot]
  by_cases hin : c ∈ order
  · rw [if_pos hin]
    refine ⟨s.dependencies, rfl, h.congr fun c' _ hleft name => ?_⟩
    have hne : c' ≠ c := by
      rintro rfl
      exact hleft hin
    simp [hne]
  · rw [if_neg hin]
    obtain ⟨r, hfast, hr⟩ := h.table.fastAt hc
    obtain ⟨value, d, hremove, hd⟩ := (h.holds c hc hin r hr).remove names className
    exact ⟨_, by simp only [removeDependency, hfast, hremove, Option.bind_eq_bind,
      Option.bind_some]; rfl, h.set hc hr hd (fun name => by simp) fun c' hne name => by simp [hne]⟩

theorem removeAll_spec {part : List ClassDirective} (hpart : part ⊆ s.classes)
    (h : Pending s refs (· ∉ order) needed) (className : List UInt8) :
    ∃ ds, (part.map (slot order)).foldlM (removeDependency names className) s =
        some { s with dependencies := ds } ∧
      Pending { s with dependencies := ds } refs (· ∉ order)
        fun c name => needed c name ∧ (c ∈ part → name ≠ className) := by
  induction part generalizing s needed with
  | nil => exact ⟨s.dependencies, rfl, h.congr fun c _ _ name => by simp⟩
  | cons c part ih =>
      obtain ⟨hc, hpart⟩ := List.cons_subset.mp hpart
      obtain ⟨ds₁, hremove, h₁⟩ := removeDependency_spec names h hc className
      obtain ⟨ds, hfold, h'⟩ := ih (s := { s with dependencies := ds₁ }) hpart h₁
      refine ⟨ds, ?_, h'.congr fun c' _ _ name => ?_⟩
      · rw [List.map_cons, List.foldlM_cons, hremove]
        exact hfold
      · simp only [List.mem_cons, or_imp, and_assoc]

structure FirstReady (s : RexxSource μ) (part order : List ClassDirective) (c : ClassDirective)
    (front back : List ClassDirective) : Prop where
  split : part = front ++ c :: back
  left : c ∉ order
  ready : ReadyAfter s.classes order ClassDirective.RefersTo c
  first : ∀ c' ∈ front, c' ∉ order → ¬ ReadyAfter s.classes order ClassDirective.RefersTo c'

theorem nextInstall_spec {part : List ClassDirective} (hpart : part ⊆ s.classes)
    (h : Pending s refs (· ∉ order) (NeedsName s.classes order)) (i : Nat) :
    (s.nextInstall i (part.map (slot order)) = some none ∧
        ∀ c ∈ part, c ∉ order → ¬ ReadyAfter s.classes order ClassDirective.RefersTo c) ∨
      ∃ c front back, s.nextInstall i (part.map (slot order)) = some (some (i + front.length, c)) ∧
        FirstReady s part order c front back := by
  induction part generalizing i with
  | nil => exact .inl ⟨rfl, nofun⟩
  | cons c part ih =>
      obtain ⟨hc, hpart⟩ := List.cons_subset.mp hpart
      have hlater : c ∈ order ∨ ¬ ReadyAfter s.classes order ClassDirective.RefersTo c →
          s.nextInstall i ((c :: part).map (slot order)) =
            s.nextInstall (i + 1) (part.map (slot order)) := by
        intro hnot
        rw [List.map_cons, slot]
        by_cases hin : c ∈ order
        · rw [if_pos hin]
          rfl
        · obtain ⟨r, hfast, hr⟩ := h.table.fastAt hc
          have hitems := (h.holds c hc hin r hr).items_eq_zero
          rw [not_needsName_iff] at hitems
          rw [if_neg hin]
          simp [nextInstall, hfast, hitems, hnot.resolve_left hin]
      by_cases hskip : c ∈ order ∨ ¬ ReadyAfter s.classes order ClassDirective.RefersTo c
      · rw [hlater hskip]
        rcases ih hpart (i + 1) with ⟨hnone, hall⟩ | ⟨c', front, back, hfound, hfirst⟩
        · refine .inl ⟨hnone, fun c' hc' hout => ?_⟩
          rcases List.mem_cons.mp hc' with rfl | hc'
          · exact hskip.resolve_left hout
          · exact hall c' hc' hout
        · refine .inr ⟨c', c :: front, back, ?_, ?_, hfirst.left, hfirst.ready, ?_⟩
          · rw [hfound, List.length_cons]
            congr 3
            omega
          · rw [hfirst.split, List.cons_append]
          · intro b hb hout
            rcases List.mem_cons.mp hb with rfl | hb
            · exact hskip.resolve_left hout
            · exact hfirst.first b hb hout
      · obtain ⟨hout, hready⟩ := not_or.mp hskip
        have hready := not_not.mp hready
        obtain ⟨r, hfast, hr⟩ := h.table.fastAt hc
        have hitems := (h.holds c hc hout r hr).items_eq_zero
        rw [not_needsName_iff] at hitems
        refine .inr ⟨c, [], part, ?_, rfl, hout, hready, nofun⟩
        rw [List.map_cons, slot, if_neg hout]
        simp [nextInstall, hfast, hitems.mpr hready]

omit [Hashable (List UInt8)] in
theorem map_slot_set {classes front back : List ClassDirective} (hnodup : classes.Nodup)
    (hsplit : classes = front ++ c :: back) :
    (classes.map (slot order)).set front.length none = classes.map (slot (order ++ [c])) := by
  rw [hsplit, List.nodup_append, List.nodup_cons] at hnodup
  obtain ⟨-, ⟨hback, -⟩, hfront⟩ := hnodup
  have hkept : ∀ c' ≠ c, slot (order ++ [c]) c' = slot order c' := by
    intro c' hne
    simp [slot, hne]
  have hgone : slot (order ++ [c]) c = none := by simp [slot]
  have hmapFront : front.map (slot (order ++ [c])) = front.map (slot order) :=
    List.map_congr_left fun c' hc' => hkept c' (hfront c' hc' c List.mem_cons_self)
  have hmapBack : back.map (slot (order ++ [c])) = back.map (slot order) :=
    List.map_congr_left fun c' hc' => hkept c' (ne_of_mem_of_not_mem hc' hback)
  rw [hsplit, List.map_append, List.map_append, List.map_cons, List.map_cons, hmapFront, hmapBack,
    hgone, List.set_append_right _ _ (by simp)]
  simp

theorem Pending.installed (h : Pending s refs (· ∉ order) (NeedsName s.classes order))
    (hc : c ∈ s.classes) :
    ∃ ds, (s.classes.map (slot order)).foldlM (removeDependency names c.publicName) s =
        some { s with dependencies := ds } ∧
      Pending { s with dependencies := ds } refs (· ∉ order ++ [c])
        (NeedsName s.classes (order ++ [c])) := by
  obtain ⟨ds, hfold, h'⟩ := removeAll_spec names (List.Subset.refl _) h c.publicName
  refine ⟨ds, hfold, (h'.imp fun c' hout hin => hout (List.mem_append_left _ hin)).congr
    fun c' hc' _ name => ?_⟩
  constructor
  · rintro ⟨⟨b, hb, hout, rfl, hrefers⟩, hne⟩
    refine ⟨b, hb, ?_, rfl, hrefers⟩
    rw [List.mem_append, List.mem_singleton]
    rintro (hin | rfl)
    · exact hout hin
    · exact hne hc' rfl
  · rintro ⟨b, hb, hout, rfl, hrefers⟩
    rw [List.mem_append, List.mem_singleton, not_or] at hout
    refine ⟨⟨b, hb, hout.1, rfl, hrefers⟩, fun _ hname => hout.2 ?_⟩
    exact h.eq_of_publicName hb hc hname

def Resolved (s : RexxSource μ) : Except SourceError (List ClassDirective) → Prop
  | .error e => e = .errorExecutionCyclic s.programName ∧
      ∃ c, TransGen (NeedsWithin s.classes ClassDirective.RefersTo) c c
  | .ok classOrder => Placed s.classes ClassDirective.RefersTo classOrder ∧
      s.classes.length ≤ classOrder.length

theorem installLoop_spec {count : Nat} (h : Pending s refs (· ∉ order) (NeedsName s.classes order))
    (hplaced : Placed s.classes ClassDirective.RefersTo order)
    (hcount : order.length + count = s.classes.length) :
    ∃ result, s.installLoop names (s.classes.map (slot order)) order count = some result ∧
      s.Resolved result := by
  induction count generalizing s order with
  | zero => exact ⟨.ok order, rfl, hplaced, by omega⟩
  | succ count ih =>
      rw [installLoop]
      rcases nextInstall_spec (List.Subset.refl _) h 0 with
        ⟨hnone, hstuck⟩ | ⟨c, front, back, hfound, hfirst⟩
      · refine ⟨.error (.errorExecutionCyclic s.programName), by rw [hnone]; rfl, rfl,
          exists_cycle_of_stuck ?_ hstuck⟩
        by_contra hall
        push Not at hall
        have hle := (List.subperm_of_subset (h.distinct.of_map _) hall).length_le
        omega
      · have hc : c ∈ s.classes := by
          rw [hfirst.split]
          exact List.mem_append_right front List.mem_cons_self
        obtain ⟨ds, hfold, h'⟩ := h.installed names hc
        have hnext := hplaced.next hfirst.split hfirst.left hfirst.ready hfirst.first
        have hlength : (order ++ [c]).length + count = s.classes.length := by
          rw [List.length_append, List.length_singleton]
          omega
        obtain ⟨result, hloop, hresult⟩ :=
          ih (s := { s with dependencies := ds }) h' hnext hlength
        rw [← map_slot_set (h.distinct.of_map _) hfirst.split] at hloop
        refine ⟨result, ?_, hresult⟩
        simp only [hfound, Option.bind_eq_bind, Option.bind_some, Nat.zero_add, hfold]
        exact hloop

/-! ## From the directives to the order -/

structure Declared (s : RexxSource μ) (programName : List UInt8) (classes : List ClassDirective) :
    Prop where
  programName_eq : s.programName = programName
  classes_eq : s.classes = classes
  table : ∃ refs, TableOf s.classes s.classDependencies refs
  empty : ∀ r, s.dependencies r = .newDirectory

variable {programName : List UInt8} {classes : List ClassDirective}

theorem newSource_declared : (newSource programName : RexxSource μ).Declared programName [] where
  programName_eq := rfl
  classes_eq := rfl
  table := ⟨KeyMap.empty, RexxDirectory.newDirectory_stands, by simp [newSource, KeyMap.empty],
    nofun, nofun⟩
  empty _ := rfl

theorem Declared.classDirective (h : s.Declared programName classes)
    (hnew : ∀ c' ∈ classes, c'.publicName ≠ c.publicName) :
    ∃ s', s.classDirective o c = some (.ok s') ∧ s'.Declared programName (classes ++ [c]) := by
  obtain ⟨refs, htable⟩ := h.table
  rw [← h.classes_eq] at hnew
  obtain ⟨table, refs', hput, htable'⟩ := htable.put hnew
  have hunknown : refs (upper c.publicName) = none := by
    rw [ClassDirective.publicName, upper_upper, ← Option.not_isSome_iff_eq_none, htable.named]
    rintro ⟨c', hc', hname⟩
    exact hnew c' hc' hname
  let s' := RexxSource.mk s.programName (s.classes ++ [c]) table
    (Function.update s.dependencies s.classes.length .newDirectory)
  have hdirective : s.classDirective o c = some (.ok s') := by
    simp only [RexxSource.classDirective, htable.entry, hunknown, hput, Option.bind_eq_bind,
      Option.bind_some]
    rfl
  refine ⟨s', hdirective, h.programName_eq, ?_, ⟨refs', htable'⟩, ?_⟩
  · change s.classes ++ [c] = classes ++ [c]
    rw [h.classes_eq]
  · intro r
    change Function.update s.dependencies s.classes.length .newDirectory r = .newDirectory
    by_cases heq : r = s.classes.length
    · rw [heq, Function.update_self]
    · rw [Function.update_of_ne heq, h.empty]

theorem Declared.classDirectives (h : s.Declared programName classes) {cs : List ClassDirective}
    (hdistinct : ((classes ++ cs).map ClassDirective.publicName).Nodup) :
    ∃ s', s.classDirectives o cs = some (.ok s') ∧ s'.Declared programName (classes ++ cs) := by
  induction cs generalizing s classes with
  | nil => exact ⟨s, rfl, by simpa using h⟩
  | cons c cs ih =>
      have hnew : ∀ c' ∈ classes, c'.publicName ≠ c.publicName := by
        intro c' hc'
        rw [List.map_append, List.nodup_append] at hdistinct
        exact hdistinct.2.2 _ (List.mem_map_of_mem hc') _ (by simp)
      obtain ⟨s₁, hfirst, h₁⟩ := h.classDirective o hnew
      obtain ⟨s', hrest, h'⟩ := ih h₁ (by simpa using hdistinct)
      refine ⟨s', ?_, by simpa using h'⟩
      rw [RexxSource.classDirectives, hfirst]
      exact hrest

theorem Declared.resolveDependencies (h : s.Declared programName classes)
    (hdistinct : (classes.map ClassDirective.publicName).Nodup) :
    ∃ result, s.resolveDependencies o names = some result ∧ s.Resolved result := by
  obtain ⟨refs, htable⟩ := h.table
  rw [← h.classes_eq] at hdistinct
  have hempty : Pending s refs (fun _ => True) fun _ _ => False := by
    refine ⟨hdistinct, htable, fun c _ _ r _ => ?_⟩
    rw [h.empty]
    exact newDirectory_holds
  obtain ⟨ds, hcollect, hpending⟩ := collectAll_spec o names (List.Subset.refl _) hempty
  have hstart : Pending { s with dependencies := ds } refs (· ∉ [])
      (NeedsName s.classes []) := by
    refine (hpending.imp fun _ _ => trivial).congr fun c hc _ name => ?_
    simp only [false_or]
    exact ⟨And.right, fun hneeds => ⟨hc, hneeds⟩⟩
  have hcount : ([] : List ClassDirective).length + s.classes.length = s.classes.length :=
    Nat.zero_add _
  obtain ⟨result, hloop, hresult⟩ := installLoop_spec names hstart .nil hcount
  refine ⟨result, ?_, hresult⟩
  have hslots : s.classes.map (slot []) = s.classes.map some :=
    List.map_congr_left fun c _ => by simp [slot]
  change installLoop names { s with dependencies := ds } (s.classes.map (slot [])) []
    s.classes.length = some result at hloop
  rw [hslots] at hloop
  rw [RexxSource.resolveDependencies, hcollect]
  exact hloop

def Cyclic (classes : List ClassDirective) : Prop :=
  ∃ c, TransGen (NeedsWithin classes ClassDirective.RefersTo) c c

structure InstallOrder (classes order : List ClassDirective) : Prop where
  perm : order.Perm classes
  ready : ∀ pre c post, order = pre ++ c :: post →
    ReadyAfter classes pre ClassDirective.RefersTo c
  earliest : ∀ pre c post, order = pre ++ c :: post → ∃ front back, classes = front ++ c :: back ∧
    ∀ c' ∈ front, c' ∉ pre → ¬ ReadyAfter classes pre ClassDirective.RefersTo c'

omit [Hashable (List UInt8)] in
theorem installOrder_of_placed {classes order : List ClassDirective}
    (h : Placed classes ClassDirective.RefersTo order) (hlength : classes.length ≤ order.length) :
    InstallOrder classes order :=
  ⟨(List.subperm_of_subset h.nodup h.subset).perm_of_length_le hlength,
    fun _ _ _ hat => (h.at_place hat).1, fun _ _ _ hat => (h.at_place hat).2⟩

theorem Resolved.orders {result : Except SourceError (List ClassDirective)}
    (h : s.Resolved result) :
    (result = .error (.errorExecutionCyclic s.programName) ↔ Cyclic s.classes) ∧
      (¬ Cyclic s.classes → ∃ order, result = .ok order ∧ InstallOrder s.classes order) := by
  cases result with
  | error e =>
      obtain ⟨rfl, hcycle⟩ := h
      exact ⟨⟨fun _ => hcycle, fun _ => rfl⟩, fun hacyclic => absurd hcycle hacyclic⟩
  | ok order =>
      obtain ⟨hplaced, hlength⟩ := h
      have horder := installOrder_of_placed hplaced hlength
      have hacyclic : ¬ Cyclic s.classes := by
        rintro ⟨c, hcycle⟩
        exact hplaced.no_cycle horder.perm.symm.subset c hcycle
      exact ⟨⟨nofun, fun hcycle => absurd hcycle hacyclic⟩, fun _ => ⟨order, rfl, horder⟩⟩

/-- The directives of a file are put into an order, or they are cyclic. -/
theorem resolveDependencies_orders (programName : List UInt8) (classes : List ClassDirective)
    (hdistinct : (classes.map ClassDirective.publicName).Nodup) :
    ∃ s result, (newSource programName).classDirectives o classes = some (.ok s) ∧
      s.resolveDependencies o names = some result ∧
      (result = .error (.errorExecutionCyclic programName) ↔ Cyclic classes) ∧
      (¬ Cyclic classes → ∃ order, result = .ok order ∧ InstallOrder classes order) := by
  have hdistinct' : (([] ++ classes).map ClassDirective.publicName).Nodup := by
    rwa [List.nil_append]
  obtain ⟨s, hdirectives, hdeclared⟩ := newSource_declared.classDirectives o hdistinct'
  rw [List.nil_append] at hdeclared
  obtain ⟨result, hresolve, hresult⟩ := hdeclared.resolveDependencies o names hdistinct
  refine ⟨s, result, hdirectives, hresolve, ?_⟩
  have horders := hresult.orders
  rwa [hdeclared.programName_eq, hdeclared.classes_eq] at horders

def plainReferences : DirectoryObjects Nat Empty := ⟨fun _ => 0, id, nofun, nofun, (· == ·)⟩

def plainNames : DirectoryObjects (List UInt8) Empty := ⟨id, id, nofun, nofun, (· == ·)⟩

/-- `::CLASS a METACLASS "b"` and `::CLASS B`. -/
def laterReference : List ClassDirective :=
  [⟨[65], some [98], none, none⟩, ⟨[66], none, none, none⟩]

omit [Hashable (List UInt8)] in
theorem resolveDependencies_orders_later :
    letI : Hashable (List UInt8) := ⟨fun name => name.length.toUInt64⟩
    ∃ s result, (newSource [80]).classDirectives plainReferences laterReference = some (.ok s) ∧
      s.resolveDependencies plainReferences plainNames = some result ∧
      (result = .error (.errorExecutionCyclic [80]) ↔ Cyclic laterReference) ∧
      (¬ Cyclic laterReference → ∃ order, result = .ok order ∧ InstallOrder laterReference order) :=
  letI : Hashable (List UInt8) := ⟨fun name => name.length.toUInt64⟩
  resolveDependencies_orders plainReferences plainNames [80] laterReference (by decide)

end RexxSource

end LeooRexx
