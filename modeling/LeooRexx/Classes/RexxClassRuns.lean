import LeooRexx.Classes.RexxClassGraph

/-!
# Runs of the class operations

A run keeps the inheritance graph as long as no `uninherit` succeeds and no mixin class is
inherited by one of its own superclasses that its class behaviour has lost.  A successful
`uninherit` removes the wrong tuple and leaves the receiver in the subclass list of the mixin
class.
-/

namespace LeooRexx

namespace RexxClass

open Relation

variable {w w' : World} {a b c d s this mixin_class : ℕ}

/-! ## Making classes -/

theorem getElem_addClass_self (w : World) (object : ClassObject) :
    (w.addClass object).classes w.count = object := Function.update_self ..

theorem classes_addClass_of_ne (object : ClassObject) (h : c ≠ w.count) :
    (w.addClass object).classes c = w.classes c := Function.update_of_ne h ..

theorem super_addClass (h : Graph w) {object : ClassObject}
    (hsuper : object.classSuperClasses = [this]) :
    Super (w.addClass object) c s ↔ Super w c s ∨ (c = w.count ∧ s = this) := by
  rcases eq_or_ne c w.count with rfl | hne
  · have hnone : ¬ Super w w.count s := fun hs => lt_irrefl _ (h.bounded _ _ hs).1
    rw [Super, getElem_addClass_self, hsuper]
    simp [hnone]
  · rw [Super, classes_addClass_of_ne object hne]
    simp [Super, hne]

theorem Graph.not_super_count (h : Graph w) (c : ClassRef) : ¬ Super w c w.count :=
  fun hs => lt_irrefl _ (h.bounded _ _ hs).2

theorem Graph.acyclic_addClass (h : Graph w) {object : ClassObject}
    (hsuper : object.classSuperClasses = [this]) (hthis : this < w.count) :
    Acyclic (Super (w.addClass object)) := by
  apply h.acyclic.addEdge (a := w.count) (b := this)
  · intro x y hstep
    exact (super_addClass h hsuper).mp hstep
  · exact not_reflTransGen_of_no_child (by omega) h.not_super_count

theorem Graph.addClass (h : Graph w) (object : ClassObject)
    (hsuper : object.classSuperClasses = [this]) (hinstance : object.instanceSuperClasses = [this])
    (hbase : object.baseClass = w.count) (hthis : this < w.count) :
    Graph (addSubClass (w.addClass object) this w.count) where
  acyclic := h.acyclic_addClass hsuper hthis
  equalLists c := by
    change ((w.addClass object).classes c).instanceSuperClasses = _
    rcases eq_or_ne c w.count with rfl | hne
    · rw [show (addSubClass (w.addClass object) this w.count).classes w.count = object from
        getElem_addClass_self w object, getElem_addClass_self, hsuper, hinstance]
    · rw [show (addSubClass (w.addClass object) this w.count).classes c = w.classes c from
        classes_addClass_of_ne object hne, classes_addClass_of_ne object hne, h.equalLists]
  nodup c := by
    change ((w.addClass object).classes c).classSuperClasses.Nodup
    rcases eq_or_ne c w.count with rfl | hne
    · rw [getElem_addClass_self, hsuper]
      exact List.nodup_singleton this
    · rw [classes_addClass_of_ne object hne]
      exact h.nodup c
  subClasses a b := by
    change (b, a) ∈ (w.count, this) :: w.subClasses ↔ Super (w.addClass object) b a
    rw [List.mem_cons, h.subClasses, super_addClass h hsuper, Prod.mk.injEq]
    tauto
  base c hc := by
    change ReflTransGen (Super (w.addClass object)) c ((w.addClass object).classes c).baseClass
    rcases eq_or_ne c w.count with rfl | hne
    · rw [getElem_addClass_self, hbase]
    · rw [classes_addClass_of_ne object hne]
      have hlt : c < w.count := lt_of_le_of_ne (Nat.le_of_lt_succ hc) hne
      apply ReflTransGen.mono ?_ _ _ (h.base c hlt)
      intro x y hstep
      exact (super_addClass h hsuper).mpr (.inl hstep)
  bounded c s hs := by
    change c < w.count + 1 ∧ s < w.count + 1
    rcases (super_addClass h hsuper).mp hs with hold | ⟨rfl, rfl⟩
    · have := h.bounded c s hold
      omega
    · omega
  classKnown := Nat.lt_succ_of_lt h.classKnown
  classNotMixin := by
    change ((w.addClass object).classes TheClassClass).mixin = false
    rw [classes_addClass_of_ne object h.classKnown.ne, h.classNotMixin]

theorem Linked.fresh_addClass (h : Linked w) {object : ClassObject}
    (hsuper : object.classSuperClasses = [this]) (hne : d ≠ w.count) :
    Fresh (w.addClass object) d := by
  intro s hs hclass
  rw [classes_addClass_of_ne object hne]
  rcases (super_addClass h.toGraph hsuper).mp hs with hold | ⟨heq, -⟩
  · exact h.fresh d s hold hclass
  · exact absurd heq hne

theorem kernelClass_linked (h : Linked w) : Linked (kernelClass w).1 := by
  have hne : w.count ≠ TheObjectClass := by
    have := h.classKnown
    simp only [TheObjectClass]
    omega
  have hsuper : (subClassable w.count).classSuperClasses = [TheObjectClass] := by
    simp [subClassable, hne]
  refine ⟨h.addClass _ hsuper (by simp [subClassable, hne]) rfl
    (lt_trans Nat.zero_lt_one h.classKnown), ?_⟩
  intro d
  change Fresh (w.addClass (subClassable w.count)) d
  rcases eq_or_ne d w.count with rfl | hd
  · intro s hs hclass
    rw [Super, getElem_addClass_self, hsuper, List.mem_singleton] at hs
    rw [getElem_addClass_self, hs]
    simp only [subClassable, addScope]
    split <;> simp
  · exact h.fresh_addClass hsuper hd

theorem sameLinks_addSubClass (h : SameLinks w w') (this subClass : ClassRef) :
    SameLinks (addSubClass w this subClass) (addSubClass w' this subClass) where
  count := h.count
  subClasses := congrArg ((subClass, this) :: ·) h.subClasses
  classSuperClasses := h.classSuperClasses
  instanceSuperClasses := h.instanceSuperClasses
  mixin := h.mixin
  baseClass := h.baseClass

/-- The class object that `subclass` links, made by `NEW` of a metaclass. -/
def linkedClass (w : World) (this meta_class : ClassRef) : ClassObject :=
  { inheritMetaClass w this (newRexx w meta_class) with
    classSuperClasses := [this]
    instanceSuperClasses := [this] }

theorem baseClass_linkedClass (w : World) (this meta_class : ClassRef) :
    (linkedClass w this meta_class).baseClass = w.count := by
  simp only [linkedClass, inheritMetaClass]
  split
  · split <;> rfl
  · rfl

theorem addLinked (h : Linked w) (hthis : this < w.count) (meta_class : ClassRef) :
    ∃ w', createBehaviours (w.addClass (linkedClass w this meta_class)) w.count = some w' ∧
      Linked (addSubClass w' this w.count) ∧ w'.count = w.count + 1 ∧
      Super (addSubClass w' this w.count) w.count this := by
  have hgraph := h.toGraph.addClass (linkedClass w this meta_class) rfl rfl
    (baseClass_linkedClass w this meta_class) hthis
  obtain ⟨w', hw'⟩ :=
    createBehaviours_isSome (w := w.addClass (linkedClass w this meta_class)) hgraph.acyclic
      hgraph.equalLists hgraph.bounded w.count
  obtain ⟨hrefreshed, hown⟩ := createBehaviours_spec hw'
  have hsame := sameLinks_addSubClass hrefreshed.links this w.count
  refine ⟨w', hw', ⟨hgraph.sameLinks hsame, ?_⟩, hrefreshed.links.count, ?_⟩
  · intro d
    change Fresh w' d
    rcases eq_or_ne d w.count with rfl | hne
    · exact hown
    · exact hrefreshed.fresh d (h.fresh_addClass rfl hne)
  · change Super w' w.count this
    rw [hrefreshed.links.super_eq, super_addClass h.toGraph rfl]
    exact .inr ⟨rfl, rfl⟩

theorem subclass_spec (h : Linked w) (hthis : this < w.count) (id : Option String)
    (meta_class : Option ClassRef) (init : Init) :
    (∃ error, subclass w this id meta_class init = (w, .raised error)) ∨
    ∃ w' outcome, subclass w this id meta_class init = (w', outcome) ∧ Linked w' ∧
      Super w' w.count this ∧ w'.count = w.count + 1 ∧ this < w'.count ∧
      (outcome = .raised "INIT" ∨ outcome = .created w.count) := by
  simp only [subclass]
  split
  · exact .inl ⟨_, rfl⟩
  split
  · exact .inl ⟨_, rfl⟩
  split
  · exact .inl ⟨_, rfl⟩
  right
  obtain ⟨w', hw', hlinked, hcount, hsuper⟩ :=
    addLinked h hthis (meta_class.getD (getMetaClass w this))
  rw [linkedClass] at hw'
  rw [hw']
  refine ⟨_, _, rfl, hlinked, hsuper, hcount, ?_, ?_⟩
  · change this < w'.count
    omega
  · split
    · exact .inl rfl
    · exact .inr rfl

theorem setMixin_linked (h : Linked w) (hsuper : Super w c this) (hne : c ≠ TheClassClass) :
    Linked (setMixin w this c) := by
  have hsuperEq : Super (setMixin w this c) = Super w := by
    funext d s
    rcases eq_or_ne d c with rfl | hd <;> simp [Super, setMixin, World.setClass, *]
  refine ⟨⟨hsuperEq ▸ h.acyclic, ?_, ?_, ?_, ?_, hsuperEq ▸ h.bounded, h.classKnown, ?_⟩, ?_⟩
  · intro d
    rcases eq_or_ne d c with rfl | hd <;> simp [setMixin, World.setClass, h.equalLists, *]
  · intro d
    rcases eq_or_ne d c with rfl | hd <;> simp [setMixin, World.setClass, h.nodup, *]
  · intro a b
    rw [hsuperEq]
    exact h.subClasses a b
  · intro d hd
    rw [hsuperEq]
    rcases eq_or_ne d c with rfl | hdc
    · have hbase : ((setMixin w this d).classes d).baseClass = (w.classes this).baseClass := by
        simp [setMixin, World.setClass]
      rw [hbase]
      exact .head hsuper (h.base this (h.bounded d this hsuper).2)
    · have hbase : ((setMixin w this c).classes d).baseClass = (w.classes d).baseClass := by
        simp [setMixin, World.setClass, hdc]
      rw [hbase]
      exact h.base d hd
  · simpa [setMixin, World.setClass, hne.symm] using h.classNotMixin
  · intro d s hs hclass
    rw [hsuperEq] at hs
    have hmem := h.fresh d s hs hclass
    rcases eq_or_ne d c with rfl | hd
    · simpa [setMixin, World.setClass] using hmem
    · simpa [setMixin, World.setClass, hd] using hmem

theorem mixinclass_linked (h : Linked w) (hthis : this < w.count) (id : Option String)
    (meta_class : Option ClassRef) (init : Init) :
    Linked (mixinclass w this id meta_class init).1 := by
  rcases subclass_spec h hthis id meta_class init with
    ⟨error, heq⟩ | ⟨w', outcome, heq, hlinked, hsuper, -, -, houtcome⟩
  · rw [mixinclass, heq]
    exact h
  · rcases houtcome with rfl | rfl
    · rw [mixinclass, heq]
      exact hlinked
    · rw [mixinclass, heq]
      exact setMixin_linked hlinked hsuper h.classKnown.ne'

theorem subclass_linked (h : Linked w) (hthis : this < w.count) (id : Option String)
    (meta_class : Option ClassRef) (init : Init) :
    Linked (subclass w this id meta_class init).1 := by
  rcases subclass_spec h hthis id meta_class init with
    ⟨error, heq⟩ | ⟨w', outcome, heq, hlinked, -⟩
  · rw [heq]
    exact h
  · rw [heq]
    exact hlinked

theorem setRexxDefined_linked (h : Linked w) (this : ClassRef) :
    Linked (setRexxDefined w this).1 := by
  have hsame : SameLinks w (setRexxDefined w this).1 := by
    constructor
    · rfl
    · rfl
    all_goals
      intro d
      rcases eq_or_ne d this with rfl | hne <;> simp [setRexxDefined, World.setClass, *]
  refine ⟨h.toGraph.sameLinks hsame, ?_⟩
  intro d s hs hclass
  rw [hsame.super_eq] at hs
  have hmem := h.fresh d s hs hclass
  rcases eq_or_ne d this with rfl | hne
  · simpa [setRexxDefined, World.setClass] using hmem
  · simpa [setRexxDefined, World.setClass, hne] using hmem

/-! ## Inheriting -/

theorem mem_insertItem {l : List ClassRef} {i x : ℕ} (hi : i ≤ l.length + 1) :
    x ∈ insertItem l a i ↔ x = a ∨ x ∈ l := by
  rw [insertItem, List.mem_insertIdx (by omega)]

theorem nodup_insertItem {l : List ClassRef} {i : ℕ} (hi : i ≤ l.length + 1) (hl : l.Nodup)
    (ha : a ∉ l) : (insertItem l a i).Nodup := by
  have hperm : (insertItem l a i).Perm (a :: l) := List.perm_insertIdx a l (by omega)
  rw [hperm.nodup_iff]
  exact List.nodup_cons.mpr ⟨ha, hl⟩

theorem indexOf_le (l : List ClassRef) (a : ClassRef) : indexOf l a ≤ l.length := by
  rw [indexOf]
  split
  · rename_i hmem
    exact List.idxOf_lt_length_of_mem hmem
  · exact Nat.zero_le _

/-- What the checks of `inherit` found out. -/
structure Accepted (w : World) (this mixin_class class_index instance_index : ℕ) : Prop where
  mixin : (w.classes mixin_class).mixin = true
  ne : this ≠ mixin_class
  notScope : mixin_class ∉ (w.classes this).behaviour
  notBack : checkScope (w.classes mixin_class).behaviour this = false
  sameIndex : instance_index = class_index
  index_le : class_index ≤ (w.classes this).classSuperClasses.length + 1

theorem checkInherit_ok (h : Graph w) {argument position : Argument} {i j : ℕ}
    (hcheck : checkInherit w this argument position = .ok (mixin_class, i, j)) :
    argument = .classObject mixin_class ∧ Accepted w this mixin_class i j := by
  simp only [checkInherit] at hcheck
  split at hcheck
  · cases hcheck
  cases argument with
  | omitted => cases hcheck
  | object => cases hcheck
  | classObject mixin =>
      simp only at hcheck
      split at hcheck
      · cases hcheck
      rename_i hmixin
      split at hcheck
      · cases hcheck
      rename_i hne
      split at hcheck
      · cases hcheck
      rename_i hscope
      split at hcheck
      · cases hcheck
      rename_i hback
      split at hcheck
      · cases hcheck
      split at hcheck
      · cases hcheck
      have haccepted : ∀ {k l : ℕ}, l = k → k ≤ (w.classes this).classSuperClasses.length + 1 →
          Accepted w this mixin k l := by
        intro k l hkl hk
        exact ⟨by simpa using hmixin, hne, by simpa [checkScope] using hscope,
          by simpa using hback, hkl, hk⟩
      cases position with
      | omitted =>
          cases hcheck
          exact ⟨rfl, haccepted (by rw [h.equalLists]) le_rfl⟩
      | object => cases hcheck
      | classObject position =>
          simp only at hcheck
          split at hcheck
          · cases hcheck
          · cases hcheck
            exact ⟨rfl, haccepted (by rw [h.equalLists])
              (Nat.succ_le_succ (indexOf_le _ position))⟩

theorem super_linkMixin {i j : ℕ} (hi : i ≤ (w.classes this).classSuperClasses.length + 1) :
    Super (linkMixin w this mixin_class i j) c s ↔
      Super w c s ∨ (c = this ∧ s = mixin_class) := by
  rcases eq_or_ne c this with rfl | hne
  · have hlist : ((linkMixin w c mixin_class i j).classes c).classSuperClasses =
        insertItem (w.classes c).classSuperClasses mixin_class i := by
      simp [linkMixin, addSubClass, setSuperClasses, World.setClass]
    rw [Super, hlist, mem_insertItem hi]
    simp [Super, or_comm]
  · simp [Super, linkMixin, addSubClass, setSuperClasses, World.setClass, hne]

theorem Linked.linkMixin_graph (h : Linked w) {i j : ℕ} (hthis : this < w.count)
    (hmixin : mixin_class < w.count) (hok : Accepted w this mixin_class i j)
    (hback : ¬ TransGen (Super w) mixin_class this) :
    Graph (linkMixin w this mixin_class i j) := by
  have hstep : ∀ {x y : ℕ}, Super (linkMixin w this mixin_class i j) x y ↔
      Super w x y ∨ (x = this ∧ y = mixin_class) := super_linkMixin hok.index_le
  have hnew : mixin_class ∉ (w.classes this).classSuperClasses := by
    intro hmem
    have hclass : mixin_class ≠ TheClassClass := by
      rintro rfl
      have := hok.mixin
      rw [h.classNotMixin] at this
      cases this
    exact hok.notScope (h.fresh this mixin_class hmem hclass)
  have hother : ∀ {d : ℕ}, d ≠ this →
      (linkMixin w this mixin_class i j).classes d = w.classes d := by
    intro d hd
    simp [linkMixin, addSubClass, setSuperClasses, World.setClass, hd]
  have hself : (linkMixin w this mixin_class i j).classes this =
      { w.classes this with
        classSuperClasses := insertItem (w.classes this).classSuperClasses mixin_class i
        instanceSuperClasses := insertItem (w.classes this).instanceSuperClasses mixin_class j } := by
    simp [linkMixin, addSubClass, setSuperClasses, World.setClass]
  constructor
  · apply h.acyclic.addEdge (a := this) (b := mixin_class)
    · intro x y hxy
      exact hstep.mp hxy
    · intro hpath
      rcases reflTransGen_iff_eq_or_transGen.mp hpath with heq | htrans
      · exact hok.ne heq
      · exact hback htrans
  · intro d
    rcases eq_or_ne d this with rfl | hd
    · rw [hself, hok.sameIndex, h.equalLists]
    · rw [hother hd, h.equalLists]
  · intro d
    rcases eq_or_ne d this with rfl | hd
    · rw [hself]
      exact nodup_insertItem hok.index_le (h.nodup d) hnew
    · rw [hother hd]
      exact h.nodup d
  · intro a b
    change (b, a) ∈ (this, mixin_class) :: w.subClasses ↔ _
    rw [List.mem_cons, h.subClasses, hstep, Prod.mk.injEq]
    tauto
  · intro d hd
    have hbase : ((linkMixin w this mixin_class i j).classes d).baseClass =
        (w.classes d).baseClass := by
      rcases eq_or_ne d this with rfl | hd
      · rw [hself]
      · rw [hother hd]
    rw [hbase]
    apply ReflTransGen.mono ?_ _ _ (h.base d hd)
    intro x y hxy
    exact hstep.mpr (.inl hxy)
  · intro d s hs
    change d < w.count ∧ s < w.count
    rcases hstep.mp hs with hold | ⟨rfl, rfl⟩
    · exact h.bounded d s hold
    · exact ⟨hthis, hmixin⟩
  · exact h.classKnown
  · rcases eq_or_ne TheClassClass this with heq | hne
    · rw [← heq] at hself ⊢
      rw [hself]
      exact h.classNotMixin
    · rw [hother hne]
      exact h.classNotMixin

theorem inherit_linked (h : Linked w) {argument position : Argument} (hthis : this < w.count)
    (hargument : argument.Exists w)
    (hback : ∀ mixin_class i j, checkInherit w this argument position = .ok (mixin_class, i, j) →
      ¬ TransGen (Super w) mixin_class this) :
    Linked (inherit w this argument position).1 := by
  rw [inherit]
  cases hcheck : checkInherit w this argument position with
  | error error => exact h
  | ok found =>
      obtain ⟨mixin_class, i, j⟩ := found
      obtain ⟨rfl, hok⟩ := checkInherit_ok h.toGraph hcheck
      have hgraph := h.linkMixin_graph hthis hargument hok (hback mixin_class i j hcheck)
      have hfresh : ∀ d, d ≠ this → Fresh (linkMixin w this mixin_class i j) d := by
        intro d hd s hs hclass
        rcases (super_linkMixin hok.index_le).mp hs with hold | ⟨heq, -⟩
        · have hmem := h.fresh d s hold hclass
          simpa [linkMixin, addSubClass, setSuperClasses, World.setClass, hd] using hmem
        · exact absurd heq hd
      obtain ⟨w', hw', hlinked⟩ := refresh_linked hgraph hfresh
      simp only [hw']
      exact hlinked

theorem refresh_sameLinks (w : World) (this : ClassRef) : SameLinks w (refresh w this).1 := by
  rw [refresh]
  split
  · exact .refl w
  · rename_i hw'
    exact (updateSubClasses_spec hw').1.links

theorem inherit_cycle (h : Linked w) {argument position : Argument} {i j : ℕ}
    (hcheck : checkInherit w this argument position = .ok (mixin_class, i, j))
    (hback : TransGen (Super w) mixin_class this) :
    ¬ Acyclic (Super (inherit w this argument position).1) := by
  intro hacyclic
  obtain ⟨rfl, hok⟩ := checkInherit_ok h.toGraph hcheck
  rw [inherit, hcheck] at hacyclic
  simp only [(refresh_sameLinks _ this).super_eq] at hacyclic
  have hold : TransGen (Super (linkMixin w this mixin_class i j)) mixin_class this := by
    apply TransGen.mono ?_ _ _ hback
    intro x y hstep
    exact (super_linkMixin hok.index_le).mpr (.inl hstep)
  exact hacyclic this (.head ((super_linkMixin hok.index_le).mpr (.inr ⟨rfl, rfl⟩)) hold)

/-! ## Uninheriting -/

theorem checkUninherit_ok {argument : Argument} {i j : ℕ}
    (hcheck : checkUninherit w this argument = .ok (mixin_class, i, j)) :
    argument = .classObject mixin_class ∧ Super w this mixin_class ∧
      i = indexOf (w.classes this).classSuperClasses mixin_class := by
  simp only [checkUninherit] at hcheck
  split at hcheck
  · cases hcheck
  cases argument with
  | omitted => cases hcheck
  | object => cases hcheck
  | classObject mixin =>
      simp only at hcheck
      split at hcheck
      · rename_i hindex
        cases hcheck
        refine ⟨rfl, ?_, rfl⟩
        by_contra hmem
        have hzero : indexOf (w.classes this).classSuperClasses mixin_class = 0 := if_neg hmem
        omega
      · cases hcheck

theorem uninherit_inconsistent (h : Linked w) {argument : Argument} {i j : ℕ}
    (hcheck : checkUninherit w this argument = .ok (mixin_class, i, j)) :
    ¬ Consistent (uninherit w this argument).1 := by
  intro hconsistent
  obtain ⟨rfl, hsuper, rfl⟩ := checkUninherit_ok hcheck
  simp only [uninherit, hcheck] at hconsistent
  have hsame := refresh_sameLinks (unlinkMixin w this mixin_class
    (indexOf (w.classes this).classSuperClasses mixin_class) j) this
  have hne : (this, mixin_class) ≠ (mixin_class, this) := by
    intro heq
    obtain ⟨rfl, -⟩ := Prod.mk.inj heq
    exact h.acyclic.not_self hsuper
  have hlisted := (hconsistent.subClasses mixin_class this).mp (by
    rw [mem_getSubClasses, hsame.subClasses]
    exact (List.mem_erase_of_ne hne).mpr ((h.subClasses mixin_class this).mpr hsuper))
  rw [hsame.super_eq] at hlisted
  have hgone : mixin_class ∉ (w.classes this).classSuperClasses.erase mixin_class :=
    (h.nodup this).not_mem_erase
  apply hgone
  have hlist : (unlinkMixin w this mixin_class
      (indexOf (w.classes this).classSuperClasses mixin_class) j).classes this =
      { w.classes this with
        classSuperClasses := (w.classes this).classSuperClasses.erase mixin_class
        instanceSuperClasses := deleteItem (w.classes this).instanceSuperClasses j } := by
    have hindex : indexOf (w.classes this).classSuperClasses mixin_class - 1 =
        (w.classes this).classSuperClasses.idxOf mixin_class := by
      rw [indexOf, if_pos (show mixin_class ∈ (w.classes this).classSuperClasses from hsuper),
        Nat.add_sub_cancel]
    simp [unlinkMixin, removeItem, setSuperClasses, World.setClass, deleteItem, hindex,
      List.eraseIdx_idxOf_eq_erase]
  rw [Super, hlist] at hlisted
  exact hlisted

/-! ## Runs -/

theorem boot_classes (h : c < 2) : World.boot.classes c = subClassable c := if_pos h

theorem boot_none (h : ¬ c < 2) : World.boot.classes c =
    { subClassable TheObjectClass with behaviour := [], instanceBehaviour := [] } := if_neg h

theorem super_boot : Super World.boot c s ↔ c = TheClassClass ∧ s = TheObjectClass := by
  match c with
  | 0 => simp [Super, World.boot, subClassable]
  | 1 => simp [Super, World.boot, subClassable]
  | c + 2 =>
      have hne : c + 2 ≠ TheClassClass := Nat.succ_succ_ne_one c
      rw [Super, boot_none (by omega)]
      simp [subClassable, hne]

theorem boot_linked : Linked World.boot := by
  refine ⟨⟨?_, ?_, ?_, ?_, ?_, ?_, ?_, ?_⟩, ?_⟩
  · have hempty : Acyclic fun _ _ : ℕ => False := by
      intro x hcycle
      obtain ⟨_, hstep, _⟩ := TransGen.head'_iff.mp hcycle
      exact hstep
    apply hempty.addEdge (a := TheClassClass) (b := TheObjectClass)
    · intro x y hstep
      exact .inr (super_boot.mp hstep)
    · exact not_reflTransGen_of_no_child (by decide) fun _ => id
  · intro c
    simp only [World.boot]
    split <;> simp [subClassable]
  · intro c
    simp only [World.boot, subClassable]
    split <;> split <;> simp
  · intro a b
    rw [super_boot]
    simp [World.boot]
  · intro c hc
    have hbase : ((World.boot).classes c).baseClass = c := by
      rw [boot_classes hc, subClassable]
    exact hbase.symm ▸ ReflTransGen.refl
  · intro c s hs
    obtain ⟨rfl, rfl⟩ := super_boot.mp hs
    exact ⟨by decide, by decide⟩
  · decide
  · rfl
  · intro c s hs _
    obtain ⟨rfl, rfl⟩ := super_boot.mp hs
    decide

/-- The operations that keep the graph: no `uninherit` passes its checks, and no `inherit`
does whose receiver is a superclass of the mixin class. -/
def KeepsGraph (w : World) : Operation → Prop
  | .inherit this argument position => ∀ mixin_class class_index instance_index,
      checkInherit w this argument position = .ok (mixin_class, class_index, instance_index) →
        ¬ TransGen (Super w) mixin_class this
  | .uninherit this argument => ∃ error, checkUninherit w this argument = .error error
  | _ => True

inductive Reached : World → Prop where
  | boot : Reached World.boot
  | step {w : World} (h : Reached w) (operation : Operation) (hexists : operation.Exists w)
      (hkeeps : KeepsGraph w operation) : Reached (step w operation).1

theorem step_linked (h : Linked w) {operation : Operation} (hexists : operation.Exists w)
    (hkeeps : KeepsGraph w operation) : Linked (step w operation).1 := by
  cases operation with
  | kernelClass => exact kernelClass_linked h
  | setRexxDefined this => exact setRexxDefined_linked h this
  | subclass this id meta_class init => exact subclass_linked h hexists.1 id meta_class init
  | mixinclass this id meta_class init => exact mixinclass_linked h hexists.1 id meta_class init
  | inherit this argument position => exact inherit_linked h hexists.1 hexists.2.1 hkeeps
  | uninherit this argument =>
      obtain ⟨error, hcheck⟩ : ∃ error, checkUninherit w this argument = .error error := hkeeps
      simp only [step, uninherit, hcheck]
      exact h

theorem step_consistent_iff (h : Linked w) {operation : Operation}
    (hexists : operation.Exists w) :
    Consistent (step w operation).1 ↔ KeepsGraph w operation := by
  constructor
  · intro hconsistent
    cases operation with
    | inherit this argument position =>
        intro mixin_class i j hcheck hback
        exact inherit_cycle h hcheck hback hconsistent.acyclic
    | uninherit this argument =>
        change ∃ error, checkUninherit w this argument = .error error
        cases hcheck : checkUninherit w this argument with
        | error error => exact ⟨error, rfl⟩
        | ok found => exact absurd hconsistent (uninherit_inconsistent h hcheck)
    | kernelClass => trivial
    | setRexxDefined this => trivial
    | subclass this id meta_class init => trivial
    | mixinclass this id meta_class init => trivial
  · intro hkeeps
    exact (step_linked h hexists hkeeps).consistent

theorem Reached.linked (h : Reached w) : Linked w := by
  induction h with
  | boot => exact boot_linked
  | step _ _ hexists hkeeps ih => exact step_linked ih hexists hkeeps

/-- `inherit` and `uninherit`. -/
def Operation.Relinks : Operation → Prop
  | .inherit .. => True
  | .uninherit .. => True
  | _ => False

theorem refresh_not_raised (w : World) (this : ClassRef) (error : String) :
    (refresh w this).2 ≠ .raised error := by
  rw [refresh]
  split <;> simp

theorem relink_raised (w : World) {operation : Operation} {error : String}
    (h : operation.Relinks) (hraised : (step w operation).2 = .raised error) :
    (step w operation).1 = w := by
  cases operation with
  | inherit this argument position =>
      simp only [step, inherit] at hraised ⊢
      split at hraised
      · rfl
      · exact absurd hraised (refresh_not_raised _ this error)
  | uninherit this argument =>
      simp only [step, uninherit] at hraised ⊢
      split at hraised
      · rfl
      · exact absurd hraised (refresh_not_raised _ this error)
  | kernelClass => cases h
  | setRexxDefined this => cases h
  | subclass this id meta_class init => cases h
  | mixinclass this id meta_class init => cases h

/-- In every state of a run whose operations keep the graph the lists are consistent, an
`inherit` or `uninherit` that raises changes nothing, and the next operation keeps the lists
consistent exactly if it keeps the graph. -/
theorem inheritanceGraph (h : Reached w) :
    Consistent w ∧
      (∀ operation error, operation.Relinks → (step w operation).2 = .raised error →
        (step w operation).1 = w) ∧
      ∀ operation, operation.Exists w →
        (Consistent (step w operation).1 ↔ KeepsGraph w operation) :=
  ⟨h.linked.consistent, fun _ _ hrelinks hraised => relink_raised w hrelinks hraised,
    fun _ hexists => step_consistent_iff h.linked hexists⟩

def run (operations : List Operation) : World :=
  operations.foldl (fun w operation => (step w operation).1) World.boot

def oneMixin : List Operation :=
  [.mixinclass TheObjectClass (some "X") none .returns,
    .subclass TheObjectClass (some "C") none .returns,
    .inherit 3 (.classObject 2) .omitted]

theorem oneMixin_reached : Reached (run oneMixin) := by
  have hmixin := Reached.boot.step (.mixinclass TheObjectClass (some "X") none .returns)
    ⟨by decide, by simp⟩ trivial
  have hclass := hmixin.step (.subclass TheObjectClass (some "C") none .returns)
    ⟨by decide, by simp⟩ trivial
  apply hclass.step (.inherit 3 (.classObject 2) .omitted) ⟨by decide, by decide, trivial⟩
  intro mixin_class i j hcheck hpath
  obtain ⟨c, -, hstep⟩ := TransGen.tail'_iff.mp hpath
  have hnone : ∀ c < 4, 3 ∉ ((run (oneMixin.take 2)).classes c).classSuperClasses := by decide
  exact absurd hstep (hnone c (hclass.linked.bounded c 3 hstep).1)

theorem inheritanceGraph_oneMixin :
    Consistent (run oneMixin) ∧
      (∀ operation error, operation.Relinks →
        (step (run oneMixin) operation).2 = .raised error →
          (step (run oneMixin) operation).1 = run oneMixin) ∧
      ∀ operation, operation.Exists (run oneMixin) →
        (Consistent (step (run oneMixin) operation).1 ↔ KeepsGraph (run oneMixin) operation) :=
  inheritanceGraph oneMixin_reached

/-- After the class has uninherited the mixin class it is still in its subclass list. -/
theorem not_consistent_uninherit :
    ¬ Consistent (run (oneMixin ++ [.uninherit 3 (.classObject 2)])) := by
  intro h
  have hlisted : (3 : ℕ) ∈ getSubClasses (run (oneMixin ++ [.uninherit 3 (.classObject 2)])) 2 := by
    decide
  have hsuper := (h.subClasses 2 3).mp hlisted
  revert hsuper
  simp only [Super]
  decide

/-- A mixin class (2), one below it in the end (3), a metaclass (4) that inherits from the
latter, a mixin class (5) of this metaclass, and a class (6) below 3 and 5.  The behaviour of 6
is created from that of 4 before that of 4 is, and loses 2. -/
def staleScopes : List Operation :=
  [.mixinclass TheObjectClass (some "X") none .returns,
    .mixinclass TheObjectClass (some "S") none .returns,
    .subclass TheClassClass (some "M") none .returns,
    .inherit 4 (.classObject 3) .omitted,
    .mixinclass TheObjectClass (some "P") (some 4) .returns,
    .mixinclass 3 (some "C") none .returns,
    .inherit 6 (.classObject 5) .omitted,
    .inherit 3 (.classObject 2) .omitted]

example : ((run staleScopes).classes 6).behaviour = [6, 5, 4, 3, 1, 0] := by decide

example : (step (run staleScopes) (.inherit 2 (.classObject 6) .omitted)).2 = .overflow := by
  decide

end RexxClass

end LeooRexx
