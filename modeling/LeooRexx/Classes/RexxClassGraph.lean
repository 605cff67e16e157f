import Mathlib.Data.List.InsertIdx
import Mathlib.Data.List.Nodup
import LeooRexx.Classes.RexxClass
import LeooRexx.Foundation.Ancestry

/-!
# The inheritance graph

Creating the behaviours of a class ends where the superclass lists are acyclic, and the class
behaviour has every direct superclass but `CLASS` among its scopes.  With these scopes the
checks of `inherit` keep a class from being listed twice.
-/

namespace LeooRexx

namespace RexxClass

open Relation

variable {w w' : World} {a b c d s this : ℕ} {fuel : ℕ}

def Super (w : World) (c s : ClassRef) : Prop := s ∈ (w.classes c).classSuperClasses

structure Consistent (w : World) : Prop where
  acyclic : Acyclic (Super w)
  equalLists : ∀ c, (w.classes c).instanceSuperClasses = (w.classes c).classSuperClasses
  nodup : ∀ c, (w.classes c).classSuperClasses.Nodup
  subClasses : ∀ a b, b ∈ getSubClasses w a ↔ Super w b a
  baseClass : ∀ c m, m ∈ (w.classes c).classSuperClasses.tail →
    TransGen (Super w) c (w.classes m).baseClass

def Fresh (w : World) (c : ClassRef) : Prop :=
  ∀ s, Super w c s → s ≠ TheClassClass → s ∈ (w.classes c).behaviour

structure Graph (w : World) : Prop where
  acyclic : Acyclic (Super w)
  equalLists : ∀ c, (w.classes c).instanceSuperClasses = (w.classes c).classSuperClasses
  nodup : ∀ c, (w.classes c).classSuperClasses.Nodup
  subClasses : ∀ a b, (b, a) ∈ w.subClasses ↔ Super w b a
  base : ∀ c : ℕ, c < w.count → ReflTransGen (Super w) c (w.classes c).baseClass
  bounded : ∀ c s : ℕ, Super w c s → c < w.count ∧ s < w.count
  classKnown : 1 < w.count
  classNotMixin : (w.classes TheClassClass).mixin = false

structure Linked (w : World) : Prop extends Graph w where
  fresh : ∀ c, Fresh w c

theorem mem_getSubClasses : b ∈ getSubClasses w a ↔ (b, a) ∈ w.subClasses := by
  simp [getSubClasses]

theorem Graph.consistent (h : Graph w) : Consistent w where
  acyclic := h.acyclic
  equalLists := h.equalLists
  nodup := h.nodup
  subClasses a b := mem_getSubClasses.trans (h.subClasses a b)
  baseClass c m hm := by
    have hstep : Super w c m := List.mem_of_mem_tail hm
    exact .head' hstep (h.base m (h.bounded c m hstep).2)

/-! ## Changes of the behaviours alone -/

structure SameLinks (w w' : World) : Prop where
  count : w'.count = w.count
  subClasses : w'.subClasses = w.subClasses
  classSuperClasses : ∀ c, (w'.classes c).classSuperClasses = (w.classes c).classSuperClasses
  instanceSuperClasses :
    ∀ c, (w'.classes c).instanceSuperClasses = (w.classes c).instanceSuperClasses
  mixin : ∀ c, (w'.classes c).mixin = (w.classes c).mixin
  baseClass : ∀ c, (w'.classes c).baseClass = (w.classes c).baseClass

theorem SameLinks.refl (w : World) : SameLinks w w :=
  ⟨rfl, rfl, fun _ => rfl, fun _ => rfl, fun _ => rfl, fun _ => rfl⟩

theorem SameLinks.trans {w'' : World} (h : SameLinks w w') (h' : SameLinks w' w'') :
    SameLinks w w'' where
  count := h'.count.trans h.count
  subClasses := h'.subClasses.trans h.subClasses
  classSuperClasses c := (h'.classSuperClasses c).trans (h.classSuperClasses c)
  instanceSuperClasses c := (h'.instanceSuperClasses c).trans (h.instanceSuperClasses c)
  mixin c := (h'.mixin c).trans (h.mixin c)
  baseClass c := (h'.baseClass c).trans (h.baseClass c)

theorem SameLinks.super_eq (h : SameLinks w w') : Super w' = Super w := by
  funext c s
  simp only [Super, h.classSuperClasses]

theorem Graph.sameLinks (h : Graph w) (hsame : SameLinks w w') : Graph w' where
  acyclic := hsame.super_eq ▸ h.acyclic
  equalLists c := by rw [hsame.instanceSuperClasses, hsame.classSuperClasses, h.equalLists]
  nodup c := hsame.classSuperClasses c ▸ h.nodup c
  subClasses a b := by rw [hsame.subClasses, hsame.super_eq, h.subClasses]
  base c hc := by
    rw [hsame.super_eq, hsame.baseClass]
    exact h.base c (hsame.count ▸ hc)
  bounded c s hs := by
    rw [hsame.count]
    exact h.bounded c s (hsame.super_eq ▸ hs)
  classKnown := hsame.count ▸ h.classKnown
  classNotMixin := (hsame.mixin TheClassClass).trans h.classNotMixin

theorem sameLinks_setBehaviours (w : World) (c : ClassRef) (behaviour instanceBehaviour : Scopes) :
    SameLinks w (setBehaviours w c behaviour instanceBehaviour) := by
  constructor
  · rfl
  · rfl
  all_goals
    intro d
    simp only [setBehaviours, World.setClass]
    rcases eq_or_ne d c with rfl | hne
    · rw [Function.update_self]
    · rw [Function.update_of_ne hne]

/-! ## Creating a behaviour -/

theorem mem_mergeScope {t : Scopes} {x : ClassRef} : x ∈ mergeScope t s ↔ x = s ∨ x ∈ t := by
  by_cases hs : s ∈ t
  · have hkept : mergeScope t s = t := by simp [mergeScope, checkScope, hs]
    rw [hkept]
    constructor
    · exact .inr
    · rintro (rfl | hx)
      · exact hs
      · exact hx
  · have hadded : mergeScope t s = s :: t := by simp [mergeScope, checkScope, addScope, hs]
    rw [hadded]
    exact List.mem_cons

theorem mem_foldl_mergeScope {scopes t : Scopes} {x : ClassRef} :
    x ∈ scopes.foldl mergeScope t ↔ x ∈ scopes ∨ x ∈ t := by
  induction scopes generalizing t with
  | nil => simp
  | cons s scopes ih =>
      rw [List.foldl_cons, ih, mem_mergeScope, List.mem_cons]
      tauto

theorem subset_mergeMetaClasses (w : World) (owner : ClassRef) (t : Scopes)
    (metaClass : List ClassRef) : t ⊆ mergeMetaClasses w owner t metaClass := by
  simp only [mergeMetaClasses]
  induction metaClass.reverse generalizing t with
  | nil => exact List.Subset.refl t
  | cons m metaClass ih =>
      rw [List.foldl_cons]
      intro x hx
      apply ih
      split
      · exact hx
      · exact mem_foldl_mergeScope.mpr (.inr hx)

theorem foldlM_mem {f : Scopes → ClassRef → Option Scopes} {l : List ClassRef} {t t' : Scopes}
    (hf : ∀ s ∈ l, ∀ t t', f t s = some t' → t ⊆ t' ∧ (s ≠ TheClassClass → s ∈ t'))
    (h : l.foldlM f t = some t') :
    t ⊆ t' ∧ ∀ s ∈ l, s ≠ TheClassClass → s ∈ t' := by
  induction l generalizing t with
  | nil =>
      obtain rfl : t = t' := by simpa using h
      exact ⟨List.Subset.refl t, by simp⟩
  | cons s l ih =>
      rw [List.foldlM_cons] at h
      obtain ⟨u, hu, hrest⟩ := Option.bind_eq_some_iff.mp h
      obtain ⟨hsub, hs⟩ := hf s (by simp) t u hu
      obtain ⟨hsub', hl⟩ := ih (fun s' hs' => hf s' (by simp [hs'])) hrest
      refine ⟨List.Subset.trans hsub hsub', ?_⟩
      intro s' hs' hne
      rcases List.mem_cons.mp hs' with rfl | hs'
      · exact hsub' (hs hne)
      · exact hl s' hs' hne

theorem foldlM_isSome {σ : Type} {P : σ → Prop} {f : σ → ClassRef → Option σ}
    {l : List ClassRef} {t : σ} (hf : ∀ s ∈ l, ∀ t, P t → ∃ t', f t s = some t' ∧ P t')
    (ht : P t) : ∃ t', l.foldlM f t = some t' ∧ P t' := by
  induction l generalizing t with
  | nil => exact ⟨t, by simp, ht⟩
  | cons s l ih =>
      obtain ⟨u, hu, hPu⟩ := hf s (by simp) t ht
      obtain ⟨t', ht', hPt'⟩ := ih (fun s' hs' => hf s' (by simp [hs'])) hPu
      exact ⟨t', by rw [List.foldlM_cons, hu]; exact ht', hPt'⟩

theorem foldlM_related {σ : Type} {R : σ → σ → Prop} {f : σ → ClassRef → Option σ}
    {l : List ClassRef} {t t' : σ} (hrefl : ∀ t, R t t)
    (htrans : ∀ t u v, R t u → R u v → R t v)
    (hf : ∀ s ∈ l, ∀ t t', f t s = some t' → R t t') (h : l.foldlM f t = some t') : R t t' := by
  induction l generalizing t with
  | nil =>
      obtain rfl : t = t' := by simpa using h
      exact hrefl t
  | cons s l ih =>
      rw [List.foldlM_cons] at h
      obtain ⟨u, hu, hrest⟩ := Option.bind_eq_some_iff.mp h
      exact htrans t u t' (hf s (by simp) t u hu)
        (ih (fun s' hs' => hf s' (by simp [hs'])) hrest)

theorem subset_metaClassesMerged (w : World) (owner c : ClassRef) (t : Scopes) :
    t ⊆ if c = TheObjectClass then t
      else mergeMetaClasses w owner t (w.classes c).metaClass := by
  split
  · exact List.Subset.refl t
  · exact subset_mergeMetaClasses w owner t _

theorem mem_ownScopeAdded (t : Scopes) (c : ClassRef) :
    t ⊆ (if c ≠ TheClassClass ∧ checkScope t c = false then addScope t c else t) ∧
      (c ≠ TheClassClass →
        c ∈ if c ≠ TheClassClass ∧ checkScope t c = false then addScope t c else t) := by
  split
  · exact ⟨List.subset_cons_self c t, fun _ => List.mem_cons_self⟩
  · rename_i hin
    refine ⟨List.Subset.refl t, ?_⟩
    intro hne
    simpa [checkScope, hne] using hin

theorem createClassBehaviour_mem {owner : ClassRef} {t t' : Scopes}
    (h : createClassBehaviour w owner fuel t c = some t') :
    t ⊆ t' ∧ (c ≠ TheClassClass → c ∈ t') ∧ ∀ s, Super w c s → s ≠ TheClassClass → s ∈ t' := by
  induction fuel generalizing t t' c with
  | zero => simp [createClassBehaviour] at h
  | succ fuel ih =>
      rw [createClassBehaviour] at h
      obtain ⟨u, hu, hrest⟩ := Option.bind_eq_some_iff.mp h
      obtain ⟨hsub, hsuper⟩ := foldlM_mem (by
        intro s _ t t' hstep
        split at hstep
        · rename_i hin
          obtain rfl := Option.some.inj hstep
          exact ⟨List.Subset.refl t, fun _ => by simpa [checkScope] using hin⟩
        · have hrec := ih hstep
          exact ⟨hrec.1, hrec.2.1⟩) hu
      have hkeep : u ⊆ t' ∧ (c ≠ TheClassClass → c ∈ t') := by
        by_cases hin : checkScope u c = true
        · rw [if_pos hin] at hrest
          obtain rfl := Option.some.inj hrest
          exact ⟨List.Subset.refl u, fun _ => by simpa [checkScope] using hin⟩
        · rw [if_neg hin] at hrest
          obtain rfl := Option.some.inj hrest
          have hown := mem_ownScopeAdded (if c = TheObjectClass then u
            else mergeMetaClasses w owner u (w.classes c).metaClass) c
          exact ⟨List.Subset.trans (subset_metaClassesMerged w owner c u) hown.1, hown.2⟩
      refine ⟨List.Subset.trans hsub hkeep.1, hkeep.2, ?_⟩
      intro s hs hne
      exact hkeep.1 (hsuper s (List.mem_reverse.mpr hs) hne)

theorem createClassBehaviour_isSome (hacyclic : Acyclic (Super w))
    (hbounded : ∀ c s : ℕ, Super w c s → c < w.count ∧ s < w.count) (owner : ClassRef) (t : Scopes)
    (hfuel : ancestorCount (Super w) w.count c < fuel) :
    ∃ t', createClassBehaviour w owner fuel t c = some t' := by
  induction fuel generalizing t c with
  | zero => omega
  | succ fuel ih =>
      obtain ⟨u, hu, -⟩ := foldlM_isSome (t := t) (P := fun _ => True)
        (f := fun target superclass =>
          if checkScope target superclass then some target
          else createClassBehaviour w owner fuel target superclass)
        (l := (w.classes c).classSuperClasses.reverse) (by
          intro s hs t _
          by_cases hin : checkScope t s = true
          · exact ⟨t, by rw [if_pos hin], trivial⟩
          · rw [if_neg hin]
            have hstep : Super w c s := List.mem_reverse.mp hs
            have hlt := hacyclic.ancestorCount_lt hstep (hbounded c s hstep).2
            obtain ⟨t', ht'⟩ := ih (c := s) t (by omega)
            exact ⟨t', ht', trivial⟩) trivial
      rw [createClassBehaviour, hu]
      simp only [Option.bind_eq_bind, Option.bind_some]
      split
      · exact ⟨_, rfl⟩
      · exact ⟨_, rfl⟩

theorem createInstanceBehaviour_isSome (hacyclic : Acyclic (Super w))
    (hequal : ∀ c, (w.classes c).instanceSuperClasses = (w.classes c).classSuperClasses)
    (hbounded : ∀ c s : ℕ, Super w c s → c < w.count ∧ s < w.count) (t : Scopes)
    (hfuel : ancestorCount (Super w) w.count c < fuel) :
    ∃ t', createInstanceBehaviour w fuel t c = some t' := by
  induction fuel generalizing t c with
  | zero => omega
  | succ fuel ih =>
      obtain ⟨u, hu, -⟩ := foldlM_isSome (t := t) (P := fun _ => True)
        (f := fun target superclass =>
          if checkScope target superclass then some target
          else createInstanceBehaviour w fuel target superclass)
        (l := (w.classes c).instanceSuperClasses.reverse) (by
          intro s hs t _
          by_cases hin : checkScope t s = true
          · exact ⟨t, by rw [if_pos hin], trivial⟩
          · rw [if_neg hin]
            have hstep : Super w c s := by
              rw [Super, ← hequal]
              exact List.mem_reverse.mp hs
            have hlt := hacyclic.ancestorCount_lt hstep (hbounded c s hstep).2
            obtain ⟨t', ht'⟩ := ih (c := s) t (by omega)
            exact ⟨t', ht', trivial⟩) trivial
      rw [createInstanceBehaviour, hu]
      exact ⟨_, rfl⟩

/-! ## Both behaviours of a class, and of all below it -/

/-- Only behaviours change, and none loses a direct superclass from its scopes. -/
structure Refreshed (w w' : World) : Prop where
  links : SameLinks w w'
  fresh : ∀ d, Fresh w d → Fresh w' d

theorem Refreshed.refl (w : World) : Refreshed w w := ⟨.refl w, fun _ h => h⟩

theorem Refreshed.trans {w'' : World} (h : Refreshed w w') (h' : Refreshed w' w'') :
    Refreshed w w'' :=
  ⟨h.links.trans h'.links, fun d hd => h'.fresh d (h.fresh d hd)⟩

theorem createBehaviours_spec (h : createBehaviours w c = some w') :
    Refreshed w w' ∧ Fresh w' c := by
  rw [createBehaviours] at h
  obtain ⟨instanceBehaviour, -, hrest⟩ := Option.bind_eq_some_iff.mp h
  obtain ⟨behaviour, hclass, hset⟩ := Option.bind_eq_some_iff.mp hrest
  obtain rfl := Option.some.inj hset
  have hlinks := (sameLinks_setBehaviours w c [] []).trans
    (sameLinks_setBehaviours (setBehaviours w c [] []) c behaviour instanceBehaviour)
  have hfresh : Fresh (setBehaviours (setBehaviours w c [] []) c behaviour instanceBehaviour) c := by
    intro s hs hne
    have hmem := (createClassBehaviour_mem hclass).2.2 s (by
      rw [hlinks.super_eq] at hs
      rw [(sameLinks_setBehaviours w c [] []).super_eq]
      exact hs) hne
    simpa [setBehaviours, World.setClass] using hmem
  refine ⟨⟨hlinks, ?_⟩, hfresh⟩
  intro d hd
  rcases eq_or_ne d c with rfl | hdc
  · exact hfresh
  · intro s hs hne
    rw [hlinks.super_eq] at hs
    simpa [setBehaviours, World.setClass, hdc] using hd s hs hne

theorem createBehaviours_isSome (hacyclic : Acyclic (Super w))
    (hequal : ∀ c, (w.classes c).instanceSuperClasses = (w.classes c).classSuperClasses)
    (hbounded : ∀ c s : ℕ, Super w c s → c < w.count ∧ s < w.count) (c : ClassRef) :
    ∃ w', createBehaviours w c = some w' := by
  have hlinks := sameLinks_setBehaviours w c [] []
  have hfuel : ancestorCount (Super (setBehaviours w c [] [])) (setBehaviours w c [] []).count c <
      (setBehaviours w c [] []).depth := Nat.lt_succ_of_le ancestorCount_le
  have hbounded' : ∀ d s : ℕ, Super (setBehaviours w c [] []) d s →
      d < (setBehaviours w c [] []).count ∧ s < (setBehaviours w c [] []).count := by
    intro d s hs
    rw [hlinks.super_eq] at hs
    exact hbounded d s hs
  obtain ⟨i, hi⟩ := createInstanceBehaviour_isSome (hlinks.super_eq ▸ hacyclic) (by
    intro d
    rw [hlinks.instanceSuperClasses, hlinks.classSuperClasses, hequal]) hbounded' [] hfuel
  obtain ⟨b, hb⟩ :=
    createClassBehaviour_isSome (hlinks.super_eq ▸ hacyclic) hbounded' c [] hfuel
  exact ⟨_, by rw [createBehaviours, hi]; simp only [Option.bind_eq_bind, Option.bind_some, hb]; rfl⟩

theorem updateSubClasses_spec (h : updateSubClasses fuel w c = some w') :
    Refreshed w w' ∧ Fresh w' c := by
  induction fuel generalizing w w' c with
  | zero => simp [updateSubClasses] at h
  | succ fuel ih =>
      rw [updateSubClasses] at h
      obtain ⟨u, hu, hrest⟩ := Option.bind_eq_some_iff.mp h
      obtain ⟨hown, hfresh⟩ := createBehaviours_spec hu
      have hbelow : Refreshed u w' :=
        foldlM_related Refreshed.refl (fun _ _ _ => Refreshed.trans)
          (fun s _ t t' hstep => (ih hstep).1) hrest
      exact ⟨hown.trans hbelow, hbelow.fresh c hfresh⟩

theorem updateSubClasses_isSome (h : Graph w) (hsame : SameLinks w w')
    (hfuel : ancestorCount (Function.swap (Super w)) w.count c < fuel) :
    ∃ w'', updateSubClasses fuel w' c = some w'' ∧ SameLinks w w'' := by
  induction fuel generalizing w' c with
  | zero => omega
  | succ fuel ih =>
      have hgraph := h.sameLinks hsame
      obtain ⟨u, hu⟩ :=
        createBehaviours_isSome hgraph.acyclic hgraph.equalLists hgraph.bounded c
      have hsame' := hsame.trans (createBehaviours_spec hu).1.links
      obtain ⟨w'', hw'', hlinks⟩ := foldlM_isSome (P := SameLinks w)
        (f := updateSubClasses fuel) (l := getSubClasses u c) (t := u) (by
          intro s hs t ht
          have hstep : Super w s c := by
            rw [← h.subClasses, ← hsame'.subClasses]
            exact mem_getSubClasses.mp hs
          have hlt := h.acyclic.swap.ancestorCount_lt (x := c) (y := s) hstep
            (h.bounded s c hstep).1
          exact ih ht (by omega)) hsame'
      exact ⟨w'', by rw [updateSubClasses, hu]; exact hw'', hlinks⟩

theorem refresh_linked (h : Graph w) (hfresh : ∀ d, d ≠ this → Fresh w d) :
    ∃ w', refresh w this = (w', .returned) ∧ Linked w' := by
  have hdepth : ancestorCount (Function.swap (Super w)) w.count this < w.depth :=
    Nat.lt_succ_of_le ancestorCount_le
  obtain ⟨w', hw', hsame⟩ := updateSubClasses_isSome h (.refl w) hdepth
  obtain ⟨hrefreshed, hown⟩ := updateSubClasses_spec hw'
  refine ⟨w', by rw [refresh, hw'], h.sameLinks hsame, ?_⟩
  intro d
  rcases eq_or_ne d this with rfl | hne
  · exact hown
  · exact hrefreshed.fresh d (hfresh d hne)

end RexxClass

end LeooRexx
