import Mathlib
import LeooRexx.Classes.RexxClassMethods

/-!
# Runs that change the methods of classes

As long as no object has the behaviour of a class below the one that is changed (or of this
class itself, where its superclasses are), every object keeps its methods, and every object
that is made has the methods that the dictionaries of the superclasses give.
-/

namespace LeooRexx

namespace RexxClass

open Relation

variable {ν μ : Type} {w w' : World} {a b c d this mixin_class : ClassRef}

def Below (w : World) : ClassRef → ClassRef → Prop :=
  ReflTransGen fun superclass subclass => subclass ∈ getSubClasses w superclass

def InstanceSuper (w : World) (c s : ClassRef) : Prop := s ∈ (w.classes c).instanceSuperClasses

structure Covered (w : World) : Prop where
  supers : ∀ c, c < w.count → ∀ s, InstanceSuper w c s → s < w.count ∧ (c, s) ∈ w.subClasses
  tuples : ∀ c s, (c, s) ∈ w.subClasses → c < w.count

theorem Covered.below_lt (h : Covered w) (hc : c < w.count) (hbelow : Below w c d) :
    d < w.count := by
  induction hbelow with
  | refl => exact hc
  | tail _ hstep _ => exact h.tuples _ _ (mem_getSubClasses.mp hstep)

theorem Covered.below_of_super (h : Covered w')
    (hsame : ∀ x, x ≠ c → (w'.classes x).instanceSuperClasses =
      (w.classes x).instanceSuperClasses)
    (hd : d < w'.count) (hsuper : ReflTransGen (InstanceSuper w) d c) : Below w' c d := by
  induction hsuper using ReflTransGen.head_induction_on with
  | refl => exact .refl
  | @head x y hstep _ ih =>
      by_cases hx : x = c
      · subst hx
        exact .refl
      · have hstep' : InstanceSuper w' x y := by
          rw [InstanceSuper, hsame x hx]
          exact hstep
        obtain ⟨hy, htuple⟩ := h.supers x hd y hstep'
        exact (ih hy).tail (mem_getSubClasses.mpr htuple)

/-! ## Creating the methods -/

section Create

variable {dictionaries dictionaries' : ClassRef → MethodTable ν μ} {fuel fuel' : ℕ}
  {target result : MethodTable ν μ × Scopes}

theorem foldlM_mono {σ : Type} {f g : σ → ClassRef → Option σ} {l : List ClassRef} {t r : σ}
    (h : ∀ x ∈ l, ∀ t r, f t x = some r → g t x = some r) (hr : l.foldlM f t = some r) :
    l.foldlM g t = some r := by
  induction l generalizing t with
  | nil => exact hr
  | cons x l ih =>
      rw [List.foldlM_cons] at hr ⊢
      obtain ⟨u, hu, hrest⟩ := Option.bind_eq_some_iff.mp hr
      exact Option.bind_eq_some_iff.mpr
        ⟨u, h x (by simp) t u hu, ih (fun y hy => h y (by simp [hy])) hrest⟩

theorem createInstanceMethods_agree (hfuel : fuel ≤ fuel')
    (h : ∀ x, ReflTransGen (InstanceSuper w) d x →
      (w'.classes x).instanceSuperClasses = (w.classes x).instanceSuperClasses ∧
        dictionaries' x = dictionaries x)
    (hr : createInstanceMethods w dictionaries fuel target d = some result) :
    createInstanceMethods w' dictionaries' fuel' target d = some result := by
  induction fuel generalizing fuel' target d result with
  | zero => simp [createInstanceMethods] at hr
  | succ fuel ih =>
      obtain ⟨fuel', rfl⟩ := Nat.exists_eq_add_of_le' hfuel
      rw [createInstanceMethods, Option.map_eq_some_iff] at hr
      obtain ⟨u, hu, hresult⟩ := hr
      have hu' := foldlM_mono (g := fun target superclass =>
        if checkScope target.2 superclass then some target
        else createInstanceMethods w' dictionaries' (fuel' + fuel) target superclass)
        (fun x hx t r hstep => by
          split at hstep
          next hin => rw [if_pos hin, hstep]
          next hout =>
            rw [if_neg hout]
            exact ih (Nat.le_add_left ..)
              (fun y hy => h y (.head (List.mem_reverse.mp hx) hy)) hstep) hu
      rw [← Nat.add_assoc, createInstanceMethods, (h d .refl).1, hu', Option.map_some,
        (h d .refl).2, hresult]

theorem createInstanceMethods_not_mutual (hab : InstanceSuper w a b) (hba : InstanceSuper w b a)
    (ha : a ∉ target.2) (hb : b ∉ target.2)
    (hr : createInstanceMethods w dictionaries fuel target d = some result) :
    (d ≠ a ∧ d ≠ b) ∧ a ∉ result.2 ∧ b ∉ result.2 := by
  induction fuel generalizing target d result with
  | zero => simp [createInstanceMethods] at hr
  | succ fuel ih =>
      rw [createInstanceMethods, Option.map_eq_some_iff] at hr
      obtain ⟨u, hu, hresult⟩ := hr
      have hfold : ∀ (l : List ClassRef) (t : MethodTable ν μ × Scopes), a ∉ t.2 → b ∉ t.2 →
          l.foldlM (fun target superclass =>
            if checkScope target.2 superclass then some target
            else createInstanceMethods w dictionaries fuel target superclass) t = some u →
          (a ∉ l ∧ b ∉ l) ∧ a ∉ u.2 ∧ b ∉ u.2 := by
        intro l
        induction l with
        | nil =>
            intro t hat hbt hl
            obtain rfl : t = u := by simpa using hl
            exact ⟨⟨List.not_mem_nil, List.not_mem_nil⟩, hat, hbt⟩
        | cons x l ihl =>
            intro t hat hbt hl
            rw [List.foldlM_cons] at hl
            obtain ⟨v, hv, hrest⟩ := Option.bind_eq_some_iff.mp hl
            have hx : (x ≠ a ∧ x ≠ b) ∧ a ∉ v.2 ∧ b ∉ v.2 := by
              split at hv
              next hin =>
                obtain rfl := Option.some.inj hv
                have hmem : x ∈ t.2 := by simpa [checkScope] using hin
                exact ⟨⟨ne_of_mem_of_not_mem hmem hat, ne_of_mem_of_not_mem hmem hbt⟩, hat, hbt⟩
              next => exact ih hat hbt hv
            obtain ⟨hl', hu'⟩ := ihl v hx.2.1 hx.2.2 hrest
            exact ⟨⟨List.not_mem_cons_of_ne_of_not_mem hx.1.1.symm hl'.1,
              List.not_mem_cons_of_ne_of_not_mem hx.1.2.symm hl'.2⟩, hu'⟩
      obtain ⟨hnot, hau, hbu⟩ := hfold _ target ha hb hu
      rw [List.mem_reverse, List.mem_reverse] at hnot
      have hd : d ≠ a ∧ d ≠ b := by
        constructor
        · rintro rfl
          exact hnot.2 hab
        · rintro rfl
          exact hnot.1 hba
      refine ⟨hd, ?_⟩
      rw [← hresult]
      split
      · exact ⟨hau, hbu⟩
      · exact ⟨List.not_mem_cons_of_ne_of_not_mem hd.1.symm hau,
          List.not_mem_cons_of_ne_of_not_mem hd.2.symm hbu⟩

end Create

/-! ## Changes of the classes -/

structure MadeBelow (w w' : World) (this : ClassRef) : Prop where
  count : w'.count = w.count + 1
  supers : (w'.classes w.count).instanceSuperClasses = [this]
  others : ∀ c, c ≠ w.count →
    (w'.classes c).instanceSuperClasses = (w.classes c).instanceSuperClasses
  subClasses : w'.subClasses = (w.count, this) :: w.subClasses

theorem subclass_links (w : World) (this : ClassRef) (id : Option String)
    (meta_class : Option ClassRef) (init : Init) :
    ((subclass w this id meta_class init).1 = w ∧
        ∀ m, (subclass w this id meta_class init).2 ≠ .created m) ∨
      MadeBelow w (subclass w this id meta_class init).1 this := by
  simp only [subclass]
  split
  · exact .inl ⟨rfl, fun m h => by cases h⟩
  split
  · exact .inl ⟨rfl, fun m h => by cases h⟩
  split
  · exact .inl ⟨rfl, fun m h => by cases h⟩
  split
  · exact .inl ⟨rfl, fun m h => by cases h⟩
  next hmade =>
    obtain ⟨⟨hlinks, -⟩, -⟩ := createBehaviours_spec hmade
    refine .inr ⟨hlinks.count, ?_, fun c hc => ?_, ?_⟩
    · exact (hlinks.instanceSuperClasses w.count).trans
        (congrArg ClassObject.instanceSuperClasses (getElem_addClass_self w _))
    · exact (hlinks.instanceSuperClasses c).trans
        (congrArg ClassObject.instanceSuperClasses (classes_addClass_of_ne _ hc))
    · exact congrArg ((w.count, this) :: ·) hlinks.subClasses

theorem mixinclass_links (w : World) (this : ClassRef) (id : Option String)
    (meta_class : Option ClassRef) (init : Init) :
    (mixinclass w this id meta_class init).1 = w ∨
      MadeBelow w (mixinclass w this id meta_class init).1 this := by
  have hlinks := subclass_links w this id meta_class init
  rw [mixinclass]
  split
  next w₁ m heq =>
    rw [heq] at hlinks
    rcases hlinks with ⟨-, hnone⟩ | hmade
    · exact absurd rfl (hnone m)
    have hsame : ∀ c, ((setMixin w₁ this m).classes c).instanceSuperClasses =
        (w₁.classes c).instanceSuperClasses := by
      intro c
      rcases eq_or_ne c m with rfl | hne <;> simp [setMixin, World.setClass, *]
    exact .inr ⟨hmade.count, (hsame _).trans hmade.supers,
      fun c hc => (hsame c).trans (hmade.others c hc), hmade.subClasses⟩
  next heq =>
    rw [heq] at hlinks
    exact hlinks.imp And.left fun h => h

theorem MadeBelow.covered (h : MadeBelow w w' this) (hw : Covered w) (hthis : this < w.count) :
    Covered w' where
  supers c hc s hs := by
    rw [h.count] at hc ⊢
    rw [h.subClasses]
    rcases eq_or_ne c w.count with rfl | hne
    · rw [InstanceSuper, h.supers, List.mem_singleton] at hs
      subst hs
      exact ⟨Nat.lt_succ_of_lt hthis, by simp⟩
    · rw [InstanceSuper, h.others c hne] at hs
      obtain ⟨hlt, htuple⟩ := hw.supers c (by omega) s hs
      exact ⟨Nat.lt_succ_of_lt hlt, by simp [htuple]⟩
  tuples c s htuple := by
    rw [h.subClasses] at htuple
    rw [h.count]
    rcases List.mem_cons.mp htuple with heq | htuple
    · obtain ⟨rfl, -⟩ := Prod.mk.inj heq
      exact Nat.lt_succ_self _
    · exact Nat.lt_succ_of_lt (hw.tuples c s htuple)

structure Relinked (w w' : World) (this : ClassRef) : Prop where
  count : w'.count = w.count
  others : ∀ c, c ≠ this →
    (w'.classes c).instanceSuperClasses = (w.classes c).instanceSuperClasses
  covered : Covered w'

theorem Covered.sameLinks (h : Covered w) (hsame : SameLinks w w') : Covered w' where
  supers c hc s hs := by
    rw [hsame.count] at hc ⊢
    rw [hsame.subClasses]
    rw [InstanceSuper, hsame.instanceSuperClasses] at hs
    exact h.supers c hc s hs
  tuples c s htuple := by
    rw [hsame.subClasses] at htuple
    rw [hsame.count]
    exact h.tuples c s htuple

theorem instanceSuperClasses_setSuperClasses (w : World) (this : ClassRef)
    (classList instanceList : List ClassRef) (c : ClassRef) :
    ((setSuperClasses w this classList instanceList).classes c).instanceSuperClasses =
      if c = this then instanceList else (w.classes c).instanceSuperClasses := by
  rcases eq_or_ne c this with rfl | hne <;> simp [setSuperClasses, World.setClass, *]

theorem refresh_outcome (w : World) (this : ClassRef) :
    (refresh w this).2 = .returned ∨ (refresh w this).2 = .overflow := by
  rw [refresh]
  split
  · exact .inr rfl
  · exact .inl rfl

theorem inherit_outcome (w : World) (this : ClassRef) (argument position : Argument) :
    ((inherit w this argument position).2 = .returned ∨
        (inherit w this argument position).2 = .overflow) ∨
      (inherit w this argument position).1 = w := by
  rw [inherit]
  split
  · exact .inr rfl
  · exact .inl (refresh_outcome _ _)

theorem uninherit_outcome (w : World) (this : ClassRef) (argument : Argument) :
    ((uninherit w this argument).2 = .returned ∨ (uninherit w this argument).2 = .overflow) ∨
      (uninherit w this argument).1 = w := by
  rw [uninherit]
  split
  · exact .inr rfl
  · exact .inl (refresh_outcome _ _)

theorem checkInherit_argument {argument position : Argument} {i j : ℕ}
    (hcheck : checkInherit w this argument position = .ok (mixin_class, i, j)) :
    argument = .classObject mixin_class := by
  simp only [checkInherit] at hcheck
  split at hcheck
  · cases hcheck
  cases argument with
  | omitted => cases hcheck
  | object => cases hcheck
  | classObject mixin =>
      simp only at hcheck
      repeat' split at hcheck
      all_goals
        cases hcheck
        try rfl

theorem inherit_relinked (h : Covered w) (hthis : this < w.count) {argument position : Argument}
    (hexists : argument.Exists w) (hreturned : (inherit w this argument position).2 = .returned) :
    Relinked w (inherit w this argument position).1 this := by
  rw [inherit] at hreturned ⊢
  split at hreturned
  · cases hreturned
  next m i j hcheck =>
    have hmixin : m < w.count := by
      rw [checkInherit_argument hcheck] at hexists
      exact hexists
    have hsame := refresh_sameLinks (linkMixin w this m i j) this
    have hlinked : Covered (linkMixin w this m i j) := by
      refine ⟨fun c hc s hs => ?_, fun c s htuple => ?_⟩
      · change s ∈ ((setSuperClasses w this _ _).classes c).instanceSuperClasses at hs
        rw [instanceSuperClasses_setSuperClasses] at hs
        change s < w.count ∧ (c, s) ∈ (this, m) :: w.subClasses
        split at hs
        next heq =>
          subst heq
          rcases List.eq_or_mem_of_mem_insertIdx hs with rfl | hs
          · exact ⟨hmixin, by simp⟩
          · obtain ⟨hlt, htuple⟩ := h.supers c hc s hs
            exact ⟨hlt, by simp [htuple]⟩
        next =>
          obtain ⟨hlt, htuple⟩ := h.supers c hc s hs
          exact ⟨hlt, by simp [htuple]⟩
      · change (c, s) ∈ (this, m) :: w.subClasses at htuple
        change c < w.count
        rcases List.mem_cons.mp htuple with heq | htuple
        · rw [Prod.mk.injEq] at heq
          exact heq.1 ▸ hthis
        · exact h.tuples c s htuple
    refine ⟨hsame.count, fun c hc => ?_, hlinked.sameLinks hsame⟩
    rw [hsame.instanceSuperClasses]
    exact (instanceSuperClasses_setSuperClasses w this _ _ c).trans (if_neg hc)

theorem checkUninherit_instance {argument : Argument} {i j : ℕ}
    (hcheck : checkUninherit w this argument = .ok (mixin_class, i, j)) :
    InstanceSuper w this mixin_class := by
  simp only [checkUninherit] at hcheck
  split at hcheck
  · cases hcheck
  cases argument with
  | omitted => cases hcheck
  | object => cases hcheck
  | classObject mixin =>
      simp only at hcheck
      split at hcheck
      · rename_i hindex
        cases hcheck
        by_contra hmem
        have hzero : indexOf (w.classes this).instanceSuperClasses mixin_class = 0 := if_neg hmem
        omega
      · cases hcheck

theorem uninherit_relinked (h : Covered w) {argument : Argument}
    (hmutual : ∀ m, InstanceSuper w this m → ¬ InstanceSuper w m this)
    (hreturned : (uninherit w this argument).2 = .returned) :
    Relinked w (uninherit w this argument).1 this := by
  rw [uninherit] at hreturned ⊢
  split at hreturned
  · cases hreturned
  next m i j hcheck =>
    have hsuper := checkUninherit_instance hcheck
    have hsame := refresh_sameLinks (unlinkMixin w this m i j) this
    have hlinked : Covered (unlinkMixin w this m i j) := by
      refine ⟨fun c hc s hs => ?_, fun c s htuple => ?_⟩
      · change s ∈ ((setSuperClasses w this _ _).classes c).instanceSuperClasses at hs
        rw [instanceSuperClasses_setSuperClasses] at hs
        change s < w.count ∧ (c, s) ∈ w.subClasses.erase (m, this)
        have hold : InstanceSuper w c s := by
          split at hs
          next heq =>
            subst heq
            exact List.mem_of_mem_eraseIdx hs
          next => exact hs
        obtain ⟨hlt, htuple⟩ := h.supers c hc s hold
        refine ⟨hlt, (List.mem_erase_of_ne fun heq => ?_).mpr htuple⟩
        obtain ⟨rfl, rfl⟩ := Prod.mk.inj heq
        exact hmutual c hsuper hold
      · exact h.tuples c s (List.mem_of_mem_erase htuple)
    refine ⟨hsame.count, fun c hc => ?_, hlinked.sameLinks hsame⟩
    rw [hsame.instanceSuperClasses]
    exact (instanceSuperClasses_setSuperClasses w this _ _ c).trans (if_neg hc)

namespace ClassMemory

variable {s s' s'' : ClassMemory ν μ} {V V' : ClassRef → Prop}

/-! ## Updates in place -/

structure Updated (s s' : ClassMemory ν μ) (V : ClassRef → Prop) : Prop where
  world : s'.world = s.world
  own : s'.instanceMethodDictionary = s.instanceMethodDictionary
  instanceBehaviour : s'.instanceBehaviour = s.instanceBehaviour
  behaviours : s'.behaviours = s.behaviours
  objects : s'.objects = s.objects
  changed : ∀ b, s'.methodDictionary b = s.methodDictionary b ∨
    ∃ d, V d ∧ s.instanceBehaviour d = b ∧ s.instanceMethods d = some (s'.methodDictionary b)
  filled : ∀ d, V d → s.instanceMethods d = some (s'.methodDictionary (s.instanceBehaviour d))

theorem Updated.instanceMethods_eq (h : Updated s s' V) (c : ClassRef) :
    s'.instanceMethods c = s.instanceMethods c := by
  rw [instanceMethods, instanceMethods, h.world, h.own]

theorem Updated.congr (h : Updated s s' V) (hV : ∀ d, V d ↔ V' d) : Updated s s' V' := by
  obtain rfl : V = V' := funext fun d => propext (hV d)
  exact h

theorem Updated.refl (s : ClassMemory ν μ) : Updated s s fun _ => False :=
  ⟨rfl, rfl, rfl, rfl, rfl, fun _ => .inl rfl, fun _ h => h.elim⟩

theorem Updated.trans (h : Updated s s' V) (h' : Updated s' s'' V')
    (happart : ∀ d d', V d → V' d' → s.instanceBehaviour d = s.instanceBehaviour d' → d = d') :
    Updated s s'' fun d => V d ∨ V' d where
  world := h'.world.trans h.world
  own := h'.own.trans h.own
  instanceBehaviour := h'.instanceBehaviour.trans h.instanceBehaviour
  behaviours := h'.behaviours.trans h.behaviours
  objects := h'.objects.trans h.objects
  changed b := by
    rcases h'.changed b with heq | ⟨d, hd, hb, hmethods⟩
    · rw [heq]
      rcases h.changed b with heq' | ⟨d, hd, hb, hmethods⟩
      · exact .inl heq'
      · exact .inr ⟨d, .inl hd, hb, hmethods⟩
    · rw [h.instanceBehaviour] at hb
      rw [h.instanceMethods_eq] at hmethods
      exact .inr ⟨d, .inr hd, hb, hmethods⟩
  filled d hd := by
    rcases hd with hd | hd
    · rcases h'.changed (s.instanceBehaviour d) with heq | ⟨d', hd', hb, hmethods⟩
      · rw [heq]
        exact h.filled d hd
      · rw [h.instanceBehaviour] at hb
        obtain rfl := happart d d' hd hd' hb.symm
        rwa [h.instanceMethods_eq] at hmethods
    · have hfilled := h'.filled d hd
      rwa [h.instanceBehaviour, h.instanceMethods_eq] at hfilled

theorem fill_updated (h : s.fill c = some s') : Updated s s' fun d => d = c := by
  obtain ⟨dictionary, hmethods, rfl⟩ := Option.map_eq_some_iff.mp h
  refine ⟨rfl, rfl, rfl, rfl, rfl, fun b => ?_, ?_⟩
  · rcases eq_or_ne b (s.instanceBehaviour c) with rfl | hne
    · exact .inr ⟨c, rfl, rfl, by rw [hmethods]; simp⟩
    · exact .inl (Function.update_of_ne hne _ _)
  · rintro d rfl
    rw [hmethods]
    simp

structure Wellformed (s : ClassMemory ν μ) : Prop where
  covered : Covered s.world
  apart : ∀ c d, c < s.world.count → d < s.world.count →
    s.instanceBehaviour c = s.instanceBehaviour d → c = d
  allocated : ∀ c, c < s.world.count → s.instanceBehaviour c < s.behaviours
  used : ∀ b ∈ s.objects, b < s.behaviours

theorem Wellformed.updated (h : Wellformed s) (hupdated : Updated s s' V) : Wellformed s' where
  covered := hupdated.world ▸ h.covered
  apart c d hc hd heq := by
    rw [hupdated.world] at hc hd
    rw [hupdated.instanceBehaviour] at heq
    exact h.apart c d hc hd heq
  allocated c hc := by
    rw [hupdated.world] at hc
    rw [hupdated.instanceBehaviour, hupdated.behaviours]
    exact h.allocated c hc
  used b hb := by
    rw [hupdated.objects] at hb
    rw [hupdated.behaviours]
    exact h.used b hb

theorem updateInstanceSubClasses_spec {fuel : ℕ} (h : Wellformed s) (hc : c < s.world.count)
    (hupdate : updateInstanceSubClasses fuel s c = some s') :
    Updated s s' (Below s.world c) := by
  induction fuel generalizing s s' c with
  | zero => simp [updateInstanceSubClasses] at hupdate
  | succ fuel ih =>
      rw [updateInstanceSubClasses] at hupdate
      obtain ⟨u, hfill, hrest⟩ := Option.bind_eq_some_iff.mp hupdate
      have hown := fill_updated hfill
      -- each class of the list is updated with all that is below it
      have hlist : ∀ (l : List ClassRef) (u : ClassMemory ν μ), Wellformed u →
          u.world = s.world → u.instanceBehaviour = s.instanceBehaviour →
          (∀ x ∈ l, x < s.world.count) →
          l.foldlM (updateInstanceSubClasses fuel) u = some s' →
          Updated u s' fun d => ∃ x ∈ l, Below s.world x d := by
        intro l
        induction l with
        | nil =>
            intro u _ _ _ _ hl
            obtain rfl : u = s' := by simpa using hl
            exact (Updated.refl u).congr fun d => by simp
        | cons x l ihl =>
            intro u hu hworld hbehaviour hbound hl
            rw [List.foldlM_cons] at hl
            obtain ⟨v, hv, htail⟩ := Option.bind_eq_some_iff.mp hl
            have hx := hbound x (by simp)
            have hhead := ih hu (hworld ▸ hx) hv
            have hrest := ihl v (hu.updated hhead) (hhead.world.trans hworld)
              (hhead.instanceBehaviour.trans hbehaviour) (fun y hy => hbound y (by simp [hy]))
              htail
            refine (hhead.trans hrest fun d d' hd hd' heq => ?_).congr fun d => ?_
            · obtain ⟨y, hy, hd'⟩ := hd'
              rw [hworld] at hd
              refine h.apart d d' (h.covered.below_lt hx hd)
                (h.covered.below_lt (hbound y (by simp [hy])) hd') ?_
              rwa [hbehaviour] at heq
            · simp [hworld]
      have hbelow := hlist (getSubClasses u.world c) u (h.updated hown) hown.world
        hown.instanceBehaviour (fun x hx => by
          rw [hown.world] at hx
          exact h.covered.tuples _ _ (mem_getSubClasses.mp hx)) hrest
      refine (hown.trans hbelow ?_).congr fun d => ?_
      · rintro d d' rfl ⟨x, hx, hd'⟩ heq
        rw [hown.world] at hx
        exact h.apart d d' hc
          (h.covered.below_lt (h.covered.tuples _ _ (mem_getSubClasses.mp hx)) hd') heq
      · rw [hown.world, Below, ReflTransGen.cases_head_iff]
        exact or_congr eq_comm Iff.rfl

/-! ## Sound memories -/

structure Sound (s : ClassMemory ν μ) : Prop extends Wellformed s where
  current : ∀ c, c < s.world.count →
    s.instanceMethods c = some (s.methodDictionary (s.instanceBehaviour c))

theorem Wellformed.sound_of_updated (h : Wellformed s) (hc : c < s.world.count)
    (hupdated : Updated s s' (Below s.world c))
    (hothers : ∀ d, d < s.world.count → ¬ Below s.world c d →
      s.instanceMethods d = some (s.methodDictionary (s.instanceBehaviour d))) : Sound s' := by
  refine ⟨h.updated hupdated, fun d hd => ?_⟩
  rw [hupdated.world] at hd
  rw [hupdated.instanceMethods_eq, hupdated.instanceBehaviour]
  by_cases hbelow : Below s.world c d
  · exact hupdated.filled d hbelow
  · rcases hupdated.changed (s.instanceBehaviour d) with heq | ⟨d', hd', hb, -⟩
    · rw [heq]
      exact hothers d hd hbelow
    · obtain rfl := h.apart d' d (h.covered.below_lt hc hd') hd hb
      exact absurd hd' hbelow

theorem instanceMethods_agree {dictionary : MethodTable ν μ}
    (hcount : s.world.count ≤ s'.world.count)
    (h : ∀ x, ReflTransGen (InstanceSuper s.world) d x →
      (s'.world.classes x).instanceSuperClasses = (s.world.classes x).instanceSuperClasses ∧
        s'.instanceMethodDictionary x = s.instanceMethodDictionary x)
    (hs : s.instanceMethods d = some dictionary) : s'.instanceMethods d = some dictionary := by
  obtain ⟨r, hr, rfl⟩ := Option.map_eq_some_iff.mp hs
  exact Option.map_eq_some_iff.mpr
    ⟨r, createInstanceMethods_agree (Nat.succ_le_succ hcount) h hr, rfl⟩

theorem Sound.copyBehaviour (h : Sound s) (hc : c < s.world.count) : Sound (s.copyBehaviour c) := by
  have hbehaviour : ∀ d, d < s.world.count → (s.copyBehaviour c).methodDictionary
      ((s.copyBehaviour c).instanceBehaviour d) =
        s.methodDictionary (s.instanceBehaviour d) := by
    intro d hd
    have hne : s.instanceBehaviour d ≠ s.behaviours := Nat.ne_of_lt (h.allocated d hd)
    rcases eq_or_ne d c with rfl | hdc
    · simp [ClassMemory.copyBehaviour]
    · simp [ClassMemory.copyBehaviour, hdc, hne]
  refine ⟨⟨h.covered, fun x y hx hy heq => ?_, fun x hx => ?_, fun b hb => ?_⟩, fun d hd => ?_⟩
  · have hxb := Nat.ne_of_lt (h.allocated x hx)
    have hyb := Nat.ne_of_lt (h.allocated y hy)
    simp only [ClassMemory.copyBehaviour, Function.update_apply] at heq
    split_ifs at heq with h₁ h₂ h₂
    · rw [h₁, h₂]
    · exact absurd heq.symm hyb
    · exact absurd heq hxb
    · exact h.apart x y hx hy heq
  · have hxb := h.allocated x hx
    simp only [ClassMemory.copyBehaviour, Function.update_apply]
    split_ifs <;> omega
  · exact Nat.lt_succ_of_lt (h.used b hb)
  · rw [hbehaviour d hd]
    exact h.current d hd

def Unused (s : ClassMemory ν μ) (this : ClassRef) : Prop :=
  ∀ d, Below s.world this d → d ≠ this → s.instanceBehaviour d ∉ s.objects

section Methods

variable [DecidableEq ν]

theorem Sound.setMethod_spec (h : Sound s) (hc : c < s.world.count) {method_name : ν}
    {entry : Option (Option (ClassRef × μ))}
    (hupdate : updateInstanceSubClasses s.world.depth
      ((s.copyBehaviour c).setMethod c method_name entry) c = some s') :
    Sound s' ∧ s'.objects = s.objects ∧
      (s.Unused c → ∀ b ∈ s.objects, s'.methodDictionary b = s.methodDictionary b) := by
  have hcopied := h.copyBehaviour hc
  have hwell : Wellformed ((s.copyBehaviour c).setMethod c method_name entry) :=
    ⟨hcopied.covered, hcopied.apart, hcopied.allocated, hcopied.used⟩
  have hupdated := updateInstanceSubClasses_spec hwell hc hupdate
  refine ⟨hwell.sound_of_updated hc hupdated fun d hd hbelow => ?_, hupdated.objects,
    fun hunused b hb => ?_⟩
  · change _ = some ((s.copyBehaviour c).methodDictionary ((s.copyBehaviour c).instanceBehaviour d))
    refine instanceMethods_agree (s := s.copyBehaviour c) (Nat.le_refl _)
      (fun x hx => ⟨rfl, ?_⟩) (hcopied.current d hd)
    refine Function.update_of_ne (fun hxc => hbelow ?_) _ _
    subst hxc
    exact h.covered.below_of_super (fun _ _ => rfl) hd hx
  · have hused := h.used b hb
    have hcopy : ((s.copyBehaviour c).setMethod c method_name entry).methodDictionary b =
        s.methodDictionary b := Function.update_of_ne (Nat.ne_of_lt hused) _ _
    rcases hupdated.changed b with heq | ⟨d, hd, hbd, -⟩
    · rw [heq, hcopy]
    · change Function.update s.instanceBehaviour c s.behaviours d = b at hbd
      rcases eq_or_ne d c with rfl | hdc
      · rw [Function.update_self] at hbd
        omega
      · rw [Function.update_of_ne hdc] at hbd
        exact absurd (hbd ▸ hb) (hunused d hd hdc)

end Methods

theorem Sound.relink_spec (h : Sound s) (hc : c < s.world.count)
    (hrelinked : Relinked s.world w' c)
    (hupdate : updateInstanceSubClasses w'.depth { s with world := w' } c = some s') :
    Sound s' ∧ s'.objects = s.objects ∧
      ((∀ d, Below w' c d → s.instanceBehaviour d ∉ s.objects) →
        ∀ b ∈ s.objects, s'.methodDictionary b = s.methodDictionary b) := by
  have hcount := hrelinked.count
  have hwell : Wellformed { s with world := w' } := by
    refine ⟨hrelinked.covered, fun x y hx hy => ?_, fun x hx => ?_, h.used⟩
    · exact h.apart x y (hcount ▸ hx) (hcount ▸ hy)
    · exact h.allocated x (hcount ▸ hx)
  have hc' : c < w'.count := hcount ▸ hc
  have hupdated := updateInstanceSubClasses_spec hwell hc' hupdate
  refine ⟨hwell.sound_of_updated hc' hupdated fun d hd hbelow => ?_, hupdated.objects,
    fun hunused b hb => ?_⟩
  · refine instanceMethods_agree (Nat.le_of_eq hcount.symm) (fun x hx => ⟨?_, rfl⟩)
      (h.current d (hcount ▸ hd))
    refine hrelinked.others x fun hxc => hbelow ?_
    subst hxc
    exact hrelinked.covered.below_of_super hrelinked.others hd hx
  · rcases hupdated.changed b with heq | ⟨d, hd, hbd, -⟩
    · exact heq
    · exact absurd (hbd ▸ hb) (hunused d hd)

theorem Sound.makeClass_spec (h : Sound s) (hc : c < s.world.count) {made : World × Outcome}
    (hmade : made.1 = s.world ∨ MadeBelow s.world made.1 c)
    (hmake : s.makeClass made = some s') :
    Sound s' ∧ s'.objects = s.objects ∧
      ∀ b ∈ s.objects, s'.methodDictionary b = s.methodDictionary b := by
  rw [makeClass] at hmake
  split at hmake
  · cases hmake
  rcases hmade with hsame | hmade
  · rw [hsame, if_pos rfl] at hmake
    obtain rfl := Option.some.inj hmake
    exact ⟨h, rfl, fun _ _ => rfl⟩
  · have hne : made.1.count ≠ s.world.count := by
      rw [hmade.count]
      omega
    rw [if_neg hne] at hmake
    have hcovered := hmade.covered h.covered hc
    have hold : ∀ x, x < made.1.count → x ≠ s.world.count → x < s.world.count := by
      intro x hx hxne
      rw [hmade.count] at hx
      omega
    have hupdated := fill_updated hmake
    have hwell := Wellformed.updated (s := { s with
        world := made.1
        instanceMethodDictionary :=
          Function.update s.instanceMethodDictionary s.world.count fun _ => none
        instanceBehaviour := Function.update s.instanceBehaviour s.world.count s.behaviours
        behaviours := s.behaviours + 1 }) ?_ hupdated
    · refine ⟨⟨hwell, fun d hd => ?_⟩, hupdated.objects, fun b hb => ?_⟩
      · rw [hupdated.world] at hd
        rw [hupdated.instanceMethods_eq, hupdated.instanceBehaviour]
        rcases eq_or_ne d s.world.count with rfl | hdne
        · exact hupdated.filled _ rfl
        · have hdlt := hold d hd hdne
          have hbd := h.allocated d hdlt
          rcases hupdated.changed (Function.update s.instanceBehaviour s.world.count s.behaviours
            d) with heq | ⟨d', rfl, hb', -⟩
          · refine (instanceMethods_agree (by rw [hmade.count]; omega) (fun x hx => ?_)
              (h.current d hdlt)).trans ?_
            · have hx' : x < s.world.count := by
                clear heq
                induction hx with
                | refl => exact hdlt
                | tail _ hstep ih => exact (h.covered.supers _ ih _ hstep).1
              exact ⟨hmade.others x (Nat.ne_of_lt hx'),
                Function.update_of_ne (Nat.ne_of_lt hx') _ _⟩
            · rw [heq, Function.update_of_ne hdne]
          · simp only [Function.update_self, Function.update_of_ne hdne] at hb'
            omega
      · have hused := h.used b hb
        rcases hupdated.changed b with heq | ⟨d', rfl, hb', -⟩
        · exact heq
        · simp only [Function.update_self] at hb'
          omega
    · refine ⟨hcovered, fun x y hx hy heq => ?_, fun x hx => ?_, fun b hb => ?_⟩
      · simp only [Function.update_apply] at heq
        split_ifs at heq with h₁ h₂ h₂
        · rw [h₁, h₂]
        · have := h.allocated y (hold y hy h₂)
          omega
        · have := h.allocated x (hold x hx h₁)
          omega
        · exact h.apart x y (hold x hx h₁) (hold y hy h₂) heq
      · simp only [Function.update_apply]
        split_ifs with h₁
        · omega
        · have := h.allocated x (hold x hx h₁)
          omega
      · exact Nat.lt_succ_of_lt (h.used b hb)

theorem Sound.not_mutual (h : Sound s) (ha : a < s.world.count)
    (hab : InstanceSuper s.world a b) : ¬ InstanceSuper s.world b a := by
  intro hba
  obtain ⟨r, hr, -⟩ := Option.map_eq_some_iff.mp (h.current a ha)
  exact (createInstanceMethods_not_mutual hab hba List.not_mem_nil List.not_mem_nil hr).1.1 rfl

/-! ## Runs -/

def Separate (s : ClassMemory ν μ) : ClassOperation ν μ → Prop
  | .defineMethod this _ _ => (s.world.classes this).rexxDefined = false → s.Unused this
  | .deleteMethod this method_name =>
      (s.world.classes this).rexxDefined = false →
        (s.instanceMethodDictionary this method_name).isSome → s.Unused this
  | .inherit this mixin_class position =>
      (inherit s.world this mixin_class position).2 = .returned →
        ∀ d, Below (inherit s.world this mixin_class position).1 this d →
          s.instanceBehaviour d ∉ s.objects
  | .uninherit this mixin_class =>
      (uninherit s.world this mixin_class).2 = .returned →
        ∀ d, Below (uninherit s.world this mixin_class).1 this d →
          s.instanceBehaviour d ∉ s.objects
  | _ => True

/-- The objects keep their methods, and one that is made has those of its class as they are
defined by then. -/
structure LeavesAlone (s : ClassMemory ν μ) (operation : ClassOperation ν μ)
    (s' : ClassMemory ν μ) : Prop where
  kept : ∀ object, object < s.objects.length → ∀ messageName,
    s'.methodLookup object messageName = s.methodLookup object messageName
  made : ∀ this, operation = .newObject this → ∃ methods, s.instanceMethods this = some methods ∧
    ∀ messageName, s'.methodLookup s.objects.length messageName = (methods messageName).join

theorem leavesAlone_of_same {operation : ClassOperation ν μ} (hobjects : s'.objects = s.objects)
    (hsame : ∀ b ∈ s.objects, s'.methodDictionary b = s.methodDictionary b)
    (hnew : ∀ this, operation ≠ .newObject this) : LeavesAlone s operation s' := by
  refine ⟨fun object hobject messageName => ?_, fun this heq => absurd heq (hnew this)⟩
  rw [methodLookup, methodLookup, hobjects, List.getElem?_eq_getElem hobject, Option.bind_some,
    Option.bind_some, hsame _ (List.getElem_mem hobject)]

theorem Sound.relink_leavesAlone (h : Sound s) (hc : c < s.world.count) {changed : World × Outcome}
    {operation : ClassOperation ν μ} (hnew : ∀ this, operation ≠ .newObject this)
    (houtcome : (changed.2 = .returned ∨ changed.2 = .overflow) ∨ changed.1 = s.world)
    (hrelinked : changed.2 = .returned → Relinked s.world changed.1 c)
    (hunused : changed.2 = .returned →
      ∀ d, Below changed.1 c d → s.instanceBehaviour d ∉ s.objects)
    (hrelink : s.relink changed c = some s') : Sound s' ∧ LeavesAlone s operation s' := by
  rw [relink] at hrelink
  split at hrelink
  next hreturned =>
    obtain ⟨hsound, hobjects, hsame⟩ := h.relink_spec hc (hrelinked hreturned) hrelink
    exact ⟨hsound, leavesAlone_of_same hobjects (hsame (hunused hreturned)) hnew⟩
  next => cases hrelink
  next hnot hnot' =>
    have hworld : changed.1 = s.world :=
      houtcome.resolve_left fun hor => hor.elim (fun h => hnot h) fun h => hnot' h
    rw [hworld] at hrelink
    obtain rfl := Option.some.inj hrelink
    exact ⟨h, leavesAlone_of_same rfl (fun _ _ => rfl) hnew⟩

theorem Sound.newObject_spec (h : Sound s) (hc : c < s.world.count) :
    Sound (s.newObject c) ∧ LeavesAlone s (.newObject c) (s.newObject c) := by
  refine ⟨⟨⟨h.covered, h.apart, h.allocated, fun b hb => ?_⟩, h.current⟩,
    fun object hobject messageName => ?_, ?_⟩
  · rcases List.mem_append.mp hb with hb | hb
    · exact h.used b hb
    · rw [List.mem_singleton.mp hb]
      exact h.allocated c hc
  · rw [methodLookup, methodLookup, newObject, List.getElem?_append_left hobject]
  · rintro this heq
    obtain rfl : c = this := by injection heq
    refine ⟨_, h.current c hc, fun messageName => ?_⟩
    simp [methodLookup, newObject]

variable [DecidableEq ν]

theorem Sound.perform_spec (h : Sound s) {operation : ClassOperation ν μ}
    (hknows : s.Knows operation) (hseparate : s.Separate operation)
    (hperform : s.perform operation = some s') : Sound s' ∧ LeavesAlone s operation s' := by
  cases operation with
  | newObject this =>
      obtain rfl := Option.some.inj hperform
      exact h.newObject_spec hknows
  | defineMethod this method_name method_object =>
      rw [perform, defineMethod] at hperform
      split at hperform
      · obtain rfl := Option.some.inj hperform
        exact ⟨h, leavesAlone_of_same rfl (fun _ _ => rfl) (by simp)⟩
      next hdefined =>
        obtain ⟨hsound, hobjects, hsame⟩ := h.setMethod_spec hknows hperform
        exact ⟨hsound, leavesAlone_of_same hobjects
          (hsame (hseparate (Bool.not_eq_true _ ▸ hdefined))) (by simp)⟩
  | deleteMethod this method_name =>
      rw [perform, deleteMethod] at hperform
      split at hperform
      · obtain rfl := Option.some.inj hperform
        exact ⟨h, leavesAlone_of_same rfl (fun _ _ => rfl) (by simp)⟩
      next hdefined =>
        split at hperform
        · obtain rfl := Option.some.inj hperform
          refine ⟨h.copyBehaviour hknows, leavesAlone_of_same rfl (fun b hb => ?_) (by simp)⟩
          exact Function.update_of_ne (Nat.ne_of_lt (h.used b hb)) _ _
        next hmethod =>
          obtain ⟨hsound, hobjects, hsame⟩ := h.setMethod_spec hknows hperform
          refine ⟨hsound, leavesAlone_of_same hobjects
            (hsame (hseparate (Bool.not_eq_true _ ▸ hdefined) ?_)) (by simp)⟩
          simpa [Option.isSome_iff_ne_none] using hmethod
  | subclass this id meta_class init =>
      obtain ⟨hsound, hobjects, hsame⟩ := h.makeClass_spec hknows
        ((subclass_links s.world this id meta_class init).imp And.left fun h => h) hperform
      exact ⟨hsound, leavesAlone_of_same hobjects hsame (by simp)⟩
  | mixinclass this id meta_class init =>
      obtain ⟨hsound, hobjects, hsame⟩ := h.makeClass_spec hknows
        (mixinclass_links s.world this id meta_class init) hperform
      exact ⟨hsound, leavesAlone_of_same hobjects hsame (by simp)⟩
  | inherit this mixin_class position =>
      exact h.relink_leavesAlone hknows.1 (by simp) (inherit_outcome ..)
        (inherit_relinked h.covered hknows.1 hknows.2) hseparate hperform
  | uninherit this mixin_class =>
      exact h.relink_leavesAlone hknows (by simp) (uninherit_outcome ..)
        (uninherit_relinked h.covered fun m => h.not_mutual hknows) hseparate hperform

def AllOperations (P : ClassMemory ν μ → ClassOperation ν μ → ClassMemory ν μ → Prop) :
    ClassMemory ν μ → List (ClassOperation ν μ) → Prop
  | _, [] => True
  | s, operation :: operations =>
      ∀ s', s.perform operation = some s' → P s operation s' ∧ AllOperations P s' operations

/-- `OBJECT` and `CLASS`, without methods. -/
def boot : ClassMemory Unit Unit := ⟨World.boot, fun _ _ => none, id, 2, fun _ _ => none, []⟩

theorem boot_sound : Sound boot := by
  have hobject : (World.boot.classes 0).instanceSuperClasses = [] := rfl
  have hclass : (World.boot.classes 1).instanceSuperClasses = [0] := rfl
  have hcases : ∀ c, c < boot.world.count → c = 0 ∨ c = 1 := fun c hc => by
    have hlt : c < 2 := hc
    omega
  refine ⟨⟨⟨fun c hc s hs => ?_, fun c s htuple => ?_⟩, fun _ _ _ _ heq => heq,
    fun _ hc => hc, nofun⟩, fun c hc => ?_⟩
  · rcases hcases c hc with rfl | rfl
    · rw [InstanceSuper, boot, hobject] at hs
      exact absurd hs List.not_mem_nil
    · rw [InstanceSuper, boot, hclass, List.mem_singleton] at hs
      subst hs
      exact ⟨by decide, by decide⟩
  · obtain ⟨rfl, -⟩ := Prod.mk.inj (List.mem_singleton.mp htuple)
    decide
  · rcases hcases c hc with rfl | rfl <;> rfl

end ClassMemory

end RexxClass

end LeooRexx
