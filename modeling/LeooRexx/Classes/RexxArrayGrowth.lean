import LeooRexx.Classes.RexxArray

/-!
# Growth of arrays

The subscripts of a position, and the copy of an array of several dimensions into a larger
one: each old element is at the place that its subscripts have in the new dimensions.
-/

namespace LeooRexx

open RowMajor

namespace Subscript

def number : Subscript → Int
  | integer value => value
  | string (some number) _ => number
  | string none _ => 0

theorem requiredPositive_ok {x : Subscript} (h : 0 < x.number) :
    x.requiredPositive = .ok x.number.toNat := by
  cases x with
  | integer value => exact if_pos h
  | string number numberString =>
      cases number with
      | none => exact absurd h (lt_irrefl 0)
      | some number => exact if_pos h

theorem of_requiredPositive {x : Subscript} {n : Nat} (h : x.requiredPositive = .ok n) :
    0 < x.number ∧ n = x.number.toNat := by
  have hpos : 0 < x.number := by
    by_contra hneg
    cases x with
    | integer value =>
        have hneg' : ¬ 0 < value := hneg
        rw [requiredPositive, if_neg hneg'] at h
        cases h
    | string number numberString =>
        cases number with
        | none => cases h
        | some number =>
            have hneg' : ¬ 0 < number := hneg
            rw [requiredPositive, if_neg hneg'] at h
            cases h
  rw [requiredPositive_ok hpos] at h
  cases h
  exact ⟨hpos, rfl⟩

end Subscript

def ValidIndex (index : List Subscript) : Prop := ∀ x ∈ index, 0 < x.number

def sizesOf (index : List Subscript) : List Nat := index.map fun x => x.number.toNat

def subsOf (index : List Subscript) : List Nat := index.map fun x => x.number.toNat - 1

@[simp]
theorem sizesOf_cons (x : Subscript) (index : List Subscript) :
    sizesOf (x :: index) = x.number.toNat :: sizesOf index := rfl

@[simp]
theorem subsOf_cons (x : Subscript) (index : List Subscript) :
    subsOf (x :: index) = (x.number.toNat - 1) :: subsOf index := rfl

namespace RexxArray

variable {ν : Type} {a : RexxArray ν} {index : List Subscript} {dims : List Nat}

/-! ## Sizes -/

theorem totalSize_ok {sizes : List Int} {total n : Nat} (h : totalSize sizes total = .ok n) :
    n = total * (sizes.map Int.toNat).prod ∧ n < maxFixedArraySize := by
  induction sizes generalizing total with
  | nil =>
      rw [totalSize] at h
      split at h
      · cases h
      · cases h
        exact ⟨by simp, by omega⟩
  | cons size sizes ih =>
      rw [totalSize] at h
      split at h
      · cases h
      · split at h
        · cases h
        · obtain ⟨hn, hlt⟩ := ih h
          exact ⟨by rw [hn, List.map_cons, List.prod_cons, mul_assoc], hlt⟩

/-! ## Subscripts and offsets -/

theorem locate_of_inRange (hvalid : ValidIndex index) (hrange : InRange (subsOf index) dims) :
    locate index dims = .ok (some (offset dims (subsOf index), dims.prod)) := by
  induction index generalizing dims with
  | nil =>
      cases dims with
      | nil => rfl
      | cons d ds => cases hrange
  | cons x index ih =>
      cases dims with
      | nil => cases hrange
      | cons d ds =>
          rw [subsOf_cons, inRange_cons] at hrange
          obtain ⟨hlt, hrest⟩ := hrange
          have hpos := hvalid x List.mem_cons_self
          have hle : ¬ d < x.number.toNat := by omega
          rw [locate, ih (fun y hy => hvalid y (List.mem_cons_of_mem _ hy)) hrest]
          change (do
            let position ← x.requiredPositive
            if d < position then Except.ok none else Except.ok _) = _
          rw [Subscript.requiredPositive_ok hpos]
          change (if d < x.number.toNat then Except.ok none else Except.ok _) = _
          rw [if_neg hle, subsOf_cons, offset_cons, List.prod_cons, Nat.add_comm,
            Nat.mul_comm ds.prod, Nat.mul_comm ds.prod]

theorem locate_of_not_inRange (hvalid : ValidIndex index) (hlength : index.length = dims.length)
    (hrange : ¬ InRange (subsOf index) dims) : locate index dims = .ok none := by
  induction index generalizing dims with
  | nil =>
      cases dims with
      | nil => exact absurd inRange_nil hrange
      | cons d ds => cases hlength
  | cons x index ih =>
      cases dims with
      | nil => cases hlength
      | cons d ds =>
          have hvalid' : ValidIndex index := fun y hy => hvalid y (List.mem_cons_of_mem _ hy)
          have hpos := hvalid x List.mem_cons_self
          rw [locate]
          by_cases hrest : InRange (subsOf index) ds
          · have hlt : d < x.number.toNat := by
              by_contra hlt
              rw [subsOf_cons, inRange_cons] at hrange
              exact hrange ⟨by omega, hrest⟩
            rw [locate_of_inRange hvalid' hrest]
            change (do
              let position ← x.requiredPositive
              if d < position then Except.ok none else Except.ok _) = _
            rw [Subscript.requiredPositive_ok hpos]
            exact if_pos hlt
          · rw [ih hvalid' (Nat.succ.inj hlength) hrest]
            rfl

theorem of_locate {r : Nat × Nat} (hlength : index.length = dims.length)
    (h : locate index dims = .ok (some r)) :
    ValidIndex index ∧ InRange (subsOf index) dims ∧ r.1 = offset dims (subsOf index) := by
  have hvalid : ValidIndex index := by
    induction index generalizing dims r with
    | nil => exact fun x hx => absurd hx List.not_mem_nil
    | cons x index ih =>
        cases dims with
        | nil => cases hlength
        | cons d ds =>
            rw [locate] at h
            cases hrest : locate index ds with
            | error e => rw [hrest] at h; cases h
            | ok found =>
                rw [hrest] at h
                cases found with
                | none => cases h
                | some found =>
                    cases hx : x.requiredPositive with
                    | error e =>
                        simp only [hx] at h
                        cases h
                    | ok n =>
                        intro y hy
                        rcases List.mem_cons.mp hy with rfl | hy
                        · exact (Subscript.of_requiredPositive hx).1
                        · exact ih (Nat.succ.inj hlength) hrest y hy
  have hrange : InRange (subsOf index) dims := by
    by_contra hrange
    rw [locate_of_not_inRange hvalid hlength hrange] at h
    cases h
  rw [locate_of_inRange hvalid hrange] at h
  cases h
  exact ⟨hvalid, hrange, rfl⟩

theorem indexDigits_eq (dims : List Nat) (idx : Nat) :
    indexDigits dims idx = ((unravel dims idx).1.map (· + 1), (unravel dims idx).2) := by
  induction dims with
  | nil => rfl
  | cons d ds ih =>
      rw [indexDigits, ih, unravel]
      simp only [List.map_cons, ← Nat.div_eq_sub_mod_div]

/-! ## Growth -/

/-- Every new dimension is at least the old one, and after `level` they are the same. -/
inductive Grows : Nat → List Nat → List Nat → Prop where
  | last {n o : Nat} {dims : List Nat} (h : o ≤ n) : Grows 0 (n :: dims) (o :: dims)
  | before {level n o : Nat} {ns os : List Nat} (h : o ≤ n) (hrest : Grows level ns os) :
      Grows (level + 1) (n :: ns) (o :: os)

/-- A block with dimensions `os` was copied into one with `ns`, at the two positions. -/
structure Copied (source : Nat → Option ν) (ns os : List Nat) (p p' : CopyState ν) : Prop where
  startNew : p'.startNew = p.startNew + ns.prod
  startOld : p'.startOld = p.startOld + os.prod
  outside : ∀ i, i < p.startNew ∨ p.startNew + ns.prod ≤ i → p'.objects i = p.objects i
  inside : ∀ subs, InRange subs ns → p'.objects (p.startNew + offset ns subs) =
    if InRange subs os then source (p.startOld + offset os subs)
    else p.objects (p.startNew + offset ns subs)

variable {source : Nat → Option ν} {ns os : List Nat} {n o level : Nat}

theorem copied_last (h : o ≤ n) (p : CopyState ν) :
    Copied source (n :: dims) (o :: dims) p (copyElements source 0 (n :: dims) (o :: dims) p) := by
  have hle : dims.prod * o ≤ dims.prod * n := Nat.mul_le_mul_left _ h
  have hprod : (n :: dims).prod = dims.prod * n := by rw [List.prod_cons, Nat.mul_comm]
  have hsum : dims.prod * o + dims.prod * (n - o) = dims.prod * n := by
    rw [← Nat.mul_add, Nat.add_sub_cancel' h]
  constructor
  · rw [copyElements, hprod]
    simp only
    omega
  · rw [copyElements, List.prod_cons, Nat.mul_comm]
  · intro i hi
    rw [hprod] at hi
    exact if_neg (by omega)
  · rintro (_ | ⟨s, ss⟩) hrange
    · cases hrange
    · obtain ⟨hs, hss⟩ := inRange_cons.mp hrange
      have hlt := offset_lt hss
      rw [copyElements, offset_cons, offset_cons]
      simp only [memcpy]
      by_cases hso : s < o
      · have hblock : s * dims.prod + dims.prod ≤ dims.prod * o := by
          calc s * dims.prod + dims.prod = dims.prod * (s + 1) := by ring
            _ ≤ dims.prod * o := Nat.mul_le_mul_left _ hso
        rw [if_pos (by omega), if_pos (inRange_cons.mpr ⟨hso, hss⟩), Nat.add_sub_cancel_left]
      · have hblock : dims.prod * o ≤ s * dims.prod := by
          rw [Nat.mul_comm s]
          exact Nat.mul_le_mul_left _ (Nat.le_of_not_lt hso)
        have hnot : ¬ InRange (s :: ss) (o :: dims) := fun hmem => hso (inRange_cons.mp hmem).1
        rw [if_neg (by omega), if_neg hnot]

theorem copied_iterate (hstep : ∀ p, Copied source ns os p (copyElements source level ns os p))
    (p : CopyState ν) (m : Nat) :
    (Nat.iterate (copyElements source level ns os) m p).startNew = p.startNew + m * ns.prod ∧
      (Nat.iterate (copyElements source level ns os) m p).startOld = p.startOld + m * os.prod ∧
      (∀ i, i < p.startNew ∨ p.startNew + m * ns.prod ≤ i →
        (Nat.iterate (copyElements source level ns os) m p).objects i = p.objects i) ∧
      ∀ s ss, s < m → InRange ss ns →
        (Nat.iterate (copyElements source level ns os) m p).objects
            (p.startNew + (s * ns.prod + offset ns ss)) =
          if InRange ss os then source (p.startOld + (s * os.prod + offset os ss))
          else p.objects (p.startNew + (s * ns.prod + offset ns ss)) := by
  induction m with
  | zero => exact ⟨by simp, by simp, fun i _ => rfl, fun s ss hs => absurd hs (Nat.not_lt_zero s)⟩
  | succ m ih =>
      obtain ⟨hnew, hold, houtside, hinside⟩ := ih
      rw [Function.iterate_succ_apply']
      obtain ⟨hnew', hold', houtside', hinside'⟩ :=
        hstep (Nat.iterate (copyElements source level ns os) m p)
      refine ⟨by rw [hnew', hnew]; ring, by rw [hold', hold]; ring, fun i hi => ?_,
        fun s ss hs hss => ?_⟩
      · have hsucc : (m + 1) * ns.prod = m * ns.prod + ns.prod := by ring
        rw [houtside' i (by omega), houtside i (by omega)]
      · have hlt := offset_lt hss
        rcases Nat.lt_succ_iff_lt_or_eq.mp hs with hs | rfl
        · have hblock : s * ns.prod + ns.prod ≤ m * ns.prod := by
            calc s * ns.prod + ns.prod = (s + 1) * ns.prod := by ring
              _ ≤ m * ns.prod := Nat.mul_le_mul_right _ hs
          rw [houtside' _ (by omega), hinside s ss hs hss]
        · have hpos := hinside' ss hss
          rw [hnew, hold, Nat.add_assoc, Nat.add_assoc] at hpos
          rw [hpos, houtside _ (by omega)]

theorem Grows.copied (h : Grows level ns os) (p : CopyState ν) :
    Copied source ns os p (copyElements source level ns os p) := by
  induction h generalizing p with
  | last h => exact copied_last h p
  | @before level n o ns os h _ ih =>
      obtain ⟨hnew, hold, houtside, hinside⟩ := copied_iterate ih p o
      have hle : o * ns.prod ≤ n * ns.prod := Nat.mul_le_mul_right _ h
      have hsum : o * ns.prod + ns.prod * (n - o) = n * ns.prod := by
        rw [Nat.mul_comm ns.prod, ← Nat.add_mul, Nat.add_sub_cancel' h]
      obtain ⟨hstartNew, hrest⟩ : (copyElements source (level + 1) (n :: ns) (o :: os) p).startNew =
          p.startNew + n * ns.prod ∧
          (copyElements source (level + 1) (n :: ns) (o :: os) p).startOld =
            p.startOld + o * os.prod ∧
          (copyElements source (level + 1) (n :: ns) (o :: os) p).objects =
            (Nat.iterate (copyElements source level ns os) o p).objects := by
        rw [copyElements]
        split
        · refine ⟨?_, hold, rfl⟩
          change (Nat.iterate (copyElements source level ns os) o p).startNew + _ = _
          rw [hnew]
          omega
        · have heq : o = n := by omega
          exact ⟨by rw [hnew, heq], hold, rfl⟩
      obtain ⟨hstartOld, hobjects⟩ := hrest
      constructor
      · rw [hstartNew, List.prod_cons]
      · rw [hstartOld, List.prod_cons]
      · intro i hi
        rw [List.prod_cons] at hi
        rw [hobjects]
        exact houtside i (by omega)
      · rintro (_ | ⟨s, ss⟩) hrange
        · cases hrange
        · obtain ⟨hs, hss⟩ := inRange_cons.mp hrange
          rw [hobjects, offset_cons, offset_cons]
          by_cases hso : s < o
          · rw [hinside s ss hso hss]
            simp [hso]
          · have hblock : o * ns.prod ≤ s * ns.prod :=
              Nat.mul_le_mul_right _ (Nat.le_of_not_lt hso)
            have hnot : ¬ InRange (s :: ss) (o :: os) := fun hmem => hso (inRange_cons.mp hmem).1
            rw [houtside _ (by omega), if_neg hnot]

theorem grows_of_firstDimChanged (h : List.Forall₂ (· ≤ ·) os ns) :
    firstDimChanged ns os = none ∧ ns = os ∨
      ∃ level, firstDimChanged ns os = some level ∧ Grows level ns os := by
  induction h with
  | nil => exact Or.inl ⟨rfl, rfl⟩
  | @cons o n os ns hle _ ih =>
      rw [firstDimChanged]
      rcases ih with ⟨hnone, rfl⟩ | ⟨level, hsome, hgrows⟩
      · rw [hnone]
        by_cases hlt : o < n
        · exact Or.inr ⟨0, if_pos hlt, .last hle⟩
        · exact Or.inl ⟨if_neg hlt, by rw [Nat.le_antisymm hle (Nat.le_of_not_lt hlt)]⟩
      · rw [hsome]
        exact Or.inr ⟨level + 1, rfl, .before hle hgrows⟩

theorem memcpy_all (source : Nat → Option ν) (count i : Nat) :
    memcpy (fun _ => none) source 0 0 count i = if i < count then source i else none := by
  simp [memcpy]

theorem copyObjects_of_none (hsize : a.arraySize = ns.prod) (hnone : firstDimChanged ns ns = none)
    (i : Nat) : a.copyObjects ns ns i = if i < ns.prod then a.objects i else none := by
  rw [copyObjects, hnone, ← hsize]
  exact memcpy_all a.objects a.arraySize i

theorem copyObjects_of_grows (hsize : a.arraySize = os.prod) (h : Grows level ns os)
    (hchanged : firstDimChanged ns os = some level) :
    a.copyObjects ns os = (copyElements a.objects level ns os ⟨0, 0, fun _ => none⟩).objects := by
  cases h with
  | @last n o dims hle =>
      rw [copyObjects, hchanged, hsize, List.prod_cons, Nat.mul_comm]
      rfl
  | before => rw [copyObjects, hchanged]

theorem copyObjects_outside (hsize : a.arraySize = os.prod)
    (h : List.Forall₂ (· ≤ ·) os ns)
    {i : Nat}
    (hi : ns.prod ≤ i) : a.copyObjects ns os i = none := by
  rcases grows_of_firstDimChanged h with ⟨hnone, rfl⟩ | ⟨level, hsome, hgrows⟩
  · rw [copyObjects_of_none hsize hnone, if_neg (Nat.not_lt.mpr hi)]
  · rw [copyObjects_of_grows hsize hgrows hsome]
    exact (hgrows.copied _).outside i (Or.inr (le_of_eq_of_le (Nat.zero_add _) hi))

theorem copyObjects_inside (hsize : a.arraySize = os.prod) (h : List.Forall₂ (· ≤ ·) os ns)
    {subs : List Nat} (hsubs : InRange subs ns) :
    a.copyObjects ns os (offset ns subs) =
      if InRange subs os then a.objects (offset os subs) else none := by
  rcases grows_of_firstDimChanged h with ⟨hnone, rfl⟩ | ⟨level, hsome, hgrows⟩
  · rw [copyObjects_of_none hsize hnone, if_pos (offset_lt hsubs), if_pos hsubs]
  · rw [copyObjects_of_grows hsize hgrows hsome]
    have hcopied : Copied a.objects ns os _ _ := hgrows.copied ⟨0, 0, fun _ => none⟩
    have hinside := hcopied.inside subs hsubs
    rwa [Nat.zero_add, Nat.zero_add] at hinside

/-! ## New dimensions -/

theorem growDims_eq (hvalid : ValidIndex index) :
    growDims index dims = .ok (List.zipWith max (sizesOf index) dims) := by
  induction index generalizing dims with
  | nil => rfl
  | cons x index ih =>
      cases dims with
      | nil => rfl
      | cons d ds =>
          rw [growDims, ih fun y hy => hvalid y (List.mem_cons_of_mem _ hy)]
          change (do
            let newDim ← x.requiredPositive
            Except.ok _) = _
          rw [Subscript.requiredPositive_ok (hvalid x List.mem_cons_self)]
          rfl

theorem valid_of_growDims {newDims : List Nat} (hlength : index.length = dims.length)
    (h : growDims index dims = .ok newDims) : ValidIndex index := by
  induction index generalizing dims newDims with
  | nil => exact fun x hx => absurd hx List.not_mem_nil
  | cons x index ih =>
      cases dims with
      | nil => cases hlength
      | cons d ds =>
          rw [growDims] at h
          cases hrest : growDims index ds with
          | error e => rw [hrest] at h; cases h
          | ok found =>
              cases hx : x.requiredPositive with
              | error e => simp only [hrest, hx] at h; cases h
              | ok n =>
                  intro y hy
                  rcases List.mem_cons.mp hy with rfl | hy
                  · exact (Subscript.of_requiredPositive hx).1
                  · exact ih (Nat.succ.inj hlength) hrest y hy

theorem le_zipWith_max {sizes : List Nat} (hlength : sizes.length = dims.length) :
    List.Forall₂ (· ≤ ·) dims (List.zipWith max sizes dims) := by
  induction sizes generalizing dims with
  | nil =>
      cases dims with
      | nil => exact .nil
      | cons d ds => cases hlength
  | cons s sizes ih =>
      cases dims with
      | nil => cases hlength
      | cons d ds => exact .cons (Nat.le_max_right s d) (ih (Nat.succ.inj hlength))

theorem inRange_zipWith_max (hvalid : ValidIndex index) (hlength : index.length = dims.length) :
    InRange (subsOf index) (List.zipWith max (sizesOf index) dims) := by
  induction index generalizing dims with
  | nil => cases dims <;> exact .nil
  | cons x index ih =>
      cases dims with
      | nil => cases hlength
      | cons d ds =>
          have hpos := hvalid x List.mem_cons_self
          have hrest := ih (fun y hy => hvalid y (List.mem_cons_of_mem _ hy))
            (Nat.succ.inj hlength)
          apply List.Forall₂.cons _ hrest
          have hle := Nat.le_max_left x.number.toNat d
          change x.number.toNat - 1 < max x.number.toNat d
          omega

theorem zipWith_max_of_inRange (hvalid : ValidIndex index) (h : InRange (subsOf index) dims) :
    List.zipWith max (sizesOf index) dims = dims := by
  induction index generalizing dims with
  | nil =>
      cases h
      rfl
  | cons x index ih =>
      cases dims with
      | nil => cases h
      | cons d ds =>
          obtain ⟨hlt, hrest⟩ := inRange_cons.mp h
          change x.number.toNat - 1 < d at hlt
          have hmax : max x.number.toNat d = d := by omega
          rw [sizesOf_cons, List.zipWith_cons_cons, hmax,
            ih (fun y hy => hvalid y (List.mem_cons_of_mem _ hy)) hrest]

theorem InRange.mono {subs : List Nat} (h : InRange subs os) (hle : List.Forall₂ (· ≤ ·) os ns) :
    InRange subs ns := by
  induction h generalizing ns with
  | nil => cases hle; exact .nil
  | cons hlt _ ih =>
      cases hle with
      | cons hle hrest => exact .cons (Nat.lt_of_lt_of_le hlt hle) (ih hrest)

end RexxArray

end LeooRexx
