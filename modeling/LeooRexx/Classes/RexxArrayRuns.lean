import LeooRexx.Classes.RexxArrayGrowth

/-!
# Puts and gets of arrays

An array holds its items by the subscripts that reach them.  A put changes the item of its
own subscripts only, also when the array grows for it.  The first put into an array without
dimensions is different: it reads all but the last subscript as integers.
-/

namespace LeooRexx

open RowMajor

namespace RexxArray

variable {ν : Type} {a a' : RexxArray ν} {index : List Subscript} {dims subs : List Nat}

/-! ## The shape of an array -/

def OneDim (a : RexxArray ν) : Prop := a.dimensions = none ∨ ∃ d, a.dimensions = some [d]

def Multi (a : RexxArray ν) (dims : List Nat) : Prop :=
  a.dimensions = some dims ∧ 2 ≤ dims.length

structure Valid (a : RexxArray ν) : Prop where
  le_maximum : a.arraySize ≤ a.maximumSize
  lt_max : a.arraySize < maxFixedArraySize
  outside : ∀ i, a.arraySize ≤ i → a.objects i = none
  shape : OneDim a ∨ ∃ dims, Multi a dims ∧ a.arraySize = dims.prod

def look (a : RexxArray ν) (subs : List Nat) : Option ν :=
  match a.dimensions with
  | none | some [_] =>
      match subs with
      | [s] => a.objects s
      | _ => none
  | some dims => if InRange subs dims then a.objects (offset dims subs) else none

theorem look_oneDim (h : OneDim a) (s : Nat) : look a [s] = a.objects s := by
  rcases h with h | ⟨d, h⟩ <;> simp only [look, h]

theorem look_oneDim_of_length (h : OneDim a) (hlength : subs.length ≠ 1) : look a subs = none := by
  rcases subs with _ | ⟨s, _ | ⟨s', ss⟩⟩
  · rcases h with h | ⟨d, h⟩ <;> simp only [look, h]
  · exact absurd rfl hlength
  · rcases h with h | ⟨d, h⟩ <;> simp only [look, h]

theorem look_multi (h : Multi a dims) (subs : List Nat) :
    look a subs = if InRange subs dims then a.objects (offset dims subs) else none := by
  obtain ⟨hdims, hlength⟩ := h
  rcases dims with _ | ⟨d, _ | ⟨d', ds⟩⟩
  · exact absurd hlength (by simp)
  · exact absurd hlength (by simp)
  · simp only [look, hdims]

theorem Multi.not_oneDim (h : Multi a dims) : ¬ OneDim a := by
  obtain ⟨hdims, hlength⟩ := h
  rintro (hone | ⟨d, hone⟩)
  · rw [hdims] at hone
    cases hone
  · rw [hdims] at hone
    cases hone
    exact absurd hlength (by simp)

theorem Multi.unique {dims' : List Nat} (h : Multi a dims) (h' : Multi a dims') : dims = dims' :=
  Option.some.inj (h.1.symm.trans h'.1)

theorem Valid.prod_eq (hv : Valid a) (h : Multi a dims) : a.arraySize = dims.prod := by
  rcases hv.shape with hone | ⟨dims', hmulti, hsize⟩
  · exact absurd hone h.not_oneDim
  · rwa [h.unique hmulti]

structure Kept (a a' : RexxArray ν) : Prop where
  valid : Valid a'
  look_eq : ∀ subs, look a' subs = look a subs

theorem Valid.kept (hv : Valid a) : Kept a a := ⟨hv, fun _ => rfl⟩

theorem Kept.trans {a'' : RexxArray ν} (h : Kept a a') (h' : Kept a' a'') : Kept a a'' :=
  ⟨h'.valid, fun subs => (h'.look_eq subs).trans (h.look_eq subs)⟩

/-! ## Growth -/

theorem extend_dimensions (a : RexxArray ν) (n : Nat) : (a.extend n).dimensions = a.dimensions := by
  rw [extend]
  split <;> rfl

theorem extend_arraySize (a : RexxArray ν) (n : Nat) :
    (a.extend n).arraySize = a.arraySize + n := by
  rw [extend]
  split <;> rfl

theorem extend_objects (hv : Valid a) (n i : Nat) : (a.extend n).objects i = a.objects i := by
  rw [extend]
  split
  · rfl
  · refine (memcpy_all a.objects a.arraySize i).trans ?_
    split
    · rfl
    · exact (hv.outside i (by omega)).symm

theorem extend_kept (hv : Valid a) (hone : OneDim a) {n : Nat}
    (hlt : a.arraySize + n < maxFixedArraySize) : Kept a (a.extend n) := by
  have hone' : OneDim (a.extend n) := by
    rw [OneDim, extend_dimensions]
    exact hone
  have hmax : (a.extend n).arraySize ≤ (a.extend n).maximumSize := by
    rw [extend_arraySize, extend]
    split
    · assumption
    · simp only [newArray]
      omega
  constructor
  · exact ⟨hmax, by rwa [extend_arraySize],
      fun i hi => by
        rw [extend_objects hv]
        rw [extend_arraySize] at hi
        exact hv.outside i (by omega), Or.inl hone'⟩
  · intro subs
    rcases subs with _ | ⟨s, _ | ⟨s', ss⟩⟩
    · rw [look_oneDim_of_length hone' (by simp), look_oneDim_of_length hone (by simp)]
    · rw [look_oneDim hone', look_oneDim hone, extend_objects hv]
    · rw [look_oneDim_of_length hone' (by simp), look_oneDim_of_length hone (by simp)]

theorem newArray_valid {dims : Option (List Nat)} {size : Nat} {objects : Nat → Option ν}
    (hlt : size < maxFixedArraySize) (houtside : ∀ i, size ≤ i → objects i = none)
    (hshape : (dims = none ∨ ∃ d, dims = some [d]) ∨
      ∃ ds, (dims = some ds ∧ 2 ≤ ds.length) ∧ size = ds.prod) :
    Valid { (newArray dims size : RexxArray ν) with objects := objects } :=
  ⟨Nat.le_max_left _ _, hlt, houtside, hshape⟩

theorem map_toNat_ofNat (sizes : List Nat) : (sizes.map Int.ofNat).map Int.toNat = sizes := by
  rw [List.map_map]
  exact List.map_id sizes

theorem extendMulti_multi (hv : Valid a) (hm : Multi a dims) (hlength : index.length = dims.length)
    (h : a.extendMulti index = .ok a') :
    ValidIndex index ∧ (List.zipWith max (sizesOf index) dims).prod < maxFixedArraySize ∧
      Multi a' (List.zipWith max (sizesOf index) dims) ∧ Kept a a' := by
  rw [extendMulti, hm.1] at h
  change (growDims index dims >>= _) = _ at h
  cases hgrow : growDims index dims with
  | error e => rw [hgrow] at h; cases h
  | ok newDims =>
      have hvalid := valid_of_growDims hlength hgrow
      have hsizes : (sizesOf index).length = dims.length := by
        rw [sizesOf, List.length_map, hlength]
      rw [growDims_eq hvalid] at h
      generalize hns : List.zipWith max (sizesOf index) dims = ns at *
      have hle : List.Forall₂ (· ≤ ·) dims ns := hns ▸ le_zipWith_max hsizes
      change (totalSize (ns.map Int.ofNat) 1 >>= _) = _ at h
      cases htotal : totalSize (ns.map Int.ofNat) 1 with
      | error e => rw [htotal] at h; cases h
      | ok total =>
          rw [htotal] at h
          obtain ⟨hprod, hlt⟩ := totalSize_ok htotal
          rw [map_toNat_ofNat, Nat.one_mul] at hprod
          subst hprod
          obtain rfl := (Except.ok.inj h).symm
          have hmulti' : 2 ≤ ns.length := hle.length_eq ▸ hm.2
          have hsize := hv.prod_eq hm
          refine ⟨hvalid, hlt, ⟨rfl, hmulti'⟩, newArray_valid hlt ?_
            (Or.inr ⟨ns, ⟨rfl, hmulti'⟩, rfl⟩), fun subs => ?_⟩
          · intro i hi
            split
            · rfl
            · exact copyObjects_outside hsize hle hi
          · rw [look_multi ⟨rfl, hmulti'⟩, look_multi hm]
            by_cases hrange : InRange subs ns
            · rw [if_pos hrange]
              change (if a.arraySize = 0 then fun _ => none else a.copyObjects ns dims) _ = _
              split
              · have hnot : ¬ InRange subs dims := fun hin => by
                  have hlt := offset_lt hin
                  omega
                rw [if_neg hnot]
              · exact copyObjects_inside hsize hle hrange
            · rw [if_neg hrange, if_neg fun hin => hrange (InRange.mono hin hle)]

theorem totalSize_of_pos {sizes : List Nat} (total : Nat) (hpos : ∀ s ∈ sizes, 0 < s)
    (h : total * sizes.prod < maxFixedArraySize) :
    totalSize (sizes.map Int.ofNat) total = .ok (total * sizes.prod) := by
  induction sizes generalizing total with
  | nil =>
      rw [List.prod_nil, Nat.mul_one] at *
      exact if_neg (Nat.not_le.mpr h)
  | cons s sizes ih =>
      have hs := hpos s List.mem_cons_self
      have hrest : 0 < sizes.prod := by
        apply Nat.pos_of_ne_zero
        apply List.prod_ne_zero
        exact fun hmem => absurd (hpos 0 (List.mem_cons_of_mem _ hmem)) (lt_irrefl 0)
      rw [List.prod_cons, ← Nat.mul_assoc] at h ⊢
      have hstep : total * s ≤ maxFixedArraySize := by
        calc total * s ≤ total * s * sizes.prod := Nat.le_mul_of_pos_right _ hrest
          _ ≤ maxFixedArraySize := h.le
      have hnot : ¬ maxFixedArraySize / s < total := by
        rw [Nat.div_lt_iff_lt_mul hs]
        omega
      rw [List.map_cons, totalSize, if_neg (by simp), if_neg fun hand => hnot hand.2]
      exact ih _ (fun x hx => hpos x (List.mem_cons_of_mem _ hx)) h

theorem pos_of_zipWith_max (dims : List Nat) (hvalid : ValidIndex index) :
    ∀ d ∈ List.zipWith max (sizesOf index) dims, 0 < d := by
  induction index generalizing dims with
  | nil => exact fun d hd => absurd hd List.not_mem_nil
  | cons x index ih =>
      have hx := hvalid x List.mem_cons_self
      cases dims with
      | nil => exact fun d hd => absurd hd List.not_mem_nil
      | cons d' ds =>
          intro d hd
          rw [sizesOf_cons, List.zipWith_cons_cons] at hd
          rcases List.mem_cons.mp hd with rfl | hd
          · omega
          · exact ih ds (fun y hy => hvalid y (List.mem_cons_of_mem _ hy)) d hd

theorem extendMulti_of_multi (hm : Multi a dims) (hvalid : ValidIndex index)
    (hlt : (List.zipWith max (sizesOf index) dims).prod < maxFixedArraySize) :
    ∃ a', a.extendMulti index = .ok a' := by
  have htotal := totalSize_of_pos 1 (pos_of_zipWith_max dims hvalid)
    (by rwa [Nat.one_mul])
  rw [extendMulti, hm.1]
  change ∃ a', (growDims index dims >>= _) = .ok a'
  rw [growDims_eq hvalid]
  change ∃ a', (totalSize _ 1 >>= _) = .ok a'
  rw [htotal]
  exact ⟨_, rfl⟩

/-! ## The first dimensions -/

def readSizes : List Subscript → List Int
  | [] => []
  | [x] => [x.number]
  | x :: index => x.value :: readSizes index

/--
The sizes that the first growth reads can be allocated, also when they are raised to the
numbers of the subscripts.
-/
def Castable (index : List Subscript) : Prop :=
  (totalSize (readSizes index) 1).isOk = true ∧
    (List.zipWith max (sizesOf index) ((readSizes index).map Int.toNat)).prod < maxFixedArraySize

instance (index : List Subscript) : Decidable (Castable index) :=
  inferInstanceAs (Decidable (_ ∧ _))

@[simp]
theorem length_readSizes (index : List Subscript) : (readSizes index).length = index.length := by
  induction index with
  | nil => rfl
  | cons x index ih =>
      cases index with
      | nil => rfl
      | cons y index =>
          change (readSizes (y :: index)).length + 1 = (y :: index).length + 1
          rw [ih]

theorem firstDims_of_ok {sizes : List Int} (h : firstDims 0 index = .ok sizes) :
    sizes = readSizes index := by
  induction index generalizing sizes with
  | nil =>
      cases h
      rfl
  | cons x index ih =>
      cases index with
      | nil =>
          cases hx : x.requiredPositive with
          | error e => simp only [firstDims, hx] at h; cases h
          | ok n =>
              obtain ⟨hpos, hn⟩ := Subscript.of_requiredPositive hx
              simp only [firstDims, hx] at h
              obtain rfl := (Except.ok.inj h).symm
              rw [readSizes, Nat.max_zero, hn, Int.toNat_of_nonneg hpos.le]
      | cons y index =>
          cases hrest : firstDims 0 (y :: index) with
          | error e => simp only [firstDims, hrest] at h; cases h
          | ok rest =>
              simp only [firstDims, hrest] at h
              obtain rfl := (Except.ok.inj h).symm
              rw [readSizes, ih hrest]
              simp

theorem firstDims_of_valid (hvalid : ValidIndex index) :
    firstDims 0 index = .ok (readSizes index) := by
  induction index with
  | nil => rfl
  | cons x index ih =>
      have hx := hvalid x List.mem_cons_self
      cases index with
      | nil =>
          simp only [firstDims, Subscript.requiredPositive_ok hx]
          change Except.ok [((max x.number.toNat 0 : Nat) : Int)] = _
          rw [readSizes, Nat.max_zero, Int.toNat_of_nonneg hx.le]
      | cons y index =>
          simp only [firstDims, ih fun z hz => hvalid z (List.mem_cons_of_mem _ hz)]
          rfl

theorem extendMulti_first (hv : Valid a) (hnone : a.dimensions = none) (hempty : a.arraySize = 0)
    (hlength : 2 ≤ index.length) (h : a.extendMulti index = .ok a') :
    (totalSize (readSizes index) 1).isOk = true ∧
      Multi a' ((readSizes index).map Int.toNat) ∧ Kept a a' := by
  rw [extendMulti, hnone] at h
  change (firstDims a.arraySize index >>= _) = _ at h
  rw [hempty] at h
  cases hfirst : firstDims 0 index with
  | error e => rw [hfirst] at h; cases h
  | ok sizes =>
      rw [hfirst] at h
      obtain rfl := firstDims_of_ok hfirst
      change (totalSize (readSizes index) 1 >>= _) = _ at h
      cases htotal : totalSize (readSizes index) 1 with
      | error e => rw [htotal] at h; cases h
      | ok total =>
          rw [htotal] at h
          obtain ⟨hprod, hlt⟩ := totalSize_ok htotal
          rw [Nat.one_mul] at hprod
          obtain rfl := (Except.ok.inj h).symm
          have hmulti : 2 ≤ ((readSizes index).map Int.toNat).length := by simpa using hlength
          have hobjects : ∀ i, a.objects i = none := fun i => hv.outside i (by omega)
          refine ⟨rfl, ⟨rfl, hmulti⟩, newArray_valid hlt (fun i _ => ?_)
            (Or.inr ⟨_, ⟨rfl, hmulti⟩, hprod⟩), fun subs => ?_⟩
          · rw [memcpy_all]
            exact if_neg (Nat.not_lt_zero i)
          · rw [look_multi ⟨rfl, hmulti⟩]
            have hnothing : ∀ i, memcpy (fun _ => none) a.objects 0 0 0 i = none := fun i => by
              rw [memcpy_all, if_neg (Nat.not_lt_zero i)]
            simp only [hnothing, ite_self]
            rcases subs with _ | ⟨s, _ | ⟨s', ss⟩⟩
            · exact (look_oneDim_of_length (Or.inl hnone) (by simp)).symm
            · exact ((look_oneDim (Or.inl hnone) s).trans (hobjects s)).symm
            · exact (look_oneDim_of_length (Or.inl hnone) (by simp)).symm

theorem extendMulti_of_castable (hnone : a.dimensions = none) (hempty : a.arraySize = 0)
    (hvalid : ValidIndex index) (h : (totalSize (readSizes index) 1).isOk = true) :
    ∃ a', a.extendMulti index = .ok a' := by
  cases htotal : totalSize (readSizes index) 1 with
  | error e => rw [htotal] at h; cases h
  | ok total =>
      rw [extendMulti, hnone]
      change ∃ a', (firstDims a.arraySize index >>= _) = .ok a'
      rw [hempty, firstDims_of_valid hvalid]
      change ∃ a', (totalSize _ 1 >>= _) = .ok a'
      rw [htotal]
      exact ⟨_, rfl⟩

/-! ## Positions of subscripts -/

variable {extendUpper : Bool} {fuel : Nat}

theorem validateIndex_nil (hone : OneDim a) :
    validateIndex extendUpper (fuel + 1) a [] = (.error .minarg, a) := by
  rcases hone with h | ⟨d, h⟩ <;> simp only [validateIndex, h]

theorem validateIndex_one (hone : OneDim a) {x : Subscript} (hx : 0 < x.number) :
    validateIndex extendUpper (fuel + 1) a [x] =
      if x.number.toNat ≤ a.arraySize then (.ok (some x.number.toNat), a)
      else if maxFixedArraySize ≤ x.number.toNat then (.error .arrayTooBig, a)
      else if extendUpper then
        (.ok (some x.number.toNat), a.extend (x.number.toNat - a.arraySize))
      else (.ok none, a) := by
  rcases hone with h | ⟨d, h⟩ <;> simp only [validateIndex, h, Subscript.requiredPositive_ok hx]

theorem validateIndex_one_invalid (extendUpper : Bool) (fuel : Nat) (hone : OneDim a)
    {x : Subscript} (hx : ¬ 0 < x.number) :
    ∃ e, validateIndex extendUpper (fuel + 1) a [x] = (.error e, a) := by
  cases hp : x.requiredPositive with
  | ok n => exact absurd (Subscript.of_requiredPositive hp).1 hx
  | error e =>
      refine ⟨e, ?_⟩
      rcases hone with h | ⟨d, h⟩ <;> simp only [validateIndex, h, hp]

theorem validateIndex_several (hone : OneDim a) (hlength : 2 ≤ index.length) :
    validateIndex extendUpper (fuel + 1) a index =
      if a.dimensions.isSome ∨ a.arraySize ≠ 0 then (.error (.maxsub 1), a)
      else if extendUpper then
        match a.extendMulti index with
        | .error e => (.error e, a)
        | .ok a => validateIndex extendUpper fuel a index
      else (.ok none, a) := by
  rcases index with _ | ⟨x, _ | ⟨y, index⟩⟩
  · exact absurd hlength (by simp)
  · exact absurd hlength (by simp)
  · rcases hone with h | ⟨d, h⟩
    · simp only [validateIndex, h]
      all_goals rfl
    · simp only [validateIndex, h]
      all_goals rfl

theorem validateIndex_multi (hm : Multi a dims) :
    validateIndex extendUpper (fuel + 1) a index =
      if index.length < dims.length then (.error (.minsub dims.length), a)
      else if dims.length < index.length then (.error (.maxsub dims.length), a)
      else
        match locate index dims with
        | .error e => (.error e, a)
        | .ok (some (offset, _)) => (.ok (some (offset + 1)), a)
        | .ok none =>
            if extendUpper then
              match a.extendMulti index with
              | .error e => (.error e, a)
              | .ok a => validateIndex extendUpper fuel a index
            else (.ok none, a) := by
  obtain ⟨hdims, hlength⟩ := hm
  rcases dims with _ | ⟨d, _ | ⟨d', ds⟩⟩
  · exact absurd hlength (by simp)
  · exact absurd hlength (by simp)
  · simp only [validateIndex, hdims]
    all_goals rfl

def At (a : RexxArray ν) (subs : List Nat) (s : Nat) : Prop :=
  s < a.arraySize ∧ (OneDim a ∧ subs = [s] ∨
    ∃ dims, Multi a dims ∧ InRange subs dims ∧ s = offset dims subs)

/-- What `validateIndex` found of an array, and that it left its items as they were. -/
structure Validated (a : RexxArray ν) (index : List Subscript)
    (r : Except ArrayError (Option Nat) × RexxArray ν) : Prop where
  kept : Kept a r.2
  position : ∀ p, r.1 = .ok (some p) → ValidIndex index ∧ ∃ s, p = s + 1 ∧ At r.2 (subsOf index) s

theorem Validated.error (hv : Valid a) (e : ArrayError) : Validated a index (.error e, a) :=
  ⟨hv.kept, fun p h => by cases h⟩

theorem Validated.nothing (hv : Valid a) : Validated a index (.ok none, a) :=
  ⟨hv.kept, fun p h => by cases h⟩

theorem Validated.of_kept {r : Except ArrayError (Option Nat) × RexxArray ν} (h : Kept a a')
    (hr : Validated a' index r) : Validated a index r :=
  ⟨h.trans hr.kept, hr.position⟩

theorem at_one (hone : OneDim a) {x : Subscript} (hx : 0 < x.number)
    (hle : x.number.toNat ≤ a.arraySize) :
    ValidIndex [x] ∧ ∃ s, x.number.toNat = s + 1 ∧ At a (subsOf [x]) s := by
  refine ⟨fun y hy => ?_, x.number.toNat - 1, by omega, by omega, Or.inl ⟨hone, rfl⟩⟩
  rw [List.mem_singleton.mp hy]
  exact hx

theorem validateIndex_validated (extendUpper : Bool) (fuel : Nat) (hv : Valid a)
    (index : List Subscript) :
    Validated a index (validateIndex extendUpper fuel a index) := by
  induction fuel generalizing a with
  | zero => exact .error hv .depth
  | succ fuel ih =>
      rcases hv.shape with hone | ⟨dims, hm, hsize⟩
      · rcases index with _ | ⟨x, _ | ⟨y, index⟩⟩
        · rw [validateIndex_nil hone]
          exact .error hv _
        · by_cases hx : 0 < x.number
          · rw [validateIndex_one hone hx]
            split
            · rename_i hle
              refine ⟨hv.kept, fun p hp => ?_⟩
              cases hp
              exact at_one hone hx hle
            · split
              · exact .error hv _
              · split
                · have hkept := extend_kept hv hone
                    (show a.arraySize + (x.number.toNat - a.arraySize) < _ by omega)
                  refine ⟨hkept, fun p hp => ?_⟩
                  cases hp
                  apply at_one _ hx
                  · rw [extend_arraySize]
                    omega
                  · rw [OneDim, extend_dimensions]
                    exact hone
                · exact .nothing hv
          · obtain ⟨e, he⟩ := validateIndex_one_invalid extendUpper fuel hone hx
            rw [he]
            exact .error hv e
        · have hlength : 2 ≤ (x :: y :: index).length := by simp
          rw [validateIndex_several hone hlength]
          split
          · exact .error hv _
          · rename_i hfree
            split
            · cases hextend : a.extendMulti (x :: y :: index) with
              | error e => exact .error hv e
              | ok a' =>
                  have hnone : a.dimensions = none := by
                    by_contra hsome
                    exact hfree (Or.inl (Option.isSome_iff_ne_none.mpr hsome))
                  have hempty : a.arraySize = 0 := by
                    by_contra hne
                    exact hfree (Or.inr hne)
                  obtain ⟨-, -, hkept⟩ := extendMulti_first hv hnone hempty hlength hextend
                  exact .of_kept hkept (ih hkept.valid)
            · exact .nothing hv
      · rw [validateIndex_multi hm]
        split
        · exact .error hv _
        · split
          · exact .error hv _
          · have hlength : index.length = dims.length := by omega
            cases hlocate : locate index dims with
            | error e => exact .error hv e
            | ok found =>
                cases found with
                | some found =>
                    obtain ⟨hvalid, hrange, hoffset⟩ := of_locate hlength hlocate
                    refine ⟨hv.kept, fun p hp => ?_⟩
                    cases hp
                    refine ⟨hvalid, found.1, rfl, ?_, Or.inr ⟨dims, hm, hrange, hoffset⟩⟩
                    rw [hsize, hoffset]
                    exact offset_lt hrange
                | none =>
                    cases extendUpper with
                    | false => exact .nothing hv
                    | true =>
                        cases hextend : a.extendMulti index with
                        | error e =>
                            simp only [if_true]
                            exact .error hv e
                        | ok a' =>
                            simp only [if_true]
                            obtain ⟨-, -, -, hkept⟩ := extendMulti_multi hv hm hlength hextend
                            exact .of_kept hkept (ih hkept.valid)

/-! ## Gets -/

def held (a : RexxArray ν) (index : List Subscript) : Option ν :=
  match getRexx a index with
  | .ok item => item
  | .error _ => none

def Shaped (a : RexxArray ν) (index : List Subscript) : Prop :=
  match a.dimensions with
  | none => index.length = 1 ∨ a.arraySize = 0 ∧ 2 ≤ index.length
  | some dims => index.length = dims.length

theorem getRexx_multi (hm : Multi a dims) (hlength : index.length = dims.length)
    (hvalid : ValidIndex index) : getRexx a index = .ok (look a (subsOf index)) := by
  rw [getRexx, validateDepth, validateIndex_multi hm, if_neg (by omega), if_neg (by omega),
    look_multi hm]
  by_cases hrange : InRange (subsOf index) dims
  · rw [locate_of_inRange hvalid hrange, if_pos hrange]
    rfl
  · rw [locate_of_not_inRange hvalid hlength hrange, if_neg hrange]
    rfl

theorem getRexx_one (hv : Valid a) (hone : OneDim a) {x : Subscript} (hx : 0 < x.number) :
    getRexx a [x] =
      if maxFixedArraySize ≤ x.number.toNat then .error .arrayTooBig
      else .ok (look a (subsOf [x])) := by
  have hlook : look a (subsOf [x]) = a.objects (x.number.toNat - 1) := look_oneDim hone _
  have hmax := hv.lt_max
  rw [getRexx, validateDepth, validateIndex_one hone hx, hlook]
  by_cases hle : x.number.toNat ≤ a.arraySize
  · rw [if_pos hle, if_neg (by omega)]
    rfl
  · rw [if_neg hle, hv.outside _ (by omega)]
    by_cases hbig : maxFixedArraySize ≤ x.number.toNat
    · rw [if_pos hbig, if_pos hbig]
    · rw [if_neg hbig, if_neg hbig]
      rfl

theorem getRexx_several (hone : OneDim a) (hlength : 2 ≤ index.length) :
    getRexx a index =
      if a.dimensions.isSome ∨ a.arraySize ≠ 0 then .error (.maxsub 1) else .ok none := by
  rw [getRexx, validateDepth, validateIndex_several hone hlength]
  by_cases hfixed : a.dimensions.isSome ∨ a.arraySize ≠ 0
  · rw [if_pos hfixed, if_pos hfixed]
  · rw [if_neg hfixed, if_neg hfixed]
    rfl

theorem held_eq_look (hv : Valid a) (hvalid : ValidIndex index) :
    held a index = look a (subsOf index) := by
  rcases hv.shape with hone | ⟨dims, hm, -⟩
  · rcases index with _ | ⟨x, _ | ⟨y, index⟩⟩
    · rw [held, getRexx, validateDepth, validateIndex_nil hone,
        look_oneDim_of_length hone (by simp [subsOf])]
    · have hx := hvalid x List.mem_cons_self
      have hlook : look a (subsOf [x]) = a.objects (x.number.toNat - 1) := look_oneDim hone _
      have hmax := hv.lt_max
      rw [held, getRexx_one hv hone hx]
      by_cases hbig : maxFixedArraySize ≤ x.number.toNat
      · rw [if_pos hbig, hlook, hv.outside _ (by omega)]
      · rw [if_neg hbig]
    · rw [held, getRexx_several hone (by simp), look_oneDim_of_length hone (by simp [subsOf])]
      by_cases hfixed : a.dimensions.isSome ∨ a.arraySize ≠ 0
      · rw [if_pos hfixed]
      · rw [if_neg hfixed]
  · by_cases hlength : index.length = dims.length
    · rw [held, getRexx_multi hm hlength hvalid]
    · have hnot : ¬ InRange (subsOf index) dims := fun hrange => by
        have heq := hrange.length_eq
        rw [subsOf, List.length_map] at heq
        exact hlength heq
      rw [held, getRexx, validateDepth, validateIndex_multi hm, look_multi hm, if_neg hnot]
      rcases Nat.lt_or_gt_of_ne hlength with hlt | hlt
      · rw [if_pos hlt]
      · rw [if_neg (by omega), if_pos hlt]

/-! ## Puts -/

theorem at_unique {s : Nat} (hat : At a subs s) {subs' : List Nat} (h' : At a subs' s) :
    subs = subs' := by
  obtain ⟨-, ⟨hone, rfl⟩ | ⟨dims, hm, hrange, hs⟩⟩ := hat
  · obtain ⟨-, ⟨-, rfl⟩ | ⟨dims', hm', -⟩⟩ := h'
    · rfl
    · exact absurd hone hm'.not_oneDim
  · obtain ⟨-, ⟨hone', -⟩ | ⟨dims', hm', hrange', hs'⟩⟩ := h'
    · exact absurd hone' hm.not_oneDim
    · obtain rfl := hm.unique hm'
      exact offset_inj hrange hrange' (hs.symm.trans hs')

theorem look_of_at {s : Nat} (h : At a subs s) : look a subs = a.objects s := by
  obtain ⟨-, ⟨hone, rfl⟩ | ⟨dims, hm, hrange, rfl⟩⟩ := h
  · exact look_oneDim hone s
  · rw [look_multi hm, if_pos hrange]

theorem at_or_look_none (hv : Valid a) (subs : List Nat) :
    (∃ s, At a subs s) ∨ ∀ a' : RexxArray ν, a'.dimensions = a.dimensions →
      (∀ i, a.arraySize ≤ i → a'.objects i = none) → look a' subs = none := by
  rcases hv.shape with hone | ⟨dims, hm, hsize⟩
  · by_cases hlength : subs.length = 1
    · obtain ⟨s, rfl⟩ := List.length_eq_one_iff.mp hlength
      by_cases hlt : s < a.arraySize
      · exact Or.inl ⟨s, hlt, Or.inl ⟨hone, rfl⟩⟩
      · refine Or.inr fun a' hdims houtside => ?_
        rw [look_oneDim (by rwa [OneDim, hdims])]
        exact houtside s (by omega)
    · exact Or.inr fun a' hdims _ =>
        look_oneDim_of_length (by rwa [OneDim, hdims]) hlength
  · by_cases hrange : InRange subs dims
    · exact Or.inl ⟨_, hsize ▸ offset_lt hrange, Or.inr ⟨dims, hm, hrange, rfl⟩⟩
    · refine Or.inr fun a' hdims _ => ?_
      rw [look_multi ⟨hdims.trans hm.1, hm.2⟩, if_neg hrange]

theorem putSlot_valid (hv : Valid a) {s : Nat} (hlt : s < a.arraySize) (item : Option ν) :
    Valid (a.putSlot (s + 1) item) := by
  refine ⟨hv.le_maximum, hv.lt_max, fun i hi => ?_, hv.shape⟩
  change Function.update a.objects s item i = none
  rw [Function.update_of_ne (by change a.arraySize ≤ i at hi; omega)]
  exact hv.outside i hi

theorem look_putSlot (hv : Valid a) {s : Nat} (h : At a subs s) (item : Option ν)
    (subs' : List Nat) :
    look (a.putSlot (s + 1) item) subs' = if subs' = subs then item else look a subs' := by
  have hat : ∀ {ss i}, At a ss i → At (a.putSlot (s + 1) item) ss i := fun h => h
  split
  · rename_i heq
    subst heq
    rw [look_of_at (hat h)]
    exact Function.update_self ..
  · rename_i hne
    rcases at_or_look_none hv subs' with ⟨s', hs'⟩ | hnone
    · rw [look_of_at (hat hs'), look_of_at hs']
      apply Function.update_of_ne
      rintro rfl
      exact hne (at_unique hs' h)
    · rw [hnone a rfl hv.outside]
      exact hnone (a.putSlot (s + 1) item) rfl (putSlot_valid hv h.1 item).outside

def neededSize (a : RexxArray ν) (index : List Subscript) : Nat :=
  match a.dimensions with
  | none | some [_] => (sizesOf index).prod
  | some dims => (List.zipWith max (sizesOf index) dims).prod

structure Fits (a : RexxArray ν) (index : List Subscript) : Prop where
  valid : ValidIndex index
  shaped : Shaped a index
  lt_max : neededSize a index < maxFixedArraySize

theorem neededSize_multi (hm : Multi a dims) :
    neededSize a index = (List.zipWith max (sizesOf index) dims).prod := by
  obtain ⟨hdims, hlength⟩ := hm
  rcases dims with _ | ⟨d, _ | ⟨d', ds⟩⟩
  · exact absurd hlength (by simp)
  · exact absurd hlength (by simp)
  · simp only [neededSize, hdims]

theorem neededSize_oneDim (hone : OneDim a) : neededSize a index = (sizesOf index).prod := by
  rcases hone with h | ⟨d, h⟩ <;> simp only [neededSize, h]

theorem validateIndex_multi_ok (hv : Valid a) (hm : Multi a dims)
    (hlength : index.length = dims.length) (hvalid : ValidIndex index)
    (hlt : (List.zipWith max (sizesOf index) dims).prod < maxFixedArraySize) :
    ∃ p a', validateIndex true (fuel + 2) a index = (.ok (some p), a') := by
  rw [validateIndex_multi hm, if_neg (by omega), if_neg (by omega)]
  by_cases hrange : InRange (subsOf index) dims
  · rw [locate_of_inRange hvalid hrange]
    exact ⟨_, _, rfl⟩
  · obtain ⟨a', hextend⟩ := extendMulti_of_multi hm hvalid hlt
    obtain ⟨-, -, hm', -⟩ := extendMulti_multi hv hm hlength hextend
    have hsizes : (sizesOf index).length = dims.length := by
      rw [sizesOf, List.length_map, hlength]
    have hlength' : (List.zipWith max (sizesOf index) dims).length = index.length := by
      rw [List.length_zipWith, hsizes, Nat.min_self, hlength]
    rw [locate_of_not_inRange hvalid hlength hrange, hextend]
    simp only [if_true]
    rw [validateIndex_multi hm', if_neg (by omega), if_neg (by omega),
      locate_of_inRange hvalid (inRange_zipWith_max hvalid hlength)]
    exact ⟨_, _, rfl⟩

theorem validateIndex_ok (hv : Valid a) (hfits : Fits a index)
    (hcast : a.dimensions = none → 2 ≤ index.length → Castable index) :
    ∃ p a', validateIndex true validateDepth a index = (.ok (some p), a') := by
  have hshaped := hfits.shaped
  have hlt := hfits.lt_max
  rcases hv.shape with hone | ⟨dims, hm, -⟩
  · rw [neededSize_oneDim hone] at hlt
    rcases index with _ | ⟨x, _ | ⟨y, index⟩⟩
    · rcases hone with h | ⟨d, h⟩ <;> simp [Shaped, h] at hshaped
    · have hsize : x.number.toNat < maxFixedArraySize := by simpa [sizesOf] using hlt
      rw [validateDepth, validateIndex_one hone (hfits.valid x List.mem_cons_self)]
      split
      · exact ⟨_, _, rfl⟩
      · rw [if_neg (by omega)]
        exact ⟨_, _, rfl⟩
    · have hlength : 2 ≤ (x :: y :: index).length := by simp
      have hnone : a.dimensions = none := by
        rcases hone with h | ⟨d, h⟩
        · exact h
        · simp [Shaped, h] at hshaped
      have hempty : a.arraySize = 0 := by
        rw [Shaped, hnone] at hshaped
        rcases hshaped with h | h
        · omega
        · exact h.1
      obtain ⟨hread, hmax⟩ := hcast hnone hlength
      obtain ⟨a', hextend⟩ := extendMulti_of_castable hnone hempty hfits.valid hread
      obtain ⟨-, hm', hkept⟩ := extendMulti_first hv hnone hempty hlength hextend
      rw [validateDepth, validateIndex_several hone hlength, if_neg (by simp [hnone, hempty]),
        hextend]
      exact validateIndex_multi_ok hkept.valid hm' (by simp) hfits.valid hmax
  · rw [neededSize_multi hm] at hlt
    rw [Shaped, hm.1] at hshaped
    exact validateIndex_multi_ok hv hm hshaped hfits.valid hlt

theorem castable_of_ok (hv : Valid a) (hnone : a.dimensions = none) (hlength : 2 ≤ index.length)
    (hvalid : ValidIndex index) {p : Option Nat}
    (h : (validateIndex true validateDepth a index).1 = .ok p) : Castable index := by
  rw [validateDepth, validateIndex_several (Or.inl hnone) hlength] at h
  split at h
  · cases h
  · rename_i hfree
    have hempty : a.arraySize = 0 := by
      by_contra hne
      exact hfree (Or.inr hne)
    cases hextend : a.extendMulti index with
    | error e => simp [hextend] at h
    | ok a' =>
        obtain ⟨hread, hm', hkept⟩ := extendMulti_first hv hnone hempty hlength hextend
        have hlength' : index.length = ((readSizes index).map Int.toNat).length := by simp
        have hsizes : (sizesOf index).length = ((readSizes index).map Int.toNat).length := by
          simp [sizesOf]
        simp only [hextend, if_true] at h
        rw [validateIndex_multi hm', if_neg (by omega), if_neg (by omega)] at h
        refine ⟨hread, ?_⟩
        by_cases hrange : InRange (subsOf index) ((readSizes index).map Int.toNat)
        · have hmax := zipWith_max_of_inRange hvalid hrange
          rw [hmax, ← hkept.valid.prod_eq hm']
          exact hkept.valid.lt_max
        · rw [locate_of_not_inRange hvalid hlength' hrange] at h
          cases hagain : a'.extendMulti index with
          | error e => simp [hagain] at h
          | ok a'' => exact (extendMulti_multi hkept.valid hm' hlength' hagain).2.1

/-! ## The law of a put -/

/--
The put is done, the item is there, and other subscripts have what they had.  With as many
subscripts as those of the put, also the errors are those from before.
-/
def PutLaw (a : RexxArray ν) (value : ν) (index : List Subscript) : Prop :=
  (putRexx a value index).1 = .ok () ∧
    getRexx (putRexx a value index).2 index = .ok (some value) ∧
    ∀ index', ValidIndex index' → subsOf index' ≠ subsOf index →
      held (putRexx a value index).2 index' = held a index' ∧
        (index'.length = index.length →
          getRexx (putRexx a value index).2 index' = getRexx a index')

theorem At.length {s : Nat} (h : At a (subsOf index) s) :
    OneDim a ∧ index.length = 1 ∨ ∃ dims, Multi a dims ∧ index.length = dims.length := by
  obtain ⟨-, ⟨hone, hsubs⟩ | ⟨dims, hm, hrange, -⟩⟩ := h
  · have hlength := congrArg List.length hsubs
    rw [subsOf, List.length_map] at hlength
    exact Or.inl ⟨hone, hlength⟩
  · have hlength := hrange.length_eq
    rw [subsOf, List.length_map] at hlength
    exact Or.inr ⟨dims, hm, hlength⟩

theorem getRexx_of_at (hv : Valid a) (hvalid : ValidIndex index) {s : Nat}
    (hat : At a (subsOf index) s) : getRexx a index = .ok (look a (subsOf index)) := by
  rcases hat.length with ⟨hone, hlength⟩ | ⟨dims, hm, hlength⟩
  · obtain ⟨x, rfl⟩ := List.length_eq_one_iff.mp hlength
    have hmax := hv.lt_max
    have hs : x.number.toNat - 1 = s := by
      rcases hat.2 with ⟨-, hsubs⟩ | ⟨dims, hm, -⟩
      · exact (List.cons.inj hsubs).1
      · exact absurd hone hm.not_oneDim
    have hlt := hat.1
    rw [getRexx_one hv hone (hvalid x List.mem_cons_self), if_neg (by omega)]
  · exact getRexx_multi hm hlength hvalid

theorem getRexx_of_look_eq (hv : Valid a) (hv' : Valid a') {s : Nat} (hshaped : Shaped a index)
    (hat : At a' (subsOf index) s) {index' : List Subscript} (hvalid : ValidIndex index')
    (hlength : index'.length = index.length)
    (hlook : look a' (subsOf index') = look a (subsOf index')) :
    getRexx a' index' = getRexx a index' := by
  rcases hat.length with ⟨hone', hone_length⟩ | ⟨dims', hm', hlength'⟩
  · obtain ⟨x, rfl⟩ := List.length_eq_one_iff.mp (hlength.trans hone_length)
    have hx := hvalid x List.mem_cons_self
    have hone : OneDim a := by
      rcases hv.shape with hone | ⟨dims, hm, -⟩
      · exact hone
      · have h2 := hm.2
        rw [Shaped, hm.1] at hshaped
        change index.length = dims.length at hshaped
        omega
    rw [getRexx_one hv' hone' hx, getRexx_one hv hone hx, hlook]
  · have h2 := hm'.2
    rw [getRexx_multi hm' (by omega) hvalid, hlook]
    rcases hv.shape with hone | ⟨dims, hm, -⟩
    · have hnone : a.dimensions = none := by
        rcases hone with h | ⟨d, h⟩
        · exact h
        · simp only [Shaped, h, List.length_singleton] at hshaped
          omega
      have hempty : a.arraySize = 0 := by
        simp only [Shaped, hnone] at hshaped
        omega
      rw [getRexx_several hone (by omega), if_neg (by simp [hnone, hempty]),
        look_oneDim_of_length hone (by rw [subsOf, List.length_map]; omega)]
    · rw [Shaped, hm.1] at hshaped
      rw [getRexx_multi hm (hlength.trans hshaped) hvalid]

theorem putLaw_of_ok (hv : Valid a) (hshaped : Shaped a index) {p : Nat}
    (h : validateIndex true validateDepth a index = (.ok (some p), a')) (value : ν) :
    PutLaw a value index := by
  have hvalidated := validateIndex_validated true validateDepth hv index
  rw [h] at hvalidated
  obtain ⟨hvalid, s, rfl, hat⟩ := hvalidated.position p rfl
  have hkept := hvalidated.kept
  have hput : putRexx a value index = (.ok (), a'.putSlot (s + 1) (some value)) := by
    rw [putRexx, h]
    rfl
  have hv' := putSlot_valid hkept.valid hat.1 (some value)
  have hat' : At (a'.putSlot (s + 1) (some value)) (subsOf index) s := hat
  rw [PutLaw, hput]
  refine ⟨rfl, ?_, fun index' hvalid' hne => ?_⟩
  · rw [getRexx_of_at hv' hvalid hat', look_putSlot hkept.valid hat, if_pos rfl]
  · have hlook : look (a'.putSlot (s + 1) (some value)) (subsOf index') =
        look a (subsOf index') := by
      rw [look_putSlot hkept.valid hat, if_neg hne, hkept.look_eq]
    refine ⟨?_, fun hlength => getRexx_of_look_eq hv hv' hshaped hat' hvalid' hlength hlook⟩
    rw [held_eq_look hv' hvalid', held_eq_look hv hvalid', hlook]

theorem putLaw_iff (hv : Valid a) (hfits : Fits a index) (value : ν) :
    PutLaw a value index ↔ (a.dimensions = none → 2 ≤ index.length → Castable index) := by
  constructor
  · rintro ⟨hok, -⟩ hnone hlength
    cases hr : (validateIndex true validateDepth a index).1 with
    | ok p => exact castable_of_ok hv hnone hlength hfits.valid hr
    | error e =>
        rw [putRexx, show validateIndex true validateDepth a index = (.error e, _) from
          Prod.ext hr rfl] at hok
        cases hok
  · intro hcast
    obtain ⟨p, a', hok⟩ := validateIndex_ok hv hfits hcast
    exact putLaw_of_ok hv hfits.shaped hok value

/-! ## Positions and subscripts -/

/--
Each position gives subscripts that reach it, and subscripts that reach a position are the
ones that it gives.
-/
def IndexLaw (a : RexxArray ν) : Prop :=
  (∀ p, 1 ≤ p → p ≤ a.arraySize →
    (validateIndex false validateDepth a (a.convertIndex p)).1 = .ok (some p)) ∧
  ∀ index p, (validateIndex false validateDepth a index).1 = .ok (some p) →
    sizesOf (a.convertIndex p) = sizesOf index

theorem convertIndex_oneDim (hone : OneDim a) (p : Nat) : a.convertIndex p = [.integer p] := by
  rcases hone with h | ⟨d, h⟩ <;> simp only [convertIndex, h]

theorem convertIndex_multi (hm : Multi a dims) (p : Nat) :
    a.convertIndex p = (unravel dims (p - 1)).1.map fun s => .integer ((s + 1 : Nat) : Int) := by
  have hmulti : a.convertIndex p = a.indexToArray p := by
    obtain ⟨hdims, hlength⟩ := hm
    rcases dims with _ | ⟨d, _ | ⟨d', ds⟩⟩
    · exact absurd hlength (by simp)
    · exact absurd hlength (by simp)
    · simp only [convertIndex, hdims]
  rw [hmulti, indexToArray, hm.1, Option.getD_some, indexDigits_eq, List.map_map]
  rfl

theorem convertIndex_spec (hv : Valid a) {s : Nat} (hlt : s < a.arraySize) :
    ValidIndex (a.convertIndex (s + 1)) ∧ At a (subsOf (a.convertIndex (s + 1))) s := by
  rcases hv.shape with hone | ⟨dims, hm, hsize⟩
  · rw [convertIndex_oneDim hone]
    refine ⟨fun x hx => ?_, hlt, Or.inl ⟨hone, rfl⟩⟩
    rw [List.mem_singleton.mp hx]
    exact Int.natCast_pos.mpr (Nat.succ_pos s)
  · have hprod : s < dims.prod := hsize ▸ hlt
    obtain ⟨hrange, hoffset⟩ :=
      offset_unravel_of_lt (pos_of_prod_pos (Nat.zero_lt_of_lt hprod)) hprod
    have hsubs : subsOf (a.convertIndex (s + 1)) = (unravel dims s).1 := by
      rw [convertIndex_multi hm, subsOf, List.map_map]
      exact List.map_id _
    refine ⟨fun x hx => ?_, hlt, Or.inr ⟨dims, hm, ?_, ?_⟩⟩
    · rw [convertIndex_multi hm, List.mem_map] at hx
      obtain ⟨n, -, rfl⟩ := hx
      exact Int.natCast_pos.mpr (Nat.succ_pos n)
    · rwa [hsubs]
    · rw [hsubs, hoffset]

theorem validateIndex_of_at (hvalid : ValidIndex index) {s : Nat}
    (hat : At a (subsOf index) s) :
    validateIndex false (fuel + 1) a index = (.ok (some (s + 1)), a) := by
  have hlt := hat.1
  rcases hat.length with ⟨hone, hlength⟩ | ⟨dims, hm, hlength⟩
  · obtain ⟨x, rfl⟩ := List.length_eq_one_iff.mp hlength
    have hx := hvalid x List.mem_cons_self
    have hs : x.number.toNat - 1 = s := by
      rcases hat.2 with ⟨-, hsubs⟩ | ⟨dims, hm, -⟩
      · exact (List.cons.inj hsubs).1
      · exact absurd hone hm.not_oneDim
    have hnumber : x.number.toNat = s + 1 := by omega
    rw [validateIndex_one hone hx, hnumber, if_pos (by omega)]
  · obtain ⟨-, ⟨hone, -⟩ | ⟨dims', hm', hrange, hs⟩⟩ := hat
    · exact absurd hone hm.not_oneDim
    · obtain rfl := hm.unique hm'
      rw [validateIndex_multi hm, if_neg (by omega), if_neg (by omega),
        locate_of_inRange hvalid hrange, hs]

theorem validateIndex_false (hv : Valid a) (index : List Subscript) :
    (validateIndex false (fuel + 1) a index).2 = a := by
  rcases hv.shape with hone | ⟨dims, hm, -⟩
  · rcases index with _ | ⟨x, _ | ⟨y, index⟩⟩
    · rw [validateIndex_nil hone]
    · by_cases hx : 0 < x.number
      · rw [validateIndex_one hone hx]
        split
        · rfl
        · split <;> rfl
      · obtain ⟨e, he⟩ := validateIndex_one_invalid false fuel hone hx
        rw [he]
    · rw [validateIndex_several hone (by simp)]
      split <;> rfl
  · rw [validateIndex_multi hm]
    split
    · rfl
    · split
      · rfl
      · cases locate index dims with
        | error e => rfl
        | ok found => cases found <;> rfl

theorem sizesOf_eq (hvalid : ValidIndex index) : sizesOf index = (subsOf index).map (· + 1) := by
  rw [subsOf, List.map_map]
  apply List.map_congr_left
  intro x hx
  have hpos := hvalid x hx
  change x.number.toNat = x.number.toNat - 1 + 1
  omega

theorem indexLaw (hv : Valid a) : IndexLaw a := by
  constructor
  · intro p hp hle
    obtain ⟨s, rfl⟩ := Nat.exists_eq_succ_of_ne_zero (Nat.pos_iff_ne_zero.mp hp)
    obtain ⟨hvalid, hat⟩ := convertIndex_spec hv hle
    rw [validateDepth, validateIndex_of_at hvalid hat]
  · intro index p hok
    have hvalidated := validateIndex_validated false validateDepth hv index
    obtain ⟨hvalid, s, rfl, hat⟩ := hvalidated.position p hok
    rw [validateDepth, validateIndex_false hv] at hat
    obtain ⟨hvalid', hat'⟩ := convertIndex_spec hv hat.1
    rw [sizesOf_eq hvalid, sizesOf_eq hvalid', at_unique hat hat']

/-! ## Runs -/

theorem newRexx_valid {sizes : List Int} (h : newRexx sizes = .ok a) : Valid a := by
  rcases sizes with _ | ⟨size, _ | ⟨size', sizes⟩⟩
  · obtain rfl := (Except.ok.inj h).symm
    exact newArray_valid (by decide) (fun _ _ => rfl) (Or.inl (Or.inl rfl))
  · rw [newRexx] at h
    split at h
    · cases h
    · split at h
      · cases h
      · split at h
        · obtain rfl := (Except.ok.inj h).symm
          exact newArray_valid (by decide) (fun _ _ => rfl) (Or.inl (Or.inr ⟨0, rfl⟩))
        · rename_i hlt _
          obtain rfl := (Except.ok.inj h).symm
          exact newArray_valid (Nat.not_le.mp hlt) (fun _ _ => rfl) (Or.inl (Or.inl rfl))
  · change (totalSize (size :: size' :: sizes) 1 >>= _) = _ at h
    cases htotal : totalSize (size :: size' :: sizes) 1 with
    | error e => rw [htotal] at h; cases h
    | ok total =>
        rw [htotal] at h
        obtain ⟨hprod, hlt⟩ := totalSize_ok htotal
        obtain rfl := (Except.ok.inj h).symm
        exact newArray_valid hlt (fun _ _ => rfl)
          (Or.inr ⟨_, ⟨rfl, by simp⟩, by rw [hprod, Nat.one_mul]⟩)

theorem putRexx_valid (hv : Valid a) (value : ν) (index : List Subscript) :
    Valid (putRexx a value index).2 := by
  have hvalidated := validateIndex_validated true validateDepth hv index
  rw [putRexx]
  generalize validateIndex true validateDepth a index = r at hvalidated
  rcases r with ⟨e | _ | p, a'⟩
  · exact hvalidated.kept.valid
  · exact hvalidated.kept.valid
  · obtain ⟨-, s, rfl, hat⟩ := hvalidated.position p rfl
    exact putSlot_valid hvalidated.kept.valid hat.1 (some value)

theorem removeRexx_valid (hv : Valid a) (index : List Subscript) :
    Valid (removeRexx a index).2 := by
  have hvalidated := validateIndex_validated false validateDepth hv index
  rw [removeRexx]
  generalize validateIndex false validateDepth a index = r at hvalidated
  rcases r with ⟨e | _ | p, a'⟩
  · exact hvalidated.kept.valid
  · exact hvalidated.kept.valid
  · obtain ⟨-, s, rfl, hat⟩ := hvalidated.position p rfl
    exact putSlot_valid hvalidated.kept.valid hat.1 none

inductive ArrayOp (ν : Type) where
  | put (value : ν) (index : List Subscript)
  | remove (index : List Subscript)

def step (a : RexxArray ν) : ArrayOp ν → RexxArray ν
  | .put value index => (putRexx a value index).2
  | .remove index => (removeRexx a index).2

def run (a : RexxArray ν) : List (ArrayOp ν) → RexxArray ν
  | [] => a
  | op :: ops => run (step a op) ops

theorem step_valid (hv : Valid a) (op : ArrayOp ν) : Valid (step a op) := by
  cases op with
  | put value index => exact putRexx_valid hv value index
  | remove index => exact removeRexx_valid hv index

theorem run_valid (hv : Valid a) (ops : List (ArrayOp ν)) : Valid (run a ops) := by
  induction ops generalizing a with
  | nil => exact hv
  | cons op ops ih => exact ih (step_valid hv op)

/--
After any operations on a new array, positions and subscripts are inverse, and a put obeys
the law unless it is a first put that cannot allocate what it reads.
-/
theorem run_putLaw_iff {sizes : List Int} (h : newRexx sizes = .ok a) (ops : List (ArrayOp ν)) :
    IndexLaw (run a ops) ∧ ∀ value index, Fits (run a ops) index →
      (PutLaw (run a ops) value index ↔
        ((run a ops).dimensions = none → 2 ≤ index.length → Castable index)) :=
  ⟨indexLaw (run_valid (newRexx_valid h) ops), fun value _ hfits =>
    putLaw_iff (run_valid (newRexx_valid h) ops) hfits value⟩

def twoConverted : Subscript := .string (some 2) 305419896

theorem newRexx_nil : newRexx [] = .ok (newArray none 0 : RexxArray Nat) := rfl

theorem fits_twoConverted :
    Fits (newArray none 0 : RexxArray Nat) [twoConverted, twoConverted] := by
  constructor
  · intro x hx
    simp only [List.mem_cons, List.not_mem_nil, or_false, or_self] at hx
    rw [hx]
    decide
  · exact Or.inr ⟨rfl, le_rfl⟩
  · decide

theorem run_putLaw_iff_twoConverted :
    IndexLaw (newArray none 0 : RexxArray Nat) ∧
      ¬ PutLaw (newArray none 0 : RexxArray Nat) 7 [twoConverted, twoConverted] := by
  obtain ⟨hindex, hput⟩ := run_putLaw_iff newRexx_nil []
  refine ⟨hindex, fun hlaw => ?_⟩
  have hcast := (hput 7 _ fits_twoConverted).mp hlaw rfl le_rfl
  exact absurd hcast (by decide)

/-- `a = .array~new; i = "2"; a[i, i] = 7` raises an error. -/
theorem putRexx_twoConverted :
    newRexx [] = .ok (newArray none 0 : RexxArray Nat) ∧
      Fits (newArray none 0 : RexxArray Nat) [twoConverted, twoConverted] ∧
      ¬ PutLaw (newArray none 0 : RexxArray Nat) 7 [twoConverted, twoConverted] := by
  refine ⟨rfl, fits_twoConverted, fun hlaw => ?_⟩
  have hcast := (putLaw_iff (newRexx_valid newRexx_nil) fits_twoConverted 7).mp hlaw rfl le_rfl
  exact absurd hcast (by decide)

end RexxArray

end LeooRexx
