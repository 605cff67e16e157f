import LeooRexx.Classes.RexxListRuns
import LeooRexx.Classes.RexxQueueRuns

/-!
# Insertions that raise a condition

`insert` and `add` of a list and `insert` of a queue take a slot off the free chain before they
look at the index.  Only a missing value is found out earlier.
-/

namespace LeooRexx

namespace RexxList

open Chain

variable {ν : Type} {t t' : RexxList ν} {l f d : List Int}

/-- `insertRexx`: the value is required. -/
def insertRexx (t : RexxList ν) (value : Option ν) (index : ListIndex) :
    RexxList ν × Except ListError Int :=
  match value with
  | none => (t, .error (.noarg 1))
  | some value => t.insert value index

structure Unchanged (t t' : RexxList ν) : Prop where
  first : t'.first = t.first
  last : t'.last = t.last
  count : t'.count = t.count
  free : t'.free = t.free
  entries : ∀ i, 0 ≤ i → i < t.size → t'.entries i = t.entries i

theorem Unchanged.refl (t : RexxList ν) : Unchanged t t :=
  ⟨rfl, rfl, rfl, rfl, fun _ _ _ => rfl⟩

/-! ## The first free slot -/

theorem size_partitionBuffer (t : RexxList ν) (first count : Int) :
    (t.partitionBuffer first count).size = t.size := by
  rw [partitionBuffer, partitionFrom_eq]
  rfl

theorem size_getFree (t : RexxList ν) :
    t.getFree.1.size = if t.free = listEnd then t.size + t.size else t.size := by
  rw [getFree]
  split
  · exact congrArg₂ (· + ·) (size_partitionBuffer ..) (size_partitionBuffer ..)
  · rfl

theorem getFree_slot (t : RexxList ν) :
    t.getFree.2 = if t.free = listEnd then t.size else t.free := by
  rw [getFree]
  split
  · change (t.partitionBuffer t.size t.size).free = t.size
    rw [partitionBuffer, partitionFrom_eq]
    rfl
  · rfl

theorem getFree_free_ne (h : t.Slots l f d) (hsize : 2 ≤ t.size) :
    t.getFree.1.free ≠ t.free := by
  obtain ⟨f', hget, hnew, hd, -⟩ := getFree_spec h
  have hslot := t.getFree_slot
  have hsize' := t.size_getFree
  by_cases hend : t.free = listEnd
  · rw [if_pos hend] at hslot hsize'
    rw [hend]
    intro hfree
    -- the second of the new slots is still free
    have hempty : f' = [] := by
      have hchain := hget.free
      rw [hfree] at hchain
      cases f' with
      | nil => rfl
      | cons i f' => exact absurd hchain.1 (by simp [ptr])
    rcases (hget.cover (t.size + 1)).mp (by omega) with hl | hf | hlost
    · have hlt := ((h.cover _).mpr (.inl hl)).2
      omega
    · rw [hempty] at hf
      exact absurd hf List.not_mem_nil
    · rcases List.mem_cons.mp hlost with heq | hlost
      · omega
      · have hlt := ((h.cover _).mpr (.inr (.inr hlost))).2
        omega
  · rw [if_neg hend] at hslot
    intro hfree
    have hchain := hget.free
    rw [hfree, ptr, if_neg hend] at hchain
    have hmem : t.free ∈ f' := by
      cases f' with
      | nil => cases hchain
      | cons i f' => exact Option.some.inj hchain.1 ▸ List.mem_cons_self
    exact (hget.rest t.free (hslot ▸ List.mem_cons_self)).2 hmem

/-! ## Reached lists -/

structure Sound (t : RexxList ν) : Prop where
  slots : ∃ l f d, t.Slots l f d
  size : initialListSize ≤ t.size

theorem init_sound : (init : RexxList ν).Sound := by
  have hsize : (init : RexxList ν).size = initialListSize := by rw [init, size_partitionBuffer]
  exact ⟨⟨_, _, _, init_slots⟩, Int.le_of_eq hsize.symm⟩

theorem Sound.getFree (h : t.Sound) : t.getFree.1.Sound := by
  obtain ⟨⟨l, f, d, hslots⟩, hsize⟩ := h
  obtain ⟨f', hget, -⟩ := getFree_spec hslots
  refine ⟨⟨l, f', _, hget⟩, ?_⟩
  have hpos := hslots.pos
  rw [size_getFree]
  split <;> omega

theorem size_linkBefore (t : RexxList ν) (element x : Int) :
    (t.linkBefore element x).size = t.size := by
  unfold linkBefore
  simp only
  split <;> rfl

theorem size_linkAfter (t : RexxList ν) (element x : Int) :
    (t.linkAfter element x).size = t.size := by
  unfold linkAfter
  simp only
  split <;> rfl

theorem size_removeSlot (t : RexxList ν) (element : Int) :
    (t.removeSlot element).1.size = t.size := by
  unfold removeSlot
  simp only
  split <;> split <;> rfl

theorem size_emptyLoop {fuel : ℕ} (h : t.emptyLoop fuel = some t') : t'.size = t.size := by
  induction fuel generalizing t with
  | zero => cases h
  | succ fuel ih =>
      rw [emptyLoop] at h
      split at h
      · rw [Option.some.inj h]
      · exact (ih h).trans (size_removeSlot t t.first)

theorem size_addFirst (t : RexxList ν) (value : ν) :
    (t.addFirst value).size = t.getFree.1.size := by
  unfold addFirst
  simp only
  split <;> rfl

theorem size_addLast (t : RexxList ν) (value : ν) :
    (t.addLast value).size = t.getFree.1.size := by
  unfold addLast
  simp only
  split <;> rfl

theorem size_insert (t : RexxList ν) (value : ν) (index : ListIndex) :
    (t.insert value index).1.size = t.getFree.1.size := by
  unfold insert
  simp only
  split
  · rfl
  · split
    · split <;> rfl
    · exact size_linkAfter ..

theorem size_add (t : RexxList ν) (value : ν) (index : ListIndex) :
    (t.add value index).1.size = t.getFree.1.size := by
  unfold add
  simp only
  split
  · rfl
  · split
    · split <;> rfl
    · exact size_linkBefore ..

theorem insert_raised {value : ν} {index : ListIndex} {e : ListError}
    (h : (t.insert value index).2 = .error e) : (t.insert value index).1 = t.getFree.1 := by
  unfold insert at h ⊢
  simp only at h ⊢
  split
  · rfl
  · case h_2 heq =>
    rw [heq] at h
    cases h

theorem add_raised {value : ν} {index : ListIndex} {e : ListError}
    (h : (t.add value index).2 = .error e) : (t.add value index).1 = t.getFree.1 := by
  unfold add at h ⊢
  simp only at h ⊢
  split
  · rfl
  · case h_2 heq =>
    rw [heq] at h
    cases h

theorem getEntry_getFree (h : t.Slots l f d) {index : ListIndex} {e : Int}
    (he : t.getFree.1.getEntry index 1 = .ok (some e)) : t.getEntry index 1 = .ok (some e) := by
  obtain ⟨f', hget, -⟩ := getFree_spec h
  exact (getEntry_eq_some h).mpr ((getEntry_eq_some hget).mp he)

theorem insertIndex_of_ok (h : t.Slots l f d) {value : ν} {index : ListIndex} {x : Int}
    (hok : (t.insert value index).2 = .ok x) : t.InsertIndex index := by
  by_cases hnil : index = .nil
  · exact .inl hnil
  · by_cases homitted : index = .omitted
    · exact .inr (.inl homitted)
    · unfold insert at hok
      simp only [if_neg hnil, if_neg homitted] at hok
      cases hget : t.getFree.1.getEntry index 1 with
      | error e =>
          rw [hget] at hok
          cases hok
      | ok element =>
          cases element with
          | none =>
              rw [hget] at hok
              cases hok
          | some e => exact .inr (.inr ⟨e, getEntry_getFree h hget⟩)

theorem addIndex_of_ok (h : t.Slots l f d) {value : ν} {index : ListIndex} {x : Int}
    (hok : (t.add value index).2 = .ok x) : t.AddIndex index := by
  by_cases hnil : index = .nil
  · exact .inl hnil
  · unfold add at hok
    simp only [if_neg hnil] at hok
    cases hget : t.getFree.1.getEntry index 1 with
    | error e =>
        rw [hget] at hok
        cases hok
    | ok element =>
        cases element with
        | none =>
            rw [hget] at hok
            cases hok
        | some e => exact .inr ⟨e, getEntry_getFree h hget⟩

theorem Sound.gained {l' : List Int} {x : Int} {value : ν} (h : t.Sound)
    (hgained : Gained t t' l l' d x value) (hsize : t'.size = t.getFree.1.size) : t'.Sound := by
  obtain ⟨f', hslots⟩ := hgained.slots
  exact ⟨⟨_, _, _, hslots⟩, hsize ▸ h.getFree.size⟩

theorem Sound.insert (h : t.Sound) (value : ν) (index : ListIndex) :
    (t.insert value index).1.Sound := by
  obtain ⟨l, f, d, hslots⟩ := h.slots
  cases hresult : (t.insert value index).2 with
  | error e =>
      rw [insert_raised hresult]
      exact h.getFree
  | ok x =>
      obtain ⟨t', l', x, hinsert, hgained⟩ :=
        insert_spec hslots value (insertIndex_of_ok hslots hresult)
      have hsize := t.size_insert value index
      rw [hinsert] at hsize ⊢
      exact h.gained hgained hsize

theorem Sound.add (h : t.Sound) (value : ν) (index : ListIndex) :
    (t.add value index).1.Sound := by
  obtain ⟨l, f, d, hslots⟩ := h.slots
  cases hresult : (t.add value index).2 with
  | error e =>
      rw [add_raised hresult]
      exact h.getFree
  | ok x =>
      obtain ⟨t', l', x, hadd, hgained⟩ :=
        add_spec hslots value (addIndex_of_ok hslots hresult)
      have hsize := t.size_add value index
      rw [hadd] at hsize ⊢
      exact h.gained hgained hsize

theorem Sound.removeSlot {e : Int} (h : t.Slots l f d) (hsize : initialListSize ≤ t.size)
    (he : e ∈ l) : (t.removeSlot e).1.Sound := by
  obtain ⟨xs, ys, rfl⟩ := List.append_of_mem he
  obtain ⟨hslots, -⟩ := removeSlot_spec h
  exact ⟨⟨_, _, _, hslots⟩, (size_removeSlot t e).symm ▸ hsize⟩

theorem Sound.step [BEq ν] (h : t.Sound) (op : ListOp ν)
    {result : Except ListError (ListResult ν)} (hstep : t.step op = some (t', result)) :
    t'.Sound := by
  obtain ⟨⟨l, f, d, hslots⟩, hsize⟩ := h
  cases op with
  | insert value index =>
      obtain ⟨rfl, -⟩ := Prod.mk.inj (Option.some.inj hstep)
      exact Sound.insert ⟨⟨l, f, d, hslots⟩, hsize⟩ value index
  | add value index =>
      obtain ⟨rfl, -⟩ := Prod.mk.inj (Option.some.inj hstep)
      exact Sound.add ⟨⟨l, f, d, hslots⟩, hsize⟩ value index
  | addFirst value =>
      obtain ⟨rfl, -⟩ := Prod.mk.inj (Option.some.inj hstep)
      obtain ⟨x, hgained⟩ := addFirst_spec hslots value
      exact Sound.gained ⟨⟨l, f, d, hslots⟩, hsize⟩ hgained (size_addFirst t value)
  | addLast value =>
      obtain ⟨rfl, -⟩ := Prod.mk.inj (Option.some.inj hstep)
      obtain ⟨x, hgained⟩ := addLast_spec hslots value
      exact Sound.gained ⟨⟨l, f, d, hslots⟩, hsize⟩ hgained (size_addLast t value)
  | put value index =>
      obtain ⟨rfl, -⟩ := Prod.mk.inj (Option.some.inj hstep)
      split
      · exact ⟨⟨l, f, d, hslots⟩, hsize⟩
      · split
        · exact ⟨⟨l, f, d, hslots⟩, hsize⟩
        · split
          · exact ⟨⟨l, f, d, hslots⟩, hsize⟩
          · exact ⟨⟨l, f, d, hslots.setValue ..⟩, hsize⟩
  | remove index =>
      obtain ⟨rfl, -⟩ := Prod.mk.inj (Option.some.inj hstep)
      cases hget : t.getEntry index 1 with
      | error e => exact ⟨⟨l, f, d, hslots⟩, hsize⟩
      | ok element =>
          cases element with
          | none => exact ⟨⟨l, f, d, hslots⟩, hsize⟩
          | some e => exact Sound.removeSlot hslots hsize ((getEntry_eq_some hslots).mp hget).2
  | removeItem target =>
      obtain ⟨rfl, -⟩ := Prod.mk.inj (Option.some.inj hstep)
      cases target with
      | none => exact ⟨⟨l, f, d, hslots⟩, hsize⟩
      | some target =>
          change (t.primitiveRemove (t.index target)).1.Sound
          cases hindex : t.index target with
          | none => exact ⟨⟨l, f, d, hslots⟩, hsize⟩
          | some e => exact Sound.removeSlot hslots hsize (index_mem hslots hindex)
  | empty =>
      have hfuel : l.length < t.count + 1 := by
        rw [hslots.count]
        exact Nat.lt_succ_self _
      obtain ⟨t₁, f', hloop, hempty⟩ := emptyLoop_spec hslots hfuel
      have hstep' : (t.emptyLoop (t.count + 1)).map
          (fun t => (t, (.ok .done : Except ListError (ListResult ν)))) = some (t', result) := hstep
      rw [hloop] at hstep'
      obtain ⟨rfl, -⟩ := Prod.mk.inj (Option.some.inj hstep')
      exact ⟨⟨[], f', d, hempty⟩, (size_emptyLoop hloop).symm ▸ hsize⟩

inductive Reached [BEq ν] : RexxList ν → Prop
  | init : Reached init
  | step {t t' : RexxList ν} {op : ListOp ν} {result : Except ListError (ListResult ν)} :
      Reached t → t.step op = some (t', result) → Reached t'

theorem Reached.sound [BEq ν] (h : t.Reached) : t.Sound := by
  induction h with
  | init => exact init_sound
  | step _ hstep ih => exact ih.step _ hstep

end RexxList

namespace RexxQueue

variable {ν : Type} {t : RexxList ν}

/-- `insert` with the check of its value argument. -/
def insertRequired (t : RexxList ν) (value : Option ν) (index : ListIndex) :
    RexxList ν × Except QueueError ℕ :=
  required t value fun value => insert t value index

theorem insert_raised {value : ν} {index : ListIndex} {e : QueueError}
    (h : (insert t value index).2 = .error e) : (insert t value index).1 = t.getFree.1 := by
  rw [insert_eq] at h ⊢
  split
  · rfl
  · case h_2 heq =>
    rw [heq] at h
    cases h

theorem size_le_insert (t : RexxList ν) (hsize : 0 < t.size) (value : ν) (index : ListIndex) :
    t.size ≤ (insert t value index).1.size := by
  have hget : t.size ≤ t.getFree.1.size := by
    rw [RexxList.size_getFree]
    split <;> omega
  refine Int.le_trans hget (Int.le_of_eq ?_)
  rw [insert_eq]
  cases elementOf t.getFree.1 index with
  | error e => rfl
  | ok element =>
      cases element with
      | none =>
          simp only
          split <;> rfl
      | some element =>
          simp only [RexxList.size_linkAfter]
          rfl

theorem size_le_step [BEq ν] (t : RexxList ν) (hsize : 0 < t.size) (op : QueueOp ν) :
    t.size ≤ (step t op).1.size := by
  have hget : t.size ≤ t.getFree.1.size := by
    rw [RexxList.size_getFree]
    split <;> omega
  have hremove : ∀ element, (t.primitiveRemove element).1.size = t.size := by
    intro element
    cases element with
    | none => rfl
    | some element => exact RexxList.size_removeSlot t element
  cases op with
  | queue item =>
      cases item with
      | none => exact Int.le_refl _
      | some item => exact Int.le_trans hget (Int.le_of_eq (RexxList.size_addLast t item).symm)
  | push item =>
      cases item with
      | none => exact Int.le_refl _
      | some item => exact Int.le_trans hget (Int.le_of_eq (RexxList.size_addFirst t item).symm)
  | pull =>
      change t.size ≤ (pull t).1.size
      unfold pull
      split
      · exact Int.le_refl _
      · exact Int.le_of_eq (RexxList.size_removeSlot t t.first).symm
  | put value index =>
      cases value with
      | none => exact Int.le_refl _
      | some value =>
          change t.size ≤ (put t index value).1.size
          unfold put
          split <;> exact Int.le_refl _
  | insert value index =>
      cases value with
      | none => exact Int.le_refl _
      | some value => exact size_le_insert t hsize value index
  | remove index =>
      change t.size ≤ (remove t index).1.size
      unfold remove
      split
      · exact Int.le_refl _
      · exact Int.le_of_eq (hremove _).symm
  | «at» index => exact Int.le_refl _
  | next index => exact Int.le_refl _
  | previous index => exact Int.le_refl _
  | index target => cases target <;> exact Int.le_refl _

inductive Reached [BEq ν] : RexxList ν → Prop
  | init : Reached RexxList.init
  | step {t : RexxList ν} (op : QueueOp ν) : Reached t → Reached (step t op).1

theorem Reached.sound [BEq ν] (h : Reached t) : t.Sound := by
  have hboth : (∃ xs, IsQueue t xs) ∧ RexxList.initialListSize ≤ t.size := by
    induction h with
    | init => exact ⟨⟨[], [], init_holds⟩, RexxList.init_sound.size⟩
    | step op _ ih =>
        obtain ⟨⟨xs, hqueue⟩, hsize⟩ := ih
        have hpos : (0 : Int) < RexxList.initialListSize := by decide
        exact ⟨⟨_, (step_spec hqueue op).1⟩,
          Int.le_trans hsize (size_le_step _ (Int.lt_of_lt_of_le hpos hsize) op)⟩
  obtain ⟨⟨xs, l, hholds⟩, hsize⟩ := hboth
  obtain ⟨f, d, hslots⟩ := hholds.slots
  exact ⟨⟨l, f, d, hslots⟩, hsize⟩

end RexxQueue

/-! ## Insertion is atomic for a missing value only -/

open RexxList in
theorem RexxList.Sound.not_unchanged {ν : Type} {t : RexxList ν} (h : t.Sound) :
    ¬ Unchanged t t.getFree.1 := by
  obtain ⟨l, f, d, hslots⟩ := h.slots
  have htwo : (2 : Int) ≤ initialListSize := by decide
  exact fun hsame => getFree_free_ne hslots (Int.le_trans htwo h.size) hsame.free

/--
An insertion into a list or a queue that raises a condition leaves it unchanged if and only if
the condition is raised for the missing value.
-/
theorem insertion_unchanged_iff {ν : Type} [BEq ν] (t q : RexxList ν) (ht : t.Reached)
    (hq : RexxQueue.Reached q) (value : Option ν) (index : ListIndex) :
    (∀ e, (t.insertRexx value index).2 = .error e →
      (RexxList.Unchanged t (t.insertRexx value index).1 ↔ value = none)) ∧
    (∀ item e, (t.add item index).2 = .error e →
      ¬ RexxList.Unchanged t (t.add item index).1) ∧
    ∀ e, (RexxQueue.insertRequired q value index).2 = .error e →
      (RexxList.Unchanged q (RexxQueue.insertRequired q value index).1 ↔ value = none) := by
  have htfree := ht.sound.not_unchanged
  have hqfree := hq.sound.not_unchanged
  refine ⟨fun e he => ?_, fun item e he => ?_, fun e he => ?_⟩
  · cases value with
    | none => exact iff_of_true (RexxList.Unchanged.refl t) rfl
    | some value =>
        have hraised : (t.insertRexx (some value) index).1 = t.getFree.1 := RexxList.insert_raised he
        rw [hraised]
        exact iff_of_false htfree (Option.some_ne_none value)
  · rw [RexxList.add_raised he]
    exact htfree
  · cases value with
    | none => exact iff_of_true (RexxList.Unchanged.refl q) rfl
    | some value =>
        have hraised : (RexxQueue.insertRequired q (some value) index).1 = q.getFree.1 :=
          RexxQueue.insert_raised he
        rw [hraised]
        exact iff_of_false hqfree (Option.some_ne_none value)

/-- A new list and a new queue, and the index 7. -/
theorem insertion_unchanged_new :
    ((RexxList.init : RexxList ℕ).insertRexx (some 1) (.integer 7)).2 =
        .error (.index (.integer 7)) ∧
      ((∀ e, ((RexxList.init : RexxList ℕ).insertRexx (some 1) (.integer 7)).2 = .error e →
        (RexxList.Unchanged RexxList.init
            ((RexxList.init : RexxList ℕ).insertRexx (some 1) (.integer 7)).1 ↔
          (some 1 : Option ℕ) = none)) ∧
      (∀ item e, ((RexxList.init : RexxList ℕ).add item (.integer 7)).2 = .error e →
        ¬ RexxList.Unchanged RexxList.init ((RexxList.init : RexxList ℕ).add item (.integer 7)).1) ∧
      ∀ e, (RexxQueue.insertRequired (RexxList.init : RexxList ℕ) (some 1) (.integer 7)).2 =
          .error e →
        (RexxList.Unchanged RexxList.init
            (RexxQueue.insertRequired (RexxList.init : RexxList ℕ) (some 1) (.integer 7)).1 ↔
          (some 1 : Option ℕ) = none)) :=
  ⟨rfl, insertion_unchanged_iff _ _ .init .init (some 1) (.integer 7)⟩

/-- After a failed insertion into a new list or queue the slot 0 is gone from the free chain. -/
theorem insertion_takes_slot :
    ((RexxList.init : RexxList ℕ).insertRexx (some 1) (.integer 7)).2 =
        .error (.index (.integer 7)) ∧
      (RexxList.init : RexxList ℕ).free = 0 ∧
      ((RexxList.init : RexxList ℕ).insertRexx (some 1) (.integer 7)).1.free = 1 ∧
      (RexxQueue.insertRequired (RexxList.init : RexxList ℕ) (some 1) (.integer 7)).2 =
        .error (.Error_Incorrect_method_queue_index (.integer 7)) ∧
      (RexxQueue.insertRequired (RexxList.init : RexxList ℕ) (some 1) (.integer 7)).1.free = 1 :=
  ⟨rfl, rfl, rfl, rfl, rfl⟩

end LeooRexx
