import LeooRexx.Classes.RexxListSlots

/-!
# Runs of lists

`insert` and `add` take a slot off the free chain before they look at the index.
When they then raise a condition, the slot is in neither chain.  In all other
runs every slot is in one of the chains, and an index goes on denoting its item.
-/

namespace LeooRexx

inductive ListOp (ν : Type) where
  | insert (value : ν) (index : ListIndex)
  | add (value : ν) (index : ListIndex)
  | addFirst (value : ν)
  | addLast (value : ν)
  | put (value : Option ν) (index : ListIndex)
  | remove (index : ListIndex)
  | removeItem (target : Option ν)
  | empty

def ListOp.added {ν : Type} : ListOp ν → Option ν
  | .insert value _ | .add value _ | .addFirst value | .addLast value => some value
  | .put _ _ | .remove _ | .removeItem _ | .empty => none

namespace RexxList

variable {ν : Type}

/--
The items are linked in both directions, the other slots are the free chain, and
there are as many items as the list counts.
-/
def WellFormed (t : RexxList ν) : Prop := ∃ l f, t.Slots l f []

def Denotes (t : RexxList ν) (i : Int) (value : ν) : Prop :=
  t.getEntry (.integer i) 1 = .ok (some i) ∧ (t.entries i).value = some value

def Accepts (t : RexxList ν) : ListOp ν → Prop
  | .insert _ index => t.InsertIndex index
  | .add _ index => t.AddIndex index
  | .addFirst _ | .addLast _ | .put _ _ | .remove _ | .removeItem _ | .empty => True

section Runs

variable [BEq ν]

def Touches (t : RexxList ν) (i : Int) : ListOp ν → Prop
  | .put value index => value.isSome ∧ index = .integer i
  | .remove index => index = .integer i
  | .removeItem target => ∃ value, target = some value ∧ t.index value = some i
  | .empty => True
  | .insert _ _ | .add _ _ | .addFirst _ | .addLast _ => False

/-- The outer `none` means that `empty` does not end. -/
def step (t : RexxList ν) :
    ListOp ν → Option (RexxList ν × Except ListError (ListResult ν))
  | .insert value index =>
      let (t, result) := t.insert value index
      some (t, result.map .index)
  | .add value index =>
      let (t, result) := t.add value index
      some (t, result.map .index)
  | .addFirst value => some (t.addFirst value, .ok .done)
  | .addLast value => some (t.addLast value, .ok .done)
  | .put value index =>
      let (t, result) := t.put value index
      some (t, result.map fun _ => .done)
  | .remove index =>
      let (t, result) := t.remove index
      some (t, result.map .item)
  | .removeItem target =>
      let (t, result) := t.removeItem target
      some (t, result.map .item)
  | .empty => t.empty.map fun t => (t, .ok .done)

def run (t : RexxList ν) :
    List (ListOp ν) → Option (RexxList ν × List (Except ListError (ListResult ν)))
  | [] => some (t, [])
  | op :: ops => do
      let (t, result) ← t.step op
      let (t, results) ← t.run ops
      some (t, result :: results)

def AcceptsAll (t : RexxList ν) : List (ListOp ν) → Prop
  | [] => True
  | op :: ops => t.Accepts op ∧ ∀ t' result, t.step op = some (t', result) → t'.AcceptsAll ops

def Untouched (t : RexxList ν) (i : Int) : List (ListOp ν) → Prop
  | [] => True
  | op :: ops => ¬ t.Touches i op ∧
      ∀ t' result, t.step op = some (t', result) → t'.Untouched i ops

omit [BEq ν] in
theorem denotes_iff {t : RexxList ν} {l f d : List Int} (h : t.Slots l f d) {i : Int}
    {value : ν} : t.Denotes i value ↔ i ∈ l ∧ (t.entries i).value = some value := by
  rw [Denotes, getEntry_eq_some h]
  simp

structure Keeps (t : RexxList ν) (op : ListOp ν) (t' : RexxList ν) : Prop where
  wellFormed : t'.WellFormed
  denotes : ∀ i value, t.Denotes i value → ¬ t.Touches i op → t'.Denotes i value

omit [BEq ν] in
theorem Gained.denotes {t t' : RexxList ν} {l l' f : List Int} {x : Int} {value : ν}
    (h : Gained t t' l l' [] x value) (hslots : t.Slots l f []) :
    t'.WellFormed ∧ t'.Denotes x value ∧ ∀ i v, t.Denotes i v → t'.Denotes i v := by
  obtain ⟨f', hslots'⟩ := h.slots
  refine ⟨⟨l', f', hslots'⟩, ?_, fun i v hi => ?_⟩
  · rw [denotes_iff hslots']
    exact ⟨h.perm.mem_iff.mpr List.mem_cons_self, h.value_self⟩
  · obtain ⟨hil, hv⟩ := (denotes_iff hslots).mp hi
    rw [denotes_iff hslots', h.value_of i hil]
    exact ⟨h.perm.mem_iff.mpr (List.mem_cons_of_mem x hil), hv⟩

omit [BEq ν] in
theorem removeSlot_denotes {t : RexxList ν} {l f : List Int} {e : Int} (h : t.Slots l f [])
    (he : e ∈ l) :
    (t.removeSlot e).1.WellFormed ∧
      ∀ i value, t.Denotes i value → i ≠ e → (t.removeSlot e).1.Denotes i value := by
  obtain ⟨xs, ys, rfl⟩ := List.append_of_mem he
  obtain ⟨hslots, -, hvalue⟩ := removeSlot_spec h
  refine ⟨⟨_, _, hslots⟩, fun i value hi hie => ?_⟩
  obtain ⟨hil, hv⟩ := (denotes_iff h).mp hi
  rw [denotes_iff hslots, hvalue]
  exact ⟨by simpa [hie] using hil, hv⟩

omit [BEq ν] in
theorem put_denotes {t : RexxList ν} {l f : List Int} {e : Int} (h : t.Slots l f [])
    (value : ν) :
    (t.setValue e (some value)).WellFormed ∧
      ∀ i v, t.Denotes i v → i ≠ e → (t.setValue e (some value)).Denotes i v := by
  have hentries : ∀ k, (t.setValue e (some value)).entries k =
      if k = e then { t.entries k with value := some value } else t.entries k :=
    fun k => t.entries_modify e k _
  have hslots := h.setValue e (some value)
  refine ⟨⟨l, f, hslots⟩, fun i v hi hie => ?_⟩
  rw [denotes_iff hslots, hentries, if_neg hie]
  exact (denotes_iff h).mp hi

theorem step_spec {t : RexxList ν} (hwf : t.WellFormed) {op : ListOp ν}
    (haccepts : t.Accepts op) :
    ∃ t' result, t.step op = some (t', result) ∧ t.Keeps op t' ∧
      ∀ i, result = .ok (.index i) → ∃ value, op.added = some value ∧ t'.Denotes i value := by
  obtain ⟨l, f, h⟩ := hwf
  have hself : t.WellFormed := ⟨l, f, h⟩
  cases op with
  | insert value index =>
      obtain ⟨t', l', x, hinsert, hgained⟩ := insert_spec h value haccepts
      obtain ⟨hwf', hx, hkeep⟩ := hgained.denotes h
      refine ⟨t', .ok (.index x), by simp [step, hinsert, Except.map],
        ⟨hwf', fun i v hi _ => hkeep i v hi⟩, ?_⟩
      rintro i ⟨⟩
      exact ⟨value, rfl, hx⟩
  | add value index =>
      obtain ⟨t', l', x, hadd, hgained⟩ := add_spec h value haccepts
      obtain ⟨hwf', hx, hkeep⟩ := hgained.denotes h
      refine ⟨t', .ok (.index x), by simp [step, hadd, Except.map],
        ⟨hwf', fun i v hi _ => hkeep i v hi⟩, ?_⟩
      rintro i ⟨⟩
      exact ⟨value, rfl, hx⟩
  | addFirst value =>
      obtain ⟨x, hgained⟩ := addFirst_spec h value
      obtain ⟨hwf', -, hkeep⟩ := hgained.denotes h
      exact ⟨_, _, rfl, ⟨hwf', fun i v hi _ => hkeep i v hi⟩, by simp⟩
  | addLast value =>
      obtain ⟨x, hgained⟩ := addLast_spec h value
      obtain ⟨hwf', -, hkeep⟩ := hgained.denotes h
      exact ⟨_, _, rfl, ⟨hwf', fun i v hi _ => hkeep i v hi⟩, by simp⟩
  | put value index =>
      cases hget : t.getEntry index 2 with
      | error e =>
          exact ⟨t, .error e, by simp [step, put, hget, Except.map],
            ⟨hself, fun i v hi _ => hi⟩, by simp⟩
      | ok element =>
          cases value with
          | none =>
              exact ⟨t, .error (.noarg 1), by simp [step, put, hget, Except.map],
                ⟨hself, fun i v hi _ => hi⟩, by simp⟩
          | some value =>
              cases element with
              | none =>
                  exact ⟨t, .error (.index index), by simp [step, put, hget, Except.map],
                    ⟨hself, fun i v hi _ => hi⟩, by simp⟩
              | some e =>
                  obtain ⟨rfl, he⟩ := (getEntry_eq_some h).mp hget
                  obtain ⟨hwf', hkeep⟩ := put_denotes (e := e) h value
                  refine ⟨_, .ok .done, by simp [step, put, hget, Except.map],
                    ⟨hwf', fun i v hi htouch => hkeep i v hi ?_⟩, by simp⟩
                  rintro rfl
                  exact htouch ⟨rfl, rfl⟩
  | remove index =>
      cases hget : t.getEntry index 1 with
      | error e =>
          exact ⟨t, .error e, by simp [step, remove, hget, Except.map],
            ⟨hself, fun i v hi _ => hi⟩, by simp⟩
      | ok element =>
          cases element with
          | none =>
              exact ⟨t, .ok (.item none), by simp [step, remove, hget, primitiveRemove, Except.map],
                ⟨hself, fun i v hi _ => hi⟩, by simp⟩
          | some e =>
              obtain ⟨rfl, he⟩ := (getEntry_eq_some h).mp hget
              obtain ⟨hwf', hkeep⟩ := removeSlot_denotes h he
              refine ⟨(t.removeSlot e).1, .ok (.item (t.removeSlot e).2),
                by simp [step, remove, hget, primitiveRemove, Except.map],
                ⟨hwf', fun i v hi htouch => hkeep i v hi ?_⟩, by simp⟩
              rintro rfl
              exact htouch rfl
  | removeItem target =>
      cases target with
      | none =>
          exact ⟨t, .error (.noarg 1), by simp [step, removeItem, Except.map],
            ⟨hself, fun i v hi _ => hi⟩, by simp⟩
      | some target =>
          cases hindex : t.index target with
          | none =>
              exact ⟨t, .ok (.item none),
                by simp [step, removeItem, hindex, primitiveRemove, Except.map],
                ⟨hself, fun i v hi _ => hi⟩, by simp⟩
          | some e =>
              obtain ⟨hwf', hkeep⟩ := removeSlot_denotes h (index_mem h hindex)
              refine ⟨(t.removeSlot e).1, .ok (.item (t.removeSlot e).2),
                by simp [step, removeItem, hindex, primitiveRemove, Except.map],
                ⟨hwf', fun i v hi htouch => hkeep i v hi ?_⟩, by simp⟩
              rintro rfl
              exact htouch ⟨target, rfl, hindex⟩
  | empty =>
      have hfuel : l.length < t.count + 1 := by
        rw [h.count]
        exact Nat.lt_succ_self _
      obtain ⟨t', f', hloop, hslots⟩ := emptyLoop_spec h hfuel
      exact ⟨t', .ok .done, by simp [step, empty, hloop],
        ⟨⟨[], f', hslots⟩, fun i v _ htouch => absurd trivial htouch⟩, by simp⟩

theorem run_keeps {t : RexxList ν} (hwf : t.WellFormed) {ops : List (ListOp ν)}
    (haccepts : t.AcceptsAll ops) :
    ∃ t' results, t.run ops = some (t', results) ∧ t'.WellFormed ∧
      ∀ i value, t.Denotes i value → t.Untouched i ops → t'.Denotes i value := by
  induction ops generalizing t with
  | nil => exact ⟨t, [], rfl, hwf, fun _ _ hi _ => hi⟩
  | cons op ops ih =>
      obtain ⟨haccept, hrest⟩ := haccepts
      obtain ⟨t', result, hstep, hkeeps, -⟩ := step_spec hwf haccept
      obtain ⟨t'', results, hrun, hwf', hkeep⟩ := ih hkeeps.wellFormed (hrest t' result hstep)
      refine ⟨t'', result :: results, by simp [run, hstep, hrun], hwf', ?_⟩
      rintro i value hi ⟨htouch, huntouched⟩
      exact hkeep i value (hkeeps.denotes i value hi htouch) (huntouched t' result hstep)

theorem AcceptsAll.append {t t' : RexxList ν} {ops ops' : List (ListOp ν)}
    {results : List (Except ListError (ListResult ν))} (h : t.AcceptsAll (ops ++ ops'))
    (hrun : t.run ops = some (t', results)) : t.AcceptsAll ops ∧ t'.AcceptsAll ops' := by
  induction ops generalizing t results with
  | nil =>
      obtain ⟨rfl, -⟩ := Prod.mk.inj (Option.some.inj hrun)
      exact ⟨trivial, h⟩
  | cons op ops ih =>
      obtain ⟨haccept, hrest⟩ := h
      cases hstep : t.step op with
      | none => simp [run, hstep] at hrun
      | some pair =>
          cases htail : pair.1.run ops with
          | none => simp [run, hstep, htail] at hrun
          | some pair' =>
              have ht' : pair'.1 = t' := by
                simp only [run, hstep, htail, Option.bind_eq_bind, Option.bind_some,
                  Option.some.injEq, Prod.mk.injEq] at hrun
                exact hrun.1
              have htail' : pair.1.run ops = some (t', pair'.2) := by rw [htail, ← ht']
              refine ⟨⟨haccept, fun u result hu => ?_⟩,
                (ih (hrest pair.1 pair.2 hstep) htail').2⟩
              obtain rfl : pair = (u, result) := Option.some.inj (hstep.symm.trans hu)
              exact (ih (hrest u result hu) htail').1

theorem run_append (t : RexxList ν) (ops ops' : List (ListOp ν)) :
    t.run (ops ++ ops') = (t.run ops).bind fun pair =>
      (pair.1.run ops').map fun pair' => (pair'.1, pair.2 ++ pair'.2) := by
  induction ops generalizing t with
  | nil =>
      cases hrun : t.run ops' <;> simp [run, hrun]
  | cons op ops ih =>
      cases hstep : t.step op with
      | none => simp [run, hstep]
      | some pair =>
          cases hrun : pair.1.run ops with
          | none => simp [run, hstep, ih, hrun]
          | some pair' =>
              cases hrun' : pair'.1.run ops' <;> simp [run, hstep, ih, hrun, hrun']

/--
In a run whose new items all have insertion points, the chains stay as they have
to be, and an index that was returned denotes its item for as long as no method
removes it or puts another value there.
-/
theorem run_wellFormed {ops : List (ListOp ν)} (h : (init : RexxList ν).AcceptsAll ops) :
    ∃ t results, (init : RexxList ν).run ops = some (t, results) ∧ t.WellFormed ∧
      ∀ ops₁ op ops₂ t₁ results₁ t₂ i, ops = ops₁ ++ op :: ops₂ →
        (init : RexxList ν).run ops₁ = some (t₁, results₁) →
        t₁.step op = some (t₂, .ok (.index i)) → t₂.Untouched i ops₂ →
        ∃ value, op.added = some value ∧ t.Denotes i value := by
  have hinit : (init : RexxList ν).WellFormed := ⟨_, _, init_slots⟩
  obtain ⟨t, results, hrun, hwf, -⟩ := run_keeps hinit h
  refine ⟨t, results, hrun, hwf, ?_⟩
  rintro ops₁ op ops₂ t₁ results₁ t₂ i rfl hrun₁ hstep huntouched
  obtain ⟨haccepts₁, haccept, haccepts₂⟩ := h.append hrun₁
  obtain ⟨u₁, rs₁, hu₁, hwf₁, -⟩ := run_keeps hinit haccepts₁
  obtain rfl : u₁ = t₁ := congrArg Prod.fst (Option.some.inj (hu₁.symm.trans hrun₁))
  obtain ⟨u₂, result, hu₂, hkeeps, hindex⟩ := step_spec hwf₁ haccept
  obtain ⟨rfl, rfl⟩ := Prod.mk.inj (Option.some.inj (hu₂.symm.trans hstep))
  obtain ⟨value, hadded, hdenotes⟩ := hindex i rfl
  obtain ⟨u, rs, hu, -, hkeep⟩ := run_keeps hkeeps.wellFormed (haccepts₂ u₂ _ hstep)
  have htu : t = u := by
    rw [run_append, hrun₁] at hrun
    simp only [Option.bind_some, run, hstep, hu, Option.bind_eq_bind, Option.map_some,
      Option.some.injEq, Prod.mk.injEq] at hrun
    exact hrun.1.symm
  exact ⟨value, hadded, htu ▸ hkeep i value hdenotes huntouched⟩

/-- Two items are added and the first one is removed. -/
theorem run_wellFormed_removed :
    ∃ t results, (init : RexxList Nat).run
        [.insert 7 .nil, .add 8 .nil, .removeItem (some 7)] = some (t, results) ∧
      t.WellFormed ∧
      ∀ ops₁ op ops₂ t₁ results₁ t₂ i,
        [.insert 7 .nil, .add 8 .nil, .removeItem (some 7)] = ops₁ ++ op :: ops₂ →
        (init : RexxList Nat).run ops₁ = some (t₁, results₁) →
        t₁.step op = some (t₂, .ok (.index i)) → t₂.Untouched i ops₂ →
        ∃ value, op.added = some value ∧ t.Denotes i value :=
  run_wellFormed
    ⟨.inl rfl, fun _ _ _ => ⟨.inl rfl, fun _ _ _ => ⟨trivial, fun _ _ _ => trivial⟩⟩⟩

/-- An insertion after an item that does not exist loses the slot 0. -/
theorem insert_loses_slot :
    ∃ t, (init : RexxList Nat).run [.insert 1 (.integer 0)] =
        some (t, [.error (.index (.integer 0))]) ∧ ¬ t.WellFormed := by
  refine ⟨(init : RexxList Nat).getFree.1, rfl, ?_⟩
  rintro ⟨l, f, h⟩
  have hl : l = [] := h.items.last_eq_listEnd.mp rfl
  have hf : f = [1, 2, 3, 4] := by
    refine h.free.unique ?_
    exact ⟨rfl, rfl, rfl, rfl, rfl⟩
  have hzero := (h.cover 0).mp (by decide)
  rw [hl, hf] at hzero
  exact absurd hzero (by decide)

end Runs

end RexxList

end LeooRexx
