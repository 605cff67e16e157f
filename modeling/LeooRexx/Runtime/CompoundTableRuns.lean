import LeooRexx.Foundation.Chain
import LeooRexx.Runtime.CompoundTableFind

/-!
# Runs of compound tables

The iteration visits the elements in postorder.  With `findEntry` this gives
what holds after every sequence of variables created and assigned.
-/

namespace LeooRexx

open LinkedTree

variable {ν : Type}

namespace CompoundTable

/-! ## first and next -/

theorem findLeaf_spec {t : CompoundTable ν} {sub : BinaryTree Nat} {up : Option Nat}
    {i fuel : Nat} (hl : Linked t.links up (some i) sub)
    (hfuel : (inorder sub).length ≤ fuel) :
    ∃ j, t.findLeaf fuel i = some j ∧ (postorder sub).head? = some j := by
  induction sub generalizing up i fuel with
  | nil => exact absurd hl (by simp [Linked])
  | node n l r ihl ihr =>
      obtain ⟨hi, -, hll, hlr⟩ := hl
      obtain rfl := Option.some.inj hi
      rw [inorder, List.length_append, List.length_cons] at hfuel
      cases fuel with
      | zero => exact absurd hfuel (by omega)
      | succ fuel =>
          have hleft : t.links.child .left i = (t.elements i).left := rfl
          have hright : t.links.child .right i = (t.elements i).right := rfl
          rw [hleft] at hll
          rw [hright] at hlr
          rw [findLeaf]
          cases hcl : (t.elements i).left with
          | some left =>
              rw [hcl] at hll
              have hlength : (inorder l).length ≤ fuel := by omega
              obtain ⟨j, hj, hhead⟩ := ihl hll hlength
              exact ⟨j, hj, by simp [postorder, List.head?_append, hhead]⟩
          | none =>
              rw [hcl] at hll
              obtain rfl : l = .nil := by
                cases l with
                | nil => rfl
                | node j l r => exact absurd hll.1 (by simp)
              cases hcr : (t.elements i).right with
              | some right =>
                  rw [hcr] at hlr
                  have hlength : (inorder r).length ≤ fuel := by omega
                  obtain ⟨j, hj, hhead⟩ := ihr hlr hlength
                  exact ⟨j, hj, by simp [postorder, List.head?_append, hhead]⟩
              | none =>
                  rw [hcr] at hlr
                  obtain rfl : r = .nil := by
                    cases r with
                    | nil => rfl
                    | node j l r => exact absurd hlr.1 (by simp)
                  exact ⟨i, rfl, rfl⟩

theorem next_spec {t : CompoundTable ν} {i : Nat} {up : Option Nat} {c : List (Frame Nat)}
    (hparent : (t.elements i).parent = up) (hc : Hole t.links (some i) up c)
    (hi : i ∉ around c) (hlength : (around c).length ≤ t.allocated) :
    t.next i = some (following c).head? := by
  cases c with
  | nil =>
      obtain ⟨-, rfl⟩ := hc
      simp [next, hparent, following]
  | cons f c =>
      have hright : (t.elements f.node).right = some i ↔ f.side = .right :=
        hc.child_eq_iff hi .right
      obtain ⟨rfl, -, hsibling, -⟩ := hc
      simp only [next, hparent]
      cases hs : f.side with
      | right => simp [hright.mpr hs, following, hs]
      | left =>
          rw [hs] at hsibling
          have hchild : t.links.child Side.left.other f.node = (t.elements f.node).right := rfl
          rw [hchild] at hsibling
          rw [if_neg (fun h => by simpa [hs] using hright.mp h)]
          cases hcr : (t.elements f.node).right with
          | none =>
              rw [hcr] at hsibling
              have hnil : f.sibling = .nil := by
                cases hf : f.sibling with
                | nil => rfl
                | node j l r =>
                    rw [hf] at hsibling
                    exact absurd hsibling.1 (by simp)
              simp [following, hs, hnil, postorder]
          | some right =>
              rw [hcr] at hsibling
              have hle : (inorder f.sibling).length ≤ t.allocated := by
                rw [(around_cons_perm f c).length_eq] at hlength
                simp only [List.length_cons, List.length_append] at hlength
                omega
              obtain ⟨j, hj, hhead⟩ := findLeaf_spec hsibling hle
              simp [following, hs, hj, List.head?_append, hhead]

/-- `next` as a link, for a table in which it always returns. -/
def successor (t : CompoundTable ν) (i : Nat) : Option Nat := (t.next i).getD none

theorem visits {t : CompoundTable ν} {sub : BinaryTree Nat} {top up : Option Nat}
    {c : List (Frame Nat)} (hl : Linked t.links up top sub) (hc : Hole t.links top up c)
    (hnodup : (inorder (plug sub c)).Nodup)
    (hlength : (inorder (plug sub c)).length ≤ t.allocated) :
    (∀ i ∈ inorder sub, t.next i = some (t.successor i)) ∧
      Chain.Segment t.successor (postorder sub ++ following c).head? (postorder sub)
        (following c).head? := by
  induction sub generalizing top up c with
  | nil => exact ⟨fun i hi => absurd hi (by simp [inorder]), rfl⟩
  | node i l r ihl ihr =>
      obtain ⟨rfl, hparent, hll, hlr⟩ := hl
      have hnext : t.next i = some (following c).head? := by
        rw [(inorder_plug_perm _ c).nodup_iff, List.nodup_append'] at hnodup
        rw [(inorder_plug_perm _ c).length_eq, List.length_append] at hlength
        exact next_spec hparent hc (fun hi => hnodup.2.2 (by simp [inorder]) hi) (by omega)
      have hsucc : t.successor i = (following c).head? := by
        rw [successor, hnext]
        rfl
      obtain rfl : t.links.parent i = up := hparent
      obtain ⟨hnl, hsl⟩ := ihl (c := ⟨.left, i, r⟩ :: c) hll ⟨rfl, rfl, hlr, hc⟩ hnodup hlength
      obtain ⟨hnr, hsr⟩ := ihr (c := ⟨.right, i, l⟩ :: c) hlr ⟨rfl, rfl, hll, hc⟩ hnodup hlength
      constructor
      · intro j hj
        rcases List.mem_append.mp hj with hj | hj
        · exact hnl j hj
        · rcases List.mem_cons.mp hj with rfl | hj
          · rw [hnext, hsucc]
          · exact hnr j hj
      · simp only [following, List.nil_append] at hsl hsr
        rw [postorder, Chain.segment_append, List.append_assoc, List.append_assoc,
          List.singleton_append]
        exact ⟨_, hsl, Chain.segment_concat.mpr ⟨hsr, hsucc⟩⟩

theorem Valid.visits {t : CompoundTable ν} {T : BinaryTree Nat} (hv : t.Valid T) :
    ∃ p, t.first = some p ∧ Chain.Segment t.successor p (postorder T) none ∧
      ∀ i ∈ postorder T, t.next i = some (t.successor i) := by
  obtain ⟨hnext, hsegment⟩ := CompoundTable.visits (c := []) hv.linked ⟨rfl, rfl⟩ hv.nodup
    hv.length_le
  rw [following, List.append_nil, List.head?_nil] at hsegment
  refine ⟨_, ?_, hsegment, fun i hi => hnext i (mem_postorder.mp hi)⟩
  have hlinked := hv.linked
  have hroot : t.links.root = t.root := rfl
  rw [hroot] at hlinked
  rw [first]
  cases hr : t.root with
  | none =>
      rw [hr] at hlinked
      cases T with
      | nil => rfl
      | node i l r => exact absurd hlinked.1 (by simp)
  | some i =>
      rw [hr] at hlinked
      obtain ⟨j, hj, hhead⟩ := findLeaf_spec hlinked hv.length_le
      simp [hj, hhead]

theorem iterateFrom_spec {t : CompoundTable ν} {l : List Nat} {p : Option Nat} {fuel : Nat}
    (hl : Chain.Segment t.successor p l none)
    (hnext : ∀ i ∈ l, t.next i = some (t.successor i)) (hfuel : l.length < fuel) :
    t.iterateFrom fuel p = some l := by
  induction l generalizing p fuel with
  | nil =>
      cases fuel with
      | zero => exact absurd hfuel (Nat.lt_irrefl 0)
      | succ fuel =>
          obtain rfl : p = none := hl
          rfl
  | cons i l ih =>
      cases fuel with
      | zero => exact absurd hfuel (Nat.not_lt_zero _)
      | succ fuel =>
          obtain ⟨rfl, hl⟩ := hl
          have hrest := ih hl (fun j hj => hnext j (List.mem_cons_of_mem i hj))
            (Nat.lt_of_succ_lt_succ hfuel)
          simp [iterateFrom, hnext i List.mem_cons_self, hrest]

theorem iterate_spec {t : CompoundTable ν} {T : BinaryTree Nat} (hv : t.Valid T) :
    t.iterate = some (postorder T) := by
  obtain ⟨p, hfirst, hsegment, hnext⟩ := hv.visits
  have hfuel : (postorder T).length < t.allocated + 1 := by
    rw [(postorder_perm T).length_eq]
    exact Nat.lt_succ_of_le hv.length_le
  simp [iterate, hfirst, iterateFrom_spec hsegment hnext hfuel]

/-! ## setValue -/

@[simp] theorem links_setValue (t : CompoundTable ν) (i : Nat) (value : Option ν) :
    (t.setValue i value).links = t.links := by
  apply Links.ext
  · funext s j
    simp only [links, setValue, elements_modify]
    split
    · cases s <;> rfl
    · rfl
  · funext j
    simp only [links, setValue, elements_modify]
    split <;> rfl
  · rfl

theorem name_setValue (t : CompoundTable ν) (i j : Nat) (value : Option ν) :
    ((t.setValue i value).elements j).variableName = (t.elements j).variableName := by
  simp only [setValue, elements_modify]
  split <;> rfl

theorem value_setValue (t : CompoundTable ν) (i j : Nat) (value : Option ν) :
    ((t.setValue i value).elements j).variableValue =
      if j = i then value else (t.elements j).variableValue := by
  simp only [setValue, elements_modify]
  split <;> rfl

theorem Valid.setValue {t : CompoundTable ν} {T : BinaryTree Nat} (hv : t.Valid T) (i : Nat)
    (value : Option ν) : (t.setValue i value).Valid T where
  linked := by
    rw [links_setValue]
    exact hv.linked
  sorted := hv.sorted.imp fun hij => by
    rw [Before, name_setValue, name_setValue]
    exact hij
  lt := hv.lt

/-! ## copy -/

def Maps (t : CompoundTable ν) (tail : List UInt8) (value : Option ν) : Prop :=
  ∃ i, t.findEntry tail false = some (t, some i) ∧ (t.elements i).variableValue = value

theorem maps_iff {t : CompoundTable ν} {T : BinaryTree Nat} (hv : t.Valid T)
    {tail : List UInt8} {value : Option ν} :
    t.Maps tail value ↔ ∃ i ∈ inorder T, (t.elements i).variableName = tail ∧
      (t.elements i).variableValue = value := by
  obtain ⟨r, hfind, hr⟩ := findEntry_false_spec hv tail
  constructor
  · rintro ⟨i, hi, hvalue⟩
    rw [hfind, Option.some.injEq, Prod.mk.injEq] at hi
    obtain ⟨hmem, hname⟩ := (hr i).mp hi.2
    exact ⟨i, hmem, hname, hvalue⟩
  · rintro ⟨i, hi, hname, hvalue⟩
    exact ⟨i, by rw [hfind, (hr i).mpr ⟨hi, hname⟩], hvalue⟩

theorem Inserted.maps_iff {t t' : CompoundTable ν} {T T' : BinaryTree Nat}
    {tail : List UInt8} {i : Nat} (h : Inserted t T t' T' tail i) (hv : t.Valid T)
    (hnew : ∀ value, ¬ t.Maps tail value) (value : Option ν) (tail' : List UInt8)
    (value' : Option ν) :
    (t'.setValue i value).Maps tail' value' ↔
      (tail = tail' ∧ value = value') ∨ t.Maps tail' value' := by
  have hnot : i ∉ inorder T := fun hi => hnew _
    ((CompoundTable.maps_iff hv).mpr ⟨i, hi, (h.name_of i hi).symm.trans h.name_self, rfl⟩)
  have hne : ∀ j ∈ inorder T, j ≠ i := fun j hj hji => hnot (hji ▸ hj)
  rw [CompoundTable.maps_iff (h.valid.setValue i value), CompoundTable.maps_iff hv]
  constructor
  · rintro ⟨j, hj, hname, hvalue⟩
    rw [name_setValue] at hname
    rw [value_setValue] at hvalue
    rcases (h.mem j).mp hj with rfl | hj
    · rw [if_pos rfl] at hvalue
      exact .inl ⟨h.name_self.symm.trans hname, hvalue⟩
    · rw [if_neg (hne j hj), h.value_of j hj] at hvalue
      exact .inr ⟨j, hj, (h.name_of j hj).symm.trans hname, hvalue⟩
  · rintro (⟨rfl, rfl⟩ | ⟨j, hj, hname, hvalue⟩)
    · refine ⟨i, (h.mem i).mpr (.inl rfl), ?_, ?_⟩
      · rw [name_setValue, h.name_self]
      · rw [value_setValue, if_pos rfl]
    · refine ⟨j, (h.mem j).mpr (.inr hj), ?_, ?_⟩
      · rw [name_setValue, h.name_of j hj, hname]
      · rw [value_setValue, if_neg (hne j hj), h.value_of j hj, hvalue]

theorem copyFrom_spec {old t : CompoundTable ν} {T : BinaryTree Nat} {l : List Nat}
    {p : Option Nat} {fuel : Nat} (hl : Chain.Segment old.successor p l none)
    (hnext : ∀ i ∈ l, old.next i = some (old.successor i)) (hfuel : l.length < fuel)
    (hv : t.Valid T) (hnames : (l.map fun i => (old.elements i).variableName).Nodup)
    (hnew : ∀ i ∈ l, ∀ value, ¬ t.Maps (old.elements i).variableName value) :
    ∃ t' T', old.copyFrom fuel t p = some t' ∧ t'.Valid T' ∧
      ∀ tail value, t'.Maps tail value ↔ t.Maps tail value ∨
        ∃ i ∈ l, (old.elements i).variableName = tail ∧
          (old.elements i).variableValue = value := by
  induction l generalizing p fuel t T with
  | nil =>
      cases fuel with
      | zero => exact absurd hfuel (Nat.lt_irrefl 0)
      | succ fuel =>
          obtain rfl : p = none := hl
          exact ⟨t, T, rfl, hv, by simp⟩
  | cons i l ih =>
      cases fuel with
      | zero => exact absurd hfuel (Nat.not_lt_zero _)
      | succ fuel =>
          obtain ⟨rfl, hl⟩ := hl
          rw [List.map_cons, List.nodup_cons] at hnames
          obtain ⟨hname, hnames⟩ := hnames
          obtain ⟨u, U, j, hfind, hinserted⟩ :=
            findEntry_true_spec hv (old.elements i).variableName
          have hmaps := hinserted.maps_iff hv (hnew i List.mem_cons_self)
            (old.elements i).variableValue
          have hnew' : ∀ k ∈ l, ∀ value,
              ¬ (u.setValue j (old.elements i).variableValue).Maps
                (old.elements k).variableName value := by
            intro k hk value hmap
            rcases (hmaps _ _).mp hmap with ⟨heq, -⟩ | hmap
            · exact hname (List.mem_map.mpr ⟨k, hk, heq.symm⟩)
            · exact hnew k (List.mem_cons_of_mem i hk) value hmap
          obtain ⟨t', T', hcopy, hv', hmaps'⟩ := ih hl
            (fun k hk => hnext k (List.mem_cons_of_mem i hk)) (Nat.lt_of_succ_lt_succ hfuel)
            (hinserted.valid.setValue j _) hnames hnew'
          refine ⟨t', T', ?_, hv', fun tail value => ?_⟩
          · simp [copyFrom, hfind, hnext i List.mem_cons_self, hcopy]
          · rw [hmaps', hmaps]
            simp only [List.mem_cons, exists_eq_or_imp]
            tauto

theorem init_valid : (init : CompoundTable ν).Valid .nil where
  linked := rfl
  sorted := List.Pairwise.nil
  lt := fun _ hi => absurd hi (by simp [inorder])

theorem copy_spec {t : CompoundTable ν} {T : BinaryTree Nat} (hv : t.Valid T) :
    ∃ t' T', t.copy = some t' ∧ t'.Valid T' ∧
      ∀ tail value, t'.Maps tail value ↔ t.Maps tail value := by
  obtain ⟨p, hfirst, hsegment, hnext⟩ := hv.visits
  have hfuel : (postorder T).length < t.allocated + 1 := by
    rw [(postorder_perm T).length_eq]
    exact Nat.lt_succ_of_le hv.length_le
  have hnames : ((postorder T).map fun i => (t.elements i).variableName).Nodup :=
    ((postorder_perm T).map _).nodup_iff.mpr hv.nodup_names
  have hempty : ∀ tail value, ¬ (init : CompoundTable ν).Maps tail value := by
    intro tail value hmap
    obtain ⟨i, hi, -⟩ := (maps_iff init_valid).mp hmap
    exact absurd hi (by simp [inorder])
  obtain ⟨t', T', hcopy, hv', hmaps⟩ := copyFrom_spec hsegment hnext hfuel init_valid hnames
    fun i _ value => hempty _ value
  refine ⟨t', T', by simp [copy, hfirst, hcopy], hv', fun tail value => ?_⟩
  rw [hmaps, maps_iff hv]
  simp [hempty, mem_postorder]

/-! ## Runs -/

inductive CompoundOp (ν : Type) where
  | findEntry (tail : List UInt8)
  | setValue (tail : List UInt8) (value : Option ν)

def CompoundOp.tail : CompoundOp ν → List UInt8
  | .findEntry tail => tail
  | .setValue tail _ => tail

def step (t : CompoundTable ν) (op : CompoundOp ν) : Option (CompoundTable ν × Nat) := do
  let (t, entry) ← t.findEntry op.tail true
  let entry ← entry
  match op with
  | .findEntry _ => some (t, entry)
  | .setValue _ value => some (t.setValue entry value, entry)

def run (t : CompoundTable ν) :
    List (CompoundOp ν) → Option (CompoundTable ν × List Nat)
  | [] => some (t, [])
  | op :: ops => do
      let (t, entry) ← t.step op
      let (t, entries) ← t.run ops
      some (t, entry :: entries)

theorem step_spec {t : CompoundTable ν} {T : BinaryTree Nat} (hv : t.Valid T)
    (op : CompoundOp ν) :
    ∃ t' T' i, t.step op = some (t', i) ∧ t'.Valid T' ∧
      (∀ j, j ∈ inorder T' ↔ j = i ∨ j ∈ inorder T) ∧
      (t'.elements i).variableName = op.tail ∧
      ∀ j ∈ inorder T, (t'.elements j).variableName = (t.elements j).variableName := by
  obtain ⟨u, U, i, hfind, h⟩ := findEntry_true_spec hv op.tail
  cases op with
  | findEntry tail =>
      exact ⟨u, U, i, by simp [step, hfind], h.valid, h.mem, h.name_self, h.name_of⟩
  | setValue tail value =>
      refine ⟨u.setValue i value, U, i, by simp [step, hfind], h.valid.setValue i value, h.mem,
        ?_, fun j hj => ?_⟩
      · rw [name_setValue, h.name_self]
      · rw [name_setValue, h.name_of j hj]

theorem run_spec {t : CompoundTable ν} {T : BinaryTree Nat} (hv : t.Valid T)
    (ops : List (CompoundOp ν)) :
    ∃ t' T' entries, t.run ops = some (t', entries) ∧ t'.Valid T' ∧
      entries.length = ops.length ∧
      (∀ j ∈ inorder T, j ∈ inorder T' ∧
        (t'.elements j).variableName = (t.elements j).variableName) ∧
      (∀ tail i, (tail, i) ∈ (ops.map CompoundOp.tail).zip entries →
        i ∈ inorder T' ∧ (t'.elements i).variableName = tail) ∧
      ∀ j ∈ inorder T', j ∈ inorder T ∨
        ((t'.elements j).variableName, j) ∈ (ops.map CompoundOp.tail).zip entries := by
  induction ops generalizing t T with
  | nil => exact ⟨t, T, [], rfl, hv, rfl, fun j hj => ⟨hj, rfl⟩, by simp, fun _ hj => .inl hj⟩
  | cons op ops ih =>
      obtain ⟨u, U, i, hstep, hv', hmem, hself, hname⟩ := step_spec hv op
      obtain ⟨t', T', entries, hrun, hv'', hlength, hkeep, hzip, hall⟩ := ih hv'
      obtain ⟨hi, hnamei⟩ := hkeep i ((hmem i).mpr (.inl rfl))
      refine ⟨t', T', i :: entries, by simp [run, hstep, hrun], hv'', by simp [hlength], ?_,
        ?_, ?_⟩
      · intro j hj
        obtain ⟨hj', hnamej⟩ := hkeep j ((hmem j).mpr (.inr hj))
        exact ⟨hj', hnamej.trans (hname j hj)⟩
      · intro tail j hj
        rw [List.map_cons, List.zip_cons_cons, List.mem_cons, Prod.mk.injEq] at hj
        rcases hj with ⟨rfl, rfl⟩ | hj
        · exact ⟨hi, hnamei.trans hself⟩
        · exact hzip tail j hj
      · intro j hj
        rw [List.map_cons, List.zip_cons_cons, List.mem_cons]
        rcases hall j hj with hj | hj
        · rcases (hmem j).mp hj with rfl | hj
          · exact .inr (.inl (by rw [hnamei, hself]))
          · exact .inl hj
        · exact .inr (.inr hj)

/--
After every run from an empty table: the elements are linked as an ordered tree,
`findEntry` finds the element that was returned for a tail and nothing else, the
iteration visits every element once, and a copy has the same variables.
-/
theorem run_tree (ops : List (CompoundOp ν)) :
    ∃ t entries T, (init : CompoundTable ν).run ops = some (t, entries) ∧
      entries.length = ops.length ∧
      Linked t.links none t.root T ∧ (inorder T).Nodup ∧ Ordered t.Before T ∧
      (∀ tail, ∃ r, t.findEntry tail false = some (t, r) ∧
        ∀ i, r = some i ↔ (tail, i) ∈ (ops.map CompoundOp.tail).zip entries) ∧
      (∃ l, t.iterate = some l ∧ l.Nodup ∧ ∀ i, i ∈ l ↔ i ∈ inorder T) ∧
      ∃ t', t.copy = some t' ∧ ∀ tail value, t'.Maps tail value ↔ t.Maps tail value := by
  obtain ⟨t, T, entries, hrun, hv, hlength, -, hzip, hall⟩ := run_spec (T := .nil) init_valid ops
  refine ⟨t, entries, T, hrun, hlength, hv.linked, hv.nodup, hv.ordered, ?_, ?_, ?_⟩
  · intro tail
    obtain ⟨r, hfind, hr⟩ := findEntry_false_spec hv tail
    refine ⟨r, hfind, fun i => (hr i).trans ⟨?_, fun hi => hzip tail i hi⟩⟩
    rintro ⟨hi, rfl⟩
    exact (hall i hi).resolve_left (by simp [inorder])
  · exact ⟨postorder T, iterate_spec hv, (postorder_perm T).nodup_iff.mpr hv.nodup,
      fun _ => mem_postorder⟩
  · obtain ⟨t', -, hcopy, -, hmaps⟩ := copy_spec hv
    exact ⟨t', hcopy, hmaps⟩

end CompoundTable

end LeooRexx
