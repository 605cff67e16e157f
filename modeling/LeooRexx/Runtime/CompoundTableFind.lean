import LeooRexx.Runtime.CompoundTableTree

/-!
# findEntry

The search leads to the element of a tail or to the place where it belongs.  A
new element goes there, so the table stays an ordered tree.
-/

namespace LeooRexx

open LinkedTree

variable {ν : Type}

namespace CompoundTable

def Leads (top previous : Option Nat) (rc : Int) : List (Frame Nat) → Prop
  | [] => previous = top
  | f :: _ => previous = some f.node ∧ (rc > 0 ↔ f.side = .right)

structure Placed (t : CompoundTable ν) (tail : List UInt8) (c : List (Frame Nat)) : Prop where
  before : ∀ i ∈ before c, CompoundTail.Precedes (t.elements i).variableName tail
  after : ∀ i ∈ after c, CompoundTail.Precedes tail (t.elements i).variableName

theorem findLoop_spec {t : CompoundTable ν} {tail : List UInt8} {sub : BinaryTree Nat}
    {top up previous : Option Nat} {rc : Int} {c : List (Frame Nat)} {fuel : Nat}
    (hl : Linked t.links up top sub) (hc : Hole t.links top up c)
    (hsorted : (inorder sub).Pairwise t.Before) (hplaced : t.Placed tail c)
    (hleads : Leads top previous rc c) (hfuel : (inorder sub).length < fuel) :
    (∃ i p r, t.findLoop tail fuel top previous rc = some (some i, p, r) ∧
      i ∈ inorder sub ∧ (t.elements i).variableName = tail) ∨
    (∃ c' up' p r, t.findLoop tail fuel top previous rc = some (none, p, r) ∧
      plug .nil c' = plug sub c ∧ Hole t.links none up' c' ∧ t.Placed tail c' ∧
      Leads none p r c') := by
  induction sub generalizing top up previous rc c fuel with
  | nil =>
      obtain rfl : top = none := hl
      cases fuel with
      | zero => exact absurd hfuel (Nat.not_lt_zero _)
      | succ fuel => exact .inr ⟨c, up, previous, rc, rfl, rfl, hc, hplaced, hleads⟩
  | node i l r ihl ihr =>
      obtain ⟨rfl, rfl, hll, hlr⟩ := hl
      cases fuel with
      | zero => exact absurd hfuel (Nat.not_lt_zero _)
      | succ fuel =>
          rw [inorder, List.pairwise_append, List.pairwise_cons] at hsorted
          obtain ⟨hsl, ⟨hir, hsr⟩, hcross⟩ := hsorted
          rw [inorder, List.length_append, List.length_cons] at hfuel
          rw [findLoop]
          split
          · case isTrue hgt =>
            have hi := CompoundTail.compare_gt_zero.mp hgt
            have hplaced' : t.Placed tail (⟨.right, i, l⟩ :: c) := by
              constructor
              · intro j hj
                simp only [before, List.mem_append, List.mem_singleton] at hj
                rcases hj with hj | hj | rfl
                · exact hplaced.before j hj
                · exact (hcross j hj i List.mem_cons_self).trans hi
                · exact hi
              · exact fun j hj => hplaced.after j (by simpa [after] using hj)
            have hlength : (inorder r).length < fuel := by omega
            rcases ihr (c := ⟨.right, i, l⟩ :: c) hlr ⟨rfl, rfl, hll, hc⟩ hsr hplaced'
              ⟨rfl, by simpa using hgt⟩ hlength with ⟨j, p, q, hloop, hj, hname⟩ | hmissing
            · exact .inl ⟨j, p, q, hloop, by simp [inorder, hj], hname⟩
            · exact .inr hmissing
          · case isFalse hgt =>
            split
            · case isTrue hlt =>
              have hi := CompoundTail.compare_lt_zero.mp hlt
              have hplaced' : t.Placed tail (⟨.left, i, r⟩ :: c) := by
                constructor
                · exact fun j hj => hplaced.before j (by simpa [before] using hj)
                · intro j hj
                  simp only [after, List.mem_append, List.mem_cons] at hj
                  rcases hj with (rfl | hj) | hj
                  · exact hi
                  · exact hi.trans (hir j hj)
                  · exact hplaced.after j hj
              have hlength : (inorder l).length < fuel := by omega
              rcases ihl (c := ⟨.left, i, r⟩ :: c) hll ⟨rfl, rfl, hlr, hc⟩ hsl hplaced'
                ⟨rfl, by simpa using hgt⟩ hlength with ⟨j, p, q, hloop, hj, hname⟩ | hmissing
              · exact .inl ⟨j, p, q, hloop, by simp [inorder, hj], hname⟩
              · exact .inr hmissing
            · case isFalse hlt =>
              have heq : CompoundTail.compare tail (t.elements i).variableName = 0 := by
                omega
              exact .inl ⟨i, previous, _, rfl, by simp [inorder],
                (CompoundTail.compare_eq_zero.mp heq).symm⟩

theorem Valid.search {t : CompoundTable ν} {T : BinaryTree Nat} (h : t.Valid T)
    (tail : List UInt8) :
    (∃ i p r, t.findLoop tail (t.allocated + 1) t.root t.root 0 = some (some i, p, r) ∧
      i ∈ inorder T ∧ (t.elements i).variableName = tail) ∨
    (∃ c up p r, t.findLoop tail (t.allocated + 1) t.root t.root 0 = some (none, p, r) ∧
      plug .nil c = T ∧ Hole t.links none up c ∧ t.Placed tail c ∧ Leads none p r c) :=
  findLoop_spec (c := []) h.linked ⟨rfl, rfl⟩ h.sorted
    ⟨fun _ hi => absurd hi (by simp [before]), fun _ hi => absurd hi (by simp [after])⟩ rfl
    (Nat.lt_succ_of_le h.length_le)

theorem findEntry_false_spec {t : CompoundTable ν} {T : BinaryTree Nat} (h : t.Valid T)
    (tail : List UInt8) :
    ∃ r, t.findEntry tail false = some (t, r) ∧
      ∀ i, r = some i ↔ i ∈ inorder T ∧ (t.elements i).variableName = tail := by
  rcases h.search tail with ⟨i, p, r, hloop, hi, hname⟩ | ⟨c, up, p, r, hloop, rfl, -, hc, -⟩
  · refine ⟨some i, by simp [findEntry, hloop], fun j => ?_⟩
    constructor
    · rintro ⟨⟩
      exact ⟨hi, hname⟩
    · rintro ⟨hj, hnamej⟩
      rw [h.name_inj hi hj (hname.trans hnamej.symm)]
  · refine ⟨none, by simp [findEntry, hloop], fun j => ?_⟩
    refine ⟨fun hj => absurd hj (by simp), ?_⟩
    rintro ⟨hj, rfl⟩
    rw [inorder_plug] at hj
    simp only [inorder, List.append_nil, List.mem_append] at hj
    rcases hj with hj | hj
    · exact absurd rfl (hc.before j hj).ne
    · exact absurd rfl (hc.after j hj).ne

/--
The table `t'` has the elements of `t`, and the element `i` with the tail, which
may have been there before.
-/
structure Inserted (t : CompoundTable ν) (T : BinaryTree Nat) (t' : CompoundTable ν)
    (T' : BinaryTree Nat) (tail : List UInt8) (i : Nat) : Prop where
  valid : t'.Valid T'
  mem : ∀ j, j ∈ inorder T' ↔ j = i ∨ j ∈ inorder T
  name_self : (t'.elements i).variableName = tail
  name_of : ∀ j ∈ inorder T, (t'.elements j).variableName = (t.elements j).variableName
  value_of : ∀ j ∈ inorder T, (t'.elements j).variableValue = (t.elements j).variableValue

theorem newCompoundElement_spec (t : CompoundTable ν) (tail : List UInt8) :
    (t.newCompoundElement tail).2 = t.allocated ∧
      (t.newCompoundElement tail).1.allocated = t.allocated + 1 ∧
      (∀ i ≠ t.allocated, (t.newCompoundElement tail).1.elements i = t.elements i) ∧
      (∀ s, (t.newCompoundElement tail).1.links.child s t.allocated = none) ∧
      ((t.newCompoundElement tail).1.elements t.allocated).variableName = tail := by
  refine ⟨rfl, rfl, fun i hi => ?_, fun s => ?_, ?_⟩
  · simp [newCompoundElement, modify, hi]
  · cases s <;> simp [newCompoundElement, modify, links, CompoundElement.child]
  · simp [newCompoundElement, modify]

theorem sorted_insert {t t' : CompoundTable ν} {tail : List UInt8} {c : List (Frame Nat)}
    {i : Nat} (hv : t.Valid (plug .nil c)) (hc : t.Placed tail c)
    (hself : (t'.elements i).variableName = tail)
    (hname : ∀ j ∈ inorder (plug .nil c),
      (t'.elements j).variableName = (t.elements j).variableName) :
    (inorder (plug (.node i .nil .nil) c)).Pairwise t'.Before := by
  have hsorted := hv.sorted
  rw [inorder_plug] at hsorted hname ⊢
  simp only [inorder, List.append_nil, List.nil_append, List.append_assoc,
    List.singleton_append] at hsorted hname ⊢
  rw [List.pairwise_append] at hsorted ⊢
  obtain ⟨hb, ha, hcross⟩ := hsorted
  have hbefore : ∀ j k, j ∈ before c ++ after c → k ∈ before c ++ after c →
      t.Before j k → t'.Before j k := by
    intro j k hj hk hjk
    rw [Before, hname j hj, hname k hk]
    exact hjk
  have hmemb : ∀ j ∈ before c, j ∈ before c ++ after c := fun j hj =>
    List.mem_append_left _ hj
  have hmema : ∀ j ∈ after c, j ∈ before c ++ after c := fun j hj =>
    List.mem_append_right _ hj
  refine ⟨?_, List.pairwise_cons.mpr ⟨fun j hj => ?_, ?_⟩, fun j hj k hk => ?_⟩
  · exact hb.imp_of_mem fun hj hk => hbefore _ _ (hmemb _ hj) (hmemb _ hk)
  · rw [Before, hself, hname j (hmema j hj)]
    exact hc.after j hj
  · exact ha.imp_of_mem fun hj hk => hbefore _ _ (hmema _ hj) (hmema _ hk)
  · rcases List.mem_cons.mp hk with rfl | hk
    · rw [Before, hself, hname j (hmemb j hj)]
      exact hc.before j hj
    · exact hbefore j k (hmemb j hj) (hmema k hk) (hcross j hj k hk)

theorem leaf_spec {t u : CompoundTable ν} {tail : List UInt8} {f : Frame Nat}
    {c : List (Frame Nat)} {up : Option Nat} (hv : t.Valid (plug .nil (f :: c)))
    (hhole : Hole t.links none up (f :: c))
    (hu : u = (((t.newCompoundElement tail).1.setParent t.allocated (some f.node)).setChild
      f.side f.node (some t.allocated))) :
    Linked u.links (some f.node) (some t.allocated) (.node t.allocated .nil .nil) ∧
      Hole u.links (some t.allocated) (some f.node) (f :: c) ∧
      u.allocated = t.allocated + 1 ∧ u.root = t.root ∧
      (u.elements t.allocated).variableName = tail ∧
      ∀ j ∈ inorder (plug .nil (f :: c)),
        (u.elements j).variableName = (t.elements j).variableName ∧
        (u.elements j).variableValue = (t.elements j).variableValue := by
  obtain ⟨-, hallocated, hother, hchild, hname⟩ := t.newCompoundElement_spec tail
  have hsame : SameEntries (t.newCompoundElement tail).1 u := by
    rw [hu]
    exact ((SameEntries.refl _).setParent ..).setChild ..
  have hround := (inorder_plug_perm .nil (f :: c)).nodup_iff.mp hv.nodup
  have hmem : ∀ j, j ∈ inorder (plug .nil (f :: c)) ↔ j ∈ around (f :: c) := fun j => by
    rw [(inorder_plug_perm .nil (f :: c)).mem_iff]
    rfl
  have hne : ∀ j ∈ inorder (plug .nil (f :: c)), j ≠ t.allocated := fun j hj =>
    Nat.ne_of_lt (hv.lt j hj)
  have hnew : t.allocated ∉ around (f :: c) := fun hi => hne _ ((hmem _).mpr hi) rfl
  have hhole' : Hole (t.newCompoundElement tail).1.links none up (f :: c) := by
    refine hhole.congr rfl fun j hj => ?_
    have helement := hother j (hne j ((hmem j).mpr hj))
    simp only [links, helement, implies_true, and_self]
  obtain rfl : up = some f.node := hhole.1
  obtain ⟨hlinked, hleaf⟩ := hhole'.leaf hround hnew hchild
  have hlinks : u.links = ((t.newCompoundElement tail).1.links.setParent t.allocated
      (some f.node)).setChild f.side f.node (some t.allocated) := by
    rw [hu, links_setChild, links_setParent]
  refine ⟨hlinks ▸ hlinked, hlinks ▸ hleaf, hsame.allocated.trans hallocated, ?_,
    (hsame.name _).trans hname, fun j hj => ?_⟩
  · have hroot := congrArg Links.root hlinks
    exact hroot
  · rw [hsame.name, hsame.value, hother j (hne j hj)]
    exact ⟨rfl, rfl⟩

theorem findEntry_missing {t u : CompoundTable ν} {tail : List UInt8} {f : Frame Nat}
    {c : List (Frame Nat)} {up : Option Nat} {r : Int} (hv : t.Valid (plug .nil (f :: c)))
    (hhole : Hole t.links none up (f :: c)) (hside : r > 0 ↔ f.side = .right)
    (hloop : t.findLoop tail (t.allocated + 1) t.root t.root 0 = some (none, some f.node, r))
    (hu : u = (((t.newCompoundElement tail).1.setParent t.allocated (some f.node)).setChild
      f.side f.node (some t.allocated))) :
    t.findEntry tail true = (u.balanceLoop (u.allocated + 1) t.allocated (some f.node) 1).map
      fun t' => (t', some t.allocated) := by
  obtain ⟨hlinked, -, -, hroot, -⟩ := leaf_spec hv hhole hu
  have hnotroot : ¬ some t.allocated = u.root := by
    rw [hroot]
    intro h
    have hlink := hv.linked
    have htop : t.links.root = some t.allocated := h.symm
    rw [htop] at hlink
    exact absurd (hv.lt _ hlink.top_mem) (Nat.lt_irrefl _)
  have hparent : (u.elements t.allocated).parent = some f.node := hlinked.2.1
  have hset : (if r > 0 then
      ((t.newCompoundElement tail).1.setParent t.allocated (some f.node)).setChild
        .right f.node (some t.allocated)
      else ((t.newCompoundElement tail).1.setParent t.allocated
        (some f.node)).setChild .left f.node (some t.allocated)) = u := by
    rw [hu]
    cases hs : f.side with
    | left => rw [if_neg (fun h => by simpa [hs] using hside.mp h)]
    | right => rw [if_pos (hside.mpr hs)]
  have hsnd : (t.newCompoundElement tail).2 = t.allocated := rfl
  simp only [findEntry, hloop, hsnd, hset, balance, hnotroot, hparent, Option.bind_eq_bind,
    Option.bind_some, Bool.not_true, Bool.false_eq_true, if_false]
  cases u.balanceLoop (u.allocated + 1) t.allocated (some f.node) 1 <;> rfl

theorem findEntry_true_spec {t : CompoundTable ν} {T : BinaryTree Nat} (hv : t.Valid T)
    (tail : List UInt8) :
    ∃ t' T' i, t.findEntry tail true = some (t', some i) ∧ Inserted t T t' T' tail i := by
  rcases hv.search tail with ⟨i, p, r, hloop, hi, hname⟩ |
    ⟨c, up, p, r, hloop, rfl, hhole, hplaced, hleads⟩
  · refine ⟨t, T, i, by simp [findEntry, hloop], hv, fun j => ?_, hname, fun _ _ => rfl,
      fun _ _ => rfl⟩
    exact ⟨.inr, fun h => h.elim (fun hj => hj ▸ hi) id⟩
  · cases c with
    | nil =>
        obtain rfl : p = none := hleads
        have hsnd : (t.newCompoundElement tail).2 = t.allocated := rfl
        refine ⟨((t.newCompoundElement tail).1.setParent t.allocated none).setRoot
          (some t.allocated), .node t.allocated .nil .nil, t.allocated,
          by simp [findEntry, hloop, hsnd], ⟨?_, List.pairwise_singleton .., ?_⟩,
          by simp [inorder, plug], ?_, ?_, ?_⟩
        · simp [Linked, links, setRoot, setParent, modify, newCompoundElement,
            CompoundElement.child]
        · simp [inorder, setRoot, setParent, modify, newCompoundElement]
        · simp [setRoot, setParent, modify, newCompoundElement]
        · exact fun j hj => absurd hj (by simp [plug, inorder])
        · exact fun j hj => absurd hj (by simp [plug, inorder])
    | cons f c =>
        obtain ⟨rfl, hside⟩ := hleads
        obtain ⟨u, hu⟩ : ∃ u, u = (((t.newCompoundElement tail).1.setParent t.allocated
          (some f.node)).setChild f.side f.node (some t.allocated)) := ⟨_, rfl⟩
        obtain ⟨hlinked, hleaf, hallocated, -, hname, hold⟩ := leaf_spec hv hhole hu
        have hmem : ∀ j, j ∈ inorder (plug (.node t.allocated .nil .nil) (f :: c)) ↔
            j = t.allocated ∨ j ∈ inorder (plug .nil (f :: c)) := by
          intro j
          simp only [inorder_plug, inorder, List.mem_append, List.mem_cons, List.not_mem_nil]
          tauto
        have hsorted := sorted_insert hv hplaced hname fun j hj => (hold j hj).1
        have hnodup : (inorder (plug (.node t.allocated .nil .nil) (f :: c))).Nodup := by
          refine hsorted.imp ?_
          rintro i j hij rfl
          exact CompoundTail.Precedes.ne hij rfl
        have hlength : (f :: c).length < u.allocated + 1 := by
          have hle := hv.length_le
          rw [(inorder_plug_perm .nil (f :: c)).length_eq] at hle
          have hc := length_le_around (f :: c)
          simp only [inorder, List.nil_append] at hle
          omega
        obtain ⟨t', T', hbalance, hT', hinorder, hsame⟩ :=
          balanceLoop_spec 1 hlinked hleaf hnodup hlength
        have hmem' : ∀ j, j ∈ inorder T' ↔ j = t.allocated ∨
            j ∈ inorder (plug .nil (f :: c)) := fun j => by rw [hinorder, hmem]
        refine ⟨t', T', t.allocated, ?_, ⟨hT', ?_, ?_⟩, hmem', (hsame.name _).trans hname,
          fun j hj => (hsame.name j).trans (hold j hj).1,
          fun j hj => (hsame.value j).trans (hold j hj).2⟩
        · rw [findEntry_missing hv hhole hside hloop hu, hbalance]
          rfl
        · rw [hinorder]
          exact hsorted.imp fun hij => (hsame.before _ _).mpr hij
        · intro j hj
          rw [hsame.allocated, hallocated]
          rcases (hmem' j).mp hj with rfl | hj
          · exact Nat.lt_succ_self _
          · exact Nat.lt_succ_of_lt (hv.lt j hj)

end CompoundTable

end LeooRexx
