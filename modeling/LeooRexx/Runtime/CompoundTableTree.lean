import Mathlib.Data.List.Perm.Subperm
import Mathlib.Data.List.Range
import LeooRexx.Runtime.CompoundTable

/-!
# Compound tables as linked search trees

The links of a table form a binary tree whose nodes are in the order of their
tails.  A rotation of `moveNode` and the climb of `balance` keep the nodes and
their order, and an insertion puts its element where its tail belongs.
-/

namespace LeooRexx

open LinkedTree

variable {ν : Type}

namespace CompoundTable

def links (t : CompoundTable ν) : Links Nat :=
  ⟨fun side i => (t.elements i).child side, fun i => (t.elements i).parent, t.root⟩

structure SameEntries (t t' : CompoundTable ν) : Prop where
  allocated : t'.allocated = t.allocated
  name : ∀ i, (t'.elements i).variableName = (t.elements i).variableName
  value : ∀ i, (t'.elements i).variableValue = (t.elements i).variableValue

theorem SameEntries.refl (t : CompoundTable ν) : SameEntries t t :=
  ⟨rfl, fun _ => rfl, fun _ => rfl⟩

theorem SameEntries.trans {t t' t'' : CompoundTable ν} (h : SameEntries t t')
    (h' : SameEntries t' t'') : SameEntries t t'' :=
  ⟨h'.allocated.trans h.allocated, fun i => (h'.name i).trans (h.name i),
    fun i => (h'.value i).trans (h.value i)⟩

theorem elements_modify (t : CompoundTable ν) (i j : Nat)
    (f : CompoundElement ν → CompoundElement ν) :
    (t.modify i f).elements j = if j = i then f (t.elements j) else t.elements j := by
  by_cases h : j = i
  · subst h
    simp [modify]
  · simp [modify, h]

theorem sameEntries_modify (t : CompoundTable ν) (i : Nat)
    {f : CompoundElement ν → CompoundElement ν}
    (hname : ∀ e, (f e).variableName = e.variableName)
    (hvalue : ∀ e, (f e).variableValue = e.variableValue) : SameEntries t (t.modify i f) := by
  refine ⟨rfl, fun j => ?_, fun j => ?_⟩
  · rw [elements_modify]
    split
    · exact hname _
    · rfl
  · rw [elements_modify]
    split
    · exact hvalue _
    · rfl

section

variable {t u : CompoundTable ν} (h : SameEntries t u)

include h

theorem SameEntries.setParent (i : Nat) (parent : Option Nat) :
    SameEntries t (u.setParent i parent) :=
  h.trans (u.sameEntries_modify i (fun _ => rfl) (fun _ => rfl))

theorem SameEntries.setChild (side : Side) (i : Nat) (child : Option Nat) :
    SameEntries t (u.setChild side i child) := by
  cases side <;> exact h.trans (u.sameEntries_modify i (fun _ => rfl) (fun _ => rfl))

theorem SameEntries.setDepth (side : Side) (i : Nat) (depth : UInt16) :
    SameEntries t (u.setDepth side i depth) := by
  cases side <;> exact h.trans (u.sameEntries_modify i (fun _ => rfl) (fun _ => rfl))

theorem SameEntries.setRoot (root : Option Nat) : SameEntries t (u.setRoot root) :=
  h.trans ⟨rfl, fun _ => rfl, fun _ => rfl⟩

theorem SameEntries.replaceChild (work2 : Option Nat) (temp work : Nat) :
    SameEntries t (u.replaceChild work2 temp work) := by
  cases work2 with
  | none => exact h.setRoot _
  | some work2 =>
      rw [CompoundTable.replaceChild]
      split
      · exact h.setChild ..
      · exact h.setChild ..

end

@[simp] theorem links_setParent (t : CompoundTable ν) (i : Nat) (parent : Option Nat) :
    (t.setParent i parent).links = t.links.setParent i parent := by
  apply Links.ext
  · funext s j
    simp only [links, setParent, elements_modify]
    split <;> rfl
  · funext j
    simp only [links, setParent, elements_modify, Links.parent_setParent]
    split <;> rfl
  · rfl

@[simp] theorem links_setChild (t : CompoundTable ν) (side : Side) (i : Nat)
    (child : Option Nat) :
    (t.setChild side i child).links = t.links.setChild side i child := by
  apply Links.ext
  · funext s j
    simp only [links, setChild, elements_modify, Links.child_setChild]
    by_cases h : j = i
    · cases s <;> cases side <;> simp [h, CompoundElement.child]
    · simp [h]
  · funext j
    simp only [links, setChild, elements_modify]
    cases side <;> (split <;> rfl)
  · rfl

@[simp] theorem links_setDepth (t : CompoundTable ν) (side : Side) (i : Nat)
    (depth : UInt16) : (t.setDepth side i depth).links = t.links := by
  apply Links.ext
  · funext s j
    simp only [links, setDepth, elements_modify]
    split
    · cases s <;> cases side <;> rfl
    · rfl
  · funext j
    simp only [links, setDepth, elements_modify]
    cases side <;> (split <;> rfl)
  · rfl

@[simp] theorem links_setRoot (t : CompoundTable ν) (root : Option Nat) :
    (t.setRoot root).links = t.links.setRoot root := rfl

/-! ## moveNode -/

theorem links_replaceChild (t : CompoundTable ν) (work2 : Option Nat) (temp work : Nat) :
    (t.replaceChild work2 temp work).links = t.links.replace work2 temp (some work) := by
  cases work2 with
  | none => rfl
  | some work2 =>
      rw [replaceChild, Links.replace]
      have hleft : t.links.child .left work2 = (t.elements work2).left := rfl
      rw [hleft]
      split
      · exact t.links_setChild ..
      · exact t.links_setChild ..

theorem moveNode_spec {t : CompoundTable ν} {temp work : Nat} {side : Side}
    (hwork : t.links.child side temp = some work) (hne : temp ≠ work)
    (hinner : t.links.child side.other work ≠ some temp) :
    ∃ t', t.moveNode temp (side = .left) = some (t', work) ∧
      t'.links = t.links.rotate side temp work ∧ SameEntries t t' := by
  have hside : (if decide (side = .left) then Side.left else Side.right) = side := by
    cases side <;> rfl
  have hchild : (t.elements temp).child side = some work := hwork
  have hparent : ∀ (t : CompoundTable ν) i, (t.elements i).parent = t.links.parent i :=
    fun _ _ => rfl
  have hset : ∀ (k : Links Nat) s i v, (k.setChild s i v).parent = k.parent :=
    fun _ _ _ _ => rfl
  unfold moveNode
  simp only [hside, hchild, Option.bind_eq_bind, Option.bind_some]
  cases hm : (t.elements work).child side.other with
  | none =>
      refine ⟨_, rfl, ?_, ?_⟩
      · rw [links_replaceChild]
        have hm' : t.links.child side.other work = none := hm
        simp [Links.rotate, Links.turn, hm', hparent, hset, Links.parent_setParent, hne]
      · exact ((((((SameEntries.refl t).setChild ..).setDepth ..).setChild ..).setDepth
          ..).setParent ..).setParent .. |>.replaceChild ..
  | some w =>
      have hm' : t.links.child side.other work = some w := hm
      have hw : temp ≠ w := fun htw => hinner (hm'.trans (congrArg some htw.symm))
      refine ⟨_, rfl, ?_, ?_⟩
      · rw [links_replaceChild]
        simp [Links.rotate, Links.turn, hm', hparent, hset, Links.parent_setParent, hne, hw]
      · exact (((((((SameEntries.refl t).setChild ..).setDepth ..).setParent ..).setChild
          ..).setDepth ..).setParent ..).setParent .. |>.replaceChild ..

/-! ## balance -/

theorem balance_side {t : CompoundTable ν} {node : Nat} {up : Option Nat} {f : Frame Nat}
    {c : List (Frame Nat)} (hc : Hole t.links (some node) up (f :: c))
    (hnode : node ∉ around (f :: c)) :
    (if (t.elements f.node).right = some node then Side.right else Side.left) = f.side := by
  have hiff : (t.elements f.node).right = some node ↔ f.side = .right :=
    hc.child_eq_iff hnode .right
  cases hs : f.side with
  | left => rw [if_neg (fun h => by simpa [hs] using hiff.mp h)]
  | right => rw [if_pos (hiff.mpr hs)]

theorem moveNode_rotates {t : CompoundTable ν} {s : Side} {x m b : BinaryTree Nat} {node i : Nat}
    {c : List (Frame Nat)}
    (hl : Linked t.links (t.links.parent i) (some i) (join s (join s x node m) i b))
    (hc : Hole t.links (some i) (t.links.parent i) c)
    (hnodup : (inorder (plug (join s (join s x node m) i b) c)).Nodup) :
    ∃ t', t.moveNode i (s = .left) = some (t', node) ∧ i ≠ node ∧
      Linked t'.links (t.links.parent i) (some node) (join s x node (join s.other b i m)) ∧
      Hole t'.links (some node) (t.links.parent i) c ∧ SameEntries t t' := by
  have hsubtree := (inorder_plug_perm _ c).nodup_iff.mp hnodup
  obtain ⟨hi, -⟩ := nodup_join (List.nodup_append'.mp hsubtree).1
  obtain ⟨-, -, hsub, -⟩ := linked_join.mp hl
  obtain ⟨hchild, -, -, hm⟩ := linked_join.mp hsub
  have hne : i ≠ node := fun h => hi (mem_join.mpr (.inl h))
  have hinner : t.links.child s.other node ≠ some i := by
    intro h
    rw [h] at hm
    exact hi (mem_join.mpr (.inr (.inr hm.top_mem)))
  obtain ⟨t', hmove, hlinks, hsame⟩ := moveNode_spec hchild hne hinner
  obtain ⟨hrotated, hhole⟩ := hl.rotate hc hnodup
  rw [← hlinks] at hrotated hhole
  exact ⟨t', hmove, hne, hrotated, hhole, hsame⟩

theorem balanceLoop_spec {t : CompoundTable ν} {sub : BinaryTree Nat} {node : Nat}
    {up : Option Nat} {c : List (Frame Nat)} (depth : UInt16) {fuel : Nat}
    (hl : Linked t.links up (some node) sub) (hc : Hole t.links (some node) up c)
    (hnodup : (inorder (plug sub c)).Nodup) (hfuel : c.length < fuel) :
    ∃ t' T, balanceLoop fuel t node up depth = some t' ∧
      Linked t'.links none t'.links.root T ∧ inorder T = inorder (plug sub c) ∧
      SameEntries t t' := by
  induction c generalizing t sub node up depth fuel with
  | nil =>
      obtain ⟨hroot, rfl⟩ := hc
      cases fuel with
      | zero => exact absurd hfuel (Nat.lt_irrefl 0)
      | succ fuel => exact ⟨t, sub, rfl, hroot ▸ hl, rfl, .refl t⟩
  | cons f c ih =>
      cases fuel with
      | zero => exact absurd hfuel (Nat.not_lt_zero _)
      | succ fuel =>
          have hperm := (inorder_plug_perm sub (f :: c)).nodup_iff.mp hnodup
          rw [List.nodup_append'] at hperm
          have hside := balance_side hc fun h => hperm.2.2 hl.top_mem h
          obtain ⟨rfl, hchild, hsibling, hrest⟩ := hc
          have hjoin : Linked t.links (t.links.parent f.node) (some f.node)
              (join f.side sub f.node f.sibling) :=
            linked_join.mpr ⟨rfl, rfl, hchild ▸ hl, hsibling⟩
          obtain ⟨u, hu⟩ : ∃ u, u = t.setDepth f.side f.node depth := ⟨_, rfl⟩
          have hlinks : u.links = t.links := hu ▸ t.links_setDepth ..
          have hsame : SameEntries t u := hu ▸ (SameEntries.refl t).setDepth ..
          rw [balanceLoop, hside]
          simp only [← hu]
          rw [← hlinks] at hl hjoin hrest
          split
          · obtain ⟨x, m, rfl⟩ := hl.exists_join f.side
            obtain ⟨u', hmove, -, hrot, hhole, hsame'⟩ := moveNode_rotates hjoin hrest hnodup
            have hparent : (u'.elements node).parent = u.links.parent f.node :=
              (linked_join.mp hrot).2.1
            have hinorder := inorder_rotate f.side x m f.sibling node f.node
            have hplug : inorder (plug (join f.side x node (join f.side.other f.sibling
                f.node m)) c) = inorder (plug (join f.side x node m) (f :: c)) := by
              rw [inorder_plug, hinorder, ← inorder_plug]
              rfl
            obtain ⟨t', T, hloop, hT, hinorderT, hsame''⟩ :=
              ih ((u'.elements node).depth f.side + 1) hrot hhole (hplug ▸ hnodup)
                (Nat.lt_of_succ_lt_succ hfuel)
            refine ⟨t', T, ?_, hT, hinorderT.trans hplug,
              (hsame.trans hsame').trans hsame''⟩
            simp only [hmove, Option.bind_eq_bind, Option.bind_some, hparent]
            exact hloop
          · -- The test for a shorter other side never passes here: the climb goes on.
            obtain ⟨t', T, hloop, hT, hinorder, hsame'⟩ :=
              ih (depth + 1) hjoin hrest hnodup (Nat.lt_of_succ_lt_succ hfuel)
            exact ⟨t', T, hloop, hT, hinorder, hsame.trans hsame'⟩

/-! ## Search trees of elements -/

def Before (t : CompoundTable ν) (i j : Nat) : Prop :=
  CompoundTail.Precedes (t.elements i).variableName (t.elements j).variableName

/-- The elements of the table, linked as the search tree `T`. -/
structure Valid (t : CompoundTable ν) (T : BinaryTree Nat) : Prop where
  linked : Linked t.links none t.links.root T
  sorted : (inorder T).Pairwise t.Before
  lt : ∀ i ∈ inorder T, i < t.allocated

theorem Valid.nodup {t : CompoundTable ν} {T : BinaryTree Nat} (h : t.Valid T) :
    (inorder T).Nodup := by
  refine h.sorted.imp ?_
  rintro i j hij rfl
  exact CompoundTail.Precedes.ne hij rfl

theorem Valid.ordered {t : CompoundTable ν} {T : BinaryTree Nat} (h : t.Valid T) :
    Ordered t.Before T := by
  refine (ordered_iff_pairwise ?_ T).mpr h.sorted
  exact fun i j k hij hjk => CompoundTail.Precedes.trans hij hjk

theorem Valid.nodup_names {t : CompoundTable ν} {T : BinaryTree Nat} (h : t.Valid T) :
    ((inorder T).map fun i => (t.elements i).variableName).Nodup :=
  List.pairwise_map.mpr (h.sorted.imp CompoundTail.Precedes.ne)

theorem Valid.name_inj {t : CompoundTable ν} {T : BinaryTree Nat} (h : t.Valid T) {i j : Nat}
    (hi : i ∈ inorder T) (hj : j ∈ inorder T)
    (heq : (t.elements i).variableName = (t.elements j).variableName) : i = j :=
  List.inj_on_of_nodup_map h.nodup_names hi hj heq

theorem Valid.length_le {t : CompoundTable ν} {T : BinaryTree Nat} (h : t.Valid T) :
    (inorder T).length ≤ t.allocated := by
  have hsub : inorder T ⊆ List.range t.allocated := fun i hi =>
    List.mem_range.mpr (h.lt i hi)
  have hle := (List.subperm_of_subset h.nodup hsub).length_le
  rwa [List.length_range] at hle

theorem SameEntries.before {t t' : CompoundTable ν} (h : SameEntries t t') (i j : Nat) :
    t'.Before i j ↔ t.Before i j := by
  rw [Before, Before, h.name, h.name]

end CompoundTable

end LeooRexx
