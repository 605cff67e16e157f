import Mathlib
import LeooRexx.Foundation.BalancedTree
import LeooRexx.Runtime.CompoundTableRuns

/-!
# The balance of compound tables

`balance` climbs to the root and stores the depth that it counts on the way.  It goes on where a
node is not deeper than before, as its test for this compares the same values the other way, and
it rotates once only.  The depths stay exact, and the tree balanced, while each new element has a
node above it that takes its level up without a second rotation.
-/

namespace LeooRexx

open LinkedTree

variable {ν : Type}

namespace CompoundTable

variable {t u : CompoundTable ν}

def depthAt (t : CompoundTable ν) (side : Side) (i : Nat) : Nat :=
  ((t.elements i).depth side).toNat

theorem depth_modify (t : CompoundTable ν) (i j : Nat) (s : Side)
    {f : CompoundElement ν → CompoundElement ν} (h : ∀ e, (f e).depth s = e.depth s) :
    ((t.modify i f).elements j).depth s = (t.elements j).depth s := by
  rw [elements_modify]
  split
  · exact h _
  · rfl

@[simp] theorem depth_setParent (t : CompoundTable ν) (i j : Nat) (parent : Option Nat)
    (s : Side) : ((t.setParent i parent).elements j).depth s = (t.elements j).depth s :=
  t.depth_modify i j s fun _ => by cases s <;> rfl

@[simp] theorem depth_setChild (t : CompoundTable ν) (side : Side) (i j : Nat)
    (child : Option Nat) (s : Side) :
    ((t.setChild side i child).elements j).depth s = (t.elements j).depth s :=
  t.depth_modify i j s fun _ => by cases s <;> cases side <;> rfl

@[simp] theorem depth_replaceChild (t : CompoundTable ν) (work2 : Option Nat) (temp work j : Nat)
    (s : Side) :
    ((t.replaceChild work2 temp work).elements j).depth s = (t.elements j).depth s := by
  cases work2 with
  | none => rfl
  | some work2 =>
      rw [replaceChild]
      split
      · exact t.depth_setChild ..
      · exact t.depth_setChild ..

theorem depth_setDepth (t : CompoundTable ν) (side : Side) (i j : Nat) (depth : UInt16)
    (s : Side) : ((t.setDepth side i depth).elements j).depth s =
      if s = side ∧ j = i then depth else (t.elements j).depth s := by
  rw [setDepth, elements_modify]
  by_cases hj : j = i
  · rw [if_pos hj]
    cases s <;> cases side <;> simp [CompoundElement.depth, hj]
  · rw [if_neg hj, if_neg fun h => hj h.2]

theorem depthAt_setDepth_self (t : CompoundTable ν) (side : Side) (i : Nat) (depth : UInt16) :
    (t.setDepth side i depth).depthAt side i = depth.toNat := by
  rw [depthAt, depth_setDepth, if_pos ⟨rfl, rfl⟩]

theorem depthAt_setDepth_other (t : CompoundTable ν) (side : Side) (i : Nat) (depth : UInt16) :
    (t.setDepth side i depth).depthAt side.other i = t.depthAt side.other i := by
  rw [depthAt, depth_setDepth, if_neg fun h => side.other_ne h.1]
  rfl

theorem depthAt_setDepth_of_ne (t : CompoundTable ν) (side s : Side) {i j : Nat} (depth : UInt16)
    (h : j ≠ i) : (t.setDepth side i depth).depthAt s j = t.depthAt s j := by
  rw [depthAt, depth_setDepth, if_neg fun hj => h hj.2]
  rfl

theorem setDepth_eq_self {side : Side} {i : Nat} {depth : UInt16}
    (h : (t.elements i).depth side = depth) : t.setDepth side i depth = t := by
  rw [setDepth, modify]
  obtain ⟨root, elements, allocated⟩ := t
  congr 1
  refine Function.update_eq_self_iff.mpr ?_
  cases side <;> (subst h; rfl)

theorem depth_moveNode {t' : CompoundTable ν} {temp work : Nat} {side : Side}
    (h : t.moveNode temp (side = .left) = some (t', work)) (hne : temp ≠ work) (s : Side)
    (j : Nat) :
    (t'.elements j).depth s =
      if s = side.other ∧ j = work then (t.elements work).depth side.other + 1
      else if s = side ∧ j = temp then (t.elements work).depth side.other
      else (t.elements j).depth s := by
  have hside : (if decide (side = .left) then Side.left else Side.right) = side := by
    cases side <;> rfl
  unfold moveNode at h
  simp only [hside] at h
  cases hchild : (t.elements temp).child side with
  | none => simp [hchild] at h
  | some w =>
      simp only [hchild, Option.bind_eq_bind, Option.bind_some, Option.some.injEq,
        Prod.mk.injEq] at h
      obtain ⟨rfl, rfl⟩ := h
      have hother := side.other_ne
      cases (t.elements w).child side.other <;>
        simp [depth_setDepth, hother]

theorem depthAt_moveNode_of_ne {t' : CompoundTable ν} {temp work j : Nat} {side : Side}
    (h : t.moveNode temp (side = .left) = some (t', work)) (hne : temp ≠ work) (s : Side)
    (htemp : j ≠ temp) (hwork : j ≠ work) : t'.depthAt s j = t.depthAt s j := by
  rw [depthAt, depth_moveNode h hne, if_neg fun hj => hwork hj.2, if_neg fun hj => htemp hj.2]
  rfl

/-! ## The climb -/

theorem toNat_add_one {depth : UInt16} (h : depth.toNat + 1 < 2 ^ 16) :
    (depth + 1).toNat = depth.toNat + 1 := by
  rw [UInt16.toNat_add]
  exact Nat.mod_eq_of_lt h

theorem balanceLoop_settled {node : Nat} {up : Option Nat} {c : List (Frame Nat)}
    {depth : UInt16} {h fuel : Nat} (hc : Hole t.links (some node) up c) (hnode : node ∉ around c)
    (hnodup : (around c).Nodup) (hpath : PathBalanced t.depthAt h c)
    (hsettled : Settled t.depthAt c) (hdepth : c ≠ [] → depth.toNat = h)
    (hbound : pathHeight h c < 2 ^ 16) (hfuel : c.length < fuel) :
    t.balanceLoop fuel node up depth = some t := by
  induction c generalizing node up depth h fuel with
  | nil =>
      obtain ⟨-, rfl⟩ := hc
      cases fuel with
      | zero => exact absurd hfuel (Nat.lt_irrefl 0)
      | succ fuel => rfl
  | cons f c ih =>
      cases fuel with
      | zero => exact absurd hfuel (Nat.not_lt_zero _)
      | succ fuel =>
          have hside := balance_side hc hnode
          obtain ⟨hlevel, -, hpath⟩ := hpath
          obtain ⟨-, hround, hnodup⟩ := nodup_around_cons hnodup
          obtain ⟨rfl, -, -, hrest⟩ := hc
          rw [pathHeight] at hbound
          have hle := le_pathHeight (max h f.sibling.height + 1) c
          have hcount := hdepth (List.cons_ne_nil f c)
          have hstored : (t.elements f.node).depth f.side = depth :=
            UInt16.toNat_inj.mp (hlevel.side.trans hcount.symm)
          have hother : ((t.elements f.node).depth f.side.other).toNat = f.sibling.height :=
            hlevel.other
          have hwd : ((t.elements f.node).depth f.side.other + 1).toNat =
              f.sibling.height + 1 := by
            rw [toNat_add_one (by omega), hother]
          have hkeeps : ¬ depth > (t.elements f.node).depth f.side.other + 1 := by
            rw [gt_iff_lt, UInt16.lt_iff_toNat_lt, hwd, hcount]
            exact Nat.not_lt.mpr hlevel.le
          rw [balanceLoop, hside]
          simp only [setDepth_eq_self hstored]
          rw [if_neg hkeeps, if_neg hkeeps]
          refine ih hrest hround hnodup hpath ?_ (fun hne => ?_) hbound
            (Nat.lt_of_succ_lt_succ hfuel)
          · cases c with
            | nil => trivial
            | cons g c => exact hsettled.2
          · cases c with
            | nil => exact absurd rfl hne
            | cons g c =>
                have hdeeper := hsettled.1
                rw [hlevel.side, hlevel.other] at hdeeper
                rw [max_eq_left hdeeper, toNat_add_one (by omega), hcount]

theorem balanced_setDepth {side : Side} {i : Nat} {depth : UInt16} {T : BinaryTree Nat}
    (h : HeightBalanced t.depthAt T) (hi : i ∉ inorder T) :
    HeightBalanced (t.setDepth side i depth).depthAt T :=
  h.congr fun _ hj s => t.depthAt_setDepth_of_ne side s depth (ne_of_mem_of_not_mem hj hi)

theorem pathBalanced_setDepth {side : Side} {i h : Nat} {depth : UInt16} {c : List (Frame Nat)}
    (hpath : PathBalanced t.depthAt h c) (hi : i ∉ around c) :
    PathBalanced (t.setDepth side i depth).depthAt h c :=
  hpath.congr fun _ hj s => t.depthAt_setDepth_of_ne side s depth (ne_of_mem_of_not_mem hj hi)

/-- The subtree at `node` is one level deeper than before, on the side the climb came from. -/
def Grown (below : Option Side) (node h : Nat) (sub : BinaryTree Nat) : Prop :=
  sub.height = h + 1 ∧
    ∀ s, below = some s → ∃ x m, sub = join s x node m ∧ x.height = h ∧ m.height + 1 = h

theorem rotated_balanced {t' : CompoundTable ν} {s : Side} {x m b : BinaryTree Nat}
    {node i h : Nat} (hmove : t.moveNode i (s = .left) = some (t', node)) (hne : i ≠ node)
    (hsub : HeightBalanced t.depthAt (join s x node m)) (hb : HeightBalanced t.depthAt b)
    (hother : t.depthAt s.other i = b.height)
    (hnodup : (inorder (join s (join s x node m) i b)).Nodup) (hx : x.height = h)
    (hm : m.height + 1 = h) (hbh : b.height + 1 = h) (hbound : h < 2 ^ 16) :
    HeightBalanced t'.depthAt (join s x node (join s.other b i m)) := by
  have hdepth := depth_moveNode hmove hne
  obtain ⟨hlevel, hxb, hmb⟩ := balanced_join.mp hsub
  obtain ⟨hi, hib, hsubnodup, hdisjoint⟩ := nodup_join hnodup
  obtain ⟨hnx, hnm, -, -⟩ := nodup_join hsubnodup
  have hkeeps : ∀ j s', j ≠ i → j ≠ node → t'.depthAt s' j = t.depthAt s' j :=
    fun j s' hji hjn => depthAt_moveNode_of_ne hmove hne s' hji hjn
  have hnode : t'.depthAt s node = x.height := by
    rw [depthAt, hdepth, if_neg fun h => s.other_ne h.1.symm, if_neg fun h => hne h.2.symm]
    exact hlevel.side
  have hup : t'.depthAt s.other node = m.height + 1 := by
    have hmdepth : ((t.elements node).depth s.other).toNat = m.height := hlevel.other
    rw [depthAt, hdepth, if_pos ⟨rfl, rfl⟩, toNat_add_one (by omega), hmdepth]
  have hdown : t'.depthAt s i = m.height := by
    rw [depthAt, hdepth, if_neg fun h => s.other_ne h.1.symm, if_pos ⟨rfl, rfl⟩]
    exact hlevel.other
  have hside : t'.depthAt s.other i = b.height := by
    rw [depthAt, hdepth, if_neg fun h => hne h.2, if_neg fun h => s.other_ne h.1]
    exact hother
  refine balanced_join.mpr
    ⟨⟨hnode, ?_, ?_, ?_⟩, ?_, balanced_join.mpr ⟨⟨hside, ?_, ?_, ?_⟩, ?_, ?_⟩⟩
  · rw [hup, height_join]
    omega
  · rw [height_join]
    omega
  · rw [height_join]
    omega
  · exact hxb.congr fun j hj s' => hkeeps j s'
      (fun h => hi (mem_join.mpr (.inr (.inl (h ▸ hj))))) (fun h => hnx (h ▸ hj))
  · rw [Side.other_other, hdown]
  · omega
  · omega
  · exact hb.congr fun j hj s' => hkeeps j s' (fun h => hib (h ▸ hj))
      (fun h => hdisjoint (mem_join.mpr (.inl rfl)) (h ▸ hj))
  · exact hmb.congr fun j hj s' => hkeeps j s'
      (fun h => hi (mem_join.mpr (.inr (.inr (h ▸ hj))))) (fun h => hnm (h ▸ hj))

theorem balanceLoop_grows {sub : BinaryTree Nat} {node : Nat} {up : Option Nat}
    {c : List (Frame Nat)} {below : Option Side} {depth : UInt16} {h fuel : Nat}
    (hl : Linked t.links up (some node) sub) (hc : Hole t.links (some node) up c)
    (hnodup : (inorder (plug sub c)).Nodup) (hsub : HeightBalanced t.depthAt sub)
    (hgrown : Grown below node h sub) (hpath : PathBalanced t.depthAt h c)
    (habsorbs : TakesUp t.depthAt below c) (hdepth : depth.toNat = h + 1)
    (hbound : pathHeight h c + 1 < 2 ^ 16) (hfuel : c.length < fuel) :
    ∃ t' T, t.balanceLoop fuel node up depth = some t' ∧
      Linked t'.links none t'.links.root T ∧ HeightBalanced t'.depthAt T := by
  induction c generalizing t sub node up below depth h fuel with
  | nil =>
      obtain ⟨hroot, rfl⟩ := hc
      cases fuel with
      | zero => exact absurd hfuel (Nat.lt_irrefl 0)
      | succ fuel => exact ⟨t, sub, rfl, hroot ▸ hl, hsub⟩
  | cons f c ih =>
      cases fuel with
      | zero => exact absurd hfuel (Nat.not_lt_zero _)
      | succ fuel =>
          have hfuel := Nat.lt_of_succ_lt_succ hfuel
          have hperm := (inorder_plug_perm sub (f :: c)).nodup_iff.mp hnodup
          rw [List.nodup_append'] at hperm
          obtain ⟨-, hroundnodup, hdisjoint⟩ := hperm
          obtain ⟨hsibling, hround, hrestnodup⟩ := nodup_around_cons hroundnodup
          have hfsub : f.node ∉ inorder sub := fun hmem =>
            hdisjoint hmem (mem_around_cons.mpr (.inl rfl))
          have hside := balance_side hc fun hmem => hdisjoint hl.top_mem hmem
          obtain ⟨hlevel, hsiblingbalanced, hpath⟩ := hpath
          obtain ⟨rfl, hchild, hsiblinglinked, hrest⟩ := hc
          rw [pathHeight] at hbound
          have hle := le_pathHeight (max h f.sibling.height + 1) c
          have hjoin : Linked t.links (t.links.parent f.node) (some f.node)
              (join f.side sub f.node f.sibling) :=
            linked_join.mpr ⟨rfl, rfl, hchild ▸ hl, hsiblinglinked⟩
          obtain ⟨u, hu⟩ : ∃ u, u = t.setDepth f.side f.node depth := ⟨_, rfl⟩
          have hlinks : u.links = t.links := hu ▸ t.links_setDepth ..
          have hstored : u.depthAt f.side f.node = h + 1 := by
            rw [hu, depthAt_setDepth_self, hdepth]
          have hother : u.depthAt f.side.other f.node = f.sibling.height := by
            rw [hu, depthAt_setDepth_other, hlevel.other]
          have hsub' : HeightBalanced u.depthAt sub := hu ▸ balanced_setDepth hsub hfsub
          have hsibling' : HeightBalanced u.depthAt f.sibling :=
            hu ▸ balanced_setDepth hsiblingbalanced hsibling
          have hpath' : PathBalanced u.depthAt (max h f.sibling.height + 1) c :=
            hu ▸ pathBalanced_setDepth hpath hround
          have hkeeps : ∀ i ∈ around c, ∀ s, u.depthAt s i = t.depthAt s i := fun i hi s =>
            hu ▸ t.depthAt_setDepth_of_ne f.side s depth (ne_of_mem_of_not_mem hi hround)
          have hwd : ((u.elements f.node).depth f.side.other + 1).toNat =
              f.sibling.height + 1 := by
            have hother' : ((u.elements f.node).depth f.side.other).toNat =
              f.sibling.height := hother
            rw [toNat_add_one (by omega), hother']
          have hdeeper : depth > (u.elements f.node).depth f.side.other + 1 ↔
              f.sibling.height < h := by
            rw [gt_iff_lt, UInt16.lt_iff_toNat_lt, hwd, hdepth]
            omega
          rw [TakesUp, hlevel.side, hlevel.other] at habsorbs
          obtain ⟨hheight, hshape⟩ := hgrown
          rw [← hlinks] at hl hjoin hrest
          rw [balanceLoop, hside]
          simp only [← hu]
          by_cases hrotates : f.sibling.height < h
          · rw [if_pos (hdeeper.mpr hrotates)]
            rw [if_neg (Nat.ne_of_gt hrotates)] at habsorbs
            obtain ⟨hbelow, hsettled⟩ := habsorbs
            have hsame : max h f.sibling.height + 1 = h + 1 := by omega
            rw [hsame] at hpath' hbound hle
            obtain ⟨x, m, rfl, hx, hm⟩ :=
              hshape f.side (hbelow.resolve_left (Nat.lt_asymm hrotates))
            have hlevelle := hlevel.le
            have hplug := (inorder_plug_perm _ c).nodup_iff.mp
              (show (inorder (plug (join f.side (join f.side x node m) f.node f.sibling) c)).Nodup
                from hnodup)
            have hjoinnodup := (List.nodup_append'.mp hplug).1
            obtain ⟨u', hmove, hne, hrotated, hhole, -⟩ := moveNode_rotates hjoin hrest hnodup
            have hbalanced := rotated_balanced hmove hne hsub' hsibling' hother hjoinnodup hx hm
              (by omega) (by omega)
            have hnode : node ∉ around c := fun hmem =>
              hdisjoint hl.top_mem (mem_around_cons.mpr (.inr (.inr hmem)))
            have hkeeps' : ∀ i ∈ around c, ∀ s, u'.depthAt s i = u.depthAt s i := fun i hi s =>
              depthAt_moveNode_of_ne hmove hne s (ne_of_mem_of_not_mem hi hround)
                (ne_of_mem_of_not_mem hi hnode)
            have hpath'' := hpath'.congr hkeeps'
            have hparent : (u'.elements node).parent = u.links.parent f.node :=
              (linked_join.mp hrotated).2.1
            have hstored' : ((u'.elements node).depth f.side).toNat = h :=
              (balanced_join.mp hbalanced).1.side.trans hx
            have hnext : ((u'.elements node).depth f.side + 1).toNat = h + 1 := by
              rw [toNat_add_one (by omega), hstored']
            refine ⟨u', plug (join f.side x node (join f.side.other f.sibling f.node m)) c, ?_, ?_,
              ?_⟩
            · simp only [hmove, Option.bind_eq_bind, Option.bind_some, hparent]
              exact balanceLoop_settled hhole hnode hrestnodup hpath''
                ((hsettled.congr hkeeps).congr hkeeps') (fun _ => hnext) (by omega) hfuel
            · exact linked_plug.mpr ⟨_, _, hrotated, hhole⟩
            · refine balanced_plug.mpr ⟨hbalanced, ?_⟩
              have hrotatedheight :
                  (join f.side x node (join f.side.other f.sibling f.node m)).height = h + 1 := by
                rw [height_join, height_join]
                omega
              rw [hrotatedheight]
              exact hpath''
          · rw [if_neg fun hgt => hrotates (hdeeper.mp hgt),
              if_neg fun hgt => hrotates (hdeeper.mp hgt)]
            have hnext : (depth + 1).toNat = h + 2 := by
              rw [toNat_add_one (by omega), hdepth]
            have hbalanced : HeightBalanced u.depthAt (join f.side sub f.node f.sibling) := by
              refine balanced_join.mpr ⟨⟨hstored.trans hheight.symm, hother, ?_, ?_⟩, hsub',
                hsibling'⟩
              · omega
              · have hge := hlevel.ge
                omega
            by_cases heven : h = f.sibling.height
            · rw [if_pos heven] at habsorbs
              rw [← heven, max_self] at hpath' hbound
              refine ih hjoin hrest hnodup hbalanced ⟨?_, ?_⟩ hpath' (habsorbs.congr hkeeps) hnext
                hbound hfuel
              · rw [height_join, hheight]
                omega
              · rintro s ⟨rfl⟩
                exact ⟨sub, f.sibling, rfl, hheight, by omega⟩
            · rw [if_neg heven] at habsorbs
              have hsame : max h f.sibling.height + 1 = h + 2 := by
                have hge := hlevel.ge
                omega
              rw [hsame] at hpath' hbound
              refine ⟨u, plug (join f.side sub f.node f.sibling) c, ?_, ?_, ?_⟩
              · exact balanceLoop_settled hrest hround hrestnodup hpath'
                  (habsorbs.2.congr hkeeps) (fun _ => hnext) (by omega) hfuel
              · exact linked_plug.mpr ⟨_, _, hjoin, hrest⟩
              · refine balanced_plug.mpr ⟨hbalanced, ?_⟩
                have hjoinheight : (join f.side sub f.node f.sibling).height = h + 2 := by
                  rw [height_join, hheight]
                  have hge := hlevel.ge
                  omega
                rw [hjoinheight]
                exact hpath'

/-! ## findEntry -/

/--
On the way to the place of a new tail the first node with sides of different depth is deeper on the
other side, or rotates once; the nodes above it, but the root, are not deeper on the other side.
The depth of the tree can be stored.
-/
def Absorbed (t : CompoundTable ν) (tail : List UInt8) : Prop :=
  ∀ up c, Hole t.links none up c → t.Placed tail c →
    TakesUp t.depthAt none c ∧ pathHeight 0 c + 1 < 2 ^ 16

@[simp] theorem depthAt_newCompoundElement (t : CompoundTable ν) (tail : List UInt8) (s : Side) :
    (t.newCompoundElement tail).1.depthAt s t.allocated = 0 := by
  cases s <;> simp [depthAt, newCompoundElement, modify, CompoundElement.depth]

theorem leaf_balanced {tail : List UInt8} {f : Frame Nat} {c : List (Frame Nat)}
    (hv : t.Valid (plug .nil (f :: c))) (hb : HeightBalanced t.depthAt (plug .nil (f :: c)))
    (hu : u = (((t.newCompoundElement tail).1.setParent t.allocated (some f.node)).setChild
      f.side f.node (some t.allocated))) :
    HeightBalanced u.depthAt (.node t.allocated .nil .nil) ∧ PathBalanced u.depthAt 0 (f :: c) ∧
      ∀ i ∈ around (f :: c), ∀ s, u.depthAt s i = t.depthAt s i := by
  have hdepth : ∀ s i, u.depthAt s i = (t.newCompoundElement tail).1.depthAt s i := fun s i => by
    rw [hu, depthAt, depth_setChild, depth_setParent]
    rfl
  have hkeeps : ∀ i ∈ around (f :: c), ∀ s, u.depthAt s i = t.depthAt s i := by
    intro i hi s
    have hmem : i ∈ inorder (plug .nil (f :: c)) :=
      (inorder_plug_perm .nil (f :: c)).mem_iff.mpr hi
    obtain ⟨-, -, hother, -⟩ := t.newCompoundElement_spec tail
    rw [hdepth, depthAt, hother i (Nat.ne_of_lt (hv.lt i hmem))]
    rfl
  obtain ⟨-, hpath⟩ := balanced_plug.mp hb
  refine ⟨⟨⟨?_, ?_, by simp, by simp⟩, trivial, trivial⟩, hpath.congr hkeeps, hkeeps⟩
  · rw [hdepth, depthAt_newCompoundElement]
    rfl
  · rw [hdepth, depthAt_newCompoundElement]
    rfl

theorem findEntry_balanced {T : BinaryTree Nat} (hv : t.Valid T) (hb : HeightBalanced t.depthAt T)
    {tail : List UInt8} (habsorbed : t.Absorbed tail) :
    ∃ t' T' i, t.findEntry tail true = some (t', some i) ∧
      Linked t'.links none t'.links.root T' ∧ HeightBalanced t'.depthAt T' := by
  rcases hv.search tail with ⟨i, p, r, hloop, -, -⟩ |
    ⟨c, up, p, r, hloop, rfl, hhole, hplaced, hleads⟩
  · exact ⟨t, T, i, by simp [findEntry, hloop], hv.linked, hb⟩
  · cases c with
    | nil =>
        obtain rfl : p = none := hleads
        have hsnd : (t.newCompoundElement tail).2 = t.allocated := rfl
        have hdepth : ∀ s, ((t.newCompoundElement tail).1.setParent t.allocated none).depthAt s
            t.allocated = 0 := fun s =>
          (congrArg UInt16.toNat (depth_setParent ..)).trans (t.depthAt_newCompoundElement tail s)
        refine ⟨((t.newCompoundElement tail).1.setParent t.allocated none).setRoot
          (some t.allocated), .node t.allocated .nil .nil, t.allocated,
          by simp [findEntry, hloop, hsnd], ?_,
          ⟨⟨hdepth _, hdepth _, by simp, by simp⟩, trivial, trivial⟩⟩
        simp [Linked, links, setRoot, setParent, modify, newCompoundElement, CompoundElement.child]
    | cons f c =>
        obtain ⟨rfl, hside⟩ := hleads
        obtain ⟨u, hu⟩ : ∃ u, u = (((t.newCompoundElement tail).1.setParent t.allocated
          (some f.node)).setChild f.side f.node (some t.allocated)) := ⟨_, rfl⟩
        obtain ⟨hlinked, hleaf, hallocated, -, hname, hold⟩ := leaf_spec hv hhole hu
        obtain ⟨hbalanced, hpath, hkeeps⟩ := leaf_balanced hv hb hu
        obtain ⟨habsorbs, hbound⟩ := habsorbed up (f :: c) hhole hplaced
        have hsorted := sorted_insert hv hplaced hname fun j hj => (hold j hj).1
        have hnodup : (inorder (plug (.node t.allocated .nil .nil) (f :: c))).Nodup := by
          refine hsorted.imp ?_
          rintro i j hij rfl
          exact CompoundTail.Precedes.ne hij rfl
        have hlength : (f :: c).length < u.allocated + 1 := by
          have hle := hv.length_le
          rw [(inorder_plug_perm .nil (f :: c)).length_eq] at hle
          have hc := length_le_around (f :: c)
          simp only [inorder, List.nil_append] at hle
          omega
        obtain ⟨t', T', hbalance, hlinked', hbalanced'⟩ := balanceLoop_grows hlinked hleaf hnodup
          hbalanced ⟨rfl, fun s hs => absurd hs (by simp)⟩ hpath (habsorbs.congr hkeeps)
          (show (1 : UInt16).toNat = 0 + 1 from rfl) hbound hlength
        refine ⟨t', T', t.allocated, ?_, hlinked', hbalanced'⟩
        rw [findEntry_missing hv hhole hside hloop hu, hbalance]
        rfl

/-! ## Runs of insertions -/

def AllAbsorbed (t : CompoundTable ν) : List (CompoundOp ν) → Prop
  | [] => True
  | op :: ops => t.Absorbed op.tail ∧ ∀ t' i, t.step op = some (t', i) → t'.AllAbsorbed ops

theorem depthAt_setValue (t : CompoundTable ν) (i : Nat) (value : Option ν) :
    (t.setValue i value).depthAt = t.depthAt := by
  funext s j
  exact congrArg UInt16.toNat (t.depth_modify i j s fun _ => by cases s <;> rfl)

theorem step_balanced {T : BinaryTree Nat} (hv : t.Valid T) (hb : HeightBalanced t.depthAt T)
    (op : CompoundOp ν) (habsorbed : t.Absorbed op.tail) :
    ∃ t' T' i, t.step op = some (t', i) ∧ t'.Valid T' ∧ HeightBalanced t'.depthAt T' := by
  obtain ⟨u, U, i, hfind, hinserted⟩ := findEntry_true_spec hv op.tail
  obtain ⟨u', U', i', hfind', hlinked, hbalanced⟩ := findEntry_balanced hv hb habsorbed
  rw [hfind] at hfind'
  obtain ⟨rfl, -⟩ := Prod.mk.inj (Option.some.inj hfind')
  obtain rfl := hlinked.unique hinserted.valid.linked
  cases op with
  | findEntry tail => exact ⟨u, _, i, by simp [step, hfind], hinserted.valid, hbalanced⟩
  | setValue tail value =>
      refine ⟨u.setValue i value, _, i, by simp [step, hfind], hinserted.valid.setValue i value, ?_⟩
      rw [depthAt_setValue]
      exact hbalanced

theorem run_keeps_balance {T : BinaryTree Nat} (ops : List (CompoundOp ν)) (hv : t.Valid T)
    (hb : HeightBalanced t.depthAt T) (habsorbed : t.AllAbsorbed ops) :
    ∃ t' entries T', t.run ops = some (t', entries) ∧ t'.Valid T' ∧ HeightBalanced t'.depthAt T' := by
  induction ops generalizing t T with
  | nil => exact ⟨t, [], T, rfl, hv, hb⟩
  | cons op ops ih =>
      obtain ⟨hop, hops⟩ := habsorbed
      obtain ⟨u, U, i, hstep, hv', hb'⟩ := step_balanced hv hb op hop
      obtain ⟨t', entries, T', hrun, hv'', hb''⟩ := ih hv' hb' (hops u i hstep)
      exact ⟨t', i :: entries, T', by simp [run, hstep, hrun], hv'', hb''⟩

end CompoundTable

end LeooRexx
