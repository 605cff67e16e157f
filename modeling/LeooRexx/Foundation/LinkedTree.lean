import Mathlib.Data.List.Nodup
import Mathlib.Data.Tree.Basic
import Mathlib.Logic.Function.Basic
import Mathlib.Tactic.Common

/-!
# Binary trees linked both ways

A node links to its children and to its parent.  `Linked` says that the links
below a node form a given tree, `Hole` that the links above it form the given
path to the root.  A rotation moves a node over its parent, and keeps the nodes
in order.
-/

namespace LinkedTree

open BinaryTree

variable {ι : Type*}

inductive Side where
  | left
  | right
  deriving DecidableEq

def Side.other : Side → Side
  | .left => .right
  | .right => .left

theorem Side.other_ne (s : Side) : s.other ≠ s := by
  cases s <;> decide

def join (s : Side) (t : BinaryTree ι) (i : ι) (b : BinaryTree ι) : BinaryTree ι :=
  match s with
  | .left => .node i t b
  | .right => .node i b t

def inorder : BinaryTree ι → List ι
  | .nil => []
  | .node i l r => inorder l ++ i :: inorder r

def postorder : BinaryTree ι → List ι
  | .nil => []
  | .node i l r => postorder l ++ (postorder r ++ [i])

theorem mem_postorder {t : BinaryTree ι} {i : ι} : i ∈ postorder t ↔ i ∈ inorder t := by
  induction t with
  | nil => rfl
  | node j l r ihl ihr =>
      simp only [postorder, inorder, List.mem_append, List.mem_cons, List.not_mem_nil, ihl, ihr]
      tauto

theorem postorder_perm (t : BinaryTree ι) : (postorder t).Perm (inorder t) := by
  induction t with
  | nil => exact List.Perm.refl _
  | node i l r ihl ihr =>
      have hright : (postorder r ++ [i]).Perm (i :: inorder r) :=
        (List.perm_append_singleton i _).trans (ihr.cons i)
      exact ihl.append hright

/-! ## Search trees -/

def Ordered (lt : ι → ι → Prop) : BinaryTree ι → Prop
  | .nil => True
  | .node i l r => (∀ j ∈ inorder l, lt j i) ∧ (∀ j ∈ inorder r, lt i j) ∧
      Ordered lt l ∧ Ordered lt r

theorem ordered_iff_pairwise {lt : ι → ι → Prop}
    (htrans : ∀ i j k, lt i j → lt j k → lt i k) (t : BinaryTree ι) :
    Ordered lt t ↔ (inorder t).Pairwise lt := by
  induction t with
  | nil => simp [Ordered, inorder]
  | node i l r ihl ihr =>
      rw [Ordered, inorder, List.pairwise_append, List.pairwise_cons, ihl, ihr]
      constructor
      · rintro ⟨hl, hr, hpl, hpr⟩
        refine ⟨hpl, ⟨hr, hpr⟩, fun j hj k hk => ?_⟩
        cases List.mem_cons.mp hk with
        | inl hki => exact hki ▸ hl j hj
        | inr hkr => exact htrans j i k (hl j hj) (hr k hkr)
      · rintro ⟨hpl, ⟨hr, hpr⟩, hcross⟩
        exact ⟨fun j hj => hcross j hj i List.mem_cons_self, hr, hpl, hpr⟩

/-! ## Paths -/

structure Frame (ι : Type*) where
  side : Side
  node : ι
  sibling : BinaryTree ι

def plug (t : BinaryTree ι) : List (Frame ι) → BinaryTree ι
  | [] => t
  | f :: c => plug (join f.side t f.node f.sibling) c

def before : List (Frame ι) → List ι
  | [] => []
  | f :: c => before c ++ match f.side with
      | .left => []
      | .right => inorder f.sibling ++ [f.node]

def after : List (Frame ι) → List ι
  | [] => []
  | f :: c => (match f.side with
      | .left => f.node :: inorder f.sibling
      | .right => []) ++ after c

theorem inorder_plug (t : BinaryTree ι) (c : List (Frame ι)) :
    inorder (plug t c) = before c ++ inorder t ++ after c := by
  induction c generalizing t with
  | nil => simp [plug, before, after]
  | cons f c ih =>
      obtain ⟨s, i, b⟩ := f
      cases s <;> simp [plug, before, after, join, inorder, ih]

def around (c : List (Frame ι)) : List ι := before c ++ after c

theorem around_cons_perm (f : Frame ι) (c : List (Frame ι)) :
    (around (f :: c)).Perm (f.node :: (inorder f.sibling ++ around c)) := by
  obtain ⟨s, i, b⟩ := f
  cases s with
  | left =>
      have h : (before c ++ (i :: inorder b ++ after c)).Perm
          (i :: inorder b ++ (before c ++ after c)) := List.perm_append_comm_assoc ..
      simpa [around, before, after] using h
  | right =>
      have hnode : (inorder b ++ [i]).Perm (i :: inorder b) := List.perm_append_singleton ..
      have h : (before c ++ (inorder b ++ [i] ++ after c)).Perm
          (i :: inorder b ++ (before c ++ after c)) :=
        (List.perm_append_comm_assoc ..).trans (hnode.append_right _)
      simpa [around, before, after] using h

theorem mem_around_cons {f : Frame ι} {c : List (Frame ι)} {i : ι} :
    i ∈ around (f :: c) ↔ i = f.node ∨ i ∈ inorder f.sibling ∨ i ∈ around c := by
  rw [(around_cons_perm f c).mem_iff, List.mem_cons, List.mem_append]

theorem nodup_around_cons {f : Frame ι} {c : List (Frame ι)} (h : (around (f :: c)).Nodup) :
    f.node ∉ inorder f.sibling ∧ f.node ∉ around c ∧ (around c).Nodup := by
  rw [(around_cons_perm f c).nodup_iff, List.nodup_cons, List.mem_append,
    List.nodup_append] at h
  tauto

theorem inorder_plug_perm (t : BinaryTree ι) (c : List (Frame ι)) :
    (inorder (plug t c)).Perm (inorder t ++ around c) := by
  rw [inorder_plug, around, List.append_assoc]
  exact List.perm_append_comm_assoc ..

theorem inorder_join_perm (s : Side) (t b : BinaryTree ι) (i : ι) :
    (inorder (join s t i b)).Perm (i :: (inorder t ++ inorder b)) := by
  cases s with
  | left => exact List.perm_middle
  | right => exact List.perm_middle.trans (List.perm_append_comm.cons i)

theorem mem_join {s : Side} {t b : BinaryTree ι} {i j : ι} :
    j ∈ inorder (join s t i b) ↔ j = i ∨ j ∈ inorder t ∨ j ∈ inorder b := by
  rw [(inorder_join_perm s t b i).mem_iff, List.mem_cons, List.mem_append]

theorem nodup_join {s : Side} {t b : BinaryTree ι} {i : ι}
    (h : (inorder (join s t i b)).Nodup) :
    i ∉ inorder t ∧ i ∉ inorder b ∧ (inorder t).Nodup ∧ (inorder t).Disjoint (inorder b) := by
  rw [(inorder_join_perm s t b i).nodup_iff, List.nodup_cons, List.mem_append,
    List.nodup_append'] at h
  tauto

def following : List (Frame ι) → List ι
  | [] => []
  | f :: c => (match f.side with
      | .left => postorder f.sibling
      | .right => []) ++ f.node :: following c

theorem inorder_rotate (s : Side) (x m b : BinaryTree ι) (n i : ι) :
    inorder (join s x n (join s.other b i m)) = inorder (join s (join s x n m) i b) := by
  cases s <;> simp [join, inorder, Side.other]

/-! ## Links -/

@[ext]
structure Links (ι : Type*) where
  child : Side → ι → Option ι
  parent : ι → Option ι
  root : Option ι

variable {k k' : Links ι}

def Linked (k : Links ι) : Option ι → Option ι → BinaryTree ι → Prop
  | _, top, .nil => top = none
  | up, top, .node i l r => top = some i ∧ k.parent i = up ∧
      Linked k (some i) (k.child .left i) l ∧ Linked k (some i) (k.child .right i) r

def Hole (k : Links ι) : Option ι → Option ι → List (Frame ι) → Prop
  | top, up, [] => k.root = top ∧ up = none
  | top, up, f :: c => up = some f.node ∧ k.child f.side f.node = top ∧
      Linked k (some f.node) (k.child f.side.other f.node) f.sibling ∧
      Hole k (some f.node) (k.parent f.node) c

theorem linked_join {s : Side} {up top : Option ι} {t b : BinaryTree ι} {i : ι} :
    Linked k up top (join s t i b) ↔ top = some i ∧ k.parent i = up ∧
      Linked k (some i) (k.child s i) t ∧ Linked k (some i) (k.child s.other i) b := by
  cases s with
  | left => rfl
  | right =>
      simp only [join, Linked, Side.other]
      tauto

theorem linked_plug {t : BinaryTree ι} {c : List (Frame ι)} :
    Linked k none k.root (plug t c) ↔ ∃ top up, Linked k up top t ∧ Hole k top up c := by
  induction c generalizing t with
  | nil =>
      constructor
      · intro h
        exact ⟨k.root, none, h, rfl, rfl⟩
      · rintro ⟨top, up, h, rfl, rfl⟩
        exact h
  | cons f c ih =>
      rw [plug, ih]
      simp only [linked_join, Hole]
      constructor
      · rintro ⟨top, up, ⟨rfl, rfl, ht, hb⟩, hc⟩
        exact ⟨_, _, ht, rfl, rfl, hb, hc⟩
      · rintro ⟨top, up, ht, rfl, rfl, hb, hc⟩
        exact ⟨_, _, ⟨rfl, rfl, ht, hb⟩, hc⟩

def Agrees (k k' : Links ι) (l : List ι) : Prop :=
  ∀ i ∈ l, (∀ s, k'.child s i = k.child s i) ∧ k'.parent i = k.parent i

theorem Agrees.mono {l : List ι} (h : Agrees k k' l) (l' : List ι) (hsub : ∀ i ∈ l', i ∈ l) :
    Agrees k k' l' := fun i hi => h i (hsub i hi)

theorem Linked.congr {up top : Option ι} {t : BinaryTree ι} (h : Linked k up top t)
    (heq : Agrees k k' (inorder t)) : Linked k' up top t := by
  induction t generalizing up top with
  | nil => exact h
  | node i l r ihl ihr =>
      obtain ⟨htop, hup, hl, hr⟩ := h
      obtain ⟨hchild, hparent⟩ := heq i (by simp [inorder])
      have heql := heq.mono (inorder l) fun j hj => by simp [inorder, hj]
      have heqr := heq.mono (inorder r) fun j hj => by simp [inorder, hj]
      refine ⟨htop, hparent.trans hup, ?_, ?_⟩
      · rw [hchild]
        exact ihl hl heql
      · rw [hchild]
        exact ihr hr heqr

theorem Linked.reparent {up up' top : Option ι} {t : BinaryTree ι} (h : Linked k up top t)
    (hchild : ∀ i ∈ inorder t, ∀ s, k'.child s i = k.child s i)
    (hparent : ∀ i ∈ inorder t, some i ≠ top → k'.parent i = k.parent i)
    (htop : ∀ i, top = some i → k'.parent i = up') (hnodup : (inorder t).Nodup) :
    Linked k' up' top t := by
  cases t with
  | nil => exact h
  | node i l r =>
      obtain ⟨rfl, -, hl, hr⟩ := h
      rw [inorder, List.nodup_append, List.nodup_cons] at hnodup
      obtain ⟨-, ⟨hir, -⟩, hcross⟩ := hnodup
      have heql : Agrees k k' (inorder l) := by
        intro j hj
        have hji : some j ≠ some i := fun h =>
          hcross j hj i List.mem_cons_self (Option.some.inj h)
        exact ⟨hchild j (by simp [inorder, hj]), hparent j (by simp [inorder, hj]) hji⟩
      have heqr : Agrees k k' (inorder r) := by
        intro j hj
        have hji : some j ≠ some i := fun h => hir (Option.some.inj h ▸ hj)
        exact ⟨hchild j (by simp [inorder, hj]), hparent j (by simp [inorder, hj]) hji⟩
      refine ⟨rfl, htop i rfl, ?_, ?_⟩
      · rw [hchild i (by simp [inorder])]
        exact hl.congr heql
      · rw [hchild i (by simp [inorder])]
        exact hr.congr heqr

theorem Hole.congr {top up : Option ι} {c : List (Frame ι)} (h : Hole k top up c)
    (hroot : k'.root = k.root) (heq : Agrees k k' (around c)) :
    Hole k' top up c := by
  induction c generalizing top up with
  | nil => exact ⟨hroot.trans h.1, h.2⟩
  | cons f c ih =>
      obtain ⟨hup, htop, hsibling, hc⟩ := h
      obtain ⟨hchild, hparent⟩ := heq f.node (mem_around_cons.mpr (.inl rfl))
      have heqs := heq.mono (inorder f.sibling) fun j hj =>
        mem_around_cons.mpr (.inr (.inl hj))
      refine ⟨hup, (hchild f.side).trans htop, ?_, ?_⟩
      · rw [hchild]
        exact hsibling.congr heqs
      · rw [hparent]
        exact ih hc (heq.mono _ fun j hj => mem_around_cons.mpr (.inr (.inr hj)))

theorem Linked.top_mem {up : Option ι} {i : ι} {t : BinaryTree ι}
    (h : Linked k up (some i) t) : i ∈ inorder t := by
  cases t with
  | nil => exact absurd h (by simp [Linked])
  | node j l r =>
      obtain rfl := Option.some.inj h.1
      simp [inorder]

theorem Hole.up_mem {top up : Option ι} {g : ι} {c : List (Frame ι)} (h : Hole k top up c)
    (hg : up = some g) : g ∈ around c := by
  cases c with
  | nil => exact absurd (hg.symm.trans h.2) (by simp)
  | cons f c => exact mem_around_cons.mpr (.inl (Option.some.inj (hg.symm.trans h.1)))

theorem Hole.child_eq_iff {up : Option ι} {i : ι} {f : Frame ι} {c : List (Frame ι)}
    (h : Hole k (some i) up (f :: c)) (hi : i ∉ around (f :: c)) (s : Side) :
    k.child s f.node = some i ↔ f.side = s := by
  obtain ⟨-, htop, hsibling, -⟩ := h
  constructor
  · intro hs
    by_contra hne
    have hother : f.side.other = s := by
      cases hf : f.side <;> cases s <;> simp_all [Side.other]
    rw [hother, hs] at hsibling
    exact hi (mem_around_cons.mpr (.inr (.inl hsibling.top_mem)))
  · rintro rfl
    exact htop

theorem Linked.exists_join {up : Option ι} {i : ι} {t : BinaryTree ι}
    (h : Linked k up (some i) t) (s : Side) : ∃ x m, t = join s x i m := by
  cases t with
  | nil => exact absurd h (by simp [Linked])
  | node j l r =>
      obtain rfl := Option.some.inj h.1
      cases s with
      | left => exact ⟨l, r, rfl⟩
      | right => exact ⟨r, l, rfl⟩

theorem length_le_around (c : List (Frame ι)) : c.length ≤ (around c).length := by
  induction c with
  | nil => exact Nat.le_refl 0
  | cons f c ih =>
      rw [(around_cons_perm f c).length_eq]
      simp only [List.length_cons, List.length_append]
      omega

/-! ## Changing links -/

section Update

variable [DecidableEq ι]

namespace Links

def setChild (k : Links ι) (s : Side) (i : ι) (v : Option ι) : Links ι :=
  { k with child := Function.update k.child s (Function.update (k.child s) i v) }

def setParent (k : Links ι) (i : ι) (v : Option ι) : Links ι :=
  { k with parent := Function.update k.parent i v }

def setRoot (k : Links ι) (v : Option ι) : Links ι := { k with root := v }

theorem child_setChild (k : Links ι) (s s' : Side) (i j : ι) (v : Option ι) :
    (k.setChild s i v).child s' j = if s' = s ∧ j = i then v else k.child s' j := by
  by_cases hs : s' = s
  · subst hs
    by_cases hj : j = i
    · simp [setChild, hj]
    · simp [setChild, hj]
  · simp [setChild, hs]

theorem parent_setParent (k : Links ι) (i j : ι) (v : Option ι) :
    (k.setParent i v).parent j = if j = i then v else k.parent j := by
  by_cases hj : j = i
  · simp [setParent, hj]
  · simp [setParent, hj]

def replace (k : Links ι) (up : Option ι) (i : ι) (v : Option ι) : Links ι :=
  match up with
  | none => k.setRoot v
  | some g =>
      if k.child .left g = some i then k.setChild .left g v else k.setChild .right g v

def turn (k : Links ι) (s : Side) (i n : ι) : Links ι :=
  let m := k.child s.other n
  let k := k.setChild s i m
  let k := match m with
    | some w => k.setParent w (some i)
    | none => k
  let k := k.setChild s.other n (some i)
  let k := k.setParent n (k.parent i)
  k.setParent i (some n)

/-- A rotation of `n` over its parent `i`. -/
def rotate (k : Links ι) (s : Side) (i n : ι) : Links ι :=
  (k.turn s i n).replace (k.parent i) i (some n)

theorem root_turn (k : Links ι) (s : Side) (i n : ι) : (k.turn s i n).root = k.root := by
  unfold turn
  cases k.child s.other n <;> rfl

theorem child_turn (k : Links ι) (s s' : Side) (i n j : ι) :
    (k.turn s i n).child s' j =
      if s' = s.other ∧ j = n then some i
      else if s' = s ∧ j = i then k.child s.other n
      else k.child s' j := by
  have hset : (k.turn s i n).child = ((k.setChild s i (k.child s.other n)).setChild
      s.other n (some i)).child := by
    unfold turn
    cases k.child s.other n <;> rfl
  rw [hset, child_setChild, child_setChild]

theorem parent_turn {k : Links ι} {s : Side} {i n : ι} (h : k.child s.other n ≠ some i)
    (j : ι) :
    (k.turn s i n).parent j =
      if j = i then some n
      else if j = n then k.parent i
      else if k.child s.other n = some j then some i
      else k.parent j := by
  unfold turn
  cases hm : k.child s.other n with
  | none =>
      simp only [parent_setParent]
      rfl
  | some w =>
      have hiw : i ≠ w := by
        rintro rfl
        exact h hm
      have hw : ∀ k' : Links ι, (k'.setChild s.other n (some i)).parent = k'.parent :=
        fun _ => rfl
      simp only [parent_setParent, hw, if_neg hiw, Option.some.injEq, eq_comm (a := w)]
      rfl

end Links

theorem Hole.setChild {top up v : Option ι} {f : Frame ι} {c : List (Frame ι)}
    (h : Hole k top up (f :: c)) (hnodup : (around (f :: c)).Nodup) :
    Hole (k.setChild f.side f.node v) v up (f :: c) := by
  obtain ⟨hup, -, hsibling, hc⟩ := h
  obtain ⟨hsib, hrest, -⟩ := nodup_around_cons hnodup
  have hagrees : ∀ l : List ι, f.node ∉ l → Agrees k (k.setChild f.side f.node v) l := by
    intro l hl i hi
    have hne : i ≠ f.node := fun h => hl (h ▸ hi)
    exact ⟨fun s => by simp [Links.child_setChild, hne], rfl⟩
  refine ⟨hup, ?_, ?_, hc.congr rfl (hagrees _ hrest)⟩
  · simp [Links.child_setChild]
  · rw [Links.child_setChild, if_neg (fun h => f.side.other_ne h.1)]
    exact hsibling.congr (hagrees _ hsib)

theorem Hole.replace {up v : Option ι} {i : ι} {c : List (Frame ι)}
    (h : Hole k (some i) up c) (hnodup : (around c).Nodup) (hi : i ∉ around c) :
    Hole (k.replace up i v) v up c := by
  cases c with
  | nil =>
      obtain ⟨-, rfl⟩ := h
      exact ⟨rfl, rfl⟩
  | cons f c =>
      have hset : k.replace up i v = k.setChild f.side f.node v := by
        rw [h.1, Links.replace]
        cases hs : f.side with
        | left => rw [if_pos ((h.child_eq_iff hi .left).mpr hs)]
        | right =>
            have hleft : ¬ k.child .left f.node = some i := fun hl => by
              simpa [hs] using (h.child_eq_iff hi .left).mp hl
            rw [if_neg hleft]
      rw [hset]
      exact h.setChild hnodup

theorem Links.replace_agrees (k : Links ι) {up v : Option ι} {i : ι} {l : List ι}
    (h : ∀ g, up = some g → g ∉ l) : Agrees k (k.replace up i v) l := by
  intro j hj
  cases up with
  | none => exact ⟨fun _ => rfl, rfl⟩
  | some g =>
      have hne : j ≠ g := fun hjg => h g rfl (hjg ▸ hj)
      rw [Links.replace]
      split
      · exact ⟨fun s => by simp [Links.child_setChild, hne], rfl⟩
      · exact ⟨fun s => by simp [Links.child_setChild, hne], rfl⟩

theorem Linked.rotate {s : Side} {x m b : BinaryTree ι} {n i : ι} {up : Option ι}
    {c : List (Frame ι)} (h : Linked k up (some i) (join s (join s x n m) i b))
    (hc : Hole k (some i) up c)
    (hnodup : (inorder (plug (join s (join s x n m) i b) c)).Nodup) :
    Linked (k.rotate s i n) up (some n) (join s x n (join s.other b i m)) ∧
      Hole (k.rotate s i n) (some n) up c := by
  rw [(inorder_plug_perm _ c).nodup_iff, List.nodup_append'] at hnodup
  obtain ⟨hnode, hround, hdisj⟩ := hnodup
  obtain ⟨hi, hib, hsub, hsubb⟩ := nodup_join hnode
  obtain ⟨hnx, hnm, -, hxm⟩ := nodup_join hsub
  have hmnodup : (inorder m).Nodup := by
    have hperm := (inorder_join_perm s x m n).nodup_iff.mp hsub
    exact (List.nodup_append'.mp (List.nodup_cons.mp hperm).2).2.1
  have hin : i ≠ n := fun hin => hi (mem_join.mpr (.inl hin))
  have him : i ∉ inorder m := fun him => hi (mem_join.mpr (.inr (.inr him)))
  have hix : i ∉ inorder x := fun hix => hi (mem_join.mpr (.inr (.inl hix)))
  have hnb : n ∉ inorder b := fun hnb => hsubb (mem_join.mpr (.inl rfl)) hnb
  obtain ⟨-, hparent, hsubtree, hb⟩ := linked_join.mp h
  obtain ⟨hchild, -, hx, hm⟩ := linked_join.mp hsubtree
  have hmi : k.child s.other n ≠ some i := fun hmi => him (Linked.top_mem (hmi ▸ hm))
  -- A node that is neither `i`, `n` nor the top of `m` keeps its links.
  have hturn : ∀ l : List ι, i ∉ l → n ∉ l → (∀ w ∈ inorder m, w ∉ l) →
      Agrees k (k.turn s i n) l := by
    intro l hil hnl hml j hj
    have hji : j ≠ i := fun h => hil (h ▸ hj)
    have hjn : j ≠ n := fun h => hnl (h ▸ hj)
    have hjm : k.child s.other n ≠ some j := fun h => hml j (Linked.top_mem (h ▸ hm)) hj
    constructor
    · intro s'
      simp [Links.child_turn, hji, hjn]
    · simp [Links.parent_turn hmi, hji, hjn, hjm]
  have hturned : Linked (k.turn s i n) up (some n) (join s x n (join s.other b i m)) := by
    refine linked_join.mpr ⟨rfl, ?_, ?_, linked_join.mpr ⟨?_, ?_, ?_, ?_⟩⟩
    · simp [Links.parent_turn hmi, hin.symm, hparent]
    · have hside : (k.turn s i n).child s n = k.child s n := by
        simp [Links.child_turn, hin.symm, s.other_ne.symm]
      rw [hside]
      exact hx.congr (hturn _ hix hnx fun w hw hwx => hxm hwx hw)
    · simp [Links.child_turn]
    · simp [Links.parent_turn hmi]
    · have hside : (k.turn s i n).child s.other i = k.child s.other i := by
        simp [Links.child_turn, hin, s.other_ne]
      rw [hside]
      exact hb.congr (hturn _ hib hnb fun w hw hwb =>
        hsubb (mem_join.mpr (.inr (.inr hw))) hwb)
    · have hside : (k.turn s i n).child s.other.other i = k.child s.other n := by
        have hother : s.other.other = s := by cases s <;> rfl
        simp [hother, Links.child_turn, hin]
      rw [hside]
      refine hm.reparent ?_ ?_ ?_ hmnodup
      · intro j hj s'
        have hji : j ≠ i := fun h => him (h ▸ hj)
        have hjn : j ≠ n := fun h => hnm (h ▸ hj)
        simp [Links.child_turn, hji, hjn]
      · intro j hj htop
        have hji : j ≠ i := fun h => him (h ▸ hj)
        have hjn : j ≠ n := fun h => hnm (h ▸ hj)
        simp [Links.parent_turn hmi, hji, hjn, htop.symm]
      · intro j htop
        have hj := Linked.top_mem (htop ▸ hm)
        have hji : j ≠ i := fun h => him (h ▸ hj)
        have hjn : j ≠ n := fun h => hnm (h ▸ hj)
        simp [Links.parent_turn hmi, hji, hjn, htop]
  have hhole : Hole (k.turn s i n) (some i) up c := by
    refine hc.congr (k.root_turn s i n) (hturn _ ?_ ?_ ?_)
    · exact fun hic => hdisj (mem_join.mpr (.inl rfl)) hic
    · exact fun hnc => hdisj (mem_join.mpr (.inr (.inl (mem_join.mpr (.inl rfl))))) hnc
    · exact fun w hw hwc => hdisj (mem_join.mpr (.inr (.inl (mem_join.mpr (.inr (.inr hw)))))) hwc
  rw [Links.rotate, hparent]
  constructor
  · refine hturned.congr (Links.replace_agrees _ fun g hg hmem => ?_)
    rw [inorder_rotate] at hmem
    exact hdisj hmem (hc.up_mem hg)
  · exact hhole.replace hround fun hic => hdisj (mem_join.mpr (.inl rfl)) hic

theorem Hole.leaf {up : Option ι} {i : ι} {f : Frame ι} {c : List (Frame ι)}
    (h : Hole k none up (f :: c)) (hnodup : (around (f :: c)).Nodup)
    (hi : i ∉ around (f :: c)) (hchild : ∀ s, k.child s i = none) :
    Linked ((k.setParent i up).setChild f.side f.node (some i)) up (some i)
        (.node i .nil .nil) ∧
      Hole ((k.setParent i up).setChild f.side f.node (some i)) (some i) up (f :: c) := by
  have hne : i ≠ f.node := fun h => hi (mem_around_cons.mpr (.inl h))
  constructor
  · refine ⟨rfl, ?_, ?_, ?_⟩
    · simp [Links.setChild, Links.parent_setParent]
    · simp [Linked, Links.child_setChild, hne, Links.setParent, hchild]
    · simp [Linked, Links.child_setChild, hne, Links.setParent, hchild]
  · have hset : Hole (k.setParent i up) none up (f :: c) := by
      refine h.congr rfl fun j hj => ⟨fun _ => rfl, ?_⟩
      have hji : j ≠ i := fun h => hi (h ▸ hj)
      simp [Links.parent_setParent, hji]
    exact hset.setChild hnodup

end Update

end LinkedTree
