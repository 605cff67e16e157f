import LeooRexx.Foundation.LinkedTree

/-!
# HeightBalanced trees

Every node stores the heights of its two subtrees, which differ by at most one.  A subtree at the
end of a path that grows by one level keeps the tree balanced if some node of the path absorbs the
level: its other side was the deeper one, or a rotation takes the level back.
-/

namespace LinkedTree

open BinaryTree

variable {ι : Type*} {d d' : Side → ι → ℕ}

@[simp] theorem Side.other_other (s : Side) : s.other.other = s := by
  cases s <;> rfl

theorem height_join (s : Side) (t b : BinaryTree ι) (i : ι) :
    (join s t i b).height = max t.height b.height + 1 := by
  cases s with
  | left => rfl
  | right => exact congrArg (· + 1) (Nat.max_comm ..)

/-- The node `i` stores the heights `h` on the side `s` and `o` on the other side. -/
structure Level (d : Side → ι → ℕ) (s : Side) (i : ι) (h o : ℕ) : Prop where
  side : d s i = h
  other : d s.other i = o
  le : h ≤ o + 1
  ge : o ≤ h + 1

theorem level_other {s : Side} {i : ι} {h o : ℕ} : Level d s.other i h o ↔ Level d s i o h := by
  constructor
  · rintro ⟨hside, hother, hle, hge⟩
    exact ⟨by simpa using hother, hside, hge, hle⟩
  · rintro ⟨hside, hother, hle, hge⟩
    exact ⟨hother, by simpa using hside, hge, hle⟩

/-- Every node stores the heights of its subtrees, and they differ by at most one. -/
def HeightBalanced (d : Side → ι → ℕ) : BinaryTree ι → Prop
  | .nil => True
  | .node i l r => Level d .left i l.height r.height ∧ HeightBalanced d l ∧ HeightBalanced d r

theorem balanced_join {s : Side} {t b : BinaryTree ι} {i : ι} :
    HeightBalanced d (join s t i b) ↔
      Level d s i t.height b.height ∧ HeightBalanced d t ∧ HeightBalanced d b := by
  cases s with
  | left => rfl
  | right =>
      have hlevel : Level d .left i b.height t.height ↔ Level d .right i t.height b.height :=
        level_other (s := .right)
      rw [← hlevel, and_comm (a := HeightBalanced d t)]
      rfl

theorem HeightBalanced.congr {t : BinaryTree ι} (h : HeightBalanced d t)
    (heq : ∀ i ∈ inorder t, ∀ s, d' s i = d s i) : HeightBalanced d' t := by
  induction t with
  | nil => trivial
  | node i l r ihl ihr =>
      obtain ⟨⟨hside, hother, hle, hge⟩, hl, hr⟩ := h
      have hi := heq i (by simp [inorder])
      refine ⟨⟨(hi _).trans hside, (hi _).trans hother, hle, hge⟩,
        ihl hl fun j hj => heq j (by simp [inorder, hj]),
        ihr hr fun j hj => heq j (by simp [inorder, hj])⟩

/-! ## Paths -/

def PathBalanced (d : Side → ι → ℕ) : ℕ → List (Frame ι) → Prop
  | _, [] => True
  | h, f :: c => Level d f.side f.node h f.sibling.height ∧ HeightBalanced d f.sibling ∧
      PathBalanced d (max h f.sibling.height + 1) c

def pathHeight : ℕ → List (Frame ι) → ℕ
  | h, [] => h
  | h, f :: c => pathHeight (max h f.sibling.height + 1) c

theorem le_pathHeight (h : ℕ) (c : List (Frame ι)) : h ≤ pathHeight h c := by
  induction c generalizing h with
  | nil => exact Nat.le_refl h
  | cons f c ih =>
      have hle := ih (max h f.sibling.height + 1)
      rw [pathHeight]
      omega

theorem height_plug (t : BinaryTree ι) (c : List (Frame ι)) :
    (plug t c).height = pathHeight t.height c := by
  induction c generalizing t with
  | nil => rfl
  | cons f c ih => rw [plug, ih, height_join, pathHeight]

theorem balanced_plug {t : BinaryTree ι} {c : List (Frame ι)} :
    HeightBalanced d (plug t c) ↔ HeightBalanced d t ∧ PathBalanced d t.height c := by
  induction c generalizing t with
  | nil => simp [plug, PathBalanced]
  | cons f c ih =>
      rw [plug, ih, balanced_join, height_join, PathBalanced]
      tauto

theorem PathBalanced.congr {h : ℕ} {c : List (Frame ι)} (hc : PathBalanced d h c)
    (heq : ∀ i ∈ around c, ∀ s, d' s i = d s i) : PathBalanced d' h c := by
  induction c generalizing h with
  | nil => trivial
  | cons f c ih =>
      obtain ⟨⟨hside, hother, hle, hge⟩, hsibling, hrest⟩ := hc
      have hnode := heq f.node (mem_around_cons.mpr (.inl rfl))
      refine ⟨⟨(hnode _).trans hside, (hnode _).trans hother, hle, hge⟩,
        hsibling.congr fun i hi => heq i (mem_around_cons.mpr (.inr (.inl hi))),
        ih hrest fun i hi => heq i (mem_around_cons.mpr (.inr (.inr hi)))⟩

def Settled (d : Side → ι → ℕ) : List (Frame ι) → Prop
  | [] => True
  | [_] => True
  | f :: g :: c => d f.side.other f.node ≤ d f.side f.node ∧ Settled d (g :: c)

/--
The first node of a path with sides of different depth, above a subtree that grows, is deeper
beside the path, or it is deeper on the side on which the subtree below it grows as well.
-/
def TakesUp (d : Side → ι → ℕ) : Option Side → List (Frame ι) → Prop
  | _, [] => True
  | below, f :: c =>
      if d f.side f.node = d f.side.other f.node then TakesUp d (some f.side) c
      else (d f.side f.node < d f.side.other f.node ∨ below = some f.side) ∧ Settled d c

theorem Settled.congr {c : List (Frame ι)} (h : Settled d c)
    (heq : ∀ i ∈ around c, ∀ s, d' s i = d s i) : Settled d' c := by
  induction c with
  | nil => trivial
  | cons f c ih =>
      cases c with
      | nil => trivial
      | cons g c =>
          obtain ⟨hle, hrest⟩ := h
          have hnode := heq f.node (mem_around_cons.mpr (.inl rfl))
          refine ⟨?_, ih hrest fun i hi => heq i (mem_around_cons.mpr (.inr (.inr hi)))⟩
          rw [hnode, hnode]
          exact hle

theorem TakesUp.congr {below : Option Side} {c : List (Frame ι)} (h : TakesUp d below c)
    (heq : ∀ i ∈ around c, ∀ s, d' s i = d s i) : TakesUp d' below c := by
  induction c generalizing below with
  | nil => trivial
  | cons f c ih =>
      have hnode := heq f.node (mem_around_cons.mpr (.inl rfl))
      have hrest : ∀ i ∈ around c, ∀ s, d' s i = d s i := fun i hi =>
        heq i (mem_around_cons.mpr (.inr (.inr hi)))
      rw [TakesUp] at h ⊢
      rw [hnode, hnode]
      split
      · case isTrue heven =>
        rw [if_pos heven] at h
        exact ih h hrest
      · case isFalse huneven =>
        rw [if_neg huneven] at h
        exact ⟨h.1, h.2.congr hrest⟩

/-! ## Trees of the same links -/

theorem Linked.unique {k : Links ι} {up top : Option ι} {t t' : BinaryTree ι}
    (h : Linked k up top t) (h' : Linked k up top t') : t = t' := by
  induction t generalizing up top t' with
  | nil =>
      cases t' with
      | nil => rfl
      | node j l r => exact absurd (h.symm.trans h'.1) (by simp)
  | node i l r ihl ihr =>
      cases t' with
      | nil => exact absurd (h.1.symm.trans h') (by simp)
      | node j l' r' =>
          obtain ⟨htop, -, hl, hr⟩ := h
          obtain ⟨htop', -, hl', hr'⟩ := h'
          obtain rfl : i = j := Option.some.inj (htop.symm.trans htop')
          rw [ihl hl hl', ihr hr hr']

end LinkedTree
