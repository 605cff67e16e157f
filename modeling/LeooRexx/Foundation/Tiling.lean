import Mathlib

/-!
# Tilings of an address range

`Tiles size a e blocks` says that the blocks, each as long as `size` says and none empty,
follow one another from `a` to `e`.  A tiling depends on the sizes of its own blocks only, and
it is kept when a block is split in two.  `TilesAll` is a tiling of several ranges.
-/

namespace LeooRexx

variable {size size' : ℕ → ℕ} {a b e m : ℕ} {blocks left right : List ℕ}

inductive Tiles (size : ℕ → ℕ) : ℕ → ℕ → List ℕ → Prop where
  | nil (e : ℕ) : Tiles size e e []
  | cons {a e : ℕ} {blocks : List ℕ} (hpos : 0 < size a) (h : Tiles size (a + size a) e blocks) :
      Tiles size a e (a :: blocks)

namespace Tiles

theorem le (h : Tiles size a e blocks) : a ≤ e := by
  induction h with
  | nil e => exact Nat.le_refl _
  | cons _ _ ih => omega

theorem of_cons (h : Tiles size a e (b :: blocks)) :
    b = a ∧ 0 < size a ∧ Tiles size (a + size a) e blocks := by
  cases h with
  | cons hpos h => exact ⟨rfl, hpos, h⟩

theorem append (h : Tiles size a m left) (h' : Tiles size m e right) :
    Tiles size a e (left ++ right) := by
  induction h with
  | nil m => exact h'
  | cons hpos _ ih => exact .cons hpos (ih h')

theorem of_append (h : Tiles size a e (left ++ right)) :
    ∃ m, Tiles size a m left ∧ Tiles size m e right := by
  induction left generalizing a with
  | nil => exact ⟨a, .nil a, h⟩
  | cons b left ih =>
      obtain ⟨rfl, hpos, hrest⟩ := of_cons h
      obtain ⟨m, hleft, hright⟩ := ih hrest
      exact ⟨m, .cons hpos hleft, hright⟩

theorem mem (h : Tiles size a e blocks) (hb : b ∈ blocks) :
    a ≤ b ∧ 0 < size b ∧ b + size b ≤ e := by
  induction h with
  | nil e => cases hb
  | cons hpos hrest ih =>
      rcases List.mem_cons.mp hb with rfl | hb
      · exact ⟨Nat.le_refl _, hpos, hrest.le⟩
      · have := ih hb
        omega

theorem congr (h : Tiles size a e blocks) (hsize : ∀ b ∈ blocks, size' b = size b) :
    Tiles size' a e blocks := by
  induction h with
  | nil e => exact .nil e
  | @cons a e blocks hpos hrest ih =>
      have ha := hsize a List.mem_cons_self
      apply Tiles.cons
      · rw [ha]
        exact hpos
      · rw [ha]
        exact ih fun b hb => hsize b (List.mem_cons_of_mem a hb)

theorem nodup (h : Tiles size a e blocks) : blocks.Nodup := by
  induction h with
  | nil e => exact List.nodup_nil
  | cons hpos hrest ih =>
      rw [List.nodup_cons]
      refine ⟨?_, ih⟩
      intro hmem
      have := hrest.mem hmem
      omega

theorem disjoint {c : ℕ} (h : Tiles size a e blocks) (hb : b ∈ blocks) (hc : c ∈ blocks)
    (hne : b ≠ c) : b + size b ≤ c ∨ c + size c ≤ b := by
  induction h with
  | nil e => cases hb
  | cons hpos hrest ih =>
      rcases List.mem_cons.mp hb with rfl | hb'
      · rcases List.mem_cons.mp hc with rfl | hc'
        · exact absurd rfl hne
        · exact .inl (hrest.mem hc').1
      · rcases List.mem_cons.mp hc with rfl | hc'
        · exact .inr (hrest.mem hb').1
        · exact ih hb' hc'

theorem length_eq (h : Tiles size a e blocks) : a + (blocks.map size).sum = e := by
  induction h with
  | nil e => rfl
  | cons _ _ ih =>
      rw [List.map_cons, List.sum_cons]
      omega

theorem length_le (h : Tiles size a e blocks) : blocks.length ≤ e - a := by
  induction h with
  | nil e => simp
  | cons hpos hrest ih =>
      have := hrest.le
      rw [List.length_cons]
      omega

theorem split (h : Tiles size a e (left ++ b :: right)) (hfirst : 0 < size' b)
    (hsecond : 0 < size' (b + size' b))
    (hsum : size' b + size' (b + size' b) = size b)
    (hleft : ∀ c ∈ left, size' c = size c) (hright : ∀ c ∈ right, size' c = size c) :
    Tiles size' a e (left ++ b :: (b + size' b) :: right) := by
  obtain ⟨m, hbefore, hbehind⟩ := of_append h
  obtain ⟨rfl, -, hrest⟩ := of_cons hbehind
  apply (hbefore.congr hleft).append
  apply Tiles.cons hfirst
  apply Tiles.cons hsecond
  have hstart : b + size' b + size' (b + size' b) = b + size b := by omega
  rw [hstart]
  exact hrest.congr hright

end Tiles

/-! ## Several ranges -/

inductive TilesAll (size : ℕ → ℕ) : List (ℕ × ℕ) → List ℕ → Prop where
  | nil : TilesAll size [] []
  | cons {a e : ℕ} {ranges : List (ℕ × ℕ)} {left right : List ℕ} (h : Tiles size a e left)
      (hrest : TilesAll size ranges right) : TilesAll size ((a, e) :: ranges) (left ++ right)

def Apart (r s : ℕ × ℕ) : Prop := r.2 ≤ s.1 ∨ s.2 ≤ r.1

theorem Apart.symm {r s : ℕ × ℕ} (h : Apart r s) : Apart s r := Or.symm h

namespace TilesAll

variable {ranges before after : List (ℕ × ℕ)}

theorem congr (h : TilesAll size ranges blocks) (hsize : ∀ b ∈ blocks, size' b = size b) :
    TilesAll size' ranges blocks := by
  induction h with
  | nil => exact .nil
  | cons htiles _ ih =>
      apply TilesAll.cons
      · exact htiles.congr fun b hb => hsize b (List.mem_append_left _ hb)
      · exact ih fun b hb => hsize b (List.mem_append_right _ hb)

theorem mem (h : TilesAll size ranges blocks) (hb : b ∈ blocks) :
    ∃ r ∈ ranges, r.1 ≤ b ∧ 0 < size b ∧ b + size b ≤ r.2 := by
  induction h with
  | nil => cases hb
  | @cons a e ranges left right htiles _ ih =>
      rcases List.mem_append.mp hb with hb | hb
      · exact ⟨(a, e), List.mem_cons_self, htiles.mem hb⟩
      · obtain ⟨r, hr, hin⟩ := ih hb
        exact ⟨r, List.mem_cons_of_mem _ hr, hin⟩

theorem disjoint (h : TilesAll size ranges blocks) (hapart : ranges.Pairwise Apart) {c : ℕ}
    (hb : b ∈ blocks) (hc : c ∈ blocks) (hne : b ≠ c) : b + size b ≤ c ∨ c + size c ≤ b := by
  induction h with
  | nil => cases hb
  | @cons a e ranges left right htiles hrest ih =>
      obtain ⟨hfirst, hapart⟩ := List.pairwise_cons.mp hapart
      have hcross : ∀ x ∈ left, ∀ y ∈ right, x + size x ≤ y ∨ y + size y ≤ x := by
        intro x hx y hy
        have hxin := htiles.mem hx
        obtain ⟨r, hr, hyin⟩ := hrest.mem hy
        have := hfirst r hr
        simp only [Apart] at this
        omega
      rcases List.mem_append.mp hb with hb | hb
      · rcases List.mem_append.mp hc with hc | hc
        · exact htiles.disjoint hb hc hne
        · exact hcross b hb c hc
      · rcases List.mem_append.mp hc with hc | hc
        · exact (hcross c hc b hb).symm
        · exact ih hapart hb hc

theorem nodup (h : TilesAll size ranges blocks) (hapart : ranges.Pairwise Apart) :
    blocks.Nodup := by
  induction h with
  | nil => exact List.nodup_nil
  | @cons a e ranges left right htiles hrest ih =>
      obtain ⟨hfirst, hapart⟩ := List.pairwise_cons.mp hapart
      apply List.Nodup.append htiles.nodup (ih hapart)
      intro x hx hy
      have hxin := htiles.mem hx
      obtain ⟨r, hr, hyin⟩ := hrest.mem hy
      have := hfirst r hr
      simp only [Apart] at this
      omega

theorem split (h : TilesAll size ranges blocks) (hb : b ∈ blocks) (hnodup : blocks.Nodup)
    (hfirst : 0 < size' b) (hsecond : 0 < size' (b + size' b))
    (hsum : size' b + size' (b + size' b) = size b)
    (hother : ∀ c ∈ blocks, c ≠ b → size' c = size c) :
    ∃ blocks', TilesAll size' ranges blocks' ∧ blocks'.Perm ((b + size' b) :: blocks) := by
  induction h with
  | nil => cases hb
  | @cons a e ranges left right htiles hrest ih =>
      have hdisjoint := List.disjoint_of_nodup_append hnodup
      obtain ⟨hleft, hright, -⟩ := List.nodup_append.mp hnodup
      rcases List.mem_append.mp hb with hbl | hbr
      · obtain ⟨before, behind, rfl⟩ := List.append_of_mem hbl
        have hmiddle := List.nodup_middle.mp hleft
        obtain ⟨hnot, -⟩ := List.nodup_cons.mp hmiddle
        have hsplit := htiles.split hfirst hsecond hsum
          (fun c hc => hother c (by simp [hc]) (by
            rintro rfl
            exact hnot (List.mem_append_left behind hc)))
          (fun c hc => hother c (by simp [hc]) (by
            rintro rfl
            exact hnot (List.mem_append_right before hc)))
        refine ⟨_, .cons hsplit (hrest.congr ?_), ?_⟩
        · intro c hc
          apply hother c (List.mem_append_right _ hc)
          rintro rfl
          exact hdisjoint hbl hc
        · have hperm : ((before ++ [b]) ++ (b + size' b) :: behind).Perm
              ((b + size' b) :: ((before ++ [b]) ++ behind)) := List.perm_middle
          simpa using hperm.append_right right
      · obtain ⟨blocks', htiles', hperm⟩ := ih hbr hright
          (fun c hc => hother c (List.mem_append_right left hc))
        refine ⟨left ++ blocks', .cons (htiles.congr ?_) htiles', ?_⟩
        · intro c hc
          apply hother c (List.mem_append_left right hc)
          rintro rfl
          exact hdisjoint hc hbr
        · exact (hperm.append_left left).trans List.perm_middle

theorem insert {new : List ℕ} (h : TilesAll size (before ++ after) blocks)
    (hnew : Tiles size a e new) :
    ∃ blocks', TilesAll size (before ++ (a, e) :: after) blocks' ∧
      blocks'.Perm (new ++ blocks) := by
  induction before generalizing blocks with
  | nil => exact ⟨new ++ blocks, .cons hnew h, .refl _⟩
  | cons r before ih =>
      cases h with
      | @cons a' e' _ left right htiles hrest =>
          obtain ⟨blocks', htiles', hperm⟩ := ih hrest
          refine ⟨left ++ blocks', .cons htiles htiles', ?_⟩
          apply (hperm.append_left left).trans
          rw [← List.append_assoc, ← List.append_assoc]
          exact List.perm_append_comm.append_right right

theorem extend {new : List ℕ} (h : TilesAll size (before ++ (a, m) :: after) blocks)
    (hnew : Tiles size m e new) :
    ∃ blocks', TilesAll size (before ++ (a, e) :: after) blocks' ∧
      blocks'.Perm (new ++ blocks) := by
  induction before generalizing blocks with
  | nil =>
      cases h with
      | @cons _ _ _ left right htiles hrest =>
          refine ⟨(left ++ new) ++ right, .cons (htiles.append hnew) hrest, ?_⟩
          rw [← List.append_assoc]
          exact List.perm_append_comm.append_right right
  | cons r before ih =>
      cases h with
      | @cons a' e' _ left right htiles hrest =>
          obtain ⟨blocks', htiles', hperm⟩ := ih hrest
          refine ⟨left ++ blocks', .cons htiles htiles', ?_⟩
          apply (hperm.append_left left).trans
          rw [← List.append_assoc, ← List.append_assoc]
          exact List.perm_append_comm.append_right right

end TilesAll

end LeooRexx
