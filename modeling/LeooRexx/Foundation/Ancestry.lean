import Mathlib.Data.Finset.Card
import Mathlib.Data.Finset.Range
import Mathlib.Logic.Relation

/-!
# Acyclic relations

`r a b` says that `b` is a parent of `a`.  An acyclic relation stays acyclic when an edge is
added whose target does not lead back to its source.  Over the numbers below `n` an element
of an acyclic relation has more ancestors than each of its parents, which bounds a recursion
that follows the parents.
-/

namespace LeooRexx

open Relation

variable {α : Type} {r r' : α → α → Prop} {a b x y : α}

def Acyclic (r : α → α → Prop) : Prop := ∀ x, ¬ TransGen r x x

theorem Acyclic.not_self (h : Acyclic r) : ¬ r x x := by
  intro hself
  exact h x (.single hself)

theorem Acyclic.swap (h : Acyclic r) : Acyclic (Function.swap r) := by
  intro x hcycle
  exact h x (transGen_swap.mp hcycle)

theorem transGen_addEdge (hadd : ∀ x y, r' x y → r x y ∨ (x = a ∧ y = b))
    (h : TransGen r' x y) :
    TransGen r x y ∨ (ReflTransGen r x a ∧ ReflTransGen r b y) := by
  induction h with
  | single hstep =>
      rcases hadd _ _ hstep with hold | ⟨rfl, rfl⟩
      · exact .inl (.single hold)
      · exact .inr ⟨.refl, .refl⟩
  | tail _ hstep ih =>
      rcases ih with hpath | ⟨hsource, htarget⟩
      · rcases hadd _ _ hstep with hold | ⟨rfl, rfl⟩
        · exact .inl (hpath.tail hold)
        · exact .inr ⟨hpath.to_reflTransGen, .refl⟩
      · rcases hadd _ _ hstep with hold | ⟨rfl, rfl⟩
        · exact .inr ⟨hsource, htarget.tail hold⟩
        · exact .inr ⟨hsource, .refl⟩

theorem Acyclic.addEdge (h : Acyclic r) (hadd : ∀ x y, r' x y → r x y ∨ (x = a ∧ y = b))
    (hback : ¬ ReflTransGen r b a) : Acyclic r' := by
  intro x hcycle
  rcases transGen_addEdge hadd hcycle with hold | ⟨hsource, htarget⟩
  · exact h x hold
  · exact hback (htarget.trans hsource)

theorem not_reflTransGen_of_no_child (hne : x ≠ a) (hnone : ∀ y, ¬ r y a) :
    ¬ ReflTransGen r x a := by
  intro hpath
  rcases hpath.cases_tail with heq | ⟨y, -, hstep⟩
  · exact hne heq.symm
  · exact hnone y hstep

section depth

open Classical in
noncomputable def ancestorCount (r : ℕ → ℕ → Prop) (n x : ℕ) : ℕ :=
  ((Finset.range n).filter fun y => TransGen r x y).card

variable {r : ℕ → ℕ → Prop} {n x y : ℕ}

theorem ancestorCount_le : ancestorCount r n x ≤ n := by
  classical
  calc ancestorCount r n x ≤ (Finset.range n).card := Finset.card_filter_le _ _
    _ = n := Finset.card_range n

theorem Acyclic.ancestorCount_lt (h : Acyclic r) (hstep : r x y) (hy : y < n) :
    ancestorCount r n y < ancestorCount r n x := by
  classical
  apply Finset.card_lt_card
  rw [Finset.ssubset_iff_of_subset]
  · refine ⟨y, ?_, ?_⟩
    · simp [hy, TransGen.single hstep]
    · simp [h y]
  · intro z hz
    simp only [Finset.mem_filter] at hz ⊢
    exact ⟨hz.1, .head hstep hz.2⟩

end depth

end LeooRexx
