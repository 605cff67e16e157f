import Mathlib.Algebra.BigOperators.Group.List.Basic
import Mathlib.Algebra.BigOperators.Ring.List
import Mathlib.Data.List.Forall2
import Mathlib.Tactic.Ring

/-!
# Row-major offsets

The position of a subscript list in an array of several dimensions, where the last
subscript moves fastest.  Subscripts and offsets count from zero.
-/

namespace RowMajor

def InRange (subs dims : List ℕ) : Prop := List.Forall₂ (· < ·) subs dims

instance (subs dims : List ℕ) : Decidable (InRange subs dims) :=
  inferInstanceAs (Decidable (List.Forall₂ _ _ _))

def offset : List ℕ → List ℕ → ℕ
  | _ :: ds, s :: ss => s * ds.prod + offset ds ss
  | _, _ => 0

def unravel : List ℕ → ℕ → List ℕ × ℕ
  | [], n => ([], n)
  | d :: ds, n =>
      let (ss, q) := unravel ds n
      (q % d :: ss, q / d)

variable {d s : ℕ} {dims subs subs' ds ss : List ℕ}

theorem inRange_nil : InRange [] [] := List.Forall₂.nil

@[simp]
theorem inRange_cons : InRange (s :: ss) (d :: ds) ↔ s < d ∧ InRange ss ds :=
  List.forall₂_cons

theorem InRange.length_eq (h : InRange subs dims) : subs.length = dims.length :=
  List.Forall₂.length_eq h

@[simp]
theorem offset_cons : offset (d :: ds) (s :: ss) = s * ds.prod + offset ds ss := rfl

theorem offset_lt (h : InRange subs dims) : offset dims subs < dims.prod := by
  induction h with
  | nil => exact Nat.one_pos
  | @cons s d ss ds hs _ ih =>
      calc s * ds.prod + offset ds ss < s * ds.prod + ds.prod := by omega
        _ = (s + 1) * ds.prod := by ring
        _ ≤ d * ds.prod := Nat.mul_le_mul_right _ hs
        _ = (d :: ds).prod := (List.prod_cons ..).symm

theorem unravel_add (h : InRange subs dims) (k : ℕ) :
    unravel dims (offset dims subs + k * dims.prod) = (subs, k) := by
  induction h generalizing k with
  | nil => simp [unravel, offset]
  | @cons s d ss ds hs _ ih =>
      have harg : offset (d :: ds) (s :: ss) + k * (d :: ds).prod =
          offset ds ss + (s + k * d) * ds.prod := by
        rw [offset_cons, List.prod_cons]
        ring
      have hpos : 0 < d := Nat.zero_lt_of_lt hs
      rw [unravel, harg, ih]
      simp [Nat.add_mul_mod_self_right, Nat.mod_eq_of_lt hs, Nat.add_mul_div_right, hpos,
        Nat.div_eq_of_lt hs]

theorem unravel_offset (h : InRange subs dims) : unravel dims (offset dims subs) = (subs, 0) := by
  simpa using unravel_add h 0

theorem offset_inj (h : InRange subs dims) (h' : InRange subs' dims)
    (heq : offset dims subs = offset dims subs') : subs = subs' := by
  have hunravel := unravel_offset h
  rw [heq, unravel_offset h'] at hunravel
  exact (congrArg Prod.fst hunravel).symm

theorem offset_unravel (hpos : ∀ d ∈ dims, 0 < d) (n : ℕ) :
    InRange (unravel dims n).1 dims ∧
      offset dims (unravel dims n).1 + (unravel dims n).2 * dims.prod = n := by
  induction dims with
  | nil => simp [unravel, offset, InRange]
  | cons d ds ih =>
      obtain ⟨hrange, heq⟩ := ih fun d' hd' => hpos d' (List.mem_cons_of_mem _ hd')
      obtain ⟨ss, q, hunravel⟩ : ∃ ss q, unravel ds n = (ss, q) := ⟨_, _, rfl⟩
      rw [hunravel] at hrange heq
      have hcons : unravel (d :: ds) n = (q % d :: ss, q / d) := by rw [unravel, hunravel]
      rw [hcons]
      refine ⟨inRange_cons.mpr ⟨Nat.mod_lt q (hpos d List.mem_cons_self), hrange⟩, ?_⟩
      calc q % d * ds.prod + offset ds ss + q / d * (d * ds.prod)
          = offset ds ss + (d * (q / d) + q % d) * ds.prod := by ring
        _ = offset ds ss + q * ds.prod := by rw [Nat.div_add_mod]
        _ = n := heq

theorem offset_unravel_of_lt (hpos : ∀ d ∈ dims, 0 < d) {n : ℕ} (h : n < dims.prod) :
    InRange (unravel dims n).1 dims ∧ offset dims (unravel dims n).1 = n := by
  obtain ⟨hrange, heq⟩ := offset_unravel hpos n
  have hrest : (unravel dims n).2 = 0 := by
    by_contra hne
    have hle : dims.prod ≤ (unravel dims n).2 * dims.prod :=
      Nat.le_mul_of_pos_left _ (Nat.pos_of_ne_zero hne)
    omega
  rw [hrest] at heq
  exact ⟨hrange, by omega⟩

theorem pos_of_prod_pos (h : 0 < dims.prod) : ∀ d ∈ dims, 0 < d := by
  intro d hd
  apply Nat.pos_of_ne_zero
  rintro rfl
  rw [List.prod_eq_zero hd] at h
  exact absurd h (lt_irrefl 0)

end RowMajor
