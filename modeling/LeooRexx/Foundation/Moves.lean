import Mathlib.Data.List.Nodup
import Mathlib.Logic.Function.Basic

/-!
# Moving values in a store

A list of moves is carried out one after the other until one has no value to move or a key
that is not usable.  Such a list leaves the store as it is exactly when it is idle: up to the
move that fails each finds its value at its target already.
-/

namespace LeooRexx

namespace Moves

variable {κ ν : Type} [DecidableEq κ] (usable : κ → Bool)

def move : List (κ × κ) → (κ → Option ν) → (κ → Option ν) × Bool
  | [], s => (s, true)
  | (source, target) :: rest, s =>
      if usable source && usable target && (s source).isSome then
        move rest (Function.update s target (s source))
      else (s, false)

def drop : List κ → (κ → Option ν) → (κ → Option ν) × Bool
  | [], s => (s, true)
  | k :: rest, s =>
      if usable k && (s k).isSome then drop rest (Function.update s k none) else (s, false)

def Movable (l : List (κ × κ)) (s : κ → Option ν) : Prop :=
  ∀ x ∈ l, usable x.1 = true ∧ usable x.2 = true ∧ (s x.1).isSome

def Idle : List (κ × κ) → (κ → Option ν) → Prop
  | [], _ => True
  | (source, target) :: rest, s =>
      (usable source && usable target && (s source).isSome) = true →
        s target = s source ∧ Idle rest s

def Droppable (l : List κ) (s : κ → Option ν) : Prop :=
  ∀ k ∈ l, usable k = true ∧ (s k).isSome

variable {usable} {l : List (κ × κ)} {keys : List κ} {s : κ → Option ν}

theorem move_cons {source target : κ} :
    move usable ((source, target) :: l) s =
      if (usable source && usable target && (s source).isSome) = true then
        move usable l (Function.update s target (s source)) else (s, false) := rfl

theorem drop_cons {k : κ} :
    drop usable (k :: keys) s =
      if (usable k && (s k).isSome) = true then drop usable keys (Function.update s k none)
      else (s, false) := rfl

theorem move_frame {k : κ} (hk : ∀ x ∈ l, x.2 ≠ k) : (move usable l s).1 k = s k := by
  induction l generalizing s with
  | nil => rfl
  | cons x l ih =>
      obtain ⟨source, target⟩ := x
      rw [move_cons]
      split
      · rw [ih fun y hy => hk y (by simp [hy])]
        exact Function.update_of_ne (hk _ List.mem_cons_self).symm _ _
      · rfl

theorem move_frame_until {l' : List (κ × κ)} {k : κ} (hk : ∀ x ∈ l, x.2 ≠ k)
    (hstop : ∀ x ∈ l'.head?, (usable x.1 && usable x.2) = false) :
    (move usable (l ++ l') s).1 k = s k := by
  induction l generalizing s with
  | nil =>
      cases l' with
      | nil => rfl
      | cons x l' =>
          have hx := hstop x rfl
          rw [List.nil_append, move_cons, hx, Bool.false_and, if_neg Bool.false_ne_true]
  | cons x l ih =>
      obtain ⟨source, target⟩ := x
      rw [List.cons_append, move_cons]
      split
      · rw [ih fun y hy => hk y (by simp [hy])]
        exact Function.update_of_ne (hk _ List.mem_cons_self).symm _ _
      · rfl

theorem move_of_idle (h : Idle usable l s) : (move usable l s).1 = s := by
  induction l generalizing s with
  | nil => rfl
  | cons x l ih =>
      obtain ⟨source, target⟩ := x
      rw [move_cons]
      split
      next hmoves =>
        obtain ⟨hsame, hrest⟩ := h hmoves
        rw [← hsame, Function.update_eq_self]
        exact ih hrest
      next => rfl

theorem move_unchanged_iff (hnodup : (l.map Prod.snd).Nodup) :
    (move usable l s).1 = s ↔ Idle usable l s := by
  refine ⟨fun h => ?_, move_of_idle⟩
  induction l generalizing s with
  | nil => trivial
  | cons x l ih =>
      obtain ⟨source, target⟩ := x
      rw [List.map_cons, List.nodup_cons] at hnodup
      intro hmoves
      rw [move_cons, if_pos hmoves] at h
      have hsame : s source = s target := by
        rw [← congrFun h target, move_frame fun y hy heq =>
          hnodup.1 (List.mem_map.mpr ⟨y, hy, heq⟩), Function.update_self]
      rw [hsame, Function.update_eq_self] at h
      exact ⟨hsame.symm, ih hnodup.2 h⟩

theorem move_of_movable (h : Movable usable l s) : (move usable l s).2 = true := by
  induction l generalizing s with
  | nil => rfl
  | cons x l ih =>
      obtain ⟨source, target⟩ := x
      obtain ⟨hsource, htarget, hsome⟩ := h _ List.mem_cons_self
      rw [move_cons, if_pos (by simp [hsource, htarget, hsome])]
      refine ih fun y hy => ?_
      obtain ⟨hy₁, hy₂, hy₃⟩ := h y (by simp [hy])
      refine ⟨hy₁, hy₂, ?_⟩
      rw [Function.update_apply]
      split
      · exact hsome
      · exact hy₃

theorem usable_of_move (h : (move usable l s).2 = true) :
    ∀ x ∈ l, usable x.1 = true ∧ usable x.2 = true := by
  induction l generalizing s with
  | nil => simp
  | cons x l ih =>
      obtain ⟨source, target⟩ := x
      rw [move_cons] at h
      split at h
      next hmoves =>
        simp only [Bool.and_eq_true] at hmoves
        exact List.forall_mem_cons.mpr ⟨hmoves.1, ih h⟩
      next => cases h

theorem movable_of_idle (hidle : Idle usable l s) (h : (move usable l s).2 = true) :
    Movable usable l s := by
  induction l with
  | nil => simp [Movable]
  | cons x l ih =>
      obtain ⟨source, target⟩ := x
      rw [move_cons] at h
      split at h
      next hmoves =>
        obtain ⟨hsame, hrest⟩ := hidle hmoves
        rw [← hsame, Function.update_eq_self] at h
        simp only [Bool.and_eq_true] at hmoves
        exact List.forall_mem_cons.mpr ⟨⟨hmoves.1.1, hmoves.1.2, hmoves.2⟩, ih hrest h⟩
      next => cases h

theorem idle_value (hidle : Idle usable l s) (h : Movable usable l s) {x : κ × κ} (hx : x ∈ l) :
    s x.2 = s x.1 := by
  induction l with
  | nil => cases hx
  | cons y l ih =>
      obtain ⟨source, target⟩ := y
      obtain ⟨⟨hsource, htarget, hsome⟩, hrest⟩ := List.forall_mem_cons.mp h
      obtain ⟨hsame, hidle'⟩ := hidle (by simp [hsource, htarget, hsome])
      rcases List.mem_cons.mp hx with rfl | hx
      · exact hsame
      · exact ih hidle' hrest hx

section Ordered

variable (hordered : l.Pairwise fun x y => x.2 ≠ y.1)
include hordered

theorem movable_of_move (h : (move usable l s).2 = true) : Movable usable l s := by
  induction l generalizing s with
  | nil => simp [Movable]
  | cons x l ih =>
      obtain ⟨source, target⟩ := x
      rw [List.pairwise_cons] at hordered
      rw [move_cons] at h
      split at h
      next hmoves =>
        simp only [Bool.and_eq_true] at hmoves
        refine List.forall_mem_cons.mpr ⟨⟨hmoves.1.1, hmoves.1.2, hmoves.2⟩, fun y hy => ?_⟩
        obtain ⟨hy₁, hy₂, hy₃⟩ := ih hordered.2 h y hy
        rw [Function.update_of_ne (hordered.1 y hy).symm] at hy₃
        exact ⟨hy₁, hy₂, hy₃⟩
      next => cases h

theorem move_value (hnodup : (l.map Prod.snd).Nodup) (h : (move usable l s).2 = true)
    {x : κ × κ} (hx : x ∈ l) : (move usable l s).1 x.2 = s x.1 := by
  induction l generalizing s with
  | nil => cases hx
  | cons y l ih =>
      obtain ⟨source, target⟩ := y
      rw [List.pairwise_cons] at hordered
      rw [List.map_cons, List.nodup_cons] at hnodup
      rw [move_cons] at h ⊢
      split at h
      next hmoves =>
        rw [if_pos hmoves]
        rcases List.mem_cons.mp hx with rfl | hx
        · rw [move_frame fun y hy heq => hnodup.1 (List.mem_map.mpr ⟨y, hy, heq⟩),
            Function.update_self]
        · rw [ih hordered.2 hnodup.2 h hx, Function.update_of_ne (hordered.1 x hx).symm]
      next => cases h

end Ordered

theorem drop_frame {k : κ} (hk : k ∉ keys) : (drop usable keys s).1 k = s k := by
  induction keys generalizing s with
  | nil => rfl
  | cons x keys ih =>
      rw [List.mem_cons, not_or] at hk
      rw [drop_cons]
      split
      · rw [ih hk.2, Function.update_of_ne hk.1]
      · rfl

theorem drop_iff_droppable (hnodup : keys.Nodup) :
    (drop usable keys s).2 = true ↔ Droppable usable keys s := by
  induction keys generalizing s with
  | nil => simp [drop, Droppable]
  | cons x keys ih =>
      rw [List.nodup_cons] at hnodup
      have hrest : Droppable usable keys (Function.update s x none) ↔ Droppable usable keys s :=
        forall₂_congr fun k hk => by
          rw [Function.update_of_ne (ne_of_mem_of_not_mem hk hnodup.1)]
      rw [drop_cons, Droppable, List.forall_mem_cons]
      split
      next hdrops =>
        simp only [Bool.and_eq_true] at hdrops
        rw [ih hnodup.2, hrest, and_iff_right hdrops]
        rfl
      next hdrops =>
        simp only [Bool.and_eq_true] at hdrops
        simp [hdrops]

theorem drop_value (h : (drop usable keys s).2 = true) {k : κ} (hk : k ∈ keys) :
    (drop usable keys s).1 k = none := by
  induction keys generalizing s with
  | nil => cases hk
  | cons x keys ih =>
      rw [drop_cons] at h ⊢
      split at h
      next hdrops =>
        rw [if_pos hdrops]
        by_cases hin : k ∈ keys
        · exact ih h hin
        · obtain rfl : k = x := (List.mem_cons.mp hk).resolve_right hin
          rw [drop_frame hin, Function.update_self]
      next => cases h

theorem drop_unchanged_iff (hnodup : keys.Nodup) :
    (drop usable keys s).1 = s ↔ ∀ k ∈ keys.head?, (usable k && (s k).isSome) = false := by
  cases keys with
  | nil => simp [drop]
  | cons x keys =>
      rw [drop_cons]
      split
      next hdrops =>
        refine iff_of_false (fun h => ?_) fun hhead => by
          rw [hhead x rfl] at hdrops
          cases hdrops
        have hnone := congrFun h x
        rw [drop_frame (List.nodup_cons.mp hnodup).1, Function.update_self] at hnone
        simp [← hnone] at hdrops
      next hdrops => simpa using hdrops

end Moves

end LeooRexx
