import Mathlib.Data.List.Nodup
import Mathlib.Data.Set.Finite.Lemmas
import Mathlib.Logic.Relation
import Mathlib.Order.WellFounded

/-!
# Orders that respect dependencies

Items are placed one after the other: always the first item that is left and needs nothing that
is left.  Either all items get a place, and then nothing needs itself, or the items that are left
need one another in a circle.
-/

namespace LeooRexx

open Relation

variable {α : Type} {items order : List α} {needs : α → α → Prop} {a b : α}

def NeedsWithin (items : List α) (needs : α → α → Prop) (a b : α) : Prop :=
  a ∈ items ∧ b ∈ items ∧ needs a b

def ReadyAfter (items order : List α) (needs : α → α → Prop) (a : α) : Prop :=
  ∀ b ∈ items, needs a b → b ∈ order

inductive Placed (items : List α) (needs : α → α → Prop) : List α → Prop where
  | nil : Placed items needs []
  | next {order front back : List α} {a : α} (h : Placed items needs order)
      (hitems : items = front ++ a :: back) (hleft : a ∉ order)
      (hready : ReadyAfter items order needs a)
      (hfirst : ∀ b ∈ front, b ∉ order → ¬ ReadyAfter items order needs b) :
      Placed items needs (order ++ [a])

namespace Placed

theorem nodup (h : Placed items needs order) : order.Nodup := by
  induction h with
  | nil => exact List.nodup_nil
  | next _ _ hleft _ _ ih => simpa using ih.concat hleft

theorem subset (h : Placed items needs order) : order ⊆ items := by
  induction h with
  | nil => exact List.nil_subset _
  | @next order front back a _ hitems _ _ _ ih =>
      intro b hb
      rcases List.mem_append.mp hb with hb | hb
      · exact ih hb
      · rw [List.mem_singleton.mp hb, hitems]
        exact List.mem_append_right front List.mem_cons_self

theorem at_place (h : Placed items needs order) {pre post : List α}
    (hat : order = pre ++ a :: post) :
    ReadyAfter items pre needs a ∧
      ∃ front back, items = front ++ a :: back ∧
        ∀ b ∈ front, b ∉ pre → ¬ ReadyAfter items pre needs b := by
  induction h generalizing post with
  | nil => exact absurd hat.symm (by simp)
  | @next order front back c h hitems hleft hready hfirst ih =>
      rcases List.eq_nil_or_concat' post with rfl | ⟨post, d, rfl⟩
      · obtain ⟨rfl, hlast⟩ := List.append_inj' hat rfl
        obtain rfl := List.singleton_inj.mp hlast
        exact ⟨hready, front, back, hitems, hfirst⟩
      · have hregroup : order ++ [c] = (pre ++ a :: post) ++ [d] := by
          rw [hat]
          simp
        exact ih (List.append_inj' hregroup rfl).1

section Complete

variable [DecidableEq α]

theorem idxOf_lt (h : Placed items needs order) (hall : items ⊆ order)
    (hneeds : NeedsWithin items needs a b) : order.idxOf b < order.idxOf a := by
  obtain ⟨ha, hb, hab⟩ := hneeds
  obtain ⟨pre, post, hsplit⟩ := List.append_of_mem (hall ha)
  have hpre : b ∈ pre := (h.at_place hsplit).1 b hb hab
  have hnot : a ∉ pre := by
    have hnodup := h.nodup
    rw [hsplit, List.nodup_append] at hnodup
    exact fun hin => hnodup.2.2 a hin a List.mem_cons_self rfl
  rw [hsplit, List.idxOf_append_of_mem hpre, List.idxOf_append_of_notMem hnot,
    List.idxOf_cons_self, Nat.add_zero]
  exact List.idxOf_lt_length_of_mem hpre

theorem no_cycle (h : Placed items needs order) (hall : items ⊆ order) (a : α) :
    ¬ TransGen (NeedsWithin items needs) a a := by
  have hless : ∀ b, TransGen (NeedsWithin items needs) a b → order.idxOf b < order.idxOf a := by
    intro b hpath
    induction hpath with
    | single hstep => exact h.idxOf_lt hall hstep
    | tail _ hstep ih => exact Nat.lt_trans (h.idxOf_lt hall hstep) ih
  exact fun hcycle => Nat.lt_irrefl _ (hless a hcycle)

end Complete

end Placed

theorem exists_cycle {left : List α} (hne : left ≠ []) (hsub : left ⊆ items)
    (hneeds : ∀ a ∈ left, ∃ b ∈ left, needs a b) :
    ∃ a, TransGen (NeedsWithin items needs) a a := by
  by_contra hacyclic
  have hfinite : Finite {a // a ∈ left} := List.finite_toSet left
  let path : {a // a ∈ left} → {a // a ∈ left} → Prop := fun b a =>
    TransGen (NeedsWithin items needs) a.1 b.1
  have htrans : IsTrans {a // a ∈ left} path := ⟨fun _ _ _ hab hbc => hbc.trans hab⟩
  have hirrefl : Std.Irrefl path := ⟨fun a hcycle => hacyclic ⟨a.1, hcycle⟩⟩
  have hwf : WellFounded path := Finite.wellFounded_of_trans_of_irrefl path
  obtain ⟨first, hfirst⟩ := List.exists_mem_of_ne_nil left hne
  obtain ⟨⟨a, ha⟩, -, hmin⟩ := hwf.has_min Set.univ ⟨⟨first, hfirst⟩, trivial⟩
  obtain ⟨b, hb, hab⟩ := hneeds a ha
  exact hmin ⟨b, hb⟩ trivial (.single ⟨hsub ha, hsub hb, hab⟩)

theorem exists_cycle_of_stuck (hleft : ∃ a ∈ items, a ∉ order)
    (hstuck : ∀ a ∈ items, a ∉ order → ¬ ReadyAfter items order needs a) :
    ∃ a, TransGen (NeedsWithin items needs) a a := by
  classical
  have hmem : ∀ a, a ∈ items.filter (· ∉ order) ↔ a ∈ items ∧ a ∉ order := by
    intro a
    simp
  have hcycle := @exists_cycle α items needs (items.filter (· ∉ order))
  apply hcycle
  · obtain ⟨a, ha, hout⟩ := hleft
    exact List.ne_nil_of_mem ((hmem a).mpr ⟨ha, hout⟩)
  · exact fun a ha => ((hmem a).mp ha).1
  · intro a ha
    obtain ⟨hin, hout⟩ := (hmem a).mp ha
    have hnot := hstuck a hin hout
    rw [ReadyAfter] at hnot
    push Not at hnot
    obtain ⟨b, hb, hab, hbout⟩ := hnot
    exact ⟨b, (hmem b).mpr ⟨hb, hbout⟩, hab⟩

end LeooRexx
