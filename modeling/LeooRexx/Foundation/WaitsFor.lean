import Mathlib.Data.Fintype.Card
import Mathlib.Logic.Relation

/-!
# Chains of waiting

A partial function `next` sends a node to the one it waits for.  No node waits for itself
if every chain ends, and this is kept when some nodes are sent to a node whose chain ends.
A search along a chain needs no more steps than there are nodes.
-/

namespace LeooRexx

namespace WaitsFor

open Relation

variable {α : Type} {next next' : α → Option α} {a b x : α}

def Follows (next : α → Option α) (a b : α) : Prop := next a = some b

inductive Ends (next : α → Option α) : α → Prop where
  | stop {a : α} (h : next a = none) : Ends next a
  | step {a b : α} (h : next a = some b) (hb : Ends next b) : Ends next a

theorem transGen_iff (h : next a = some b) :
    TransGen (Follows next) a x ↔ ReflTransGen (Follows next) b x := by
  rw [TransGen.head'_iff]
  constructor
  · rintro ⟨c, hc, hpath⟩
    obtain rfl : b = c := Option.some.inj (h.symm.trans hc)
    exact hpath
  · exact fun hpath => ⟨b, h, hpath⟩

theorem not_transGen_of_none (h : next a = none) : ¬ TransGen (Follows next) a x := by
  rw [TransGen.head'_iff]
  rintro ⟨c, hc, -⟩
  rw [Follows, h] at hc
  cases hc

theorem Ends.acyclic (h : Ends next a) : ¬ TransGen (Follows next) a a := by
  induction h with
  | stop h => exact not_transGen_of_none h
  | step h _ ih =>
      intro hcycle
      exact ih (TransGen.tail' ((transGen_iff h).mp hcycle) h)

theorem Ends.update (h : Ends next a)
    (hnext : ∀ x, next' x = next x ∨ next' x = none ∨ ∃ y, next' x = some y ∧ Ends next' y) :
    Ends next' a := by
  induction h with
  | @stop a h =>
      rcases hnext a with heq | hnone | ⟨y, hy, hends⟩
      · exact .stop (heq.trans h)
      · exact .stop hnone
      · exact .step hy hends
  | @step a b h _ ih =>
      rcases hnext a with heq | hnone | ⟨y, hy, hends⟩
      · exact .step (heq.trans h) ih
      · exact .stop hnone
      · exact .step hy hends

/-! ## A new link -/

theorem Ends.of_avoids (h : Ends next x) (hsame : ∀ y, y ≠ a → next' y = next y)
    (hne : ¬ ReflTransGen (Follows next) x a) : Ends next' x := by
  induction h with
  | @stop x h =>
      have hx : x ≠ a := fun heq => hne (heq ▸ ReflTransGen.refl)
      exact .stop ((hsame x hx).trans h)
  | @step x y h _ ih =>
      have hx : x ≠ a := fun heq => hne (heq ▸ ReflTransGen.refl)
      exact .step ((hsame x hx).trans h) (ih fun hpath => hne (ReflTransGen.head h hpath))

theorem ends_of_link (hends : ∀ x, Ends next x) (hlink : next' a = some b)
    (hsame : ∀ y, y ≠ a → next' y = next y) (hne : ¬ ReflTransGen (Follows next) b a) (x : α) :
    Ends next' x := by
  apply (hends x).update
  intro y
  by_cases hy : y = a
  · subst hy
    exact .inr (.inr ⟨b, hlink, (hends b).of_avoids hsame hne⟩)
  · exact .inl (hsame y hy)

theorem cycle_iff (hnone : next a = none) (hlink : next' a = some b)
    (hsame : ∀ y, y ≠ a → next' y = next y) :
    TransGen (Follows next') a a ↔ ReflTransGen (Follows next) b a := by
  rw [transGen_iff hlink]
  constructor
  · intro hpath
    clear hlink
    induction hpath using ReflTransGen.head_induction_on with
    | refl => exact .refl
    | @head x y hxy _ ih =>
        by_cases hx : x = a
        · exact hx ▸ .refl
        · exact .head ((hsame x hx).symm.trans hxy) ih
  · apply ReflTransGen.mono
    intro x y hxy
    have hx : x ≠ a := fun heq => by
      rw [Follows, heq, hnone] at hxy
      cases hxy
    exact (hsame x hx).trans hxy

/-! ## Search -/

variable [DecidableEq α]

def reaches (next : α → Option α) : Nat → α → α → Option Bool
  | 0, _, _ => none
  | fuel + 1, a, target =>
      match next a with
      | none => some false
      | some b => if b = target then some true else reaches next fuel b target

theorem Ends.exists_nodes (h : Ends next a) :
    ∃ l : List α, l.Nodup ∧ (∀ x ∈ l, ReflTransGen (Follows next) a x) ∧
      ∀ fuel, l.length ≤ fuel → ∀ target, ∃ r, reaches next fuel a target = some r ∧
        (r = true ↔ TransGen (Follows next) a target) := by
  induction h with
  | @stop a h =>
      refine ⟨[a], List.nodup_singleton a, fun x hx => ?_, fun fuel hfuel target => ⟨false, ?_, ?_⟩⟩
      · rw [List.mem_singleton.mp hx]
      · obtain ⟨n, rfl⟩ : ∃ n, fuel = n + 1 := ⟨fuel - 1, by simp at hfuel; omega⟩
        rw [reaches, h]
      · simp [not_transGen_of_none h]
  | @step a b h hb ih =>
      obtain ⟨l, hnodup, hl, hsearch⟩ := ih
      refine ⟨a :: l, List.nodup_cons.mpr ⟨fun hmem => ?_, hnodup⟩, fun x hx => ?_,
        fun fuel hfuel target => ?_⟩
      · exact (Ends.step h hb).acyclic ((transGen_iff h).mpr (hl a hmem))
      · rcases List.mem_cons.mp hx with rfl | hx
        · exact .refl
        · exact .head h (hl x hx)
      · obtain ⟨n, rfl⟩ : ∃ n, fuel = n + 1 := ⟨fuel - 1, by simp at hfuel; omega⟩
        rw [reaches, h]
        by_cases htarget : b = target
        · exact ⟨true, if_pos htarget, by simp [transGen_iff h, htarget, ReflTransGen.refl]⟩
        · obtain ⟨r, hr, hiff⟩ := hsearch n (by simpa using hfuel) target
          refine ⟨r, (if_neg htarget).trans hr, hiff.trans ?_⟩
          rw [transGen_iff h, reflTransGen_iff_eq_or_transGen]
          simp [Ne.symm htarget]

theorem Ends.reaches [Fintype α] (h : Ends next a) (target : α) :
    ∃ r, reaches next (Fintype.card α) a target = some r ∧
      (r = true ↔ TransGen (Follows next) a target) := by
  obtain ⟨l, hnodup, -, hsearch⟩ := h.exists_nodes
  exact hsearch _ hnodup.length_le_card target

end WaitsFor

end LeooRexx
