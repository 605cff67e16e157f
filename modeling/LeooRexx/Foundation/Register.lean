import LeooRexx.Foundation.Positional

/-!
# Digits read into a register

A machine register holds what is left of a number, and reading a digit into it multiplies by the
base and adds.  A loop that only sees the register can test the value before and after each digit;
what it reads in is the number itself when the tests pass, and only as far as the register
holds it.
-/

namespace Register

open Positional

section

variable {R : Type*} (step : R → ℕ → R) (ok : R → R → Bool)

def accumulate (r : R) : List ℕ → Option R
  | [] => some r
  | d :: ds => if ok r (step r d) then accumulate (step r d) ds else none

def Passes (b : ℕ) (hold : ℕ → R) (v : ℕ) (ds : List ℕ) : Prop :=
  ∀ i < ds.length, ok (hold (v * b ^ i + value b (ds.take i)))
    (hold (v * b ^ (i + 1) + value b (ds.take (i + 1)))) = true

instance (b : ℕ) (hold : ℕ → R) (v : ℕ) (ds : List ℕ) : Decidable (Passes ok b hold v ds) := by
  unfold Passes
  infer_instance

variable {step ok} {b : ℕ} {hold : ℕ → R}

theorem passes_nil (v : ℕ) : Passes ok b hold v [] := fun _ hi => absurd hi (Nat.not_lt_zero _)

theorem value_cons_take (v d : ℕ) (ds : List ℕ) (i : ℕ) (hi : i ≤ ds.length) :
    v * b ^ (i + 1) + value b ((d :: ds).take (i + 1)) =
      (v * b + d) * b ^ i + value b (ds.take i) := by
  rw [List.take_succ_cons, value_cons, List.length_take, min_eq_left hi]
  ring

theorem passes_cons {v d : ℕ} {ds : List ℕ} :
    Passes ok b hold v (d :: ds) ↔
      ok (hold v) (hold (v * b + d)) = true ∧ Passes ok b hold (v * b + d) ds := by
  unfold Passes
  constructor
  · intro hall
    constructor
    · simpa using hall 0 (by simp)
    · intro i hi
      have hnext := hall (i + 1) (by simpa using hi)
      rwa [value_cons_take v d ds i hi.le, value_cons_take v d ds (i + 1) hi] at hnext
  · rintro ⟨hfirst, hrest⟩ i hi
    cases i with
    | zero => simpa using hfirst
    | succ i =>
        have hlen : i < ds.length := by simpa using hi
        rw [value_cons_take v d ds i hlen.le, value_cons_take v d ds (i + 1) hlen]
        exact hrest i hlen

theorem accumulate_eq (hstep : ∀ v d, step (hold v) d = hold (v * b + d)) (v : ℕ) (ds : List ℕ) :
    accumulate step ok (hold v) ds =
      if Passes ok b hold v ds then some (hold (v * b ^ ds.length + value b ds)) else none := by
  induction ds generalizing v with
  | nil =>
      rw [if_pos (passes_nil v)]
      simp [accumulate]
  | cons d ds ih =>
      have hvalue : v * b ^ (d :: ds).length + value b (d :: ds) =
          (v * b + d) * b ^ ds.length + value b ds := by
        rw [value_cons, List.length_cons]
        ring
      rw [accumulate, hstep, hvalue]
      by_cases htest : ok (hold v) (hold (v * b + d)) = true
      · rw [if_pos htest, ih]
        exact if_congr (by rw [passes_cons, and_iff_right htest]) rfl rfl
      · rw [if_neg htest, if_neg fun hall => htest (passes_cons.mp hall).1]

end

end Register
