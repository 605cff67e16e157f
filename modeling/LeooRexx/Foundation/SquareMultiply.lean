import Mathlib.Algebra.Order.Ring.Nat
import Mathlib.Data.Nat.Log
import Mathlib.Tactic.Positivity
import Mathlib.Tactic.Ring

/-!
# Squaring and multiplying

Exponentiation from the highest bit of the exponent on.  The exponent stands in a register of
`width` bits and is shifted out to the left: a bit that is set multiplies, and every bit but the
last squares.  What the accumulator stands for is a power whose exponent grows by one with each
multiplication and doubles with each squaring; at the end it is the exponent of the register.
-/

namespace SquareMultiply

/-- A computation that may fail ends in `P`, or fails in `E`. -/
def Ensures {ε α : Type} (P : α → Prop) (E : ε → Prop) : Except ε α → Prop
  | .ok a => P a
  | .error e => E e

section

variable {ε α β : Type} {P Q : α → Prop} {P' : β → Prop} {E : ε → Prop}

/-- Two computations are one, which ends in `P` or fails in `E`. -/
def Agree (P : α → Prop) (E : ε → Prop) (x y : Except ε α) : Prop := x = y ∧ Ensures P E x

theorem Agree.bind {x y : Except ε α} {f g : α → Except ε β} (hxy : Agree P E x y)
    (hfg : ∀ a, x = .ok a → P a → Agree P' E (f a) (g a)) : Agree P' E (x >>= f) (y >>= g) := by
  obtain ⟨rfl, hx⟩ := hxy
  cases x with
  | ok a => exact hfg a rfl hx
  | error e => exact ⟨rfl, hx⟩

theorem Agree.mono {E' : ε → Prop} {x y : Except ε α} (hxy : Agree P E x y)
    (hPQ : ∀ a, P a → Q a) (hE : ∀ e, E e → E' e) : Agree Q E' x y := by
  obtain ⟨rfl, hx⟩ := hxy
  cases x with
  | ok a => exact ⟨rfl, hPQ a hx⟩
  | error e => exact ⟨rfl, hE e hx⟩

theorem Ensures.bind {x : Except ε α} {f : α → Except ε β} (hx : Ensures P E x)
    (hf : ∀ a, P a → Ensures P' E (f a)) : Ensures P' E (x >>= f) := by
  cases x with
  | ok a => exact hf a hx
  | error e => exact hx

theorem Ensures.mono {x : Except ε α} (hx : Ensures P E x) (hPQ : ∀ a, P a → Q a) :
    Ensures Q E x := by
  cases x with
  | ok a => exact hPQ a hx
  | error e => exact hx

end

/-! ## The register -/

section

variable (width : ℕ)

def firstBit : ℕ → ℕ → ℕ × ℕ
  | 0, power => (power, 0)
  | numBits + 1, power =>
      if 2 ^ (width - 1) ≤ power then (power, numBits + 1)
      else firstBit numBits (power * 2 % 2 ^ width)

variable {ε α : Type} (multiply square : α → Except ε α)

def bitLoop : ℕ → ℕ → α → Except ε α
  | 0, _, a => .ok a
  | numBits + 1, power, a => do
      let a ← if 2 ^ (width - 1) ≤ power then multiply a else .ok a
      let a ← if numBits ≠ 0 then square a else .ok a
      bitLoop numBits (power * 2 % 2 ^ width) a

variable {width}

theorem shift_eq {m r : ℕ} (hm : m + 1 ≤ width) (hr : r < 2 ^ m) :
    r * 2 ^ (width - (m + 1)) * 2 % 2 ^ width = r * 2 ^ (width - m) := by
  have hexp : width - m = width - (m + 1) + 1 := by omega
  have hfits : r * 2 ^ (width - m) < 2 ^ width := by
    calc r * 2 ^ (width - m) < 2 ^ m * 2 ^ (width - m) :=
          Nat.mul_lt_mul_of_pos_right hr (by positivity)
      _ = 2 ^ width := by rw [← pow_add]; congr 1; omega
  rw [mul_assoc, ← pow_succ, ← hexp, Nat.mod_eq_of_lt hfits]

theorem top_le_iff {m r : ℕ} (hm : m + 1 ≤ width) :
    2 ^ (width - 1) ≤ r * 2 ^ (width - (m + 1)) ↔ 2 ^ m ≤ r := by
  have hexp : 2 ^ (width - 1) = 2 ^ m * 2 ^ (width - (m + 1)) := by
    rw [← pow_add]
    congr 1
    omega
  rw [hexp]
  exact Nat.mul_le_mul_right_iff (by positivity)

theorem shift_top {m r : ℕ} (hm : m + 1 ≤ width) :
    (2 ^ m + r) * 2 ^ (width - (m + 1)) * 2 % 2 ^ width =
      r * 2 ^ (width - (m + 1)) * 2 % 2 ^ width := by
  have htop : 2 ^ m * 2 ^ (width - (m + 1)) * 2 = 2 ^ width := by
    rw [← pow_add, ← pow_succ]
    congr 1
    omega
  rw [add_mul, add_mul, htop, Nat.add_mod_left]

theorem firstBit_eq {m r : ℕ} (hr : r < 2 ^ m) (numBits : ℕ) (hm : m + 1 ≤ numBits)
    (hwidth : numBits ≤ width) :
    firstBit width numBits ((2 ^ m + r) * 2 ^ (width - numBits)) =
      ((2 ^ m + r) * 2 ^ (width - (m + 1)), m + 1) := by
  induction numBits with
  | zero => omega
  | succ numBits ih =>
      rw [firstBit]
      rcases Nat.lt_or_ge numBits (m + 1) with hlast | hmore
      · have heq : numBits = m := by omega
        rw [heq, if_pos ((top_le_iff (by omega)).mpr (Nat.le_add_right _ _))]
      · have hlt : 2 ^ m + r < 2 ^ numBits := by
          calc 2 ^ m + r < 2 ^ (m + 1) := by rw [pow_succ]; omega
            _ ≤ 2 ^ numBits := Nat.pow_le_pow_right (by norm_num) hmore
        rw [if_neg fun htop => absurd ((top_le_iff hwidth).mp htop) (not_le.mpr hlt),
          shift_eq hwidth hlt]
        exact ih hmore (by omega)

theorem firstBit_clear {n : ℕ} (hn0 : 1 ≤ n) (hn : n < 2 ^ width) :
    ∃ m r, m + 1 ≤ width ∧ r < 2 ^ m ∧ n = 2 ^ m + r ∧ (firstBit width width n).2 = m + 1 ∧
      (firstBit width width n).1 - 2 ^ (width - 1) = r * 2 ^ (width - (m + 1)) := by
  have hlow := Nat.pow_log_le_self 2 (Nat.one_le_iff_ne_zero.mp hn0)
  have hhigh := Nat.lt_pow_succ_log_self (by norm_num : 1 < 2) n
  have hm : Nat.log 2 n + 1 ≤ width :=
    (Nat.pow_lt_pow_iff_right (by norm_num : 1 < 2)).mp (hlow.trans_lt hn)
  rw [pow_succ] at hhigh
  generalize Nat.log 2 n = m at hlow hhigh hm
  obtain ⟨r, rfl⟩ : ∃ r, n = 2 ^ m + r := ⟨n - 2 ^ m, by omega⟩
  have hr : r < 2 ^ m := by omega
  have hfirst := firstBit_eq hr width hm le_rfl
  have htop : 2 ^ m * 2 ^ (width - (m + 1)) = 2 ^ (width - 1) := by
    rw [← pow_add]
    congr 1
    omega
  rw [Nat.sub_self, pow_zero, mul_one] at hfirst
  refine ⟨m, r, hm, hr, rfl, by rw [hfirst], ?_⟩
  rw [hfirst, add_mul, htop, Nat.add_sub_cancel_left]

/-! ## The loop -/

variable {multiply square} {multiply' square' : α → Except ε α} {R S : α → ℕ → Prop} {E : ε → Prop}

theorem bitLoop_agree {n : ℕ}
    (hmultiply : ∀ a k, R a k → k + 1 ≤ n → Agree (S · (k + 1)) E (multiply a) (multiply' a))
    (hskip : ∀ a k, R a k → S a k)
    (hsquare : ∀ a k, S a k → 2 * k ≤ n → Agree (R · (2 * k)) E (square a) (square' a))
    (m : ℕ) {k r : ℕ} {a : α} (hm : m + 1 ≤ width) (hr : r < 2 ^ (m + 1))
    (hn : k * 2 ^ m + r = n) (ha : R a k) :
    Agree (S · n) E (bitLoop width multiply square (m + 1) (r * 2 ^ (width - (m + 1))) a)
      (bitLoop width multiply' square' (m + 1) (r * 2 ^ (width - (m + 1))) a) := by
  induction m generalizing k r a with
  | zero =>
      rw [bitLoop, bitLoop]
      have hdone : ∀ a', S a' n → Agree (S · n) E
          ((if 0 ≠ 0 then square a' else .ok a') >>= fun a =>
            bitLoop width multiply square 0 (r * 2 ^ (width - (0 + 1)) * 2 % 2 ^ width) a)
          ((if 0 ≠ 0 then square' a' else .ok a') >>= fun a =>
            bitLoop width multiply' square' 0 (r * 2 ^ (width - (0 + 1)) * 2 % 2 ^ width) a) :=
        fun a' ha' => ⟨rfl, ha'⟩
      by_cases hbit : 2 ^ 0 ≤ r
      · have hone : r = 1 := by
          rw [pow_zero] at hbit
          rw [zero_add, pow_one] at hr
          omega
        rw [pow_zero, mul_one, hone] at hn
        rw [if_pos ((top_le_iff hm).mpr hbit), if_pos ((top_le_iff hm).mpr hbit)]
        exact Agree.bind (hmultiply a k ha hn.le) fun a' _ ha' => hdone a' (hn ▸ ha')
      · have hzero : r = 0 := by
          rw [pow_zero] at hbit
          omega
        rw [pow_zero, mul_one, hzero, add_zero] at hn
        have hnone : ¬2 ^ (width - 1) ≤ r * 2 ^ (width - (0 + 1)) :=
          fun htop => hbit ((top_le_iff hm).mp htop)
        rw [if_neg hnone, if_neg hnone]
        exact hdone a (hn ▸ hskip a k ha)
  | succ m ih =>
      rw [bitLoop, bitLoop]
      have hpos : 1 ≤ 2 ^ m := Nat.one_le_two_pow
      -- the rest of the loop, once the bit is taken care of
      have hrest : ∀ b a', S a' (k + b) → r = 2 ^ (m + 1) * b + r % 2 ^ (m + 1) →
          Agree (S · n) E
            ((if m + 1 ≠ 0 then square a' else .ok a') >>= fun a =>
              bitLoop width multiply square (m + 1)
                (r % 2 ^ (m + 1) * 2 ^ (width - (m + 1))) a)
            ((if m + 1 ≠ 0 then square' a' else .ok a') >>= fun a =>
              bitLoop width multiply' square' (m + 1)
                (r % 2 ^ (m + 1) * 2 ^ (width - (m + 1))) a) := by
        intro b a' ha' hsplit
        have hexp : 2 * (k + b) * 2 ^ m + r % 2 ^ (m + 1) = n := by
          rw [← hn]
          calc 2 * (k + b) * 2 ^ m + r % 2 ^ (m + 1)
              = k * 2 ^ (m + 1) + (2 ^ (m + 1) * b + r % 2 ^ (m + 1)) := by ring
            _ = k * 2 ^ (m + 1) + r := by rw [← hsplit]
        have hle : 2 * (k + b) ≤ n := by
          have hmul : 2 * (k + b) * 1 ≤ 2 * (k + b) * 2 ^ m := Nat.mul_le_mul_left _ hpos
          omega
        rw [if_pos (Nat.succ_ne_zero m), if_pos (Nat.succ_ne_zero m)]
        exact Agree.bind (hsquare a' (k + b) ha' hle) fun a'' _ ha'' =>
          ih (by omega) (Nat.mod_lt _ (by positivity)) hexp ha''
      have hlow := Nat.div_add_mod r (2 ^ (m + 1))
      by_cases hbit : 2 ^ (m + 1) ≤ r
      · have hone : r = 2 ^ (m + 1) * 1 + r % 2 ^ (m + 1) := by
          have hdiv : r / 2 ^ (m + 1) = 1 := by
            rw [pow_succ 2 (m + 1)] at hr
            exact Nat.div_eq_of_lt_le (by omega) (by omega)
          rw [hdiv] at hlow
          exact hlow.symm
        have hshift : r * 2 ^ (width - (m + 1 + 1)) * 2 % 2 ^ width =
            r % 2 ^ (m + 1) * 2 ^ (width - (m + 1)) := by
          have htop := shift_top (m := m + 1) (r := r % 2 ^ (m + 1)) hm
          rw [mul_one] at hone
          rw [← hone] at htop
          rw [htop, shift_eq hm (Nat.mod_lt _ (by positivity))]
        have hkn : k + 1 ≤ n := by
          have hkp : k * 1 ≤ k * 2 ^ (m + 1) := Nat.mul_le_mul_left _ Nat.one_le_two_pow
          have htwo : 1 ≤ 2 ^ (m + 1) := Nat.one_le_two_pow
          omega
        rw [if_pos ((top_le_iff hm).mpr hbit), if_pos ((top_le_iff hm).mpr hbit), hshift]
        exact Agree.bind (hmultiply a k ha hkn) fun a' _ ha' => hrest 1 a' ha' hone
      · have hzero : r % 2 ^ (m + 1) = r := Nat.mod_eq_of_lt (not_le.mp hbit)
        have hshift : r * 2 ^ (width - (m + 1 + 1)) * 2 % 2 ^ width =
            r % 2 ^ (m + 1) * 2 ^ (width - (m + 1)) := by
          rw [hzero, shift_eq hm (not_le.mp hbit)]
        have hnone : ¬2 ^ (width - 1) ≤ r * 2 ^ (width - (m + 1 + 1)) :=
          fun htop => hbit ((top_le_iff hm).mp htop)
        rw [if_neg hnone, if_neg hnone, hshift]
        exact hrest 0 a (hskip a k ha) (by rw [hzero, mul_zero, zero_add])

theorem bitLoop_ensures {n : ℕ}
    (hmultiply : ∀ a k, R a k → k + 1 ≤ n → Ensures (S · (k + 1)) E (multiply a))
    (hskip : ∀ a k, R a k → S a k)
    (hsquare : ∀ a k, S a k → 2 * k ≤ n → Ensures (R · (2 * k)) E (square a))
    (m : ℕ) {k r : ℕ} {a : α} (hm : m + 1 ≤ width) (hr : r < 2 ^ (m + 1))
    (hn : k * 2 ^ m + r = n) (ha : R a k) :
    Ensures (S · n) E
      (bitLoop width multiply square (m + 1) (r * 2 ^ (width - (m + 1))) a) :=
  (bitLoop_agree (fun a k hak hk => ⟨rfl, hmultiply a k hak hk⟩) hskip
    (fun a k hak hk => ⟨rfl, hsquare a k hak hk⟩) m hm hr hn ha).2

end

end SquareMultiply
