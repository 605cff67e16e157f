import LeooRexx.Foundation.Positional
import Mathlib.Data.Nat.Log

/-!
# Accumulators

A number in a row of cells of one base, lowest digit first.  The routines below work
in place from the lowest cell on, as carries move, and count the cells they write;
they fail where they would leave the row.
-/

namespace Accumulator

open Positional

variable {b : ℕ}

/-- The lowest `len` digits of `n`. -/
def cells (b : ℕ) : ℕ → ℕ → List ℕ
  | 0, _ => []
  | len + 1, n => n % b :: cells b len (n / b)

def width (b n : ℕ) : ℕ := Nat.log b n + 1

/-! ## Cells -/

@[simp] theorem length_cells (len n : ℕ) : (cells b len n).length = len := by
  induction len generalizing n with
  | zero => rfl
  | succ len ih => rw [cells, List.length_cons, ih]

theorem isDigits_cells (hb : 0 < b) (len n : ℕ) : IsDigits b (cells b len n) := by
  induction len generalizing n with
  | zero => exact isDigits_nil
  | succ len ih => exact isDigits_cons.mpr ⟨Nat.mod_lt n hb, ih (n / b)⟩

theorem ofDigits_cells (len n : ℕ) : Nat.ofDigits b (cells b len n) = n % b ^ len := by
  induction len generalizing n with
  | zero => simp [cells, Nat.mod_one]
  | succ len ih =>
      rw [cells, Nat.ofDigits_cons, ih, pow_succ', Nat.mod_mul]

theorem cells_ofDigits {ds : List ℕ} (h : IsDigits b ds) :
    cells b ds.length (Nat.ofDigits b ds) = ds := by
  induction ds with
  | nil => rfl
  | cons d ds ih =>
      have hd := isDigits_cons.mp h
      have hpos : 0 < b := Nat.zero_lt_of_lt hd.1
      rw [List.length_cons, cells, Nat.ofDigits_cons, Nat.add_mul_mod_self_left,
        Nat.mod_eq_of_lt hd.1, Nat.add_mul_div_left _ _ hpos, Nat.div_eq_of_lt hd.1,
        Nat.zero_add, ih hd.2]

theorem value_reverse_cells (len n : ℕ) :
    value b (cells b len n).reverse = n % b ^ len := by
  rw [value, List.reverse_reverse, ofDigits_cells]

theorem cells_add (len len' n : ℕ) :
    cells b (len + len') n = cells b len n ++ cells b len' (n / b ^ len) := by
  induction len generalizing n with
  | zero => simp [cells]
  | succ len ih =>
      rw [Nat.add_right_comm, cells, ih, cells, List.cons_append, Nat.div_div_eq_div_mul,
        pow_succ']

@[simp] theorem cells_zero (len : ℕ) : cells b len 0 = List.replicate len 0 := by
  induction len with
  | zero => rfl
  | succ len ih => rw [cells, Nat.zero_mod, Nat.zero_div, ih, List.replicate_succ]

theorem cells_mod (hb : 0 < b) (len n : ℕ) : cells b len (n % b ^ len) = cells b len n := by
  have h := cells_ofDigits (isDigits_cells hb len n)
  rwa [length_cells, ofDigits_cells] at h

theorem take_cells {len len' n : ℕ} (hle : len ≤ len') :
    (cells b len' n).take len = cells b len n := by
  obtain ⟨k, rfl⟩ := Nat.exists_eq_add_of_le hle
  rw [cells_add, List.take_left' (length_cells len n)]

theorem cells_eq_append_zeros {len len' n : ℕ} (hle : len ≤ len') (hn : n < b ^ len) :
    cells b len' n = cells b len n ++ List.replicate (len' - len) 0 := by
  obtain ⟨k, rfl⟩ := Nat.exists_eq_add_of_le hle
  rw [cells_add, Nat.div_eq_of_lt hn, cells_zero, Nat.add_sub_cancel_left]

/-! ## Width -/

theorem width_pos (n : ℕ) : 0 < width b n := Nat.succ_pos _

theorem width_of_lt {n : ℕ} (h : n < b) : width b n = 1 := by
  rw [width, Nat.log_of_lt h]

theorem width_of_le (hb : 1 < b) {n : ℕ} (h : b ≤ n) : width b n = width b (n / b) + 1 := by
  rw [width, Nat.log_of_one_lt_of_le hb h, width]

theorem width_le_iff (hb : 1 < b) {n len : ℕ} (hlen : 0 < len) :
    width b n ≤ len ↔ n < b ^ len := by
  cases Nat.eq_zero_or_pos n with
  | inl h =>
      rw [h, width_of_lt (Nat.zero_lt_of_lt hb)]
      exact ⟨fun _ => Nat.pow_pos (Nat.zero_lt_of_lt hb), fun _ => hlen⟩
  | inr h => exact Nat.log_lt_iff_lt_pow hb h.ne'

theorem lt_pow_width (hb : 1 < b) (n : ℕ) : n < b ^ width b n := Nat.lt_pow_succ_log_self hb n

theorem reverse_cells_width (hb : 1 < b) (n : ℕ) :
    (cells b (width b n) n).reverse = if n = 0 then [0] else numeral b n := by
  split
  · rename_i h
    rw [h, width_of_lt (Nat.zero_lt_of_lt hb)]
    rfl
  · rename_i h
    have hvalue : value b (cells b (width b n) n).reverse = n := by
      rw [value_reverse_cells, Nat.mod_eq_of_lt (lt_pow_width hb n)]
    have hpow : b ^ (width b n - 1) ≤ n := Nat.pow_log_le_self b h
    have heq := eq_numeral_of_le hb
      (isDigits_reverse.mpr (isDigits_cells (Nat.zero_lt_of_lt hb) (width b n) n))
      (by simpa using width_pos n)
      (by rw [hvalue, List.length_reverse, length_cells]; exact hpow)
    rwa [hvalue] at heq

/-! ## Routines -/

/-- Adds `t`: the cells left and the number of cells written. -/
def add (b : ℕ) : ℕ → List ℕ → Option (List ℕ × ℕ)
  | 0, row => some (row, 0)
  | _ + 1, [] => none
  | t + 1, c :: row =>
      (add b ((t + 1 + c) / b) row).map fun r => ((t + 1 + c) % b :: r.1, r.2 + 1)

def spill (b : ℕ) : ℕ → List ℕ → Option (List ℕ × ℕ)
  | 0, row => some (row, 0)
  | _ + 1, [] => none
  | carry + 1, _ :: row =>
      (spill b ((carry + 1) / b) row).map fun r => ((carry + 1) % b :: r.1, r.2 + 1)

/-- Multiplies the first `count` cells by `m`, with a carry. -/
def scale (b m : ℕ) : ℕ → ℕ → List ℕ → Option (List ℕ × ℕ)
  | carry, 0, row => spill b carry row
  | _, _ + 1, [] => none
  | carry, count + 1, c :: row =>
      (scale b m ((c * m + carry) / b) count row).map fun r =>
        ((c * m + carry) % b :: r.1, r.2 + 1)

def decrement (b : ℕ) : List ℕ → Option (List ℕ)
  | [] => none
  | c :: row => if c = 0 then (decrement b row).map fun r => (b - 1) :: r else some ((c - 1) :: row)

theorem digit_step (hb : 1 < b) {len n t total : ℕ} (htotal : total < b ^ (len + 1))
    (heq : total = n + b * t) :
    n % b = total % b ∧ t + n / b = total / b ∧ t + n / b < b ^ len := by
  have hquot : t + n / b = total / b := by
    rw [heq, Nat.add_mul_div_left _ _ (Nat.zero_lt_of_lt hb), Nat.add_comm]
  refine ⟨?_, hquot, ?_⟩
  · rw [heq, Nat.add_mul_mod_self_left]
  · rw [hquot]
    exact Nat.div_lt_of_lt_mul (by rwa [← pow_succ'])

theorem add_cells (hb : 1 < b) {len n t : ℕ} (h : n + t < b ^ len) :
    ∃ k, add b t (cells b len n) = some (cells b len (n + t), k) ∧
      max k (width b n) = width b (n + t) ∧ (k = 0 ↔ t = 0) := by
  induction len generalizing n t with
  | zero =>
      have hzero : n = 0 ∧ t = 0 := by simpa using h
      rw [hzero.1, hzero.2]
      exact ⟨0, rfl, Nat.max_eq_right (Nat.zero_le _), by simp⟩
  | succ len ih =>
      cases t with
      | zero => exact ⟨0, rfl, Nat.max_eq_right (Nat.zero_le _), by simp⟩
      | succ t =>
          have hsplit : n + (t + 1) = (t + 1 + n % b) + b * (n / b) := by
            have hdiv := Nat.mod_add_div n b
            omega
          have hstep := digit_step hb h hsplit
          cases ih hstep.2.2 with
          | intro k hk =>
          rw [hstep.2.1] at hk
          refine ⟨k + 1, ?_, ?_, by simp⟩
          · rw [cells, add, hk.1, hstep.1]
            rfl
          · cases Nat.lt_or_ge (n + (t + 1)) b with
            | inl hlt =>
                have hcarry : (t + 1 + n % b) / b = 0 :=
                  Nat.div_eq_of_lt (by have hmod := Nat.mod_le n b; omega)
                rw [hk.2.2.mpr hcarry, width_of_lt hlt, width_of_lt (by omega)]
                rfl
            | inr hle =>
                rw [width_of_le hb hle, ← hk.2.1]
                cases Nat.lt_or_ge n b with
                | inl hlt =>
                    have hcarry : 0 < (t + 1 + n % b) / b := by
                      rw [Nat.mod_eq_of_lt hlt]
                      exact Nat.div_pos (by omega) (Nat.zero_lt_of_lt hb)
                    have hk0 : k ≠ 0 := fun h0 => hcarry.ne' (hk.2.2.mp h0)
                    rw [Nat.div_eq_of_lt hlt, width_of_lt hlt, width_of_lt (Nat.zero_lt_of_lt hb)]
                    omega
                | inr hge =>
                    rw [width_of_le hb hge]
                    omega

theorem spill_cells (hb : 1 < b) {len carry : ℕ} (h : carry < b ^ len) :
    spill b carry (cells b len 0) =
      some (cells b len carry, if carry = 0 then 0 else width b carry) := by
  induction len generalizing carry with
  | zero =>
      have hzero : carry = 0 := by simpa using h
      rw [hzero]
      rfl
  | succ len ih =>
      cases carry with
      | zero => rfl
      | succ carry =>
          have hlt : (carry + 1) / b < b ^ len := Nat.div_lt_of_lt_mul (by rwa [← pow_succ'])
          rw [cells, Nat.zero_div, spill, ih hlt, cells, Option.map_some,
            if_neg (Nat.succ_ne_zero carry)]
          congr 2
          cases Nat.lt_or_ge (carry + 1) b with
          | inl hsmall => rw [Nat.div_eq_of_lt hsmall, if_pos rfl, width_of_lt hsmall]
          | inr hge =>
              have hpos : (carry + 1) / b ≠ 0 :=
                (Nat.div_pos hge (Nat.zero_lt_of_lt hb)).ne'
              rw [if_neg hpos, width_of_le hb hge]

theorem scale_cells (hb : 1 < b) {m : ℕ} (hm : 0 < m) {len n carry : ℕ}
    (hlen : width b n ≤ len) (h : m * n + carry < b ^ len) :
    scale b m carry (width b n) (cells b len n) =
      some (cells b len (m * n + carry), width b (m * n + carry)) := by
  induction len generalizing n carry with
  | zero => exact absurd hlen (Nat.not_le.mpr (width_pos n))
  | succ len ih =>
      have hsplit : m * n + carry = (n % b * m + carry) + b * (m * (n / b)) := by
        conv_lhs => rw [← Nat.mod_add_div n b]
        ring
      have hstep := digit_step hb h hsplit
      cases Nat.lt_or_ge n b with
      | inl hlt =>
          have hzero : n / b = 0 := Nat.div_eq_of_lt hlt
          rw [hzero, Nat.mul_zero, Nat.zero_add] at hstep
          rw [width_of_lt hlt, cells, scale, scale, hzero, spill_cells hb hstep.2.2,
            hstep.1, hstep.2.1, cells, Option.map_some]
          congr 2
          cases Nat.lt_or_ge (m * n + carry) b with
          | inl hsmall => rw [Nat.div_eq_of_lt hsmall, if_pos rfl, width_of_lt hsmall]
          | inr hge =>
              have hpos : (m * n + carry) / b ≠ 0 :=
                (Nat.div_pos hge (Nat.zero_lt_of_lt hb)).ne'
              rw [if_neg hpos, width_of_le hb hge]
      | inr hge =>
          have hlarge : b ≤ m * n + carry :=
            calc b ≤ n := hge
              _ ≤ m * n := Nat.le_mul_of_pos_left n hm
              _ ≤ m * n + carry := Nat.le_add_right _ _
          rw [width_of_le hb hge] at hlen ⊢
          rw [cells, scale, ih (Nat.le_of_succ_le_succ hlen) hstep.2.2, hstep.1, hstep.2.1, cells,
            width_of_le hb hlarge]
          rfl

theorem decrement_cells (hb : 1 < b) {len n : ℕ} (hn : n + 1 < b ^ len) :
    decrement b (cells b len (n + 1)) = some (cells b len n) := by
  induction len generalizing n with
  | zero => exact absurd hn (by simp)
  | succ len ih =>
      have hdiv := Nat.mod_add_div (n + 1) b
      cases Nat.eq_zero_or_pos ((n + 1) % b) with
      | inl hzero =>
          rw [hzero, Nat.zero_add] at hdiv
          obtain ⟨q, hq⟩ := Nat.exists_eq_succ_of_ne_zero (n := (n + 1) / b) (by
            intro h0
            rw [h0, Nat.mul_zero] at hdiv
            omega)
          rw [hq, Nat.succ_eq_add_one, Nat.mul_add, Nat.mul_one] at hdiv
          have hn' : n = (b - 1) + b * q := by omega
          have hquot : n / b = q := by
            rw [hn', Nat.add_mul_div_left _ _ (by omega), Nat.div_eq_of_lt (by omega),
              Nat.zero_add]
          have hrem : n % b = b - 1 := by
            rw [hn', Nat.add_mul_mod_self_left, Nat.mod_eq_of_lt (by omega)]
          have hlt : q + 1 < b ^ len := by
            rw [← Nat.succ_eq_add_one, ← hq]
            exact Nat.div_lt_of_lt_mul (by rwa [← pow_succ'])
          rw [cells, decrement, if_pos hzero, hq, ih hlt, cells, hquot, hrem]
          rfl
      | inr hpos =>
          have hn' : n = ((n + 1) % b - 1) + b * ((n + 1) / b) := by omega
          have hlow : (n + 1) % b - 1 < b := by
            have hmod := Nat.mod_lt (n + 1) (Nat.zero_lt_of_lt hb)
            omega
          have hquot : n / b = (n + 1) / b := by
            conv_lhs => rw [hn']
            rw [Nat.add_mul_div_left _ _ (by omega), Nat.div_eq_of_lt hlow, Nat.zero_add]
          have hrem : n % b = (n + 1) % b - 1 := by
            conv_lhs => rw [hn']
            rw [Nat.add_mul_mod_self_left, Nat.mod_eq_of_lt hlow]
          rw [cells, decrement, if_neg hpos.ne', cells, hquot, hrem]

theorem map_complement_cells (hb : 0 < b) {len n : ℕ} (hn : n < b ^ len) :
    (cells b len n).map (b - 1 - ·) = cells b len (b ^ len - 1 - n) := by
  induction len generalizing n with
  | zero => rfl
  | succ len ih =>
      have hdiv := Nat.mod_add_div n b
      have hmod := Nat.mod_lt n hb
      have hlt : n / b < b ^ len := Nat.div_lt_of_lt_mul (by rwa [← pow_succ'])
      obtain ⟨rest, hrest⟩ := Nat.exists_eq_add_of_lt hlt
      have hsplit : b ^ (len + 1) - 1 - n = (b - 1 - n % b) + b * rest := by
        rw [pow_succ', hrest]
        have hmul : b * (n / b + rest + 1) = b * (n / b) + b * rest + b := by ring
        omega
      have hrest' : b ^ len - 1 - n / b = rest := by omega
      have hlow : b - 1 - n % b < b := by omega
      rw [cells, List.map_cons, ih hlt, cells, hrest', hsplit, Nat.add_mul_mod_self_left,
        Nat.add_mul_div_left _ _ hb, Nat.mod_eq_of_lt hlow, Nat.div_eq_of_lt hlow, Nat.zero_add]

/-! ## Complements -/

def signedCells (b len : ℕ) (v : ℤ) : List ℕ := cells b len (v % (b ^ len : ℕ)).toNat

theorem signedCells_ofNat (hb : 0 < b) (len n : ℕ) :
    signedCells b len (Int.ofNat n) = cells b len n := by
  rw [signedCells, Int.ofNat_eq_natCast, ← Int.natCast_mod, Int.toNat_natCast, cells_mod hb]

theorem signedCells_negSucc (hb : 0 < b) (len n : ℕ) :
    signedCells b len (Int.negSucc n) = (cells b len n).map (b - 1 - ·) := by
  have hpos : 0 < b ^ len := Nat.pow_pos hb
  have hmod := Nat.mod_lt n hpos
  have htoNat : (Int.negSucc n % (b ^ len : ℕ)).toNat = b ^ len - 1 - n % b ^ len := by
    rw [Int.negSucc_emod _ (by exact_mod_cast hpos), ← Int.natCast_mod]
    omega
  rw [signedCells, htoNat, ← map_complement_cells hb hmod, cells_mod hb]

theorem take_signedCells (hb : 0 < b) {len len' : ℕ} (hle : len ≤ len') (v : ℤ) :
    (signedCells b len' v).take len = signedCells b len v := by
  cases v with
  | ofNat n => rw [signedCells_ofNat hb, signedCells_ofNat hb, take_cells hle]
  | negSucc n =>
      rw [signedCells_negSucc hb, signedCells_negSucc hb, ← List.map_take, take_cells hle]

theorem signedCells_extend (hb : 0 < b) {len len' : ℕ} (hle : len ≤ len') {v : ℤ}
    (hv : v.natAbs < b ^ len) :
    signedCells b len' v =
      signedCells b len v ++ List.replicate (len' - len) (if v < 0 then b - 1 else 0) := by
  cases v with
  | ofNat n =>
      have hneg : ¬ Int.ofNat n < 0 := Int.not_lt.mpr (Int.natCast_nonneg n)
      have hn : n < b ^ len := hv
      rw [signedCells_ofNat hb, signedCells_ofNat hb, if_neg hneg, cells_eq_append_zeros hle hn]
  | negSucc n =>
      have hn : n < b ^ len := Nat.lt_of_succ_lt hv
      rw [signedCells_negSucc hb, signedCells_negSucc hb, if_pos (Int.negSucc_lt_zero n),
        cells_eq_append_zeros hle hn, List.map_append, List.map_replicate, Nat.sub_zero]

end Accumulator
