import Mathlib.Data.Nat.Digits.Lemmas

/-!
# Positional numerals

Numerals are lists of digits, most significant digit first, over an arbitrary
base.  The value is Mathlib's `Nat.ofDigits` of the reversed list, so the
algorithms that run from the last digit to the first are read off the reversed
list and the algorithms that scan from the left are read off the list itself.
-/

namespace Positional

variable {b : ℕ}

def value (b : ℕ) (ds : List ℕ) : ℕ := Nat.ofDigits b ds.reverse

def IsDigits (b : ℕ) (ds : List ℕ) : Prop := ∀ d ∈ ds, d < b

@[simp] theorem value_nil : value b [] = 0 := rfl

@[simp] theorem value_singleton (d : ℕ) : value b [d] = d := by
  simp [value]

theorem value_append (xs ys : List ℕ) :
    value b (xs ++ ys) = value b xs * b ^ ys.length + value b ys := by
  simp only [value, List.reverse_append, Nat.ofDigits_append, List.length_reverse]
  ring

theorem value_cons (d : ℕ) (ds : List ℕ) :
    value b (d :: ds) = d * b ^ ds.length + value b ds := by
  rw [← List.singleton_append, value_append, value_singleton]

theorem value_concat (ds : List ℕ) (d : ℕ) :
    value b (ds ++ [d]) = value b ds * b + d := by
  rw [value_append, value_singleton, List.length_singleton, pow_one]

theorem value_reverse_cons (d : ℕ) (ds : List ℕ) :
    value b (d :: ds).reverse = d + b * value b ds.reverse := by
  simp [value, Nat.ofDigits_cons]

@[simp] theorem value_zero_cons (ds : List ℕ) :
    value b (0 :: ds) = value b ds := by
  simp [value_cons]

@[simp] theorem value_replicate_zero (k : ℕ) :
    value b (List.replicate k 0) = 0 := by
  simp [value]

theorem value_append_zeros (ds : List ℕ) (k : ℕ) :
    value b (ds ++ List.replicate k 0) = value b ds * b ^ k := by
  simp [value_append]

/-! ## Digit lists -/

@[simp] theorem isDigits_nil : IsDigits b [] := by
  simp [IsDigits]

@[simp] theorem isDigits_cons {d : ℕ} {ds : List ℕ} :
    IsDigits b (d :: ds) ↔ d < b ∧ IsDigits b ds := by
  simp [IsDigits]

@[simp] theorem isDigits_append {xs ys : List ℕ} :
    IsDigits b (xs ++ ys) ↔ IsDigits b xs ∧ IsDigits b ys := by
  simp only [IsDigits, List.mem_append]
  exact ⟨fun h => ⟨fun d hd => h d (.inl hd), fun d hd => h d (.inr hd)⟩,
    fun h d hd => hd.elim (h.1 d) (h.2 d)⟩

@[simp] theorem isDigits_reverse {ds : List ℕ} :
    IsDigits b ds.reverse ↔ IsDigits b ds := by
  simp [IsDigits]

theorem isDigits_replicate_zero (hb : 0 < b) (k : ℕ) :
    IsDigits b (List.replicate k 0) := by
  intro d hd
  rw [List.eq_of_mem_replicate hd]
  exact hb

theorem IsDigits.take {ds : List ℕ} (h : IsDigits b ds) (k : ℕ) :
    IsDigits b (ds.take k) :=
  fun d hd => h d (List.mem_of_mem_take hd)

theorem IsDigits.drop {ds : List ℕ} (h : IsDigits b ds) (k : ℕ) :
    IsDigits b (ds.drop k) :=
  fun d hd => h d (List.mem_of_mem_drop hd)

/-! ## Bounds, prefixes and suffixes -/

theorem value_lt (hb : 1 < b) {ds : List ℕ} (h : IsDigits b ds) :
    value b ds < b ^ ds.length := by
  have hlt := Nat.ofDigits_lt_base_pow_length hb (isDigits_reverse.mpr h)
  simpa [value] using hlt

theorem value_split (ds : List ℕ) (k : ℕ) :
    value b ds =
      value b (ds.take k) * b ^ (ds.length - k) + value b (ds.drop k) := by
  conv_lhs => rw [← List.take_append_drop k ds]
  rw [value_append, List.length_drop]

theorem value_take (hb : 1 < b) {ds : List ℕ} (h : IsDigits b ds) (k : ℕ) :
    value b (ds.take k) = value b ds / b ^ (ds.length - k) := by
  have hlow : value b (ds.drop k) < b ^ (ds.length - k) := by
    simpa using value_lt hb (h.drop k)
  rw [value_split ds k]
  symm
  rw [Nat.div_eq_iff (by positivity)]
  constructor <;> omega

theorem value_drop (hb : 1 < b) {ds : List ℕ} (h : IsDigits b ds) (k : ℕ) :
    value b (ds.drop k) = value b ds % b ^ (ds.length - k) := by
  have hlow : value b (ds.drop k) < b ^ (ds.length - k) := by
    simpa using value_lt hb (h.drop k)
  rw [value_split ds k, Nat.mul_add_mod_self_right, Nat.mod_eq_of_lt hlow]

theorem le_value_cons {d : ℕ} (hd : 0 < d) (ds : List ℕ) :
    b ^ ds.length ≤ value b (d :: ds) := by
  rw [value_cons]
  calc b ^ ds.length ≤ d * b ^ ds.length := Nat.le_mul_of_pos_left _ hd
    _ ≤ d * b ^ ds.length + value b ds := Nat.le_add_right _ _

theorem value_inj (hb : 1 < b) {xs ys : List ℕ} (hlen : xs.length = ys.length)
    (hx : IsDigits b xs) (hy : IsDigits b ys)
    (h : value b xs = value b ys) : xs = ys := by
  have := Nat.ofDigits_inj_of_len_eq hb (by simpa using hlen)
    (isDigits_reverse.mpr hx) (isDigits_reverse.mpr hy) h
  simpa using this

theorem value_lt_of_head_lt (hb : 1 < b) {x y : ℕ} {xs ys : List ℕ}
    (hlen : xs.length = ys.length) (hx : IsDigits b xs) (h : x < y) :
    value b (x :: xs) < value b (y :: ys) := by
  have hlow := value_lt hb hx
  rw [value_cons, value_cons, ← hlen]
  have hstep : (x + 1) * b ^ xs.length ≤ y * b ^ xs.length :=
    Nat.mul_le_mul_right _ h
  rw [add_mul, one_mul] at hstep
  omega

theorem borrow_column {c d x y : ℕ} (h : d + y = x + c * b) (v w : ℕ)
    (result : List ℕ) (total : ℕ)
    (htotal : total + (c + w) * b ^ (d :: result).length =
      v * b ^ (d :: result).length + value b (d :: result)) :
    total + (y + b * w) * b ^ result.length =
      (x + b * v) * b ^ result.length + value b result := by
  rw [value_cons, List.length_cons, pow_succ] at htotal
  have hcol := congrArg (· * b ^ result.length) h
  simp only [add_mul] at hcol
  linarith only [htotal, hcol]

theorem value_set (ds : List ℕ) {i : ℕ} (hi : i < ds.length) (d : ℕ) :
    value b (ds.set i d) + ds[i] * b ^ (ds.length - 1 - i) =
      value b ds + d * b ^ (ds.length - 1 - i) := by
  have hsplit : ds = ds.take i ++ ds[i] :: ds.drop (i + 1) := by simp
  have hlen : (ds.drop (i + 1)).length = ds.length - 1 - i := by
    rw [List.length_drop]; omega
  have hval : value b ds = value b (ds.take i) * b ^ (ds.length - 1 - i + 1) +
      (ds[i] * b ^ (ds.length - 1 - i) + value b (ds.drop (i + 1))) := by
    conv_lhs => rw [hsplit]
    rw [value_append, value_cons, List.length_cons, hlen]
  rw [hval, List.set_eq_take_append_cons_drop, if_pos hi, value_append, value_cons,
    List.length_cons, hlen]
  ring

theorem getElem_mul_le_value (ds : List ℕ) {i : ℕ} (hi : i < ds.length) :
    ds[i] * b ^ (ds.length - 1 - i) ≤ value b ds := by
  have h := value_set (b := b) ds hi 0
  omega

theorem value_take_eq_zero_iff (hb : 1 < b) {ds : List ℕ} (h : IsDigits b ds)
    (k : ℕ) : value b (ds.take k) = 0 ↔ value b ds < b ^ (ds.length - k) := by
  rw [value_take hb h, Nat.div_eq_zero_iff_lt (by positivity)]

theorem value_eq_zero_iff (hb : 0 < b) {ds : List ℕ} :
    value b ds = 0 ↔ ∀ d ∈ ds, d = 0 := by
  induction ds with
  | nil => simp
  | cons d ds ih =>
      have hpow : b ^ ds.length ≠ 0 := by positivity
      rw [value_cons, Nat.add_eq_zero_iff, ih, mul_eq_zero, or_iff_left hpow,
        List.forall_mem_cons]

theorem value_add_one_eq_pow_iff (hb : 1 < b) {ds : List ℕ} (h : IsDigits b ds) :
    value b ds + 1 = b ^ ds.length ↔ ∀ d ∈ ds, d + 1 = b := by
  induction ds with
  | nil => simp
  | cons d ds ih =>
      obtain ⟨hd, hds⟩ := isDigits_cons.mp h
      have hlt := value_lt hb hds
      rw [List.forall_mem_cons, ← ih hds, value_cons, List.length_cons, pow_succ]
      constructor
      · intro heq
        have hlast : d + 1 = b := by
          by_contra hne
          have hle : (d + 2) * b ^ ds.length ≤ b * b ^ ds.length :=
            Nat.mul_le_mul_right _ (by omega)
          rw [mul_comm (b ^ ds.length) b] at heq
          rw [add_mul] at hle
          omega
        refine ⟨hlast, ?_⟩
        have hsplit : b ^ ds.length * b = d * b ^ ds.length + b ^ ds.length := by
          rw [← hlast]
          ring
        omega
      · rintro ⟨hlast, heq⟩
        have hsplit : b ^ ds.length * b = d * b ^ ds.length + b ^ ds.length := by
          rw [← hlast]
          ring
        omega

theorem IsDigits.set {ds : List ℕ} (h : IsDigits b ds) {d : ℕ} (hd : d < b)
    (i : ℕ) : IsDigits b (ds.set i d) := by
  intro x hx
  rcases List.mem_or_eq_of_mem_set hx with hx | rfl
  · exact h x hx
  · exact hd

/-! ## The numeral of a number -/

/-- The digits of `c` without leading zeros, the empty list for zero. -/
def numeral (b c : ℕ) : List ℕ := (Nat.digits b c).reverse

@[simp] theorem value_numeral (c : ℕ) : value b (numeral b c) = c := by
  simp [value, numeral, Nat.ofDigits_digits]

theorem isDigits_numeral (hb : 1 < b) (c : ℕ) : IsDigits b (numeral b c) :=
  isDigits_reverse.mpr fun _ hd => Nat.digits_lt_base hb hd

theorem length_numeral (hb : 1 < b) {c : ℕ} (hc : c ≠ 0) :
    (numeral b c).length = Nat.log b c + 1 := by
  rw [numeral, List.length_reverse, Nat.length_digits b c hb hc]

theorem length_numeral_le_of_lt (hb : 1 < b) {c k : ℕ} (h : c < b ^ k) :
    (numeral b c).length ≤ k := by
  rw [numeral, List.length_reverse]
  exact (Nat.digits_length_le_iff hb c).mpr h

theorem eq_numeral (hb : 1 < b) {d : ℕ} {ds : List ℕ} (h : IsDigits b (d :: ds))
    (hd : 0 < d) : d :: ds = numeral b (value b (d :: ds)) := by
  have hdigits := Nat.digits_ofDigits b hb (d :: ds).reverse
    (isDigits_reverse.mpr h) (fun _ => by simpa using hd.ne')
  rw [numeral, value, hdigits, List.reverse_reverse]

theorem numeral_eq_cons {c : ℕ} (hc : c ≠ 0) :
    ∃ d ds, numeral b c = d :: ds ∧ 0 < d := by
  have hne : Nat.digits b c ≠ [] := Nat.digits_ne_nil_iff_ne_zero.mpr hc
  refine ⟨(Nat.digits b c).getLast hne, (Nat.digits b c).dropLast.reverse, ?_,
    Nat.pos_of_ne_zero (Nat.getLast_digit_ne_zero b hc)⟩
  rw [numeral, ← List.reverse_concat', List.dropLast_concat_getLast]

theorem eq_numeral_of_le (hb : 1 < b) {ds : List ℕ} (h : IsDigits b ds)
    (hlen : 0 < ds.length) (hle : b ^ (ds.length - 1) ≤ value b ds) :
    ds = numeral b (value b ds) := by
  match ds with
  | (d + 1) :: ds => exact eq_numeral hb h (Nat.add_one_pos d)
  | 0 :: ds =>
      have hlt := value_lt hb (isDigits_cons.mp h).2
      rw [value_zero_cons, List.length_cons, Nat.add_sub_cancel] at hle
      omega

theorem length_numeral_le (hb : 1 < b) {ds : List ℕ} (h : IsDigits b ds)
    (h0 : value b ds ≠ 0) : (numeral b (value b ds)).length ≤ ds.length := by
  rw [length_numeral hb h0]
  exact Nat.log_lt_of_lt_pow h0 (value_lt hb h)

end Positional
