import LeooRexx.Foundation.Positional

/-!
# Groups counted from the right

A list cut into groups of one size with the short group in front, as digits are
written: the short group is filled up, and each group is packed into one element.
-/

namespace LeooRexx.Groups

variable {α β γ : Type}

def firstSize (m n : Nat) : Nat := if n % m = 0 then m else n % m

theorem firstSize_pos {m n : Nat} (hm : 0 < m) : 0 < firstSize m n := by
  simp only [firstSize]
  split <;> omega

theorem firstSize_le {m : Nat} (hm : 0 < m) (n : Nat) : firstSize m n ≤ m := by
  have hlt := Nat.mod_lt n hm
  simp only [firstSize]
  split <;> omega

theorem firstSize_le_self {m n : Nat} (hn : 0 < n) : firstSize m n ≤ n := by
  simp only [firstSize]
  split
  · exact Nat.le_of_dvd hn (Nat.dvd_of_mod_eq_zero (by assumption))
  · exact Nat.mod_le n m

theorem sub_firstSize_mod {m n : Nat} (hn : 0 < n) : (n - firstSize m n) % m = 0 := by
  simp only [firstSize]
  split
  · rename_i hmod
    obtain ⟨k, rfl⟩ := Nat.dvd_of_mod_eq_zero hmod
    cases k with
    | zero => omega
    | succ k =>
        rw [Nat.mul_succ, Nat.add_sub_cancel]
        exact Nat.mul_mod_right m k
  · exact Nat.sub_mod_eq_zero_of_mod_eq (Nat.mod_mod n m).symm

section Pack

variable (m : Nat) (zero : α) (pack : List α → β)

def fill (xs : List α) : List α := List.replicate (m - xs.length) zero ++ xs

def packGroups (xs : List α) : List β :=
  if xs.length = 0 ∨ m = 0 then []
  else
    pack (fill m zero (xs.take (firstSize m xs.length)))
      :: packGroups (xs.drop (firstSize m xs.length))
termination_by xs.length
decreasing_by
  have hpos := firstSize_pos (m := m) (n := xs.length) (by omega)
  rw [List.length_drop]
  omega

def pad (xs : List α) : List α := List.replicate ((m - xs.length % m) % m) zero ++ xs

end Pack

variable {m : Nat} {zero : α} {pack : List α → β}

@[simp] theorem packGroups_nil : packGroups m zero pack [] = [] := by
  rw [packGroups]
  simp

theorem packGroups_step (hm : 0 < m) {xs : List α} (h : xs ≠ []) :
    packGroups m zero pack xs
      = pack (fill m zero (xs.take (firstSize m xs.length)))
          :: packGroups m zero pack (xs.drop (firstSize m xs.length)) := by
  have hlen := List.length_pos_iff.mpr h
  rw [packGroups, if_neg (by omega)]

theorem packGroups_append (hm : 0 < m) {group rest : List α} (hgroup : group.length = m)
    (hrest : rest.length % m = 0) :
    packGroups m zero pack (group ++ rest) = pack group :: packGroups m zero pack rest := by
  have hne : group ++ rest ≠ [] := by
    intro hnil
    have hlen := congrArg List.length hnil
    simp only [List.length_append, List.length_nil] at hlen
    omega
  have hfirst : firstSize m (group ++ rest).length = m := by
    simp [firstSize, hgroup, hrest]
  rw [packGroups_step hm hne, hfirst, List.take_left' hgroup, List.drop_left' hgroup]
  simp [fill, hgroup]

variable (zero pack) in
theorem packGroups_flatMap (hm : 0 < m) (unpack : γ → List α) (hlen : ∀ c, (unpack c).length = m)
    (cs : List γ) :
    packGroups m zero pack (cs.flatMap unpack) = cs.map fun c => pack (unpack c) := by
  have hwhole : ∀ cs : List γ, (cs.flatMap unpack).length % m = 0 := by
    intro cs
    simp [List.length_flatMap, hlen]
  induction cs with
  | nil => simp
  | cons c cs ih =>
      rw [List.flatMap_cons, packGroups_append hm (hlen c) (hwhole cs), ih, List.map_cons]

theorem length_take_firstSize {xs : List α} (h : xs ≠ []) :
    (xs.take (firstSize m xs.length)).length = firstSize m xs.length := by
  rw [List.length_take]
  exact Nat.min_eq_left (firstSize_le_self (List.length_pos_iff.mpr h))

theorem length_fill {xs : List α} (h : xs.length ≤ m) : (fill m zero xs).length = m := by
  simp only [fill, List.length_append, List.length_replicate]
  omega

theorem forall_mem_fill {p : α → Prop} (hzero : p zero) {xs : List α} (hxs : ∀ x ∈ xs, p x) :
    ∀ x ∈ fill m zero xs, p x := by
  intro x hx
  cases List.mem_append.mp hx with
  | inl hleft => exact List.eq_of_mem_replicate hleft ▸ hzero
  | inr hright => exact hxs x hright

theorem fill_append_drop (hm : 0 < m) {xs : List α} (h : xs ≠ []) :
    fill m zero (xs.take (firstSize m xs.length)) ++ xs.drop (firstSize m xs.length)
      = pad m zero xs := by
  have hcount : m - firstSize m xs.length = (m - xs.length % m) % m := by
    simp only [firstSize]
    have hlt := Nat.mod_lt xs.length hm
    split
    · rename_i hmod
      rw [hmod, Nat.sub_zero, Nat.mod_self, Nat.sub_self]
    · exact (Nat.mod_eq_of_lt (by omega)).symm
  simp only [fill, pad, length_take_firstSize h, List.append_assoc, List.take_append_drop, hcount]

theorem pad_of_whole {xs : List α} (h : xs.length % m = 0) : pad m zero xs = xs := by
  simp [pad, h]

theorem length_drop_firstSize_mod {xs : List α} (h : xs ≠ []) :
    (xs.drop (firstSize m xs.length)).length % m = 0 := by
  rw [List.length_drop]
  exact sub_firstSize_mod (List.length_pos_iff.mpr h)

section Whole

variable {p : α → Prop} (hzero : p zero)
include hzero

theorem mem_packGroups {xs : List α} (hxs : ∀ x ∈ xs, p x) {y : β}
    (hy : y ∈ packGroups m zero pack xs) :
    ∃ group, group.length = m ∧ (∀ x ∈ group, p x) ∧ y = pack group := by
  fun_induction packGroups m zero pack xs with
  | case1 xs h => contradiction
  | case2 xs h ih =>
      have hne : xs ≠ [] := by
        intro hnil
        simp [hnil] at h
      cases List.mem_cons.mp hy with
      | inl hhead =>
          have hlen := firstSize_le (by omega : 0 < m) xs.length
          rw [← length_take_firstSize hne] at hlen
          exact ⟨_, length_fill hlen,
            forall_mem_fill hzero fun x hx => hxs x (List.mem_of_mem_take hx), hhead⟩
      | inr htail => exact ih (fun x hx => hxs x (List.mem_of_mem_drop hx)) htail

theorem flatMap_packGroups (hm : 0 < m) (unpack : β → List α)
    (hunpack : ∀ group : List α, group.length = m → (∀ x ∈ group, p x) →
      unpack (pack group) = group)
    {xs : List α} (hxs : ∀ x ∈ xs, p x) :
    (packGroups m zero pack xs).flatMap unpack = pad m zero xs := by
  fun_induction packGroups m zero pack xs with
  | case1 xs h =>
      have hnil : xs = [] := List.length_eq_zero_iff.mp (by omega)
      simp [hnil, pad]
  | case2 xs h ih =>
      have hne : xs ≠ [] := by
        intro hnil
        simp [hnil] at h
      have hlen := firstSize_le hm xs.length
      rw [← length_take_firstSize hne] at hlen
      have hfirst := hunpack _ (length_fill hlen)
        (forall_mem_fill hzero fun x hx => hxs x (List.mem_of_mem_take hx))
      rw [List.flatMap_cons, hfirst, ih fun x hx => hxs x (List.mem_of_mem_drop hx),
        pad_of_whole (length_drop_firstSize_mod hne), fill_append_drop hm hne]

end Whole

theorem length_packGroups (hm : 0 < m) (xs : List α) :
    (packGroups m zero pack xs).length = (xs.length + (m - 1)) / m := by
  fun_induction packGroups m zero pack xs with
  | case1 xs h =>
      have hnil : xs.length = 0 := by omega
      rw [hnil, List.length_nil, Nat.zero_add, Nat.div_eq_of_lt (by omega)]
  | case2 xs h ih =>
      have hpos := firstSize_pos (n := xs.length) hm
      have hle := firstSize_le hm xs.length
      have hself := firstSize_le_self (m := m) (by omega : 0 < xs.length)
      obtain ⟨k, hk⟩ := Nat.dvd_of_mod_eq_zero (sub_firstSize_mod (m := m)
        (by omega : 0 < xs.length))
      have hleft : m * k + (m - 1) = m - 1 + m * k := by omega
      have hall : xs.length + (m - 1) = firstSize m xs.length - 1 + m * (k + 1) := by
        rw [Nat.mul_succ]
        omega
      rw [List.length_cons, ih, List.length_drop, hk, hall, hleft, Nat.add_mul_div_left _ _ hm,
        Nat.add_mul_div_left _ _ hm, Nat.div_eq_of_lt (by omega), Nat.div_eq_of_lt (by omega)]
      omega

theorem packGroups_congr {pack' : List α → β} (hm : 0 < m) {p : α → Prop} (hzero : p zero)
    (hpack : ∀ group : List α, group.length = m → (∀ x ∈ group, p x) → pack group = pack' group)
    {xs : List α} (hxs : ∀ x ∈ xs, p x) :
    packGroups m zero pack xs = packGroups m zero pack' xs := by
  fun_induction packGroups m zero pack xs with
  | case1 xs h => rw [packGroups, if_pos h]
  | case2 xs h ih =>
      have hne : xs ≠ [] := by
        intro hnil
        simp [hnil] at h
      have hlen := firstSize_le hm xs.length
      rw [← length_take_firstSize hne] at hlen
      rw [packGroups_step hm hne, ih fun x hx => hxs x (List.mem_of_mem_drop hx),
        hpack _ (length_fill hlen)
          (forall_mem_fill hzero fun x hx => hxs x (List.mem_of_mem_take hx))]

theorem value_packGroups (hm : 0 < m) {b : ℕ} {f : β → ℕ} {g : α → ℕ} {p : α → Prop}
    (hzero : p zero) (hg : g zero = 0)
    (hpack : ∀ group : List α, group.length = m → (∀ x ∈ group, p x) →
      f (pack group) = Positional.value b (group.map g))
    {xs : List α} (hxs : ∀ x ∈ xs, p x) :
    Positional.value (b ^ m) ((packGroups m zero pack xs).map f) =
      Positional.value b (xs.map g) := by
  fun_induction packGroups m zero pack xs with
  | case1 xs h =>
      have hnil : xs = [] := List.length_eq_zero_iff.mp (by omega)
      rw [hnil]
      rfl
  | case2 xs h ih =>
      have hne : xs ≠ [] := by
        intro hnil
        simp [hnil] at h
      have hlen := firstSize_le hm xs.length
      rw [← length_take_firstSize hne] at hlen
      have hfirst := hpack _ (length_fill hlen)
        (forall_mem_fill hzero fun x hx => hxs x (List.mem_of_mem_take hx))
      obtain ⟨k, hk⟩ := Nat.dvd_of_mod_eq_zero (length_drop_firstSize_mod (m := m) hne)
      have hgroups : (packGroups m zero pack (xs.drop (firstSize m xs.length))).length = k := by
        rw [length_packGroups hm, hk, Nat.mul_add_div hm, Nat.div_eq_of_lt (by omega),
          Nat.add_zero]
      have hsplit : xs.map g = (xs.take (firstSize m xs.length)).map g ++
          (xs.drop (firstSize m xs.length)).map g := by
        rw [← List.map_append, List.take_append_drop]
      rw [List.map_cons, Positional.value_cons, List.length_map, hgroups, hfirst,
        ih fun x hx => hxs x (List.mem_of_mem_drop hx), hsplit, Positional.value_append,
        List.length_map, hk, pow_mul, fill, List.map_append, List.map_replicate, hg,
        Positional.value_append, Positional.value_replicate_zero, Nat.zero_mul, Nat.zero_add]

end LeooRexx.Groups
