import Mathlib.Logic.Function.Basic
import Mathlib.Order.Nat
import Mathlib.Tactic.Common

/-!
# The lines of a source buffer

`initBuffered` looks for the end-of-file mark and then for the line ends in front of it.  The
functions read memory by its distance from the start of the buffer, and could read on behind
the end.
-/

namespace LeooRexx

namespace RexxSource

abbrev Memory := ℕ → UInt8

def ctrl_z : UInt8 := 26

/-- Whether `strchr` finds the character in "\r\n", where it finds the null at the end too. -/
def isDelimiter (c : UInt8) : Bool := c == 13 || c == 10 || c == 0

def memchr (memory : Memory) (c : UInt8) : ℕ → ℕ → Option ℕ
  | _, 0 => none
  | s, length + 1 => if memory s = c then some s else memchr memory c (s + 1) length

def mempbrk (memory : Memory) : ℕ → ℕ → Option ℕ
  | _, 0 => none
  | string, length + 1 =>
      if isDelimiter (memory string) then some string else mempbrk memory (string + 1) length

def skipNulls (memory : Memory) (current length : ℕ) : ℕ → Option ℕ → Option ℕ
  | 0, scan => scan
  | _ + 1, none => none
  | rounds + 1, some scan =>
      if memory scan = 0 then
        skipNulls memory current length rounds
          -- the two characters behind the end are looked at as well
          (mempbrk memory (scan + 1) (length + 1 - (scan - current)))
      else some scan

def findLineEnd (memory : Memory) (current length : ℕ) : Option ℕ :=
  skipNulls memory current length (length + 2) (mempbrk memory current length)

/-- Where the next line starts, the end of a line with `length` characters from `current` on
being found at `scan`. -/
def stepLineEnd (memory : Memory) (current length scan : ℕ) : ℕ :=
  if memory scan = 13 then
    if scan + 1 - current < length then
      if memory (scan + 1) ≠ 0 ∧ memory (scan + 1) = 10 then scan + 2 else scan + 1
    else scan + 1
  else scan + 1

/-- The positions and lengths of the lines.  A line that ends behind the end makes the length
that is left wrap around, and the loop runs on in the memory behind. -/
def lineDescriptors (memory : Memory) : ℕ → ℕ → ℕ → Option (List (ℕ × ℕ))
  | 0, _, length => if length = 0 then some [] else none
  | lines + 1, current, length =>
      if length = 0 then some []
      else
        match findLineEnd memory current length with
        | none => some [(current, length)]
        | some scan =>
            let next := stepLineEnd memory current length scan
            if length < next - current then none
            else (lineDescriptors memory lines next (length - (next - current))).map
              ((current, scan - current) :: ·)

def neutralize (memory : Memory) : Memory :=
  if memory 0 = 35 ∧ memory 1 = 33 then Function.update (Function.update memory 0 45) 1 45
  else memory

structure Source where
  memory : Memory
  sourceIndices : List (ℕ × ℕ)

def programLength (memory : Memory) (length : ℕ) : ℕ := (memchr memory ctrl_z 0 length).getD length

def initBuffered (memory : Memory) (length : ℕ) : Option Source :=
  let memory := neutralize memory
  let length := programLength memory length
  (lineDescriptors memory length 0 length).map fun lines => ⟨memory, (0, 0) :: lines⟩

/-! ## What the lines are -/

def IsLineEnd (c : UInt8) : Prop := c = 13 ∨ c = 10

instance (c : UInt8) : Decidable (IsLineEnd c) := inferInstanceAs (Decidable (_ ∨ _))

def behindLineEnd (memory : Memory) (stop s : ℕ) : ℕ :=
  if memory s = 13 ∧ s + 1 < stop ∧ memory (s + 1) = 10 then s + 2 else s + 1

inductive Lines (memory : Memory) (stop : ℕ) : ℕ → List (ℕ × ℕ) → Prop
  | nil : Lines memory stop stop []
  | last {current : ℕ} (hlt : current < stop)
      (htext : ∀ j, current ≤ j → j < stop → ¬ IsLineEnd (memory j)) :
      Lines memory stop current [(current, stop - current)]
  | line {current s : ℕ} {rest : List (ℕ × ℕ)} (hle : current ≤ s) (hlt : s < stop)
      (htext : ∀ j, current ≤ j → j < s → ¬ IsLineEnd (memory j)) (hend : IsLineEnd (memory s))
      (hrest : Lines memory stop (behindLineEnd memory stop s) rest) :
      Lines memory stop current ((current, s - current) :: rest)

def NullsInLines (memory : Memory) (stop : ℕ) : Prop :=
  ∀ j < stop, memory j = 0 → ∃ s, j ≤ s ∧ s < stop ∧ IsLineEnd (memory s)

variable {memory : Memory} {current length s stop n : ℕ}

theorem isDelimiter_iff {c : UInt8} : isDelimiter c = true ↔ IsLineEnd c ∨ c = 0 := by
  simp [isDelimiter, IsLineEnd]

theorem mempbrk_some (h : mempbrk memory s n = some stop) :
    s ≤ stop ∧ stop < s + n ∧ isDelimiter (memory stop) = true ∧
      ∀ j, s ≤ j → j < stop → isDelimiter (memory j) = false := by
  induction n generalizing s with
  | zero => cases h
  | succ n ih =>
      rw [mempbrk] at h
      split at h
      next hc =>
        obtain rfl := Option.some.inj h
        exact ⟨Nat.le_refl _, by omega, hc, fun j _ _ => by omega⟩
      next hc =>
        obtain ⟨hle, hlt, hstop, hbefore⟩ := ih h
        refine ⟨by omega, by omega, hstop, fun j hj hj' => ?_⟩
        rcases Nat.eq_or_lt_of_le hj with rfl | hj
        · exact Bool.eq_false_iff.mpr hc
        · exact hbefore j hj hj'

theorem mempbrk_none (h : mempbrk memory s n = none) {j : ℕ} (hj : s ≤ j) (hlt : j < s + n) :
    isDelimiter (memory j) = false := by
  induction n generalizing s with
  | zero => omega
  | succ n ih =>
      rw [mempbrk] at h
      split at h
      · cases h
      next hc =>
        rcases Nat.eq_or_lt_of_le hj with rfl | hj
        · exact Bool.eq_false_iff.mpr hc
        · exact ih h hj (by omega)

theorem skipNulls_lineEnd {rounds t : ℕ} (hstop : IsLineEnd (memory s)) (hlt : s < current + length)
    (hbefore : ∀ j, current ≤ j → j < s → ¬ IsLineEnd (memory j)) (hcurrent : current ≤ t)
    (hle : t ≤ s) (ht : isDelimiter (memory t) = true) (hrounds : s - t < rounds) :
    skipNulls memory current length rounds (some t) = some s := by
  induction rounds generalizing t with
  | zero => omega
  | succ rounds ih =>
      rw [skipNulls]
      split
      next hzero =>
        have hne : t ≠ s := by
          rintro rfl
          rw [hzero] at hstop
          exact absurd hstop (by decide)
        cases hscan : mempbrk memory (t + 1) (length + 1 - (t - current)) with
        | none =>
            have hfound := mempbrk_none hscan (j := s) (by omega) (by omega)
            rw [Bool.eq_false_iff, ne_eq, isDelimiter_iff] at hfound
            exact absurd (.inl hstop) hfound
        | some t' =>
            obtain ⟨hlow, -, hdelimiter, hfirst⟩ := mempbrk_some hscan
            have hle' : t' ≤ s := by
              by_contra hgt
              have hfound := hfirst s (by omega) (by omega)
              rw [Bool.eq_false_iff, ne_eq, isDelimiter_iff] at hfound
              exact hfound (.inl hstop)
            exact ih (by omega) hle' hdelimiter (by omega)
      next hzero =>
        have hend := (isDelimiter_iff.mp ht).resolve_right hzero
        rcases Nat.eq_or_lt_of_le hle with rfl | hlt'
        · rfl
        · exact absurd hend (hbefore t hcurrent hlt')

theorem findLineEnd_some (hcurrent : current ≤ s) (hlt : s < current + length)
    (hstop : IsLineEnd (memory s)) (hbefore : ∀ j, current ≤ j → j < s → ¬ IsLineEnd (memory j)) :
    findLineEnd memory current length = some s := by
  rw [findLineEnd]
  cases hscan : mempbrk memory current length with
  | none =>
      have hfound := mempbrk_none hscan hcurrent hlt
      rw [Bool.eq_false_iff, ne_eq, isDelimiter_iff] at hfound
      exact absurd (.inl hstop) hfound
  | some t =>
      obtain ⟨hlow, -, hdelimiter, hfirst⟩ := mempbrk_some hscan
      have hle : t ≤ s := by
        by_contra hgt
        have hfound := hfirst s hcurrent (by omega)
        rw [Bool.eq_false_iff, ne_eq, isDelimiter_iff] at hfound
        exact hfound (.inl hstop)
      exact skipNulls_lineEnd hstop hlt hbefore hlow hle hdelimiter (by omega)

theorem findLineEnd_none
    (h : ∀ j, current ≤ j → j < current + length → ¬ IsLineEnd (memory j) ∧ memory j ≠ 0) :
    findLineEnd memory current length = none := by
  rw [findLineEnd]
  cases hscan : mempbrk memory current length with
  | none => rfl
  | some t =>
      obtain ⟨hlow, hlt, hdelimiter, -⟩ := mempbrk_some hscan
      exact absurd (isDelimiter_iff.mp hdelimiter) (not_or.mpr (h t hlow hlt))

theorem stepLineEnd_eq (hcurrent : current ≤ s) (hlt : s < stop) :
    stepLineEnd memory current (stop - current) s = behindLineEnd memory stop s := by
  rw [stepLineEnd, behindLineEnd]
  by_cases hcr : memory s = 13
  · by_cases hmore : s + 1 < stop
    · by_cases hlf : memory (s + 1) = 10
      · rw [if_pos hcr, if_pos (by omega), if_pos ⟨by rw [hlf]; decide, hlf⟩,
          if_pos ⟨hcr, hmore, hlf⟩]
      · rw [if_pos hcr, if_pos (by omega), if_neg fun h => hlf h.2, if_neg fun h => hlf h.2.2]
    · rw [if_pos hcr, if_neg (by omega), if_neg fun h => hmore h.2.1]
  · rw [if_neg hcr, if_neg fun h => hcr h.1]

theorem behindLineEnd_bounds (memory : Memory) (hlt : s < stop) :
    s < behindLineEnd memory stop s ∧ behindLineEnd memory stop s ≤ stop := by
  rw [behindLineEnd]
  split
  next h => omega
  next => omega

theorem lineDescriptors_lines {lines : ℕ} (hnulls : NullsInLines memory stop)
    (hle : current ≤ stop) (hlines : stop - current ≤ lines) :
    ∃ l, lineDescriptors memory lines current (stop - current) = some l ∧
      Lines memory stop current l := by
  induction lines generalizing current with
  | zero =>
      obtain rfl : current = stop := by omega
      exact ⟨[], by simp [lineDescriptors], .nil⟩
  | succ lines ih =>
      rw [lineDescriptors]
      split
      next hzero =>
        obtain rfl : current = stop := by omega
        exact ⟨[], rfl, .nil⟩
      next hmore =>
        by_cases hend : ∃ s, current ≤ s ∧ s < stop ∧ IsLineEnd (memory s)
        · obtain ⟨hcurrent, hlt, hstop⟩ := Nat.find_spec hend
          have hbefore : ∀ j, current ≤ j → j < Nat.find hend → ¬ IsLineEnd (memory j) :=
            fun j hj hj' hline => Nat.find_min hend hj' ⟨hj, by omega, hline⟩
          obtain ⟨hlow, hhigh⟩ := behindLineEnd_bounds memory hlt
          rw [findLineEnd_some hcurrent (by omega) hstop hbefore]
          simp only
          rw [stepLineEnd_eq hcurrent hlt, if_neg (by omega),
            show stop - current - (behindLineEnd memory stop (Nat.find hend) - current) =
              stop - behindLineEnd memory stop (Nat.find hend) by omega]
          obtain ⟨l, hl, hlinesOf⟩ := ih hhigh (by omega)
          exact ⟨_, by rw [hl]; rfl, .line hcurrent hlt hbefore hstop hlinesOf⟩
        · have htext : ∀ j, current ≤ j → j < stop → ¬ IsLineEnd (memory j) :=
            fun j hj hj' hline => hend ⟨j, hj, hj', hline⟩
          rw [findLineEnd_none fun j hj hj' => ⟨htext j hj (by omega), fun hzero => ?_⟩]
          · exact ⟨_, rfl, .last (by omega) htext⟩
          · obtain ⟨s, hs, hs', hline⟩ := hnulls j (by omega) hzero
            exact htext s (by omega) hs' hline

theorem initBuffered_lines {memory : Memory} {length : ℕ}
    (hnulls : NullsInLines (neutralize memory) (programLength (neutralize memory) length)) :
    ∃ lines, initBuffered memory length = some ⟨neutralize memory, (0, 0) :: lines⟩ ∧
      Lines (neutralize memory) (programLength (neutralize memory) length) 0 lines := by
  obtain ⟨l, hl, hlines⟩ := lineDescriptors_lines hnulls (Nat.zero_le _) (Nat.le_refl _)
  refine ⟨l, ?_, hlines⟩
  rw [Nat.sub_zero] at hl
  rw [initBuffered, hl]
  rfl

end RexxSource

end LeooRexx
