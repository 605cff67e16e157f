import LeooRexx.Classes.StringConversionCodecs

/-!
# DATATYPE

The binary and the hexadecimal option of `DATATYPE`.  `ValSet` scans the string as `ValidateSet`
does for the converters, but a tab is a blank to it.
-/

namespace LeooRexx

namespace StringConversion

/-- `'\t'`. -/
def tab : UInt8 := 9

structure SetScan where
  count : Nat
  residue : Option Nat

section ValSet

variable (set : List UInt8) (modulus : Nat)

def valSetChar (v : SetScan) (c : UInt8) : Option SetScan :=
  if inSet set c then some { v with count := v.count + 1 }
  else if c = space ∨ c = tab then
    match v.residue with
    | none => some { v with residue := some (v.count % modulus) }
    | some residue => if residue ≠ v.count % modulus then none else some v
  else none

def valSetLoop (v : SetScan) : List UInt8 → Option SetScan
  | [] => some v
  | c :: string => (valSetChar set modulus v c).bind (valSetLoop · string)

def valSet (string : List UInt8) : Option Nat :=
  if string.head? = some space ∨ string.head? = some tab then none
  else
    (valSetLoop set modulus ⟨0, none⟩ string).bind fun v =>
      if string.getLast? = some space ∨ string.getLast? = some tab then none
      else if v.residue.any (v.count % modulus ≠ ·) then none
      else some v.count

end ValSet

inductive DataTypeOption where
  | binary
  | hex
  deriving DecidableEq

def dataType (string : List UInt8) : DataTypeOption → Bool
  | .binary => string = [] || (valSet binSet 4 string).isSome
  | .hex => string = [] || (valSet hexSet 2 string).isSome

/-- `DATATYPE` accepts a string when the converters do. -/
def DataTypeAgrees (string : List UInt8) : Prop :=
  (dataType string .hex ↔ (∃ w, x2c string = .ok w) ∧ ∃ w, x2b string = .ok w) ∧
    (dataType string .binary ↔ ∃ w, b2x string = .ok w)

/-! ## Tabs read as blanks -/

def blankForTab (c : UInt8) : UInt8 := if c = tab then space else c

section Scan

variable {set : List UInt8} {m : Nat} (hset : DigitSet set) (htab : tab ∉ set)
include hset htab

theorem inSet_blankForTab (c : UInt8) : inSet set (blankForTab c) = inSet set c := by
  rw [blankForTab]
  split
  · next hc =>
    rw [Bool.eq_iff_iff, inSet_iff hset, inSet_iff hset, hc]
    exact ⟨fun h => absurd h hset.no_space, fun h => absurd h htab⟩
  · rfl

omit hset htab in
theorem blankForTab_eq_space {c : UInt8} : blankForTab c = space ↔ c = space ∨ c = tab := by
  rw [blankForTab]
  split
  · next hc => simp [hc]
  · next hc => simp [hc]

variable (hex : Bool)

theorem valSetChar_eq (v : Validation) (c : UInt8) :
    valSetChar set m ⟨v.count, v.residue⟩ c =
      (validateChar set m hex v (blankForTab c)).toOption.map fun v =>
        ⟨v.count, v.residue⟩ := by
  simp only [valSetChar, validateChar, inSet_blankForTab hset htab, blankForTab_eq_space]
  split
  · rfl
  · split
    · cases v.residue with
      | none => rfl
      | some residue =>
          dsimp only
          split <;> rfl
    · rfl

theorem valSetLoop_eq (v : Validation) (string : List UInt8) :
    valSetLoop set m ⟨v.count, v.residue⟩ string =
      (validateLoop set m hex v (string.map blankForTab)).toOption.map fun v =>
        ⟨v.count, v.residue⟩ := by
  induction string generalizing v with
  | nil => rfl
  | cons c string ih =>
      rw [valSetLoop, valSetChar_eq hset htab hex, List.map_cons, validateLoop]
      cases validateChar set m hex v (blankForTab c) with
      | error e => rfl
      | ok v => exact ih v

theorem valSet_eq (string : List UInt8) :
    valSet set m string = (validateSet set m hex (string.map blankForTab)).toOption := by
  have hblank (c : Option UInt8) :
      c.map blankForTab = some space ↔ c = some space ∨ c = some tab := by
    cases c with
    | none => simp
    | some c => simp [blankForTab_eq_space]
  have hloop := valSetLoop_eq (m := m) hset htab hex ⟨0, 0, 0, none⟩ string
  simp only [valSet, validateSet, List.head?_map, List.getLast?_map, hblank]
  split
  · rfl
  · rw [hloop]
    cases validateLoop set m hex ⟨0, 0, 0, none⟩ (string.map blankForTab) with
    | error e => rfl
    | ok v =>
        simp only [bind, Except.bind, Except.toOption, Option.map_some, Option.bind_some]
        by_cases hlast : string.getLast? = some space ∨ string.getLast? = some tab
        · simp [hlast]
        · cases hresidue : v.residue with
          | none => simp [hlast]
          | some residue =>
              by_cases hplaced : v.count % m = residue <;> simp [hlast, hplaced]

omit htab in
theorem validateSet_tab {string : List UInt8} (h : tab ∈ string) (htab : tab ∉ set) (n : Nat) :
    validateSet set m hex string ≠ .ok n := by
  intro hok
  rcases ((validateSet_ok_iff hset hex).1 hok).1.chars tab h with hmem | hspace
  · exact htab hmem
  · exact absurd hspace (by decide)

end Scan

theorem map_blankForTab {string : List UInt8} (h : tab ∉ string) :
    string.map blankForTab = string := by
  refine (List.map_congr_left fun c hc => ?_).trans (List.map_id string)
  exact if_neg fun heq : c = tab => h (heq ▸ hc)

theorem tab_notMem : tab ∉ hexSet ∧ tab ∉ binSet := by decide

theorem isSome_toOption {ε α : Type} (x : Except ε α) :
    x.toOption.isSome ↔ ∃ a, x = .ok a := by
  cases x <;> simp [Except.toOption]

theorem converters_ok {string : List UInt8} (h : string ≠ []) :
    ((∃ w, x2c string = .ok w) ↔ ∃ n, validateSet hexSet 2 true string = .ok n) ∧
      ((∃ w, x2b string = .ok w) ↔ ∃ n, validateSet hexSet 2 true string = .ok n) ∧
      ((∃ w, b2x string = .ok w) ↔ ∃ n, validateSet binSet 4 false string = .ok n) := by
  simp only [x2c, packHex, x2b, b2x, h, if_false]
  cases validateSet hexSet 2 true string <;> cases validateSet binSet 4 false string <;>
    simp [bind, Except.bind, pure, Except.pure]

/-- `ValSet` reads a tab as a blank, and `ValidateSet` does not. -/
theorem dataTypeAgrees_iff (string : List UInt8) :
    DataTypeAgrees string ↔ tab ∉ string ∨
      (∀ n, validateSet hexSet 2 true (string.map blankForTab) ≠ .ok n) ∧
        ∀ n, validateSet binSet 4 false (string.map blankForTab) ≠ .ok n := by
  by_cases hempty : string = []
  · subst hempty
    refine ⟨fun _ => .inl List.not_mem_nil, fun _ => ⟨⟨fun _ => ⟨⟨_, rfl⟩, _, rfl⟩, fun _ => rfl⟩,
      fun _ => ⟨_, rfl⟩, fun _ => rfl⟩⟩
  · obtain ⟨hx2c, hx2b, hb2x⟩ := converters_ok hempty
    have hhex : dataType string .hex ↔
        ∃ n, validateSet hexSet 2 true (string.map blankForTab) = .ok n := by
      rw [dataType, valSet_eq hexSet_digitSet tab_notMem.1 true, ← isSome_toOption]
      simp [hempty]
    have hbinary : dataType string .binary ↔
        ∃ n, validateSet binSet 4 false (string.map blankForTab) = .ok n := by
      rw [dataType, valSet_eq binSet_digitSet tab_notMem.2 false, ← isSome_toOption]
      simp [hempty]
    rw [DataTypeAgrees, hhex, hbinary, hx2c, hx2b, hb2x, and_self]
    by_cases htab : tab ∈ string
    · have hno := validateSet_tab (m := 2) hexSet_digitSet true htab tab_notMem.1
      have hno' := validateSet_tab (m := 4) binSet_digitSet false htab tab_notMem.2
      simp [htab, hno, hno']
    · rw [map_blankForTab htab]
      simp [htab]

/-- `'12'x` and `'34'x` with a tab between them. -/
theorem dataTypeAgrees_tab : ¬ DataTypeAgrees [49, 50, 9, 51, 52] := by
  intro h
  obtain ⟨⟨w, hw⟩, -⟩ := h.1.1 (by decide)
  have herror : x2c [49, 50, 9, 51, 52] = .error (.invhex 9) := rfl
  rw [herror] at hw
  cases hw

end StringConversion

end LeooRexx
