import LeooRexx.Parser.Literal
import LeooRexx.Classes.StringConversionCodecs
import LeooRexx.Foundation.Positional

/-!
# Literals and the conversion methods

`packLiteral` takes a tab for a blank wherever it stands, which the conversion methods do
not.  Otherwise it accepts what they accept and builds the same bytes, although it packs
the bits eight at a time and the methods in two steps, over hexadecimal digits.
-/

namespace LeooRexx.RexxSource

open StringConversion Groups

def expandTabs (text : List UInt8) : List UInt8 :=
  text.map fun c => if c = tab then space else c

def literalDigits (text : List UInt8) : List UInt8 := digits (expandTabs text)

namespace LiteralType

def digitSet : LiteralType → List UInt8
  | hex => hexSet
  | bin => binSet

def group : LiteralType → ℕ
  | hex => 2
  | bin => 4

theorem residue_eq_zero_iff (type : LiteralType) (count : ℕ) :
    type.residue count = 0 ↔ type.group ∣ count := by
  rw [Nat.dvd_iff_mod_eq_zero]
  cases type with
  | hex => rw [residue, Nat.and_one_is_mod, group]
  | bin =>
      have hmod : count &&& 3 = count % 4 := Nat.and_two_pow_sub_one_eq_mod count 2
      rw [residue, hmod, group]

end LiteralType

/-! ## Blanks -/

theorem expandTabs_blank {c : UInt8} (h : isBlank c = true) (text : List UInt8) :
    expandTabs (c :: text) = space :: expandTabs text := by
  rcases (by simpa [isBlank] using h : c = space ∨ c = tab) with rfl | rfl <;> rfl

theorem expandTabs_of_not_blank {c : UInt8} (h : isBlank c = false) (text : List UInt8) :
    expandTabs (c :: text) = c :: expandTabs text := by
  have hc : c ≠ space ∧ c ≠ tab := by simpa [isBlank] using h
  simp [expandTabs, hc.2]

theorem ne_space_of_not_blank {c : UInt8} (h : isBlank c = false) : c ≠ space := by
  have hc : c ≠ space ∧ c ≠ tab := by simpa [isBlank] using h
  exact hc.1

theorem literalDigits_blank {c : UInt8} (h : isBlank c = true) (text : List UInt8) :
    literalDigits (c :: text) = literalDigits text := by
  simp [literalDigits, expandTabs_blank h, digits]

theorem literalDigits_of_not_blank {c : UInt8} (h : isBlank c = false) (text : List UInt8) :
    literalDigits (c :: text) = c :: literalDigits text := by
  simp [literalDigits, expandTabs_of_not_blank h, digits, ne_space_of_not_blank h]

theorem literalDigits_append (text rest : List UInt8) :
    literalDigits (text ++ rest) = literalDigits text ++ literalDigits rest := by
  simp [literalDigits, expandTabs, digits]

theorem expandTabs_of_no_tab {text : List UInt8} (h : tab ∉ text) : expandTabs text = text := by
  have hsame : ∀ c ∈ text, (if c = tab then space else c) = c := by
    intro c hc
    have hne : c ≠ tab := fun heq => h (heq ▸ hc)
    exact if_neg hne
  rw [expandTabs, List.map_congr_left hsame, List.map_id']

theorem splits_cons {b d : UInt8} {l : List UInt8} {P : List UInt8 → Prop} :
    (∀ before after, d :: l = before ++ b :: after → P after) ↔
      (d = b → P l) ∧ ∀ before after, l = before ++ b :: after → P after := by
  constructor
  · intro h
    refine ⟨?_, ?_⟩
    · rintro rfl
      exact h [] l rfl
    · intro before after hsplit
      exact h (d :: before) after (by rw [hsplit, List.cons_append])
  · rintro ⟨hhead, htail⟩ before after hsplit
    cases before with
    | nil =>
        obtain ⟨hd, hl⟩ := List.cons.inj hsplit
        exact hl ▸ hhead hd
    | cons e before => exact htail before after (List.cons.inj hsplit).2

/-! ## The groups -/

section Groups

variable (type : LiteralType)

def Scanned (i : ℕ) (g : Grouping) (text : List UInt8) : Prop :=
  ∃ g', groupLoop type i g text = .ok g' ∧ ¬ (g'.blanks = true ∨ misplaced type g' = true)

theorem misplaced_iff (g : Grouping) :
    misplaced type g = true ↔ g.first = false ∧ ¬ type.group ∣ g.count := by
  rw [← type.residue_eq_zero_iff]
  simp [misplaced]

theorem scanned_nil (i : ℕ) (g : Grouping) :
    Scanned type i g [] ↔ g.blanks = false ∧ (g.first = false → type.group ∣ g.count) := by
  simp only [Scanned, groupLoop, Except.ok.injEq, exists_eq_left', misplaced_iff]
  simp

theorem scanned_digit {c : UInt8} (hc : isBlank c = false) (i : ℕ) (g : Grouping)
    (text : List UInt8) :
    Scanned type i g (c :: text) ↔
      Scanned type (i + 1)
        { g with first := g.first && !g.blanks, blanks := false, count := g.count + 1 } text := by
  simp [Scanned, groupLoop, groupChar, hc, bind, Except.bind]

theorem scanned_blank {c : UInt8} (hc : isBlank c = true) {i : ℕ} (hi : 0 < i) (g : Grouping)
    (text : List UInt8) :
    Scanned type i g (c :: text) ↔ (g.first = false → type.group ∣ g.count) ∧
      Scanned type (i + 1)
        { g with blanks := true, count := 0, real_length := g.real_length - 1 } text := by
  have hmisplaced := misplaced_iff type g
  cases hbad : misplaced type g with
  | true =>
      rw [hbad] at hmisplaced
      have hfails := hmisplaced.mp rfl
      simp [Scanned, groupLoop, groupChar, hc, hbad, bind, Except.bind, hfails]
  | false =>
      have hpasses : g.first = false → type.group ∣ g.count := by
        intro hfirst
        by_contra hdvd
        rw [hbad] at hmisplaced
        exact absurd (hmisplaced.mpr ⟨hfirst, hdvd⟩) Bool.false_ne_true
      simp only [Scanned, groupLoop, groupChar, hc, hbad, bind, Except.bind, hi.ne', if_true]
      exact ⟨fun h => ⟨hpasses, by simpa using h⟩, fun h => by simpa using h.2⟩

theorem scanned_iff {text : List UInt8} {i : ℕ} (hi : 0 < i) {g : Grouping}
    (hg : g.blanks = true → g.count = 0) {p : UInt8} (hlast : p = space ↔ g.blanks = true) :
    Scanned type i g text ↔
      (g.first = false ∨ g.blanks = true → type.group ∣ g.count + (literalDigits text).length) ∧
      (∀ before after, expandTabs text = before ++ space :: after →
        type.group ∣ (digits after).length) ∧
      (p :: expandTabs text).getLast? ≠ some space := by
  induction text generalizing i g p with
  | nil =>
      rw [scanned_nil]
      simp only [literalDigits, expandTabs, digits, List.map_nil, List.filter_nil, List.length_nil,
        List.getLast?_singleton, ne_eq, Option.some.injEq, hlast, List.nil_eq,
        List.append_eq_nil_iff, reduceCtorEq, and_false, IsEmpty.forall_iff, implies_true, true_and, Nat.add_zero]
      grind
  | cons c text ih =>
      cases hc : isBlank c with
      | true =>
          rw [scanned_blank type hc hi, ih (Nat.succ_pos i) (fun _ => rfl)
            (p := space) (by simp), literalDigits_blank hc, expandTabs_blank hc, splits_cons,
            List.getLast?_cons_cons]
          have hrest : (digits (expandTabs text)).length = (literalDigits text).length := rfl
          simp only [or_true, forall_const, Nat.zero_add, hrest]
          constructor
          · rintro ⟨hcount, hdvd, hsplits, hend⟩
            refine ⟨?_, ⟨hdvd, hsplits⟩, hend⟩
            rintro (hfirst | hblanks)
            · exact dvd_add (hcount hfirst) hdvd
            · rw [hg hblanks, Nat.zero_add]
              exact hdvd
          · rintro ⟨hpast, ⟨hdvd, hsplits⟩, hend⟩
            refine ⟨?_, hdvd, hsplits, hend⟩
            intro hfirst
            exact (Nat.dvd_add_iff_left hdvd).mpr (hpast (.inl hfirst))
      | false =>
          have hspace := ne_space_of_not_blank hc
          rw [scanned_digit type hc, ih (Nat.succ_pos i) (by simp) (p := c)
            (by simp [hspace]), literalDigits_of_not_blank hc, expandTabs_of_not_blank hc,
            splits_cons, List.getLast?_cons_cons, List.length_cons]
          have hsum : g.count + 1 + (literalDigits text).length =
              g.count + ((literalDigits text).length + 1) := by omega
          rw [hsum]
          cases g.first <;> cases g.blanks <;> simp [hspace]

theorem scanned_text_iff {text : List UInt8} (hne : text ≠ []) :
    Scanned type 0 ⟨true, false, 0, text.length⟩ text ↔
      (expandTabs text).head? ≠ some space ∧ (expandTabs text).getLast? ≠ some space ∧
      ∀ before after, expandTabs text = before ++ space :: after →
        type.group ∣ (digits after).length := by
  obtain ⟨c, text, rfl⟩ := List.exists_cons_of_ne_nil hne
  cases hc : isBlank c with
  | true =>
      rw [expandTabs_blank hc]
      simp [Scanned, groupLoop, groupChar, hc, bind, Except.bind]
  | false =>
      have hspace := ne_space_of_not_blank hc
      rw [scanned_digit type hc, scanned_iff type (Nat.succ_pos 0) (by simp) (p := c)
        (by simp [hspace]), expandTabs_of_not_blank hc, splits_cons]
      simp only [Bool.not_false, Bool.and_true, Bool.true_eq_false, or_self, Bool.false_eq_true,
        false_imp_iff, true_and, List.head?_cons, ne_eq, Option.some.injEq, hspace,
        not_false_eq_true]
      exact and_comm

theorem groupLoop_real_length {text : List UInt8} {i : ℕ} {g g' : Grouping}
    (hlen : text.length ≤ g.real_length) (h : groupLoop type i g text = .ok g') :
    g'.real_length + text.length = g.real_length + (literalDigits text).length := by
  induction text generalizing i g with
  | nil =>
      cases h
      rfl
  | cons c text ih =>
      rw [List.length_cons] at hlen
      cases hchar : groupChar type i g c with
      | error e => simp [groupLoop, hchar, bind, Except.bind] at h
      | ok next =>
          have hrest : groupLoop type (i + 1) next text = .ok g' := by
            simpa [groupLoop, hchar, bind, Except.bind] using h
          cases hc : isBlank c with
          | true =>
              obtain ⟨-, rfl⟩ : _ ∧ _ = next := by
                simpa only [groupChar, hc, if_true, ite_error_eq_ok] using hchar
              have htail := ih (by simp only; omega) hrest
              rw [literalDigits_blank hc, List.length_cons]
              simp only at htail
              omega
          | false =>
              obtain rfl : _ = next := by simpa [groupChar, hc] using hchar
              have htail := ih (by simp only; omega) hrest
              rw [literalDigits_of_not_blank hc, List.length_cons, List.length_cons]
              simp only at htail
              omega

end Groups

/-! ## The bytes -/

theorem nextDigit_of_digits {source rest : List UInt8} {c : UInt8}
    (h : literalDigits source = c :: rest) :
    (nextDigit source).1 = c ∧ literalDigits (nextDigit source).2 = rest := by
  induction source with
  | nil => simp [literalDigits, expandTabs, digits] at h
  | cons d source ih =>
      cases hd : isBlank d with
      | true =>
          rw [literalDigits_blank hd] at h
          simpa [nextDigit, hd] using ih h
      | false =>
          rw [literalDigits_of_not_blank hd] at h
          simpa [nextDigit, hd] using List.cons.inj h

def Digits (set : List UInt8) (nibbleOf : UInt8 → Except LiteralError ℕ) : Prop :=
  ∀ c, (nibbleOf c).toOption = if c ∈ set then some (hexDigitToInt c) else none

theorem mem_hexSet_iff {c : UInt8} :
    c ∈ hexSet ↔ (48 ≤ c ∧ c ≤ 57) ∨ (97 ≤ c ∧ c ≤ 102) ∨ 65 ≤ c ∧ c ≤ 70 := by
  have hset : hexSet = [48, 49, 50, 51, 52, 53, 54, 55, 56, 57, 65, 66, 67, 68, 69, 70, 97, 98,
      99, 100, 101, 102] := by decide
  rw [hset]
  simp only [List.mem_cons, List.not_mem_nil, or_false, ← UInt8.toNat_inj, UInt8.le_iff_toNat_le,
    UInt8.reduceToNat]
  omega

theorem hexNibble_digits : Digits hexSet hexNibble := by
  intro c
  by_cases hdigit : 48 ≤ c ∧ c ≤ 57
  · rw [if_pos (mem_hexSet_iff.mpr (.inl hdigit)), hexNibble, if_pos hdigit, hexDigitToInt,
      if_pos (by simpa [isdigit] using hdigit)]
    rfl
  have hletter : hexDigitToInt c = (toupper c).toNat - 65 + 10 := by
    rw [hexDigitToInt, if_neg]
    simpa only [isdigit, decide_eq_true_eq] using hdigit
  by_cases hlower : 97 ≤ c ∧ c ≤ 102
  · have hle := UInt8.le_iff_toNat_le.mp hlower.1
    have hupper : toupper c = c - 32 :=
      if_pos ⟨hlower.1, UInt8.le_trans hlower.2 (by decide)⟩
    have hthirty : (32 : UInt8) ≤ c := UInt8.le_trans (by decide) hlower.1
    rw [if_pos (mem_hexSet_iff.mpr (.inr (.inl hlower))), hexNibble, if_neg hdigit, if_pos hlower,
      hletter, hupper, UInt8.toNat_sub_of_le _ _ hthirty, Nat.sub_sub]
    rfl
  by_cases hupper : 65 ≤ c ∧ c ≤ 70
  · have hsame : toupper c = c := if_neg fun h =>
      absurd (UInt8.le_trans h.1 hupper.2) (by decide)
    rw [if_pos (mem_hexSet_iff.mpr (.inr (.inr hupper))), hexNibble, if_neg hdigit,
      if_neg hlower, if_pos hupper, hletter, hsame]
    rfl
  · rw [if_neg (by rw [mem_hexSet_iff]; tauto), hexNibble, if_neg hdigit, if_neg hlower,
      if_neg hupper]
    rfl

theorem binNibble_digits : Digits binSet binNibble := by
  intro c
  by_cases hone : c = 49
  · subst hone
    rfl
  by_cases hzero : c = 48
  · subst hzero
    rfl
  · have hnot : c ∉ binSet := by
      have hset : binSet = [48, 49] := by decide
      simp [hset, hone, hzero]
    simp [binNibble, hone, hzero, hnot, Except.toOption]

def packDigits (base : ℕ) (group : List UInt8) : UInt8 :=
  UInt8.ofNat (Positional.value base (group.map hexDigitToInt))

section Bytes

variable {set : List UInt8} {nibbleOf : UInt8 → Except LiteralError ℕ}
  (hdigits : Digits set nibbleOf) {shift width : ℕ}
include hdigits

theorem Digits.ok {c : UInt8} (hc : c ∈ set) : nibbleOf c = .ok (hexDigitToInt c) := by
  have h := hdigits c
  rw [if_pos hc] at h
  cases hn : nibbleOf c with
  | error e => simp [hn, Except.toOption] at h
  | ok n =>
      rw [hn] at h
      exact congrArg Except.ok (Option.some.inj h)

theorem Digits.error {c : UInt8} (hc : c ∉ set) : ∃ e, nibbleOf c = .error e := by
  have h := hdigits c
  rw [if_neg hc] at h
  cases hn : nibbleOf c with
  | error e => exact ⟨e, rfl⟩
  | ok n => simp [hn, Except.toOption] at h

variable (shift) in
theorem digitLoop_ok {group others source : List UInt8} (byte : ℕ)
    (h : literalDigits source = group ++ others) (hgroup : ∀ c ∈ group, c ∈ set) :
    ∃ source', digitLoop nibbleOf shift group.length byte source =
        .ok (byte * (2 ^ shift) ^ group.length +
          Positional.value (2 ^ shift) (group.map hexDigitToInt), source') ∧
      literalDigits source' = others := by
  induction group generalizing byte source with
  | nil =>
      refine ⟨source, ?_, h⟩
      simp [digitLoop]
  | cons c group ih =>
      obtain ⟨hc, hrest⟩ := nextDigit_of_digits h
      have hnibble := hdigits.ok (hgroup c List.mem_cons_self)
      obtain ⟨source', hloop, hothers⟩ := ih ((byte <<< shift) + hexDigitToInt c) hrest
        fun d hd => hgroup d (List.mem_cons_of_mem c hd)
      refine ⟨source', ?_, hothers⟩
      have hvalue : byte * (2 ^ shift) ^ (group.length + 1) +
          (hexDigitToInt c * (2 ^ shift) ^ group.length +
            Positional.value (2 ^ shift) (group.map hexDigitToInt)) =
          ((byte <<< shift) + hexDigitToInt c) * (2 ^ shift) ^ group.length +
            Positional.value (2 ^ shift) (group.map hexDigitToInt) := by
        rw [Nat.shiftLeft_eq]
        ring
      rw [List.length_cons, digitLoop, hc, hnibble, List.map_cons, Positional.value_cons,
        List.length_map, hvalue]
      exact hloop

variable (shift) in
theorem digitLoop_error {group others source : List UInt8} (byte : ℕ)
    (h : literalDigits source = group ++ others) (hbad : ∃ c ∈ group, c ∉ set) :
    ∃ e, digitLoop nibbleOf shift group.length byte source = .error e := by
  induction group generalizing byte source with
  | nil => simp at hbad
  | cons c group ih =>
      obtain ⟨hc, hrest⟩ := nextDigit_of_digits h
      rw [List.length_cons, digitLoop, hc]
      by_cases hmem : c ∈ set
      · have hlater : ∃ d ∈ group, d ∉ set := by
          obtain ⟨d, hd, hnot⟩ := hbad
          rcases List.mem_cons.mp hd with rfl | hd
          · exact absurd hmem hnot
          · exact ⟨d, hd, hnot⟩
        rw [hdigits.ok hmem]
        exact ih _ hrest hlater
      · obtain ⟨e, he⟩ := hdigits.error hmem
        exact ⟨e, by rw [he]; rfl⟩

omit hdigits in
theorem firstSize_of_missing {j odd n : ℕ} (hodd : odd < width) (hlen : n + odd = (j + 1) * width) :
    firstSize width n = width - odd := by
  have hn : n = width * j + (width - odd) := by
    rw [Nat.add_mul, Nat.one_mul, Nat.mul_comm] at hlen
    omega
  rw [firstSize, hn, Nat.mul_add_mod]
  cases Nat.eq_zero_or_pos odd with
  | inl hzero => simp [hzero]
  | inr hpos =>
      have hsmall : (width - odd) % width = width - odd := Nat.mod_eq_of_lt (by omega)
      rw [hsmall, if_neg (by omega)]

theorem byteLoop_ok {j odd : ℕ} {xs others source : List UInt8} (hodd : odd < width)
    (hlen : xs.length + odd = j * width) (h : literalDigits source = xs ++ others)
    (hxs : ∀ c ∈ xs, c ∈ set) :
    byteLoop nibbleOf shift width j odd source =
      .ok (packGroups width zero (packDigits (2 ^ shift)) xs) := by
  induction j generalizing odd xs source with
  | zero =>
      have hnil : xs = [] := List.length_eq_zero_iff.mp (by omega)
      rw [hnil, packGroups_nil]
      rfl
  | succ j ih =>
      have hfirst := firstSize_of_missing hodd hlen
      rw [Nat.add_mul, Nat.one_mul] at hlen
      have hne : xs ≠ [] := by
        rintro rfl
        simp only [List.length_nil] at hlen
        omega
      have htake : (xs.take (width - odd)).length = width - odd := by
        rw [List.length_take]
        omega
      have hsplit : literalDigits source =
          xs.take (width - odd) ++ (xs.drop (width - odd) ++ others) := by
        rw [h, ← List.append_assoc, List.take_append_drop]
      obtain ⟨source', hbyte, hothers⟩ := digitLoop_ok hdigits shift 0 hsplit
        fun c hc => hxs c (List.mem_of_mem_take hc)
      rw [htake, Nat.zero_mul, Nat.zero_add] at hbyte
      have hrest := ih (by omega : 0 < width) (by rw [List.length_drop]; omega) hothers
        fun c hc => hxs c (List.mem_of_mem_drop hc)
      have hfill : packDigits (2 ^ shift) (fill width zero (xs.take (width - odd))) =
          UInt8.ofNat (Positional.value (2 ^ shift)
            ((xs.take (width - odd)).map hexDigitToInt)) := by
        have hzero : hexDigitToInt zero = 0 := rfl
        rw [packDigits, fill, List.map_append, List.map_replicate, hzero, Positional.value_append,
          Positional.value_replicate_zero, Nat.zero_mul, Nat.zero_add]
      rw [packGroups_step (by omega) hne, hfirst, hfill, byteLoop, hbyte]
      simp only [bind, Except.bind, hrest, pure, Except.pure]

variable (shift) in
theorem byteLoop_error {j odd : ℕ} {xs others source : List UInt8} (hodd : odd < width)
    (hlen : xs.length + odd = j * width) (h : literalDigits source = xs ++ others)
    (hbad : ∃ c ∈ xs, c ∉ set) :
    ∃ e, byteLoop nibbleOf shift width j odd source = .error e := by
  induction j generalizing odd xs source with
  | zero =>
      have hnil : xs = [] := List.length_eq_zero_iff.mp (by omega)
      simp [hnil] at hbad
  | succ j ih =>
      rw [Nat.add_mul, Nat.one_mul] at hlen
      have htake : (xs.take (width - odd)).length = width - odd := by
        rw [List.length_take]
        omega
      have hsplit : literalDigits source =
          xs.take (width - odd) ++ (xs.drop (width - odd) ++ others) := by
        rw [h, ← List.append_assoc, List.take_append_drop]
      by_cases hfirst : ∃ c ∈ xs.take (width - odd), c ∉ set
      · obtain ⟨e, he⟩ := digitLoop_error hdigits shift 0 hsplit hfirst
        rw [htake] at he
        exact ⟨e, by rw [byteLoop, he]; rfl⟩
      · push Not at hfirst
        obtain ⟨source', hbyte, hothers⟩ := digitLoop_ok hdigits shift 0 hsplit hfirst
        rw [htake] at hbyte
        have hlater : ∃ c ∈ xs.drop (width - odd), c ∉ set := by
          obtain ⟨c, hc, hnot⟩ := hbad
          rw [← List.take_append_drop (width - odd) xs] at hc
          rcases List.mem_append.mp hc with hc | hc
          · exact absurd (hfirst c hc) hnot
          · exact ⟨c, hc, hnot⟩
        obtain ⟨e, he⟩ := ih (by omega : 0 < width) (by rw [List.length_drop]; omega) hothers hlater
        exact ⟨e, by rw [byteLoop, hbyte]; simp only [bind, Except.bind, he]⟩

end Bytes

end LeooRexx.RexxSource
