import LeooRexx.Classes.StringSymbolScan

/-!
# Where `isSymbol` and the scanner part

They part on some texts with a sign, and in what a constant is evaluated as: a retriever
takes a constant that is no number for a dot variable, and a period with an exponent for
a number.
-/

namespace LeooRexx

open StringConversion RexxSource StringMisc

/-! ## Numbers -/

structure MantissaText (text : List UInt8) : Prop where
  nonempty : text ≠ []
  chars : ∀ c ∈ text, isdigit c = true ∨ c = period
  periods : text.count period ≤ 1

/-- A mantissa, or one with an `E` and digits behind it. -/
def NumberText (s : List UInt8) : Prop :=
  ∃ mantissa exponent, s = mantissa ++ exponent ∧ MantissaText mantissa ∧
    (exponent = [] ∨
      ∃ e digits, exponent = e :: digits ∧ isE e = true ∧ digits ≠ [] ∧ AllDigits digits)

def ConstantStart (s : List UInt8) : Prop :=
  isdigit (s.headD 0) = true ∨ s.headD 0 = period ∧ isdigit (s.getD 1 0) = true

def DecimalE (word : List UInt8) : Prop :=
  ∃ mantissa e, word = mantissa ++ [e] ∧ MantissaText mantissa ∧
    isdigit (mantissa.headD 0) = true ∧ isE e = true

def mantissaChar (c : UInt8) : Bool := isdigit c || c = period

theorem isE_not_mantissaChar {c : UInt8} (h : isE c = true) : mantissaChar c = false := by
  obtain ⟨hdigit, hperiod⟩ := isE_not_digit h
  simp [mantissaChar, hdigit, hperiod]

theorem count_period_digits {digits : List UInt8} (h : AllDigits digits) :
    digits.count period = 0 := by
  apply List.count_eq_zero.mpr
  intro hmem
  exact absurd (h period hmem) (by decide)

theorem isE_ne_period {c : UInt8} (h : isE c = true) : c ≠ period := (isE_not_digit h).2

section Number

variable {s : List UInt8}

theorem symbolType_number (hfirst : s.headD 0 = period ∨ isdigit (s.headD 0) = true) {k : ℕ}
    (hdot : ¬ (k = 1 ∧ s.length = 1)) :
    symbolType s k = if k > 1 then .literal else numberType s := by
  simp only [symbolType, hfirst, hdot, if_true, if_false]

theorem numberType_cases (s : List UInt8) :
    numberType s = .numeric ∨ numberType s = .literal := by
  rw [numberType]
  grind

theorem dropWhile_mantissa {mantissa rest : List UInt8}
    (hmantissa : ∀ c ∈ mantissa, isdigit c = true ∨ c = period)
    (hrest : ∀ c ∈ rest.head?, mantissaChar c = false) :
    (mantissa ++ rest).dropWhile (fun c => isdigit c || c = period) = rest := by
  rw [List.dropWhile_append_of_pos (by simpa using hmantissa)]
  cases rest with
  | nil => rfl
  | cons c rest => exact List.dropWhile_cons_of_neg (by simpa [mantissaChar] using hrest c rfl)

theorem exists_mantissa (s : List UInt8) :
    ∃ mantissa rest, s = mantissa ++ rest ∧
      (∀ c ∈ mantissa, isdigit c = true ∨ c = period) ∧
      (∀ c ∈ rest.head?, mantissaChar c = false) := by
  refine ⟨s.takeWhile mantissaChar, s.dropWhile mantissaChar,
    List.takeWhile_append_dropWhile.symm, ?_, ?_⟩
  · intro c hc
    simpa [mantissaChar] using List.mem_takeWhile_imp hc
  · intro c hc
    have hhead := List.head?_dropWhile_not mantissaChar s
    rw [Option.mem_def.mp hc] at hhead
    simpa using hhead

theorem numeric_word_iff (hs : Symbolic s)
    (hfirst : s.headD 0 = period ∨ isdigit (s.headD 0) = true) (hdot : s ≠ [period]) :
    symbolType s (s.count period) = .numeric ↔ NumberText s := by
  have hsingle : ¬ (s.count period = 1 ∧ s.length = 1) := by
    rintro ⟨hcount, hlength⟩
    obtain ⟨c, rfl⟩ := List.length_eq_one_iff.mp hlength
    by_cases hc : c = period
    · exact hdot (by rw [hc])
    · simp [hc] at hcount
  rw [symbolType_number hfirst hsingle]
  constructor
  · intro htype
    split at htype
    case isTrue _ => contradiction
    case isFalse hcount =>
      obtain ⟨mantissa, rest, rfl, hchars, hrest⟩ := exists_mantissa s
      have hne : mantissa ≠ [] := by
        rintro rfl
        cases rest with
        | nil => rcases hfirst with h | h <;> exact absurd h (by decide)
        | cons c rest =>
            have hc := hrest c rfl
            rcases hfirst with h | h <;> simp_all [mantissaChar]
      have hperiods : mantissa.count period ≤ 1 := by
        rw [List.count_append] at hcount
        omega
      refine ⟨mantissa, rest, rfl, ⟨hne, hchars, hperiods⟩, ?_⟩
      rw [numberType, dropWhile_mantissa hchars hrest] at htype
      cases rest with
      | nil => exact .inl rfl
      | cons e digits =>
          right
          simp only [toupper_eq_E] at htype
          split at htype
          case isFalse _ => contradiction
          case isTrue hexponent =>
            cases digits with
            | nil => exact absurd rfl hexponent.1
            | cons d digits =>
                have hd : isSign d = false := by
                  rw [Bool.eq_false_iff]
                  intro hsign
                  exact hs d (by simp) (lookup_sign hsign)
                simp only [List.headD_cons, hd, Bool.false_eq_true, if_false] at htype
                split at htype
                case isFalse _ => contradiction
                case isTrue hall =>
                  exact ⟨e, d :: digits, rfl, hexponent.2, hexponent.1, List.all_eq_true.mp hall⟩
  · rintro ⟨mantissa, exponent, rfl, hmantissa, hexponent⟩
    rcases hexponent with rfl | ⟨e, digits, rfl, he, hne, hdigits⟩
    · have hcount : ¬ (mantissa ++ []).count period > 1 := by
        rw [List.append_nil]
        exact Nat.not_lt.mpr hmantissa.periods
      rw [if_neg hcount, numberType, dropWhile_mantissa hmantissa.chars (by simp)]
    · have hcount : ¬ (mantissa ++ e :: digits).count period > 1 := by
        rw [List.count_append, List.count_cons_of_ne (isE_ne_period he),
          count_period_digits hdigits]
        exact Nat.not_lt.mpr hmantissa.periods
      have hsign : isSign (digits.headD 0) = false := by
        obtain ⟨d, digits, rfl⟩ := List.exists_cons_of_ne_nil hne
        rw [Bool.eq_false_iff]
        intro hsign
        exact (lookup_digit (hdigits d List.mem_cons_self)).2 (lookup_sign hsign)
      have hall : digits.all isdigit = true := List.all_eq_true.mpr hdigits
      rw [if_neg hcount, numberType, dropWhile_mantissa hmantissa.chars
        (by simpa using isE_not_mantissaChar he)]
      simp only [toupper_eq_E, he, hne, ne_eq, not_false_eq_true, and_self, if_true, hsign, hall,
        Bool.false_eq_true, if_false]

theorem numeric_signed_iff {word digits : List UInt8} {sign : UInt8}
    (h : Signed s word sign digits) (hfirst : isdigit (word.headD 0) = true)
    (hlast : isE (word.getLastD 0) = true) :
    symbolType s (word.count period) = .numeric ↔ DecimalE word := by
  have hne : word ≠ [] := by
    rintro rfl
    exact absurd hfirst (by decide)
  have hhead : s.headD 0 = word.headD 0 := by
    obtain ⟨c, word, rfl⟩ := List.exists_cons_of_ne_nil hne
    simp [h.eq]
  have hlong : ¬ (word.count period = 1 ∧ s.length = 1) := by
    rintro ⟨-, hlength⟩
    have hpos := List.length_pos_iff.mpr hne
    rw [h.eq, List.length_append, List.length_cons] at hlength
    have hdigits := List.length_pos_iff.mpr h.nonempty
    omega
  rw [symbolType_number (.inr (hhead ▸ hfirst)) hlong]
  constructor
  · intro htype
    split at htype
    case isTrue _ => contradiction
    case isFalse hcount =>
      obtain ⟨mantissa, rest, rfl, hchars, hrest⟩ := exists_mantissa word
      cases rest with
      | nil =>
          rw [List.append_nil] at hlast hne
          have hmem : mantissa.getLastD 0 ∈ mantissa := by
            rw [List.getLastD_eq_getLast?, List.getLast?_eq_some_getLast hne]
            exact List.getLast_mem hne
          have hbad := isE_not_mantissaChar hlast
          have hgood := hchars _ hmem
          have hchar : mantissaChar (mantissa.getLastD 0) = true := by
            simp only [mantissaChar, Bool.or_eq_true, decide_eq_true_eq]
            exact hgood
          exact absurd (hbad.symm.trans hchar) Bool.false_ne_true
      | cons e rest =>
          have hmantissa : mantissa ≠ [] := by
            rintro rfl
            have hbad := hrest e rfl
            simp_all [mantissaChar]
          have hstart : isdigit (mantissa.headD 0) = true := by
            obtain ⟨c, mantissa, rfl⟩ := List.exists_cons_of_ne_nil hmantissa
            simpa using hfirst
          have hperiods : mantissa.count period ≤ 1 := by
            rw [List.count_append] at hcount
            omega
          have hshape : s = mantissa ++ e :: (rest ++ sign :: digits) := by simp [h.eq]
          have hstop : ∀ tail : List UInt8, ∀ c ∈ (e :: tail).head?, mantissaChar c = false := by
            simpa using hrest
          have hdrop := dropWhile_mantissa hchars (hstop (rest ++ sign :: digits))
          cases rest with
          | nil =>
              refine ⟨mantissa, e, rfl, ⟨hmantissa, hchars, hperiods⟩, hstart, ?_⟩
              simpa using hlast
          | cons d rest =>
              have hd : isSign d = false := by
                rw [Bool.eq_false_iff]
                intro hsign
                exact h.word d (by simp) (lookup_sign hsign)
              have hsignDigit : isdigit sign = false := by
                rcases (by simpa [isSign] using h.sign : sign = 43 ∨ sign = 45) with rfl | rfl <;>
                  rfl
              have hall : (d :: rest ++ sign :: digits).all isdigit = false := by
                simp [hsignDigit]
              rw [hshape, numberType, hdrop] at htype
              simp only [List.cons_append, List.headD_cons, hd, Bool.false_eq_true,
                if_false] at htype hall
              simp [hall] at htype
  · rintro ⟨mantissa, e, rfl, hmantissa, hstart, he⟩
    have hcount : ¬ (mantissa ++ [e]).count period > 1 := by
      rw [List.count_append, List.count_singleton, if_neg (by simpa using isE_ne_period he)]
      exact Nat.not_lt.mpr hmantissa.periods
    have hshape : s = mantissa ++ e :: sign :: digits := by simp [h.eq]
    rw [if_neg hcount, hshape, numberType, dropWhile_mantissa hmantissa.chars
      (by simpa using isE_not_mantissaChar he)]
    simp [toupper_eq_E, he, h.sign]

end Number

/-! ## The token -/

def translated (s : List UInt8) : List UInt8 :=
  s.map fun inch => if lookup inch ≠ 0 then lookup inch else inch

section Token

variable {s : List UInt8} (hlen : s.length ≤ maxSymbolLength)

theorem symbolToken_ok {t : SymbolToken} (h : symbolToken s 0 = .ok t) :
    t.line_offset = symbolStop s 0 ∧
      t.subclass = symbolClass (s.getD 0 0) (s.getD 1 0) (symbolLoop .start 0 0 0 s).dot_count
        (translated (s.take (symbolStop s 0))) := by
  simp only [symbolToken, List.drop_zero, Nat.sub_zero, Nat.zero_add] at h
  rw [← symbolStop] at h
  split at h
  · contradiction
  · cases h
    exact ⟨rfl, rfl⟩

include hlen in
theorem exists_symbolToken (hstop : symbolStop s 0 = s.length) :
    ∃ t, symbolToken s 0 = .ok t := by
  simp only [symbolToken, List.drop_zero, Nat.sub_zero]
  rw [← symbolStop, hstop, if_neg (Nat.not_lt.mpr hlen)]
  exact ⟨_, rfl⟩

include hlen in
theorem exists_reads_iff : (∃ t, Reads s t) ↔ lookup (s.headD 0) ≠ 0 ∧ symbolStop s 0 = s.length := by
  constructor
  · rintro ⟨t, hhead, htoken, hend⟩
    exact ⟨hhead, (symbolToken_ok htoken).1.symm.trans hend⟩
  · rintro ⟨hhead, hstop⟩
    obtain ⟨t, htoken⟩ := exists_symbolToken hlen hstop
    exact ⟨t, hhead, htoken, (symbolToken_ok htoken).1.trans hstop⟩

theorem Reads.subclass {t : SymbolToken} (h : Reads s t) :
    t.subclass = symbolClass (s.getD 0 0) (s.getD 1 0) (symbolLoop .start 0 0 0 s).dot_count
      (translated s) := by
  obtain ⟨-, htoken, hend⟩ := h
  obtain ⟨hstop, hclass⟩ := symbolToken_ok htoken
  rw [hclass, ← hstop, hend, List.take_length]

end Token

theorem translated_last {s : List UInt8} :
    (translated s).getLast? = some period ↔ s.getLast? = some period := by
  have table : ∀ n < 256, (if lookup (UInt8.ofNat n) ≠ 0 then lookup (UInt8.ofNat n)
      else UInt8.ofNat n) = period ↔ UInt8.ofNat n = period := by
    decide +kernel
  rw [translated, List.getLast?_map, Option.map_eq_some_iff]
  constructor
  · rintro ⟨c, hc, hperiod⟩
    rw [hc, ← (table c.toNat c.toNat_lt).mp (by simpa using hperiod)]
    simp
  · intro hlast
    exact ⟨period, hlast, by decide⟩

theorem symbolStop_symbolic {s : List UInt8} (hne : s ≠ []) (hs : Symbolic s) :
    symbolStop s 0 = s.length ∧ (symbolLoop .start 0 0 0 s).dot_count = s.count period := by
  have hnothing : Outside [] := by simp [Outside]
  have hloop := symbolLoop_run hne hs hnothing .start 0 0
  rw [List.append_nil, behindSymbol, Nat.zero_add, Nat.zero_add] at hloop
  refine ⟨?_, by rw [hloop]⟩
  rw [symbolStop, hloop]
  simp

theorem symbolStop_signed {s word digits : List UInt8} {sign : UInt8}
    (h : Signed s word sign digits) (hform : ExponentForm word) : symbolStop s 0 = s.length := by
  have hne : word ≠ [] := by
    obtain ⟨c, rest, rfl, -⟩ := hform
    simp
  have hend : SignedDigits sign digits [] := ⟨h.sign, h.nonempty, h.digits, by simp [Outside]⟩
  have hloop := symbolLoop_signed hne h.word hform hend 0
  rw [List.append_nil, ← h.eq] at hloop
  have hlength : s.length = 0 + word.length + 1 + digits.length := by
    rw [h.eq, List.length_append, List.length_cons]
    omega
  rw [symbolStop, hloop, hlength]
  simp

theorem symbolStop_other {s : List UInt8} (hhead : lookup (s.headD 0) ≠ 0) (hs : ¬ Symbolic s)
    (hnot : ∀ word sign digits, Signed s word sign digits → ¬ ExponentForm word) :
    symbolStop s 0 ≠ s.length := by
  obtain ⟨word, rest, rfl, hword, hrest⟩ := exists_run s
  have hrestNe : rest ≠ [] := by
    rintro rfl
    exact hs (by simpa using hword)
  have hrestLen := List.length_pos_iff.mpr hrestNe
  have hne : word ≠ [] := by
    rintro rfl
    obtain ⟨c, rest, rfl⟩ := List.exists_cons_of_ne_nil hrestNe
    exact hhead (by simpa using hrest c rfl)
  by_cases htaken : ExponentForm word ∧ ∃ sign digits after,
      rest = sign :: (digits ++ after) ∧ SignedDigits sign digits after
  · obtain ⟨hform, sign, digits, after, rfl, hsigned⟩ := htaken
    have hafter : after ≠ [] := by
      rintro rfl
      exact hnot word sign digits ⟨by simp, hword, hsigned.sign, hsigned.nonempty,
        hsigned.digits⟩ hform
    have hafterLen := List.length_pos_iff.mpr hafter
    rw [symbolStop, symbolLoop_signed hne hword hform hsigned]
    simp only [ne_eq, not_true_eq_false, and_false, if_false, List.length_append,
      List.length_cons]
    omega
  · rw [symbolStop_word hne hword hrest htaken, List.length_append]
    omega

/-! ## Agreement -/

section Agreement

variable {s : List UInt8}

theorem number_retriever {k : ℕ} (hfirst : s.headD 0 = period ∨ isdigit (s.headD 0) = true)
    (hdot : ¬ (k = 1 ∧ s.length = 1)) :
    (symbolType s k).retriever =
      some (if symbolType s k = .numeric then .literal else .dotVariable) := by
  have hcases : symbolType s k = .numeric ∨ symbolType s k = .literal := by
    rw [symbolType_number hfirst hdot]
    split
    · exact .inr rfl
    · exact numberType_cases s
  rcases hcases with h | h <;> simp [h, StringType.retriever]

theorem symbolType_ne_bad (s : List UInt8) (k : ℕ) : symbolType s k ≠ .badVariable := by
  have hcases := numberType_cases s
  rw [symbolType]
  grind

/-- The condition: a text of symbol characters is the period, or it begins like a constant
exactly when it is a number; the run before a sign is a decimal number with an `E`, or it is
nothing to either scan. -/
def SymbolCondition (s : List UInt8) : Prop :=
  (Symbolic s → s = [period] ∨ (ConstantStart s ↔ NumberText s)) ∧
    ∀ word sign digits, Signed s word sign digits →
      DecimalE word ∨ ¬ ExponentForm word ∧
        ¬ (isdigit (word.headD 0) = true ∧ isE (word.getLastD 0) = true)

theorem NumberText.start (h : NumberText s) :
    s.headD 0 = period ∨ isdigit (s.headD 0) = true := by
  obtain ⟨mantissa, exponent, rfl, hmantissa, -⟩ := h
  obtain ⟨c, mantissa, rfl⟩ := List.exists_cons_of_ne_nil hmantissa.nonempty
  exact (hmantissa.chars c List.mem_cons_self).symm

theorem word_agrees_iff (hne : s ≠ []) (hs : Symbolic s) :
    (symbolType s (s.count period)).retriever =
        some (addText (symbolClass (s.getD 0 0) (s.getD 1 0) (s.count period) (translated s))) ↔
      s = [period] ∨ (ConstantStart s ↔ NumberText s) := by
  have hhead : s.getD 0 0 = s.headD 0 := by
    obtain ⟨c, s, rfl⟩ := List.exists_cons_of_ne_nil hne
    rfl
  have hsize : (translated s).length = s.length := List.length_map _
  by_cases hdot : s = [period]
  · subst hdot
    exact iff_of_true (by decide) (.inl rfl)
  by_cases hfirst : s.headD 0 = period ∨ isdigit (s.headD 0) = true
  · have hnumeric := numeric_word_iff hs hfirst hdot
    have hsingle : ¬ (s.length = 1 ∧ s.headD 0 = period) := by
      rintro ⟨hlength, hperiod⟩
      obtain ⟨c, rfl⟩ := List.length_eq_one_iff.mp hlength
      exact hdot (by rw [show c = period from hperiod])
    have htype : (symbolType s (s.count period)).retriever =
        some (if symbolType s (s.count period) = .numeric then .literal else .dotVariable) := by
      have hone : ¬ (s.count period = 1 ∧ s.length = 1) := by
        rintro ⟨hcount, hlength⟩
        obtain ⟨c, rfl⟩ := List.length_eq_one_iff.mp hlength
        by_cases hc : c = period
        · exact hdot (by rw [hc])
        · simp [hc] at hcount
      exact number_retriever hfirst hone
    by_cases hconstant : ConstantStart s
    · have hclass : symbolClass (s.getD 0 0) (s.getD 1 0) (s.count period) (translated s) =
          .constant := by
        rw [symbolClass, hsize, hhead, if_neg hsingle]
        rcases hconstant with hdigit | ⟨hperiod, hdigit⟩
        · rw [if_pos hdigit]
        · simp only [hperiod, period_not_digit, Bool.false_eq_true, if_false, if_true, hdigit]
      rw [htype, hclass, addText, ← hnumeric]
      by_cases hnumber : symbolType s (s.count period) = .numeric <;>
        simp [hnumber, hconstant, hdot]
    · have hnot : isdigit (s.headD 0) = false := by
        rw [Bool.eq_false_iff]
        exact fun h => hconstant (.inl h)
      have hperiod : s.headD 0 = period := hfirst.resolve_right (by rw [hnot]; exact Bool.false_ne_true)
      have hsecond : isdigit (s.getD 1 0) = false := by
        rw [Bool.eq_false_iff]
        exact fun h => hconstant (.inr ⟨hperiod, h⟩)
      have hclass : symbolClass (s.getD 0 0) (s.getD 1 0) (s.count period) (translated s) =
          .dotsymbol := by
        rw [symbolClass, hsize, hhead, if_neg hsingle]
        simp only [hnot, hperiod, hsecond, Bool.false_eq_true, if_false, if_true,
          period_not_digit]
      rw [htype, hclass, addText, ← hnumeric]
      by_cases hnumber : symbolType s (s.count period) = .numeric <;>
        simp [hnumber, hconstant, hdot]
  · have hnumber : ¬ NumberText s := fun h => hfirst h.start
    obtain ⟨hperiod, hdigit⟩ := not_or.mp hfirst
    have hconstant : ¬ ConstantStart s := by
      rintro (h | ⟨h, -⟩)
      · exact hdigit h
      · exact hperiod h
    refine iff_of_true ?_ (.inr (iff_of_false hconstant hnumber))
    have hlast := translated_last (s := s)
    rw [symbolType, symbolClass, hsize, hhead]
    simp only [hperiod, hdigit, or_self, and_false, if_false, hlast, Bool.false_eq_true]
    rcases Nat.eq_zero_or_pos (s.count period) with hzero | hsome
    · simp [hzero, StringType.retriever, addText]
    · by_cases hstem : s.count period = 1 ∧ s.getLast? = some period <;>
        simp [hsome.ne', hsome, hstem, StringType.retriever, addText]

theorem Signed.unique {word word' digits digits' : List UInt8} {sign sign' : UInt8}
    (h : Signed s word sign digits) (h' : Signed s word' sign' digits') :
    word = word' ∧ sign = sign' ∧ digits = digits' := by
  have hrun := takeWhile_symbolic h.word (outside_sign h.sign digits)
  have hrun' := takeWhile_symbolic h'.word (outside_sign h'.sign digits')
  rw [← h.eq] at hrun
  rw [← h'.eq] at hrun'
  obtain rfl := hrun.symm.trans hrun'
  have htail := List.append_cancel_left (h.eq.symm.trans h'.eq)
  exact ⟨rfl, List.cons.inj htail⟩

theorem Signed.not_symbolic {word digits : List UInt8} {sign : UInt8}
    (h : Signed s word sign digits) : ¬ Symbolic s := by
  intro hs
  exact hs sign (by rw [h.eq]; simp) (lookup_sign h.sign)

theorem plain_of_digits {digits : List UInt8} (h : AllDigits digits) : Plain digits := by
  intro c hc
  have hdigit := h c hc
  constructor
  · rintro rfl
    exact absurd hdigit (by decide)
  · rw [Bool.eq_false_iff]
    intro he
    exact absurd hdigit (by simp [(isE_not_digit he).1])

theorem allDigits_of_no_period {text : List UInt8}
    (hchars : ∀ c ∈ text, isdigit c = true ∨ c = period) (hnone : period ∉ text) :
    AllDigits text := by
  intro c hc
  exact (hchars c hc).resolve_right fun heq => hnone (heq ▸ hc)

theorem DecimalE.form {word : List UInt8} (h : DecimalE word) :
    ExponentForm word ∧ isdigit (word.headD 0) = true ∧ isE (word.getLastD 0) = true := by
  obtain ⟨mantissa, e, rfl, hmantissa, hstart, he⟩ := h
  obtain ⟨c, mantissa, rfl⟩ := List.exists_cons_of_ne_nil hmantissa.nonempty
  have hc : isdigit c = true := hstart
  have hlast : (c :: mantissa ++ [e]).getLastD 0 = e := by
    rw [List.getLastD_eq_getLast?, List.getLast?_concat, Option.getD_some]
  refine ⟨⟨c, mantissa ++ [e], rfl, .inl ⟨hc, ?_⟩⟩, hstart, by rwa [hlast]⟩
  have hchars := fun d hd => hmantissa.chars d (List.mem_cons_of_mem c hd)
  have hnoDigits : NoDigits [] := by simp [NoDigits]
  by_cases hperiod : period ∈ mantissa
  · obtain ⟨whole, fraction, rfl, hwhole⟩ := List.eq_append_cons_of_mem hperiod
    have hfraction : period ∉ fraction := by
      have hcount := hmantissa.periods
      rw [← List.count_eq_zero]
      simp only [List.count_cons, List.count_append, beq_self_eq_true, if_true] at hcount
      omega
    have hdigits : AllDigits whole :=
      allDigits_of_no_period (fun d hd => hchars d (List.mem_append_left _ hd)) hwhole
    have hrest : AllDigits fraction :=
      allDigits_of_no_period (fun d hd => hchars d (by simp [hd])) hfraction
    exact ⟨whole, period, fraction ++ [e], by simp, plain_of_digits hdigits,
      .inr ⟨rfl, fraction, e, [], rfl, hrest, he, hnoDigits⟩⟩
  · have hdigits := allDigits_of_no_period hchars hperiod
    exact ⟨mantissa, e, [], rfl, plain_of_digits hdigits, .inl ⟨he, hnoDigits⟩⟩

theorem signed_retriever {word digits : List UInt8} {sign : UInt8}
    (h : Signed s word sign digits) (hfirst : isdigit (word.headD 0) = true)
    (hlast : isE (word.getLastD 0) = true) (htype : isSymbol s = symbolType s (word.count period))
    {t : SymbolToken} (ht : Reads s t) :
    getVariableRetriever s = some (addText t.subclass) ↔ DecimalE word := by
  have hne : word ≠ [] := by
    rintro rfl
    exact absurd hfirst (by decide)
  obtain ⟨c, word, rfl⟩ := List.exists_cons_of_ne_nil hne
  have hc : isdigit c = true := hfirst
  have hperiod : c ≠ period := by
    rintro rfl
    exact absurd hc (by decide)
  have hhead : s.getD 0 0 = c := by rw [h.eq]; rfl
  have hdigit : isdigit (s.headD 0) = true := by rw [h.eq]; exact hc
  have hclass : t.subclass = .constant := by
    rw [ht.subclass, hhead, symbolClass]
    simp [hperiod, hc]
  have hlong : ¬ ((c :: word).count period = 1 ∧ s.length = 1) := by
    rintro ⟨-, hlength⟩
    have hdigits := List.length_pos_iff.mpr h.nonempty
    rw [h.eq, List.length_append, List.length_cons, List.length_cons] at hlength
    omega
  rw [getVariableRetriever, htype, number_retriever (.inr hdigit) hlong, hclass, addText,
    ← numeric_signed_iff h hfirst hlast]
  split <;> simp_all

/-- `isSymbol` agrees with the scanner and the lookup exactly under the condition. -/
theorem symbol_agrees_iff {s : List UInt8} (hne : s ≠ []) (hlen : s.length ≤ maxSymbolLength) :
    SymbolAgrees s ↔ SymbolCondition s := by
  have hpos : s.length ≠ 0 := by simpa using hne
  rw [SymbolAgrees, exists_reads_iff hlen]
  by_cases hs : Symbolic s
  case pos =>
    obtain ⟨hstop, hdots⟩ := symbolStop_symbolic hne hs
    have hhead : lookup (s.headD 0) ≠ 0 := by
      obtain ⟨c, s, rfl⟩ := List.exists_cons_of_ne_nil hne
      exact hs c List.mem_cons_self
    have hsigned : ∀ word sign digits, ¬ Signed s word sign digits :=
      fun _ _ _ h => h.not_symbolic hs
    obtain ⟨t, hreads⟩ := (exists_reads_iff hlen).mpr ⟨hhead, hstop⟩
    have hword := word_agrees_iff hne hs
    rw [← hdots, ← hreads.subclass, hdots, ← isSymbol_word hpos hlen hs] at hword
    have hvalid : isSymbol s ≠ .badVariable := by
      rw [isSymbol_word hpos hlen hs]
      exact symbolType_ne_bad s _
    constructor
    · rintro ⟨-, hall⟩
      exact ⟨fun _ => hword.mp (hall t hreads), fun word sign digits h => absurd h (hsigned _ _ _)⟩
    · rintro ⟨hcondition, -⟩
      refine ⟨iff_of_true hvalid ⟨hhead, hstop⟩, ?_⟩
      intro t' hreads'
      rw [hreads'.subclass, ← hreads.subclass]
      exact hword.mpr (hcondition hs)
  case neg =>
    by_cases hsome : ∃ word sign digits, Signed s word sign digits
    case neg =>
      push Not at hsome
      have hbad := isSymbol_bad hpos hlen hs hsome
      have hunread : ¬ (lookup (s.headD 0) ≠ 0 ∧ symbolStop s 0 = s.length) := by
        rintro ⟨hhead, hstop⟩
        exact symbolStop_other hhead hs (fun _ _ _ h => absurd h (hsome _ _ _)) hstop
      refine iff_of_true ⟨iff_of_false (by simp [hbad]) hunread, ?_⟩
        ⟨fun h => absurd h hs, fun _ _ _ h => absurd h (hsome _ _ _)⟩
      intro t hreads
      exact absurd ((exists_reads_iff hlen).mp ⟨t, hreads⟩) hunread
    case pos =>
      obtain ⟨word, sign, digits, hsigned⟩ := hsome
      have hreads : (lookup (s.headD 0) ≠ 0 ∧ symbolStop s 0 = s.length) ↔ ExponentForm word := by
        constructor
        · rintro ⟨hhead, hstop⟩
          by_contra hform
          refine symbolStop_other hhead hs ?_ hstop
          intro word' sign' digits' h'
          obtain ⟨rfl, -, -⟩ := hsigned.unique h'
          exact hform
        · intro hform
          refine ⟨?_, symbolStop_signed hsigned hform⟩
          obtain ⟨c, rest, rfl, -⟩ := hform
          rw [hsigned.eq]
          exact hsigned.word c List.mem_cons_self
      have hcondition : SymbolCondition s ↔ DecimalE word ∨ ¬ ExponentForm word ∧
          ¬ (isdigit (word.headD 0) = true ∧ isE (word.getLastD 0) = true) := by
        constructor
        · exact fun h => h.2 word sign digits hsigned
        · intro h
          refine ⟨fun hsymbolic => absurd hsymbolic hs, ?_⟩
          intro word' sign' digits' h'
          obtain ⟨rfl, -, -⟩ := hsigned.unique h'
          exact h
      have htype := isSymbol_signed hpos hlen hsigned
      rw [hreads, hcondition]
      by_cases hvalid : isdigit (word.headD 0) = true ∧ isE (word.getLastD 0) = true
      · rw [if_pos hvalid] at htype
        have hnotBad : isSymbol s ≠ .badVariable := htype ▸ symbolType_ne_bad s _
        by_cases hform : ExponentForm word
        · obtain ⟨t, ht⟩ := (exists_reads_iff hlen).mpr (hreads.mpr hform)
          have hretrieved := signed_retriever hsigned hvalid.1 hvalid.2 htype ht
          constructor
          · rintro ⟨-, hall⟩
            exact .inl (hretrieved.mp (hall t ht))
          · intro h
            refine ⟨iff_of_true hnotBad hform, ?_⟩
            intro t' ht'
            have hdecimal := h.resolve_right fun hbad => hbad.1 hform
            exact (signed_retriever hsigned hvalid.1 hvalid.2 htype ht').mpr hdecimal
        · refine iff_of_false (fun h => hform (h.1.mp hnotBad)) ?_
          rintro (hdecimal | ⟨-, hbad⟩)
          · exact hform hdecimal.form.1
          · exact hbad hvalid
      · rw [if_neg hvalid] at htype
        by_cases hform : ExponentForm word
        · refine iff_of_false (fun h => h.1.mpr hform htype) ?_
          rintro (hdecimal | ⟨hbad, -⟩)
          · exact hvalid hdecimal.form.2
          · exact hbad hform
        · refine iff_of_true ⟨iff_of_false (fun h => h htype) hform, ?_⟩ (.inr ⟨hform, hvalid⟩)
          intro t ht
          exact absurd (hreads.mp ((exists_reads_iff hlen).mp ⟨t, ht⟩)) hform

theorem symbol_agrees_iff_exponent :
    SymbolAgrees [49, 69, 43, 53] ↔ SymbolCondition [49, 69, 43, 53] :=
  symbol_agrees_iff (by decide) (by decide)

/-- `.1E+5` is one token, a constant, and no symbol to `isSymbol`. -/
theorem signed_fraction_not_symbol :
    (∃ t, Reads [46, 49, 69, 43, 53] t ∧ t.subclass = .constant) ∧
      isSymbol [46, 49, 69, 43, 53] = .badVariable ∧ ¬ SymbolAgrees [46, 49, 69, 43, 53] := by
  have hbad : isSymbol [46, 49, 69, 43, 53] = .badVariable := by decide
  have hreads : Reads [46, 49, 69, 43, 53] ⟨[46, 49, 69, 43, 53], .constant, false, 5⟩ :=
    ⟨by decide, by decide, rfl⟩
  refine ⟨⟨_, hreads, rfl⟩, hbad, ?_⟩
  intro h
  exact h.1.mpr ⟨_, hreads⟩ hbad

end Agreement

end LeooRexx
