import LeooRexx.Parser.Symbol
import Mathlib.Data.List.TakeWhile

/-!
# The extent of a symbol

The symbol token is the run of symbol characters, and beyond it a sign with the digits
behind it when the state machine stands behind an `E` and the digits end the symbol.  The
machine stands there after a mantissa, an `E` and no digit since; its mantissa is one that
begins like a number and may go on with letters up to its period.
-/

namespace LeooRexx.RexxSource

open StringConversion

def Symbolic (text : List UInt8) : Prop := ∀ c ∈ text, lookup c ≠ 0

def AllDigits (text : List UInt8) : Prop := ∀ c ∈ text, isdigit c = true

def Outside (rest : List UInt8) : Prop := ∀ c ∈ rest.head?, lookup c = 0

/-! ## Characters -/

theorem isdigit_iff {c : UInt8} : isdigit c = true ↔ 48 ≤ c ∧ c ≤ 57 := by simp [isdigit]

theorem not_digit_iff {c : UInt8} : (c < 48 ∨ c > 57) ↔ isdigit c = false := by
  rw [Bool.eq_false_iff, ne_eq, isdigit_iff, not_and_or, UInt8.not_le, UInt8.not_le]

theorem lookup_digit {c : UInt8} (h : isdigit c = true) : lookup c = c ∧ lookup c ≠ 0 := by
  have table : ∀ n < 256, isdigit (UInt8.ofNat n) = true →
      lookup (UInt8.ofNat n) = UInt8.ofNat n ∧ lookup (UInt8.ofNat n) ≠ 0 := by
    decide +kernel
  simpa using table c.toNat c.toNat_lt (by simpa using h)

theorem lookup_sign {c : UInt8} (h : isSign c = true) : lookup c = 0 := by
  rcases (by simpa [isSign] using h : c = 43 ∨ c = 45) with rfl | rfl <;> rfl

theorem period_not_digit : isdigit period = false := rfl

theorem isE_not_digit {c : UInt8} (h : isE c = true) : isdigit c = false ∧ c ≠ period := by
  have table : ∀ n < 256, isE (UInt8.ofNat n) = true →
      isdigit (UInt8.ofNat n) = false ∧ UInt8.ofNat n ≠ period := by
    decide +kernel
  simpa using table c.toNat c.toNat_lt (by simpa using h)

/-! ## The run of symbol characters -/

def run (state : ExpState) (text : List UInt8) : ExpState :=
  text.foldl (fun state inch => nextState inch state) state

@[simp] theorem run_nil (state : ExpState) : run state [] = state := rfl

@[simp] theorem run_cons (state : ExpState) (c : UInt8) (text : List UInt8) :
    run state (c :: text) = run (nextState c state) text := rfl

def behindSymbol (state : ExpState) (dot_count line_offset : ℕ) : List UInt8 → SymbolScan
  | [] => ⟨state, 0, dot_count, line_offset⟩
  | next :: rest =>
      if state = .e ∧ isSign next then
        if (rest.head?).any fun inch => lookup inch ≠ 0 then
          symbolLoop .esign line_offset dot_count (line_offset + 1) rest
        else ⟨.excluded, line_offset, dot_count, line_offset + 1⟩
      else ⟨state, 0, dot_count, line_offset⟩

theorem symbolLoop_run {text rest : List UInt8} (hne : text ≠ []) (htext : Symbolic text)
    (hrest : Outside rest) (state : ExpState) (dot_count line_offset : ℕ) :
    symbolLoop state 0 dot_count line_offset (text ++ rest) =
      behindSymbol (run state text) (dot_count + text.count period)
        (line_offset + text.length) rest := by
  induction text generalizing state dot_count line_offset with
  | nil => contradiction
  | cons c text ih =>
      have hdots : (if c = period then dot_count + 1 else dot_count) + text.count period =
          dot_count + (c :: text).count period := by
        rw [List.count_cons]
        split
        case isTrue hc => simp [hc]; omega
        case isFalse hc => simp [hc]
      cases text with
      | nil =>
          cases rest with
          | nil => simp [symbolLoop, behindSymbol, ← hdots]
          | cons next rest =>
              have hnext : lookup next = 0 := hrest next rfl
              simp [symbolLoop, behindSymbol, ← hdots, hnext]
      | cons d text =>
          have hd : lookup d ≠ 0 := htext d (by simp)
          have htail := ih (by simp) (fun a ha => htext a (List.mem_cons_of_mem c ha))
            (nextState c state) (if c = period then dot_count + 1 else dot_count) (line_offset + 1)
          rw [hdots] at htail
          have hlen : line_offset + (c :: d :: text).length =
              line_offset + 1 + (d :: text).length := by
            simp only [List.length_cons]
            omega
          rw [run_cons, hlen, ← htail]
          simp [symbolLoop, hd]

/-! ## The exponent -/

theorem symbolLoop_exponent {digits rest : List UInt8} (hne : digits ≠ [])
    (hdigits : AllDigits digits) (hrest : Outside rest) {state : ExpState}
    (hstate : state = .esign ∨ state = .edigit) (eoffset dot_count line_offset : ℕ) :
    symbolLoop state eoffset dot_count line_offset (digits ++ rest) =
      ⟨.edigit, eoffset, dot_count, line_offset + digits.length⟩ := by
  induction digits generalizing state line_offset with
  | nil => contradiction
  | cons c digits ih =>
      have hc : isdigit c = true := hdigits c List.mem_cons_self
      have hperiod : c ≠ period := by
        rintro rfl
        exact absurd hc (by decide)
      have hnext : nextState c state = .edigit := by
        rcases hstate with rfl | rfl
        · simp [nextState, hc]
        · simp [nextState, not_digit_iff, hc]
      cases digits with
      | nil =>
          cases rest with
          | nil => simp [symbolLoop, hnext, hperiod]
          | cons next rest =>
              have hout : lookup next = 0 := hrest next rfl
              simp [symbolLoop, hnext, hperiod, hout]
      | cons d digits =>
          have hd : lookup d ≠ 0 := (lookup_digit (hdigits d (by simp))).2
          have htail := ih (by simp) (fun a ha => hdigits a (List.mem_cons_of_mem c ha))
            (.inr rfl) (line_offset + 1)
          have hlen : line_offset + (c :: d :: digits).length =
              line_offset + 1 + (d :: digits).length := by
            simp only [List.length_cons]
            omega
          rw [hlen, ← htail]
          simp [symbolLoop, hnext, hperiod, hd]

theorem symbolLoop_spoiled {digits rest : List UInt8} {c : UInt8} (hdigits : AllDigits digits)
    (hc : lookup c ≠ 0) (hnot : isdigit c = false) {state : ExpState}
    (hstate : state = .esign ∨ state = .edigit) {eoffset : ℕ} (heoffset : eoffset ≠ 0)
    (dot_count line_offset : ℕ) :
    ∃ dots, symbolLoop state eoffset dot_count line_offset (digits ++ c :: rest) =
      ⟨.excluded, eoffset, dots, eoffset⟩ := by
  induction digits generalizing state line_offset with
  | nil =>
      have hnext : nextState c state = .excluded := by
        rcases hstate with rfl | rfl
        · simp [nextState, hnot]
        · simp [nextState, not_digit_iff, hnot]
      cases rest <;> simp [symbolLoop, hnext, heoffset]
  | cons d digits ih =>
      have hd : isdigit d = true := hdigits d List.mem_cons_self
      have hnext : nextState d state = .edigit := by
        rcases hstate with rfl | rfl
        · simp [nextState, hd]
        · simp [nextState, not_digit_iff, hd]
      obtain ⟨dots, htail⟩ := ih (fun a ha => hdigits a (List.mem_cons_of_mem d ha)) (.inr rfl)
        (line_offset + 1)
      have hperiod : d ≠ period := by
        rintro rfl
        exact absurd hd (by decide)
      refine ⟨dots, ?_⟩
      rw [← htail]
      cases digits with
      | nil => simp [symbolLoop, hnext, hperiod, hc]
      | cons a digits =>
          have ha : lookup a ≠ 0 := (lookup_digit (hdigits a (by simp))).2
          simp [symbolLoop, hnext, hperiod, ha]

/-! ## The states of a number -/

theorem run_excluded (text : List UInt8) : run .excluded text = .excluded := by
  induction text with
  | nil => rfl
  | cons c text ih => exact ih

theorem run_edigit_ne (text : List UInt8) : run .edigit text ≠ .e ∧ run .edigit text ≠ .digit := by
  induction text with
  | nil => decide
  | cons c text ih =>
      rw [run_cons]
      cases hc : isdigit c with
      | true => simpa [nextState, not_digit_iff, hc] using ih
      | false => simp [nextState, not_digit_iff, hc, run_excluded]

def NoDigits (text : List UInt8) : Prop := ∀ c ∈ text, isdigit c = false

theorem run_e {text : List UInt8} : run .e text = .e ↔ NoDigits text := by
  induction text with
  | nil => simp [NoDigits]
  | cons c text ih =>
      rw [run_cons, NoDigits, List.forall_mem_cons, ← NoDigits]
      cases hc : isdigit c with
      | true => simp [nextState, hc, (run_edigit_ne text).1]
      | false => simpa [nextState, hc] using ih

def FractionE (text : List UInt8) : Prop :=
  ∃ digits c rest, text = digits ++ c :: rest ∧ AllDigits digits ∧ isE c = true ∧ NoDigits rest

theorem fractionE_cons {c : UInt8} {text : List UInt8} :
    FractionE (c :: text) ↔
      isE c = true ∧ NoDigits text ∨ isdigit c = true ∧ FractionE text := by
  constructor
  · rintro ⟨digits, e, rest, htext, hdigits, he, hrest⟩
    cases digits with
    | nil =>
        obtain ⟨rfl, rfl⟩ := List.cons.inj htext
        exact .inl ⟨he, hrest⟩
    | cons d digits =>
        obtain ⟨rfl, rfl⟩ := List.cons.inj htext
        exact .inr ⟨hdigits _ List.mem_cons_self, digits, e, rest, rfl,
          fun a ha => hdigits a (List.mem_cons_of_mem _ ha), he, hrest⟩
  · rintro (⟨he, hrest⟩ | ⟨hc, digits, e, rest, rfl, hdigits, he, hrest⟩)
    · exact ⟨[], c, text, rfl, by simp [AllDigits], he, hrest⟩
    · exact ⟨c :: digits, e, rest, rfl, List.forall_mem_cons.mpr ⟨hc, hdigits⟩, he, hrest⟩

theorem run_point {text : List UInt8} : run .point text = .e ↔ FractionE text := by
  induction text with
  | nil => simp [FractionE]
  | cons c text ih =>
      rw [run_cons, fractionE_cons]
      cases he : isE c with
      | true => simp [nextState, he, run_e, (isE_not_digit he).1]
      | false =>
          cases hc : isdigit c with
          | true => simpa [nextState, he, not_digit_iff, hc] using ih
          | false => simp [nextState, he, not_digit_iff, hc, run_excluded]

/-- Anything but a period and an `E`. -/
def Plain (text : List UInt8) : Prop := ∀ c ∈ text, c ≠ period ∧ isE c = false

/-- An `E` without a digit behind it, right behind the plain characters or behind a period
and digits. -/
def MantissaE (text : List UInt8) : Prop :=
  ∃ plain c rest, text = plain ++ c :: rest ∧ Plain plain ∧
    (isE c = true ∧ NoDigits rest ∨ c = period ∧ FractionE rest)

theorem mantissaE_cons {c : UInt8} {text : List UInt8} :
    MantissaE (c :: text) ↔
      (isE c = true ∧ NoDigits text ∨ c = period ∧ FractionE text) ∨
        (c ≠ period ∧ isE c = false) ∧ MantissaE text := by
  constructor
  · rintro ⟨plain, e, rest, htext, hplain, hrest⟩
    cases plain with
    | nil =>
        obtain ⟨rfl, rfl⟩ := List.cons.inj htext
        exact .inl hrest
    | cons d plain =>
        obtain ⟨rfl, rfl⟩ := List.cons.inj htext
        exact .inr ⟨hplain _ List.mem_cons_self, plain, e, rest, rfl,
          fun a ha => hplain a (List.mem_cons_of_mem _ ha), hrest⟩
  · rintro (hrest | ⟨hc, plain, e, rest, rfl, hplain, hrest⟩)
    · exact ⟨[], c, text, rfl, by simp [Plain], hrest⟩
    · exact ⟨c :: plain, e, rest, rfl, List.forall_mem_cons.mpr ⟨hc, hplain⟩, hrest⟩

theorem nextState_digit {c : UInt8} : nextState c .digit =
    if c = period then .point else if isE c then .e else .digit := by
  have hnever : ¬ (c < 48 ∧ c > 57) := by
    rintro ⟨hlow, hhigh⟩
    exact absurd (UInt8.lt_trans hhigh hlow) (by decide)
  simp [nextState, hnever]

theorem run_digit {text : List UInt8} : run .digit text = .e ↔ MantissaE text := by
  induction text with
  | nil => simp [MantissaE]
  | cons c text ih =>
      rw [run_cons, mantissaE_cons, nextState_digit]
      by_cases hperiod : c = period
      · subst hperiod
        have he : isE period = false := by decide
        simp [he, run_point]
      · cases he : isE c with
        | true => simp [hperiod, run_e]
        | false => simpa [hperiod] using ih

/-- What the machine takes for a number up to its `E`. -/
def ExponentForm (text : List UInt8) : Prop :=
  ∃ c rest, text = c :: rest ∧
    (isdigit c = true ∧ MantissaE rest ∨
      c = period ∧ ∃ d fraction, rest = d :: fraction ∧ isdigit d = true ∧ FractionE fraction)

theorem run_start {text : List UInt8} : run .start text = .e ↔ ExponentForm text := by
  cases text with
  | nil => simp [ExponentForm]
  | cons c rest =>
      rw [run_cons]
      cases hc : isdigit c with
      | true =>
          have hperiod : c ≠ period := by
            rintro rfl
            exact absurd hc (by decide)
          simp [nextState, hc, ExponentForm, hperiod, run_digit]
      | false =>
          by_cases hperiod : c = period
          · subst hperiod
            cases rest with
            | nil => simp [nextState, hc, ExponentForm]
            | cons d fraction =>
                cases hd : isdigit d with
                | true =>
                    simp [nextState, hc, ExponentForm, not_digit_iff, hd, run_point]
                | false =>
                    simp [nextState, hc, ExponentForm, not_digit_iff, hd, run_excluded]
          · simp [nextState, hc, ExponentForm, hperiod, run_excluded]

/-! ## The token -/

structure SignedDigits (sign : UInt8) (digits after : List UInt8) : Prop where
  sign : isSign sign = true
  nonempty : digits ≠ []
  digits : AllDigits digits
  outside : Outside after

def symbolStop (text : List UInt8) (start : ℕ) : ℕ :=
  let scan := symbolLoop .start 0 0 start text
  if scan.eoffset ≠ 0 ∧ scan.state ≠ .edigit then scan.eoffset else scan.line_offset

theorem symbolLoop_signed {word digits after : List UInt8} {sign : UInt8} (hne : word ≠ [])
    (hword : Symbolic word) (hform : ExponentForm word) (hsigned : SignedDigits sign digits after)
    (start : ℕ) :
    symbolLoop .start 0 0 start (word ++ sign :: (digits ++ after)) =
      ⟨.edigit, start + word.length, word.count period,
        start + word.length + 1 + digits.length⟩ := by
  have hout : Outside (sign :: (digits ++ after)) := by
    rintro c hc
    obtain rfl : sign = c := by simpa using hc
    exact lookup_sign hsigned.sign
  obtain ⟨d, digits, rfl⟩ := List.exists_cons_of_ne_nil hsigned.nonempty
  have hd : lookup d ≠ 0 := (lookup_digit (hsigned.digits d List.mem_cons_self)).2
  have hloop := symbolLoop_exponent (by simp) hsigned.digits hsigned.outside (.inl rfl)
    (start + word.length) (word.count period) (start + word.length + 1)
  rw [symbolLoop_run hne hword hout, run_start.mpr hform, behindSymbol, Nat.zero_add, ← hloop]
  simp [hsigned.sign, hd]

theorem symbolLoop_taken_back {rest : List UInt8} (hfollows : ∃ c ∈ rest.head?, lookup c ≠ 0)
    (hnot : ∀ digits after, rest = digits ++ after → digits ≠ [] → AllDigits digits →
      ¬ Outside after) {eoffset : ℕ} (heoffset : eoffset ≠ 0) (dot_count line_offset : ℕ) :
    ∃ dots, symbolLoop .esign eoffset dot_count line_offset rest =
      ⟨.excluded, eoffset, dots, eoffset⟩ := by
  have hsplit : rest.takeWhile isdigit ++ rest.dropWhile isdigit = rest :=
    List.takeWhile_append_dropWhile
  have hdigits : AllDigits (rest.takeWhile isdigit) := fun c hc => List.mem_takeWhile_imp hc
  have hstop : ∃ c ∈ (rest.dropWhile isdigit).head?, lookup c ≠ 0 := by
    by_cases hnone : rest.takeWhile isdigit = []
    · rw [hnone, List.nil_append] at hsplit
      rwa [hsplit]
    · have hinside := hnot _ _ hsplit.symm hnone hdigits
      simpa [Outside] using hinside
  obtain ⟨c, hc, hsymbol⟩ := hstop
  cases hdrop : rest.dropWhile isdigit with
  | nil => simp [hdrop] at hc
  | cons d after =>
      obtain rfl : d = c := by simpa [hdrop] using hc
      have hbad : isdigit d = false := by
        have hhead := List.head_dropWhile_not isdigit (l := rest) (by simp [hdrop])
        simpa [hdrop] using hhead
      rw [hdrop] at hsplit
      rw [← hsplit]
      exact symbolLoop_spoiled hdigits hsymbol hbad (.inl rfl) heoffset dot_count line_offset

theorem symbolStop_word {word rest : List UInt8} (hne : word ≠ []) (hword : Symbolic word)
    (hrest : Outside rest)
    (hnot : ¬ (ExponentForm word ∧ ∃ sign digits after,
      rest = sign :: (digits ++ after) ∧ SignedDigits sign digits after)) (start : ℕ) :
    symbolStop (word ++ rest) start = start + word.length := by
  have hlen := List.length_pos_iff.mpr hne
  rw [symbolStop, symbolLoop_run hne hword hrest]
  cases rest with
  | nil => simp [behindSymbol]
  | cons next rest =>
      by_cases hexponent : run .start word = .e ∧ isSign next = true
      case neg => simp [behindSymbol, hexponent]
      case pos =>
        by_cases hfollows : ∃ c ∈ rest.head?, lookup c ≠ 0
        · have hnotDigits : ∀ digits after, rest = digits ++ after → digits ≠ [] →
              AllDigits digits → ¬ Outside after := by
            intro digits after heq hdigits hall hafter
            exact hnot ⟨run_start.mp hexponent.1, next, digits, after, by rw [heq],
              hexponent.2, hdigits, hall, hafter⟩
          have hpos : start + word.length ≠ 0 := by omega
          obtain ⟨dots, hloop⟩ := symbolLoop_taken_back hfollows hnotDigits hpos
            (0 + word.count period) (start + word.length + 1)
          have hany : ((rest.head?).any fun inch => decide (lookup inch ≠ 0)) = true := by
            simpa [Option.any_eq_true] using hfollows
          rw [behindSymbol, if_pos hexponent, if_pos hany, hloop]
          simp
        · have hany : ¬ ((rest.head?).any fun inch => decide (lookup inch ≠ 0)) = true := by
            simpa [Option.any_eq_true] using hfollows
          rw [behindSymbol, if_pos hexponent, if_neg hany]
          simp [hlen.ne']

end LeooRexx.RexxSource
