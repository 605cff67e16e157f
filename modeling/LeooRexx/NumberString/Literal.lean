import Mathlib.Data.List.TakeWhile
import LeooRexx.NumberString.Scan

/-!
# Number literals

The grammar of Rexx numbers, as the texts that its parse trees print, and the
proof that the acceptance scan accepts exactly these texts.
-/

namespace LeooRexx

open Positional DecimalRounding

namespace NumberString

/-! ## The grammar -/

inductive SignMark where
  | absent
  | plus
  | minus
  deriving DecidableEq, Repr

def SignMark.text : SignMark → List UInt8
  | .absent => []
  | .plus => [chPlus]
  | .minus => [chMinus]

def SignMark.value : SignMark → Int
  | .minus => -1
  | _ => 1

def digitValues (ds : List UInt8) : List Nat := ds.map digitValue

structure ExponentPart where
  mark : UInt8
  sign : SignMark
  digits : List UInt8
  mark_valid : isExponentMark mark
  digits_valid : ∀ c ∈ digits, isDigit c
  digits_ne : digits ≠ []

def ExponentPart.text (e : ExponentPart) : List UInt8 :=
  e.mark :: (e.sign.text ++ e.digits)

def ExponentPart.value (e : ExponentPart) : Int :=
  e.sign.value * (Positional.value 10 (digitValues e.digits) : ℕ)

structure Literal where
  leading : List UInt8
  sign : SignMark
  gap : List UInt8
  whole : List UInt8
  fraction : Option (List UInt8)
  exponent : Option ExponentPart
  trailing : List UInt8
  leading_blank : ∀ c ∈ leading, isBlank c
  gap_blank : ∀ c ∈ gap, isBlank c
  whole_digits : ∀ c ∈ whole, isDigit c
  fraction_digits : ∀ c ∈ fraction.getD [], isDigit c
  digits_ne : whole ++ fraction.getD [] ≠ []
  trailing_blank : ∀ c ∈ trailing, isBlank c

theorem nil_isBlank : ∀ c ∈ ([] : List UInt8), isBlank c := List.forall_mem_nil _

theorem none_isDigit : ∀ c ∈ (none : Option (List UInt8)).getD [], isDigit c :=
  List.forall_mem_nil _

namespace Literal

def pointText : Option (List UInt8) → List UInt8
  | none => []
  | some ds => chPeriod :: ds

def exponentText : Option ExponentPart → List UInt8
  | none => []
  | some e => e.text

def rest (l : Literal) : List UInt8 := exponentText l.exponent ++ l.trailing

def body (l : Literal) : List UInt8 := l.whole ++ (pointText l.fraction ++ l.rest)

def text (l : Literal) : List UInt8 :=
  l.leading ++ (l.sign.text ++ (l.gap ++ l.body))

end Literal

/-! ## Characters and runs -/

theorem isBlank_iff {c : UInt8} : isBlank c ↔ c = chBlank ∨ c = chTab := by
  simp [isBlank]

theorem isSign_iff {c : UInt8} : isSign c ↔ c = chMinus ∨ c = chPlus := by
  simp [isSign]

theorem isExponentMark_iff {c : UInt8} : isExponentMark c ↔ c = 69 ∨ c = 101 := by
  simp [isExponentMark]

theorem isZero_iff {c : UInt8} : isZero c ↔ c = chZero := by
  simp [isZero]

theorem isDigit_of_isZero {c : UInt8} (h : isZero c) : isDigit c := by
  rw [isZero_iff.mp h]
  decide

theorem isDigit_disjoint {c : UInt8} (h : isDigit c) :
    isBlank c = false ∧ isSign c = false ∧ isExponentMark c = false ∧
      c ≠ chPeriod ∧ c ≠ chMinus := by
  have hne : ∀ d : UInt8, isDigit d = false → c ≠ d := by
    rintro d hd rfl
    rw [hd] at h
    exact absurd h (by decide)
  have h1 := hne chBlank (by decide)
  have h2 := hne chTab (by decide)
  have h3 := hne chMinus (by decide)
  have h4 := hne chPlus (by decide)
  have h5 := hne 69 (by decide)
  have h6 := hne 101 (by decide)
  have h7 := hne chPeriod (by decide)
  simp [isBlank, isSign, isExponentMark, h1, h2, h3, h4, h5, h6, h7]

@[simp] theorem peek_nil : peek [] = 0 := rfl

@[simp] theorem peek_cons (c : UInt8) (cs : List UInt8) : peek (c :: cs) = c := rfl

theorem peek_append {xs : List UInt8} (ys : List UInt8) (h : xs ≠ []) :
    peek (xs ++ ys) = peek xs := by
  cases xs with
  | nil => exact absurd rfl h
  | cons x xs => rfl

theorem peek_mem {xs : List UInt8} (h : xs ≠ []) : peek xs ∈ xs := by
  cases xs with
  | nil => exact absurd rfl h
  | cons x xs => exact List.mem_cons_self

theorem dropWhile_run {p : UInt8 → Bool} {xs ys : List UInt8} (h : ∀ x ∈ xs, p x)
    (hstop : p (peek ys) = false) : (xs ++ ys).dropWhile p = ys := by
  rw [List.dropWhile_append_of_pos h]
  cases ys with
  | nil => rfl
  | cons y ys =>
      rw [peek_cons] at hstop
      rw [List.dropWhile_cons, hstop]
      rfl

theorem dropWhile_zero_digit (xs : List UInt8) :
    (xs.dropWhile isZero).dropWhile isDigit = xs.dropWhile isDigit := by
  induction xs with
  | nil => rfl
  | cons x xs ih =>
      rw [List.dropWhile_cons]
      cases h : isZero x with
      | true =>
          rw [if_pos rfl, ih, List.dropWhile_cons, if_pos (isDigit_of_isZero h)]
      | false => rw [if_neg (by decide)]

theorem peek_dropWhile (p : UInt8 → Bool) (xs : List UInt8) (h0 : p 0 = false) :
    p (peek (xs.dropWhile p)) = false := by
  induction xs with
  | nil => exact h0
  | cons x xs ih =>
      rw [List.dropWhile_cons]
      cases h : p x with
      | true => rwa [if_pos rfl]
      | false => rwa [if_neg (by decide), peek_cons]

theorem mem_takeWhile_pos {p : UInt8 → Bool} (xs : List UInt8) :
    ∀ c ∈ xs.takeWhile p, p c :=
  fun _ hc => List.mem_takeWhile_imp hc

theorem peek_trailing {trailing : List UInt8} (h : ∀ c ∈ trailing, isBlank c) :
    isDigit (peek trailing) = false ∧ isSign (peek trailing) = false ∧
      isExponentMark (peek trailing) = false ∧ peek trailing ≠ chPeriod := by
  cases trailing with
  | nil => decide
  | cons c cs =>
      rcases isBlank_iff.mp (h c List.mem_cons_self) with hc | hc <;>
        rw [peek_cons, hc] <;> decide

/-! ## The scan accepts the grammar -/

theorem scanExponent_nil : scanExponent [] = false := by decide

theorem scanDigits_run (hadPeriod : Bool) {ds ys : List UInt8}
    (hds : ∀ c ∈ ds, isDigit c) (hne : ds ≠ []) (hys : isDigit (peek ys) = false) :
    scanDigits hadPeriod (ds ++ ys) =
      if peek ys = chPeriod then
        hadPeriod || scanExponent (ys.tail.dropWhile isDigit)
      else scanExponent ys := by
  have hpeek : isDigit (peek (ds ++ ys)) = true := by
    rw [peek_append _ hne]
    exact hds _ (peek_mem hne)
  have hrun : ((ds ++ ys).dropWhile isZero).dropWhile isDigit = ys := by
    rw [dropWhile_zero_digit, dropWhile_run hds hys]
  have hend : ∀ zs, (if zs = [] then false else scanExponent zs) = scanExponent zs := by
    intro zs
    cases zs with
    | nil => rw [if_pos rfl, scanExponent_nil]
    | cons z zs => rw [if_neg (by simp)]
  rw [scanDigits, if_neg (by simp [hpeek])]
  simp only [hrun, hend]
  by_cases hz : (ds ++ ys).dropWhile isZero = []
  · have hnil : ys = [] := by
      rw [hz] at hrun
      exact hrun.symm
    subst hnil
    rw [if_pos hz, if_neg (by decide), scanExponent_nil]
  · rw [if_neg hz]
    cases ys with
    | nil => rw [if_pos rfl, if_neg (by decide), scanExponent_nil]
    | cons y ys => rw [if_neg (by simp)]; cases hadPeriod <;> rfl

namespace SignMark

theorem skip_text (m : SignMark) {xs : List UInt8} (h : isSign (peek xs) = false) :
    (if isSign (peek (m.text ++ xs)) then (m.text ++ xs).tail else m.text ++ xs) =
      xs := by
  cases m with
  | absent => simp [text, h]
  | plus => simp [text, isSign]
  | minus => simp [text, isSign]

end SignMark

namespace Literal

theorem peek_rest (l : Literal) :
    isDigit (peek l.rest) = false ∧ peek l.rest ≠ chPeriod := by
  obtain ⟨hd, -, -, hp⟩ := peek_trailing l.trailing_blank
  unfold rest
  cases l.exponent with
  | none => exact ⟨hd, hp⟩
  | some e =>
      rcases isExponentMark_iff.mp e.mark_valid with h | h <;>
        simp [exponentText, ExponentPart.text, h] <;> decide

theorem scanTrailing_trailing (l : Literal) : scanTrailing l.trailing = false := by
  have hblank : isBlank (peek ([] : List UInt8)) = false := by decide
  have hrun := dropWhile_run l.trailing_blank hblank
  rw [List.append_nil] at hrun
  simp [scanTrailing, hrun]

theorem scanExponent_rest (l : Literal) : scanExponent l.rest = false := by
  obtain ⟨hd, -, hm, -⟩ := peek_trailing l.trailing_blank
  unfold rest
  cases l.exponent with
  | none =>
      rw [exponentText, List.nil_append, scanExponent, hm, if_neg (by decide)]
      exact l.scanTrailing_trailing
  | some e =>
      have hdig : isDigit (peek e.digits) = true := e.digits_valid _ (peek_mem e.digits_ne)
      have hpeek : peek (e.digits ++ l.trailing) = peek e.digits :=
        peek_append _ e.digits_ne
      have hsign := e.sign.skip_text
        (by rw [hpeek]; exact (isDigit_disjoint hdig).2.1)
      have hne : e.digits ++ l.trailing ≠ [] := by simp [e.digits_ne]
      have hne' : e.sign.text ++ (e.digits ++ l.trailing) ≠ [] := by simp [e.digits_ne]
      simp only [exponentText, ExponentPart.text, List.cons_append, List.append_assoc,
        scanExponent, peek_cons, e.mark_valid, if_true, List.tail_cons, if_neg hne',
        hsign, if_neg hne, hpeek, hdig, not_true_eq_false, if_false,
        dropWhile_run e.digits_valid hd, l.scanTrailing_trailing]

theorem peek_body (l : Literal) :
    isBlank (peek l.body) = false ∧ isSign (peek l.body) = false ∧
      peek l.body ≠ chMinus := by
  unfold body
  by_cases hw : l.whole = []
  · have hne := l.digits_ne
    cases hf : l.fraction with
    | none => simp [hw, hf] at hne
    | some ds =>
        rw [hw, List.nil_append, pointText, List.cons_append, peek_cons]
        decide
  · rw [peek_append _ hw]
    obtain ⟨hb, hs, -, -, hm⟩ := isDigit_disjoint (l.whole_digits _ (peek_mem hw))
    exact ⟨hb, hs, hm⟩

theorem text_ne (l : Literal) : l.text ≠ [] := by
  have hne := l.digits_ne
  intro h
  simp only [text, body, List.append_eq_nil_iff] at h
  obtain ⟨-, -, -, hw, hp, -⟩ := h
  cases hf : l.fraction with
  | none => simp [hw, hf] at hne
  | some ds => simp [hf, pointText] at hp

theorem skip_sign (l : Literal) :
    (if isSign (peek (l.text.dropWhile isBlank)) then
        (l.text.dropWhile isBlank).tail.dropWhile isBlank
      else l.text.dropWhile isBlank) = l.body := by
  obtain ⟨hb, hs, -⟩ := l.peek_body
  have hgap : (l.gap ++ l.body).dropWhile isBlank = l.body :=
    dropWhile_run l.gap_blank hb
  unfold text
  rw [List.dropWhile_append_of_pos l.leading_blank]
  cases l.sign with
  | absent =>
      rw [SignMark.text, List.nil_append, hgap, hs]
      rfl
  | plus => simpa [SignMark.text, isSign, isBlank, chPlus, chBlank, chTab] using hgap
  | minus => simpa [SignMark.text, isSign, isBlank, chMinus, chBlank, chTab] using hgap

theorem numberStringScan_text (l : Literal) : numberStringScan l.text = false := by
  obtain ⟨hd, hp⟩ := l.peek_rest
  have hscan := l.scanExponent_rest
  have hne := l.digits_ne
  simp only [numberStringScan, if_neg l.text_ne, l.skip_sign]
  unfold body
  by_cases hw : l.whole = []
  · cases hf : l.fraction with
    | none => simp [hw, hf] at hne
    | some ds =>
        have hds : ds ≠ [] := by simpa [hw, hf] using hne
        have hdig : ∀ c ∈ ds, isDigit c := by simpa [hf] using l.fraction_digits
        rw [hw, List.nil_append, pointText, List.cons_append, peek_cons, if_pos rfl,
          List.tail_cons, scanDigits_run true hdig hds hd, if_neg hp, hscan]
  · have hperiod : peek (l.whole ++ (pointText l.fraction ++ l.rest)) ≠ chPeriod := by
      rw [peek_append _ hw]
      exact (isDigit_disjoint (l.whole_digits _ (peek_mem hw))).2.2.2.1
    rw [if_neg hperiod]
    cases hf : l.fraction with
    | none =>
        rw [pointText, List.nil_append, scanDigits_run false l.whole_digits hw hd,
          if_neg hp, hscan]
    | some ds =>
        have hdig : ∀ c ∈ ds, isDigit c := by simpa [hf] using l.fraction_digits
        rw [pointText, List.cons_append,
          scanDigits_run false l.whole_digits hw (by rw [peek_cons]; decide), peek_cons,
          if_pos rfl, List.tail_cons, dropWhile_run hdig hd, hscan]
        rfl

/-! ## The grammar covers what the scan accepts -/

theorem scanTrailing_eq_false {zs : List UInt8} (h : scanTrailing zs = false) :
    ∀ c ∈ zs, isBlank c := by
  have hnil : zs.dropWhile isBlank = [] := by simpa [scanTrailing] using h
  exact List.dropWhile_eq_nil_iff.mp hnil

theorem exists_signMark (xs : List UInt8) :
    ∃ m : SignMark, xs = m.text ++ if isSign (peek xs) then xs.tail else xs := by
  cases hs : isSign (peek xs) with
  | false => exact ⟨.absent, rfl⟩
  | true =>
      cases xs with
      | nil => exact absurd hs (by decide)
      | cons c cs =>
          rcases isSign_iff.mp hs with hc | hc
          · exact ⟨.minus, by rw [if_pos rfl]; exact congrArg (· :: cs) hc⟩
          · exact ⟨.plus, by rw [if_pos rfl]; exact congrArg (· :: cs) hc⟩

theorem takeWhile_isDigit_ne {xs : List UInt8} (h : isDigit (peek xs) = true) :
    xs.takeWhile isDigit ≠ [] := by
  cases xs with
  | nil => exact absurd h (by decide)
  | cons c cs =>
      rw [peek_cons] at h
      simp [h]

theorem exists_rest {ys : List UInt8} (h : scanExponent ys = false) :
    ∃ (e : Option ExponentPart) (trailing : List UInt8),
      ys = exponentText e ++ trailing ∧ ∀ c ∈ trailing, isBlank c := by
  unfold scanExponent at h
  cases hm : isExponentMark (peek ys) with
  | false =>
      rw [hm, if_neg (by decide)] at h
      exact ⟨none, ys, rfl, scanTrailing_eq_false h⟩
  | true =>
      cases ys with
      | nil => exact absurd hm (by decide)
      | cons mark ys =>
          obtain ⟨m, hsign⟩ := exists_signMark ys
          rw [hm, if_pos rfl, List.tail_cons] at h
          dsimp only at h
          generalize (if isSign (peek ys) then ys.tail else ys) = ds at h hsign
          split at h
          · cases h
          split at h
          · cases h
          split at h
          · cases h
          case isFalse hd =>
            have hd : isDigit (peek ds) = true := by simpa using hd
            refine ⟨some ⟨mark, m, ds.takeWhile isDigit, hm, mem_takeWhile_pos _,
              takeWhile_isDigit_ne hd⟩, ds.dropWhile isDigit, ?_,
              scanTrailing_eq_false h⟩
            simp only [exponentText, ExponentPart.text, List.cons_append,
              List.append_assoc, List.takeWhile_append_dropWhile]
            rw [hsign]

theorem exists_digits {hadPeriod : Bool} {xs : List UInt8}
    (h : scanDigits hadPeriod xs = false) :
    ∃ (ds : List UInt8) (fraction : Option (List UInt8)) (ys : List UInt8),
      xs = ds ++ (pointText fraction ++ ys) ∧ (∀ c ∈ ds, isDigit c) ∧ ds ≠ [] ∧
        (∀ c ∈ fraction.getD [], isDigit c) ∧
        (hadPeriod = true → fraction = none) ∧ scanExponent ys = false := by
  have hd : isDigit (peek xs) = true := by
    by_contra hd
    rw [scanDigits, if_pos hd] at h
    exact absurd h (by decide)
  have hds := mem_takeWhile_pos (p := isDigit) xs
  have hne := takeWhile_isDigit_ne hd
  have hrun := scanDigits_run hadPeriod hds hne (peek_dropWhile isDigit xs (by decide))
  rw [List.takeWhile_append_dropWhile, h] at hrun
  have hsplit := List.takeWhile_append_dropWhile (p := isDigit) (l := xs)
  generalize hys : xs.dropWhile isDigit = ys at hrun hsplit
  by_cases hp : peek ys = chPeriod
  · rw [if_pos hp] at hrun
    obtain ⟨hno, hscan⟩ : hadPeriod = false ∧
        scanExponent (ys.tail.dropWhile isDigit) = false := by simpa using hrun.symm
    cases ys with
    | nil => exact absurd hp (by decide)
    | cons c cs =>
        refine ⟨xs.takeWhile isDigit, some (cs.takeWhile isDigit),
          cs.dropWhile isDigit, ?_, hds, hne, mem_takeWhile_pos _, by simp [hno], hscan⟩
        rw [peek_cons] at hp
        rw [pointText, List.cons_append, List.takeWhile_append_dropWhile, ← hp, hsplit]
  · rw [if_neg hp] at hrun
    exact ⟨xs.takeWhile isDigit, none, ys, hsplit.symm, hds, hne, by simp,
      fun _ => rfl, hrun.symm⟩

theorem exists_body {xs : List UInt8}
    (h : (if peek xs = chPeriod then scanDigits true xs.tail else scanDigits false xs) =
      false) :
    ∃ (whole : List UInt8) (fraction : Option (List UInt8)) (e : Option ExponentPart)
      (trailing : List UInt8),
      xs = whole ++ (pointText fraction ++ (exponentText e ++ trailing)) ∧
        (∀ c ∈ whole, isDigit c) ∧ (∀ c ∈ fraction.getD [], isDigit c) ∧
        whole ++ fraction.getD [] ≠ [] ∧ ∀ c ∈ trailing, isBlank c := by
  by_cases hp : peek xs = chPeriod
  · rw [if_pos hp] at h
    obtain ⟨ds, fraction, ys, hxs, hds, hne, -, hnone, hscan⟩ := exists_digits h
    obtain ⟨e, trailing, hys, htrail⟩ := exists_rest hscan
    cases xs with
    | nil => exact absurd hp (by decide)
    | cons c cs =>
        refine ⟨[], some ds, e, trailing, ?_, by simp, hds, by simpa using hne, htrail⟩
        rw [List.tail_cons, hnone rfl, hys] at hxs
        rw [peek_cons] at hp
        rw [hxs, hp]
        rfl
  · rw [if_neg hp] at h
    obtain ⟨ds, fraction, ys, hxs, hds, hne, hfr, -, hscan⟩ := exists_digits h
    obtain ⟨e, trailing, hys, htrail⟩ := exists_rest hscan
    exact ⟨ds, fraction, e, trailing, hys ▸ hxs, hds, hfr, by simp [hne], htrail⟩

theorem exists_text {number : List UInt8} (h : numberStringScan number = false) :
    ∃ l : Literal, l.text = number := by
  unfold numberStringScan at h
  split at h
  · exact absurd h (by decide)
  have hlead := mem_takeWhile_pos (p := isBlank) number
  have hsplit := List.takeWhile_append_dropWhile (p := isBlank) (l := number)
  dsimp only at h
  generalize number.dropWhile isBlank = xs at h hsplit
  generalize number.takeWhile isBlank = leading at hlead hsplit
  obtain ⟨m, hsign⟩ := exists_signMark xs
  cases hs : isSign (peek xs) with
  | false =>
      rw [if_neg (ne_true_of_eq_false hs)] at h
      obtain ⟨whole, fraction, e, trailing, hxs, hw, hf, hne, htrail⟩ := exists_body h
      refine ⟨⟨leading, .absent, [], whole, fraction, e, trailing,
        hlead, by simp, hw, hf, hne, htrail⟩, ?_⟩
      rw [← hsplit, hxs]
      rfl
  | true =>
      rw [if_pos hs] at h hsign
      have hgap := List.takeWhile_append_dropWhile (p := isBlank) (l := xs.tail)
      obtain ⟨whole, fraction, e, trailing, hxs, hw, hf, hne, htrail⟩ := exists_body h
      refine ⟨⟨leading, m, xs.tail.takeWhile isBlank, whole, fraction,
        e, trailing, hlead, mem_takeWhile_pos _, hw, hf, hne, htrail⟩, ?_⟩
      simp only [text, body, rest]
      rw [← hxs, hgap, ← hsign, hsplit]

end Literal

end NumberString

end LeooRexx
