import LeooRexx.NumberString.Literal

/-!
# Number recognition is exact in range

The value of a literal, and the proof that `newInstance` reads exactly the
literals whose exponent passes its 32-bit checks, as the number they write.
Those are the literals in the permitted range and the ones whose exponent
evades the checks by wrapping around.
-/

namespace LeooRexx

open Positional DecimalRounding

namespace NumberString

namespace Literal

/-! ## The value of a literal -/

def coeff (l : Literal) : List UInt8 := l.whole ++ l.fraction.getD []

def decimals (l : Literal) : Nat := (l.fraction.getD []).length

def exponentValue (l : Literal) : Int := l.exponent.elim 0 ExponentPart.value

def exp (l : Literal) : Int := l.exponentValue - l.decimals

def significant (l : Literal) : List Nat := digitValues (l.coeff.dropWhile isZero)

def toRat (l : Literal) : ℚ :=
  l.sign.value * (Positional.value 10 (digitValues l.coeff) * 10 ^ l.exp)

/--
The exponent is in the permitted range: the one written, with the decimals
taken into account, and for a number other than zero that of its last and its
first digit.
-/
def InRange (l : Literal) : Prop :=
  (l.exponent.isSome → |l.exponentValue| ≤ maxNum ∧ |l.exp| ≤ maxNum) ∧
    (l.significant ≠ [] →
      -maxNum ≤ l.exp ∧ l.exp + l.significant.length - 1 ≤ maxNum)

/-! ## The conversion reads the grammar -/

end Literal

theorem wrap32_zero : wrap32 0 = 0 := by decide

theorem wrap32_add_left (a b : Int) : wrap32 (wrap32 a + b) = wrap32 (a + b) :=
  Int.bmod_add_bmod ..

theorem wrap32_add_right (a b : Int) : wrap32 (a + wrap32 b) = wrap32 (a + b) :=
  Int.add_bmod_bmod ..

theorem wrap32_mul_left (a b : Int) : wrap32 (wrap32 a * b) = wrap32 (a * b) :=
  Int.bmod_mul_bmod ..

theorem wrap32_of_le {i : Int} (hlo : -(2 * maxNum) ≤ i) (hhi : i ≤ 2 * maxNum) :
    wrap32 i = i := by
  simp only [maxNum] at hlo hhi
  exact Int.bmod_eq_of_le (by omega) (by omega)

theorem copyDigits_run (stored dropped e : Int) (out : List Nat) (m : Nat) (msDigit : UInt8)
    {ds ys : List UInt8} (hds : ∀ c ∈ ds, isDigit c) (hys : isDigit (peek ys) = false)
    (hm : ds.length ≤ m) :
    copyDigits stored dropped ⟨out, m, msDigit, wrap32 e⟩ (ds ++ ys) =
      (ys, ⟨out ++ digitValues ds, m - ds.length, msDigit,
        wrap32 (e + ds.length * stored)⟩) := by
  induction ds generalizing out m e with
  | nil =>
      cases ys with
      | nil => simp [copyDigits, digitValues]
      | cons y ys =>
          rw [peek_cons] at hys
          simp [copyDigits, digitValues, hys]
  | cons d ds ih =>
      obtain ⟨hd, hds⟩ := List.forall_mem_cons.mp hds
      have hm0 : m ≠ 0 := by
        rw [List.length_cons] at hm
        omega
      have hm' : ds.length ≤ m - 1 := by
        rw [List.length_cons] at hm
        omega
      rw [List.cons_append, copyDigits, if_pos hd, if_pos hm0]
      simp only [wrap32_add_left]
      rw [ih _ _ _ hds hm']
      simp only [digitValues, List.map_cons, List.append_assoc, List.singleton_append,
        List.length_cons, Prod.mk.injEq, Copied.mk.injEq, true_and]
      refine ⟨by omega, ?_⟩
      congr 1
      push_cast
      ring

theorem skipDecimalZeros_run (e : Int) {ds ys : List UInt8}
    (hds : ∀ c ∈ ds, isDigit c) (hys : isDigit (peek ys) = false) :
    skipDecimalZeros (wrap32 e) (ds ++ ys) =
      (ds.dropWhile isZero ++ ys, wrap32 (e - (ds.takeWhile isZero).length)) := by
  induction ds generalizing e with
  | nil =>
      have hz : isZero (peek ys) = false := by
        cases hz : isZero (peek ys) with
        | true => rw [isDigit_of_isZero hz] at hys; cases hys
        | false => rfl
      cases ys with
      | nil => simp [skipDecimalZeros]
      | cons y ys =>
          rw [peek_cons] at hz
          simp [skipDecimalZeros, hz]
  | cons d ds ih =>
      obtain ⟨-, hds⟩ := List.forall_mem_cons.mp hds
      rw [List.cons_append, skipDecimalZeros]
      cases hz : isZero d with
      | false => simp [hz]
      | true =>
          have hstep : wrap32 (wrap32 e - 1) = wrap32 (e - 1) := by
            rw [sub_eq_add_neg, wrap32_add_left, ← sub_eq_add_neg]
          rw [if_pos rfl, hstep, ih _ hds]
          simp only [List.dropWhile_cons, List.takeWhile_cons, hz, if_true, List.length_cons]
          congr 2
          push_cast
          ring

theorem exponentDigits_run (pre : List UInt8) {ds ys : List UInt8}
    (hds : ∀ c ∈ ds, isDigit c) (hys : isDigit (peek ys) = false)
    (hpre : wrap32 (Positional.value 10 (digitValues pre) : ℕ) ≤ maxNum) :
    exponentDigits (wrap32 (Positional.value 10 (digitValues pre) : ℕ)) (ds ++ ys) =
      if ∀ p ∈ ds.inits,
          wrap32 (Positional.value 10 (digitValues (pre ++ p)) : ℕ) ≤ maxNum then
        some (wrap32 (Positional.value 10 (digitValues (pre ++ ds)) : ℕ))
      else none := by
  induction ds generalizing pre with
  | nil =>
      cases ys with
      | nil => simp [exponentDigits, hpre]
      | cons y ys =>
          rw [peek_cons] at hys
          simp [exponentDigits, hys, hpre]
  | cons d ds ih =>
      obtain ⟨hd, hds⟩ := List.forall_mem_cons.mp hds
      have hstep : wrap32 (wrap32 (Positional.value 10 (digitValues pre) : ℕ) * 10 +
          digitValue d) = wrap32 (Positional.value 10 (digitValues (pre ++ [d])) : ℕ) := by
        rw [← wrap32_add_left, wrap32_mul_left, wrap32_add_left]
        simp [digitValues, value_concat]
      have hinits : (∀ p ∈ (d :: ds).inits,
            wrap32 (Positional.value 10 (digitValues (pre ++ p)) : ℕ) ≤ maxNum) ↔
          ∀ p ∈ ds.inits,
            wrap32 (Positional.value 10 (digitValues (pre ++ [d] ++ p)) : ℕ) ≤ maxNum := by
        simp [hpre]
      rw [List.cons_append, exponentDigits, if_pos hd]
      simp only [hstep, hinits]
      by_cases hle : wrap32 (Positional.value 10 (digitValues (pre ++ [d])) : ℕ) ≤ maxNum
      · rw [if_neg (by omega), ih _ hds hle, List.append_cons pre d ds]
      · rw [if_pos (by omega), if_neg]
        intro h
        exact hle (by simpa using h [] (by simp))

theorem dropWhile_append_run {p : UInt8 → Bool} (xs : List UInt8) {ys : List UInt8}
    (h : p (peek ys) = false) :
    (xs ++ ys).dropWhile p = xs.dropWhile p ++ ys := by
  induction xs with
  | nil => exact dropWhile_run (List.forall_mem_nil _) h
  | cons x xs ih =>
      rw [List.cons_append, List.dropWhile_cons, List.dropWhile_cons, ih]
      cases p x <;> rfl

theorem isZero_of_not_digit {c : UInt8} (h : isDigit c = false) : isZero c = false := by
  cases hz : isZero c with
  | true => rw [isDigit_of_isZero hz] at h; cases h
  | false => rfl

@[simp] theorem roundUp_zero (n : NumberString) : n.roundUp 0 = n :=
  if_neg (by decide)

namespace Literal

theorem format_skip (l : Literal) :
    (if isSign (peek (l.text.dropWhile isBlank)) then
        (l.text.dropWhile isBlank).tail
      else l.text.dropWhile isBlank).dropWhile isBlank = l.body := by
  have hskip := l.skip_sign
  have hbody : l.body.dropWhile isBlank = l.body :=
    dropWhile_run (List.forall_mem_nil _) l.peek_body.1
  cases hs : isSign (peek (l.text.dropWhile isBlank)) with
  | true => rwa [if_pos hs] at hskip
  | false => rw [if_neg (ne_true_of_eq_false hs)] at hskip; rw [hskip]; exact hbody

theorem format_sign (l : Literal) :
    (if peek (l.text.dropWhile isBlank) = chMinus then -1 else 1) = l.sign.value := by
  obtain ⟨-, -, hm⟩ := l.peek_body
  have hrun := dropWhile_run l.gap_blank l.peek_body.1
  unfold text
  rw [List.dropWhile_append_of_pos l.leading_blank]
  cases l.sign with
  | absent => rw [SignMark.text, List.nil_append, hrun, if_neg hm]; rfl
  | plus => rfl
  | minus => rfl

def number (l : Literal) (s : Settings) : NumberString :=
  if l.significant = [] then NumberString.zero s
  else new s l.sign.value (wrap32 l.exp) l.significant

/-- The checks of `format`, on the values that the 32-bit exponent takes. -/
def Accepted (l : Literal) : Prop :=
  (∀ e ∈ l.exponent,
      (∀ p ∈ e.digits.inits,
        wrap32 (Positional.value 10 (digitValues p) : ℕ) ≤ maxNum) ∧
      labs (wrap32 l.exp) ≤ maxNum) ∧
    (l.rest ≠ [] → l.significant ≠ [] →
      wrap32 (l.exp + l.significant.length - 1) ≤ maxNum)

instance (l : Literal) : Decidable l.Accepted := by
  unfold Accepted
  infer_instance

theorem formatEnd_store (s : Settings) (l : Literal) :
    formatEnd (new s l.sign.value (wrap32 l.exp) l.significant)
        (decide (l.significant = [])) 0 =
      if l.significant ≠ [] ∧
          ¬ wrap32 (l.exp + l.significant.length - 1) ≤ maxNum then none
      else some (l.number s) := by
  have hsign : l.sign.value ≠ 0 := by cases l.sign <;> decide
  simp only [formatEnd, roundUp_zero, number, new, hsign, false_or, decide_eq_true_eq]
  by_cases h : l.significant = []
  · simp [h, setZero, length, NumberString.zero, new, wrap32, maxNum]
  · have hwrap : wrap32 (wrap32 l.exp + l.significant.length - 1) =
        wrap32 (l.exp + l.significant.length - 1) := by
      rw [add_sub_assoc, wrap32_add_left, ← add_sub_assoc]
    simp [h, length, hwrap]

theorem formatExponent_rest (s : Settings) (l : Literal) (m : Nat) (hrest : l.rest ≠ []) :
    formatExponent (new s l.sign.value 0 []) (decide (l.significant = []))
        ⟨l.significant, m, 0, wrap32 (0 - l.decimals)⟩ l.rest =
      if l.Accepted then some (l.number s) else none := by
  obtain ⟨hd, -, hm, -⟩ := peek_trailing l.trailing_blank
  have hend := l.formatEnd_store s
  rw [formatExponent, if_neg (by simp [hrest])]
  unfold rest
  cases he : l.exponent with
  | none =>
      have hexp : 0 - (l.decimals : Int) = l.exp := by simp [exp, exponentValue, he]
      rw [exponentText, List.nil_append, hm, if_neg (by decide), hexp]
      simp only [store, new] at hend ⊢
      rw [hend, ← ite_not]
      congr 1
      simp [Accepted, he, hrest]
  | some e =>
      have hdig : isDigit (peek e.digits) = true := e.digits_valid _ (peek_mem e.digits_ne)
      have hpeek : peek (e.digits ++ l.trailing) = peek e.digits :=
        peek_append _ e.digits_ne
      have hsign := e.sign.skip_text
        (by rw [hpeek]; exact (isDigit_disjoint hdig).2.1)
      have hminus : (if peek (e.sign.text ++ (e.digits ++ l.trailing)) = chMinus then
          (-1 : Int) else 1) = e.sign.value := by
        cases e.sign with
        | absent =>
            rw [SignMark.text, List.nil_append, hpeek,
              if_neg (isDigit_disjoint hdig).2.2.2.2]
            rfl
        | plus => rfl
        | minus => rfl
      have hrun := exponentDigits_run [] e.digits_valid hd (by decide)
      have hzero : wrap32 (Positional.value 10 (digitValues []) : ℕ) = 0 := by decide
      simp only [hzero, List.nil_append] at hrun
      have hwrap : wrap32 (wrap32 (0 - l.decimals) +
          wrap32 (wrap32 (Positional.value 10 (digitValues e.digits) : ℕ) * e.sign.value)) =
            wrap32 l.exp := by
        rw [wrap32_add_left, wrap32_mul_left, wrap32_add_right, exp, exponentValue, he]
        simp only [Option.elim, ExponentPart.value]
        congr 1
        ring
      simp only [exponentText, ExponentPart.text, List.cons_append, List.append_assoc,
        peek_cons, e.mark_valid, if_true, List.tail_cons, hminus, hsign, hrun]
      by_cases hfit : ∀ p ∈ e.digits.inits,
          wrap32 (Positional.value 10 (digitValues p) : ℕ) ≤ maxNum
      · rw [if_pos hfit]
        simp only [Option.bind_eq_bind, Option.bind_some, store, hwrap]
        by_cases hmax : labs (wrap32 l.exp) ≤ maxNum
        · have hacc : l.Accepted ↔
              (l.significant ≠ [] →
                wrap32 (l.exp + l.significant.length - 1) ≤ maxNum) := by
            refine ⟨fun h => h.2 hrest, fun h => ⟨fun e' he' => ?_, fun _ => h⟩⟩
            cases he.symm.trans he'
            exact ⟨hfit, hmax⟩
          rw [if_neg (by omega)]
          simp only [new] at hend ⊢
          rw [hend, ← ite_not]
          congr 1
          simp [hacc]
        · rw [if_pos (by omega), if_neg]
          intro hacc
          exact hmax (hacc.1 e he).2
      · rw [if_neg hfit, if_neg]
        · rfl
        · intro hacc
          exact hfit (hacc.1 e he).1

theorem accepted_of_rest_nil {l : Literal} (h : l.rest = []) : l.Accepted := by
  have hnone : l.exponent = none := by
    cases he : l.exponent with
    | none => rfl
    | some e => simp [rest, he, exponentText, ExponentPart.text] at h
  exact ⟨by simp [hnone], fun hrest => absurd h hrest⟩

theorem exp_of_rest_nil {l : Literal} (h : l.rest = []) : l.exp = 0 - l.decimals := by
  cases he : l.exponent with
  | none => simp [exp, exponentValue, he]
  | some e => simp [rest, he, exponentText, ExponentPart.text] at h

theorem number_of_ne {l : Literal} (s : Settings) (h : l.significant ≠ []) :
    l.number s = new s l.sign.value (wrap32 l.exp) l.significant := if_neg h

theorem number_of_eq {l : Literal} (s : Settings) (h : l.significant = []) :
    l.number s = NumberString.zero s := if_pos h

theorem peek_dropWhile_zero {ds ys : List UInt8} (hds : ∀ c ∈ ds, isDigit c)
    (hys : isDigit (peek ys) = false) :
    (isDigit (peek (ds.dropWhile isZero ++ ys)) &&
      !isZero (peek (ds.dropWhile isZero ++ ys))) =
        !decide (ds.dropWhile isZero = []) := by
  cases hd : ds.dropWhile isZero with
  | nil => simp [hys]
  | cons c cs =>
      have hmem : c ∈ ds := List.dropWhile_subset isZero (hd ▸ List.mem_cons_self)
      have hz := peek_dropWhile isZero ds (by decide)
      rw [hd, peek_cons] at hz
      simp [hz, hds c hmem]

theorem copyDigits_decimals (s : Settings) (l : Literal) {w ds : List UInt8} {k m : Nat}
    (hds : ∀ c ∈ ds, isDigit c) (hsig : l.significant = digitValues (w ++ ds))
    (hdec : l.decimals = k + ds.length) (hm : ds.length ≤ m)
    (hend : l.rest = [] → l.significant ≠ []) :
    (match copyDigits (-1) 0 ⟨digitValues w, m, 0, wrap32 (0 - k)⟩ (ds ++ l.rest) with
      | (inPtr, v) =>
        if inPtr = [] then some (((new s l.sign.value 0 []).store v).roundUp v.msDigit)
        else formatExponent (new s l.sign.value 0 [])
          (decide (l.significant = [])) v inPtr) =
      if l.Accepted then some (l.number s) else none := by
  have hout : digitValues w ++ digitValues ds = l.significant := by
    rw [hsig, digitValues, digitValues, digitValues, List.map_append]
  have hexp : (0 - (k : Int)) + ds.length * -1 = 0 - l.decimals := by
    rw [hdec]
    push_cast
    ring
  rw [copyDigits_run _ _ _ _ _ _ hds l.peek_rest.1 hm, hout, hexp]
  by_cases hrest : l.rest = []
  · have hs := hend hrest
    rw [if_pos (accepted_of_rest_nil hrest), number_of_ne s hs, exp_of_rest_nil hrest]
    simp only [hrest, if_true, roundUp_zero]
    rfl
  · simp only [if_neg hrest]
    exact l.formatExponent_rest s _ hrest

theorem formatDecimals_fraction (s : Settings) (l : Literal) {ds : List UInt8}
    (hf : l.fraction = some ds) {numDigits : Nat} (hroom : l.coeff.length ≤ numDigits) :
    formatDecimals (new s l.sign.value 0 []) (decide (l.whole.dropWhile isZero = []))
        numDigits ⟨digitValues (l.whole.dropWhile isZero),
          numDigits - (l.whole.dropWhile isZero).length, 0, 0⟩ (ds ++ l.rest) =
      if l.Accepted then some (l.number s) else none := by
  have hdigits : ∀ c ∈ ds, isDigit c := by simpa [hf] using l.fraction_digits
  have hcoeff : l.coeff = l.whole ++ ds := by simp [coeff, hf]
  have hdec : l.decimals = ds.length := by simp [decimals, hf]
  have hle := (List.dropWhile_sublist isZero (l := l.whole)).length_le
  have hdrop : (l.whole ++ ds).dropWhile isZero =
      if l.whole.dropWhile isZero = [] then ds.dropWhile isZero
      else l.whole.dropWhile isZero ++ ds := by
    rw [List.dropWhile_append]
    simp
  rw [hcoeff, List.length_append] at hroom
  have hsig : l.significant = digitValues (l.coeff.dropWhile isZero) := rfl
  rw [hcoeff, hdrop] at hsig
  generalize l.whole.dropWhile isZero = w at hle hsig
  unfold formatDecimals
  by_cases hw : w = []
  · subst hw
    rw [if_pos rfl] at hsig
    have hnil : ds.dropWhile isZero = [] ↔ l.significant = [] := by
      rw [hsig, digitValues, List.map_eq_nil_iff]
    have hsplit : ds.length = (ds.takeWhile isZero).length + (ds.dropWhile isZero).length := by
      rw [← List.length_append, List.takeWhile_append_dropWhile]
    have hskip := skipDecimalZeros_run 0 hdigits l.peek_rest.1
    have hnz := peek_dropWhile_zero hdigits l.peek_rest.1
    rw [wrap32_zero] at hskip
    simp only [List.length_nil, Nat.sub_zero, if_true, true_or, hskip, hnz, hnil,
      decide_true, Bool.true_and, Bool.not_not]
    by_cases hend : l.rest = [] ∧ l.significant = []
    · obtain ⟨hrest, hs⟩ := hend
      have hzero : ds.dropWhile isZero ++ l.rest = [] := by simp [hrest, hnil, hs]
      rw [if_pos hzero, if_pos (accepted_of_rest_nil hrest), number_of_eq s hs, ite_self]
      rfl
    · have hne : ds.dropWhile isZero ++ l.rest ≠ [] := by
        simp only [ne_eq, List.append_eq_nil_iff, hnil]
        tauto
      have hne' : ds ++ l.rest ≠ [] := by
        intro h
        simp only [List.append_eq_nil_iff] at h
        simp [h.1, h.2] at hne
      rw [if_neg hne', if_neg hne]
      exact l.copyDigits_decimals s
        (fun c hc => hdigits c (List.dropWhile_subset isZero hc)) (by simpa using hsig)
        (hdec.trans hsplit) (by omega) (fun hrest hs => hend ⟨hrest, hs⟩)
  · rw [if_neg hw] at hsig
    have hpos := List.length_pos_iff.mpr hw
    have hs : l.significant ≠ [] := by
      rw [hsig]
      simp [digitValues, hw]
    have hroom' : ¬ numDigits - w.length = numDigits := by omega
    have hmain := l.copyDigits_decimals (k := 0) (m := numDigits - w.length) s hdigits hsig
      (by omega) (by omega) (fun _ => hs)
    simp only [Nat.cast_zero, sub_zero, wrap32_zero, hs, decide_false] at hmain
    simp only [hroom', hw, decide_false, Bool.false_and, if_false, or_false,
      Bool.false_eq_true]
    by_cases hend : ds ++ l.rest = []
    · obtain ⟨hds, hrest⟩ := List.append_eq_nil_iff.mp hend
      rw [if_pos hend, if_pos (accepted_of_rest_nil hrest), number_of_ne s hs,
        exp_of_rest_nil hrest, hdec, hsig, hds, List.append_nil]
      rfl
    · rw [if_neg hend, if_neg hend]
      exact hmain

theorem format_text (s : Settings) (l : Literal) :
    (new s 1 0 []).format l.text =
      if l.Accepted then some (l.number s) else none := by
  obtain ⟨hd, hp⟩ := l.peek_rest
  have hsign : (if peek (l.text.dropWhile isBlank) = chMinus then
      { new s 1 0 [] with sign := -1 } else new s 1 0 []) = new s l.sign.value 0 [] := by
    rw [← l.format_sign]
    split <;> rfl
  have hw : ∀ c ∈ l.whole.dropWhile isZero, isDigit c :=
    fun c hc => l.whole_digits c (List.dropWhile_subset isZero hc)
  have hstop : isDigit (peek (pointText l.fraction ++ l.rest)) = false := by
    cases l.fraction with
    | none => exact hd
    | some ds => rfl
  have hlen : (l.whole.dropWhile isZero).length ≤ l.text.length := by
    have h1 := (List.dropWhile_sublist isZero (l := l.whole)).length_le
    simp only [text, body, List.length_append]
    omega
  have hnz := peek_dropWhile_zero l.whole_digits hstop
  have hcopy := copyDigits_run 0 1 0 [] l.text.length 0 hw hstop hlen
  have hbody : l.body.dropWhile isZero =
      l.whole.dropWhile isZero ++ (pointText l.fraction ++ l.rest) :=
    dropWhile_append_run _ (isZero_of_not_digit hstop)
  rw [wrap32_zero, mul_zero, add_zero, wrap32_zero, List.nil_append] at hcopy
  simp only [format, hsign, l.format_skip, hbody, hnz, hcopy, Bool.not_not]
  cases hf : l.fraction with
  | none =>
      have hsig : digitValues (l.whole.dropWhile isZero) = l.significant := by
        simp [significant, coeff, hf]
      have hnil : l.whole.dropWhile isZero = [] ↔ l.significant = [] := by
        rw [← hsig, digitValues, List.map_eq_nil_iff]
      have hdec : (l.decimals : Int) = 0 := by simp [decimals, hf]
      rw [pointText, List.nil_append, hsig]
      simp only [hnil]
      by_cases hrest : l.rest = []
      · rw [if_pos (accepted_of_rest_nil hrest), if_pos hrest]
        simp only [List.append_eq_nil_iff, hnil, hrest, and_true, roundUp_zero]
        by_cases hs : l.significant = []
        · rw [if_pos hs, number_of_eq s hs]
          rfl
        · rw [if_neg hs, number_of_ne s hs, exp_of_rest_nil hrest, hdec]
          rfl
      · have hmain := l.formatExponent_rest s
          (l.text.length - (l.whole.dropWhile isZero).length) hrest
        rw [hdec, sub_zero, wrap32_zero] at hmain
        rw [if_neg (by simp [hrest]), if_neg hrest, if_neg hp, hmain]
  | some ds =>
      have hroom : l.coeff.length ≤ l.text.length := by
        simp only [coeff, hf, Option.getD_some, text, body, pointText,
          List.length_append, List.length_cons]
        omega
      rw [pointText, List.cons_append, if_neg (by simp), if_neg (by simp), peek_cons,
        if_pos rfl, List.tail_cons]
      exact l.formatDecimals_fraction s hf hroom

/-! ## The number and the value written -/

end Literal

theorem isDigit_iff {c : UInt8} : isDigit c ↔ 48 ≤ c.toNat ∧ c.toNat ≤ 57 := by
  simp only [isDigit, chZero, chNine, Bool.and_eq_true, decide_eq_true_eq,
    UInt8.le_iff_toNat_le]
  rfl

theorem isDigits_digitValues {ds : List UInt8} (h : ∀ c ∈ ds, isDigit c) :
    IsDigits 10 (digitValues ds) := by
  intro d hd
  obtain ⟨c, hc, rfl⟩ := List.mem_map.mp hd
  have hc : 48 ≤ c.toNat ∧ c.toNat ≤ 57 := isDigit_iff.mp (h c hc)
  simp only [digitValue]
  omega

theorem digitValue_pos {c : UInt8} (h : isDigit c) (hz : isZero c = false) :
    0 < digitValue c := by
  have hc := isDigit_iff.mp h
  have hne : c.toNat ≠ 48 := by
    intro heq
    have : c = chZero := UInt8.toNat_inj.mp heq
    simp [isZero, this] at hz
  simp only [digitValue]
  omega

theorem value_dropWhile_zero (ds : List UInt8) :
    Positional.value 10 (digitValues (ds.dropWhile isZero)) =
      Positional.value 10 (digitValues ds) := by
  induction ds with
  | nil => rfl
  | cons d ds ih =>
      rw [List.dropWhile_cons]
      cases hz : isZero d with
      | false => rfl
      | true =>
          rw [if_pos rfl, ih, isZero_iff.mp hz]
          simp [digitValues, digitValue, chZero, value_cons]

namespace Literal

theorem coeff_digits (l : Literal) : ∀ c ∈ l.coeff, isDigit c := by
  intro c hc
  rcases List.mem_append.mp hc with h | h
  · exact l.whole_digits c h
  · exact l.fraction_digits c h

theorem isDigits_significant (l : Literal) : IsDigits 10 l.significant :=
  isDigits_digitValues
    (fun c hc => l.coeff_digits c (List.dropWhile_subset isZero hc))

theorem significant_leading {l : Literal} (h : l.significant ≠ []) :
    ∃ d ds, l.significant = d :: ds ∧ 0 < d := by
  have hstop := peek_dropWhile isZero l.coeff (by decide)
  have hdig : ∀ c ∈ l.coeff.dropWhile isZero, isDigit c :=
    fun c hc => l.coeff_digits c (List.dropWhile_subset isZero hc)
  unfold significant at h ⊢
  generalize l.coeff.dropWhile isZero = xs at hstop hdig h
  cases xs with
  | nil => exact absurd rfl h
  | cons c cs =>
      exact ⟨digitValue c, digitValues cs, rfl,
        digitValue_pos (hdig c List.mem_cons_self) hstop⟩

theorem value_significant (l : Literal) :
    Positional.value 10 l.significant = Positional.value 10 (digitValues l.coeff) :=
  value_dropWhile_zero l.coeff

theorem wrap32_exp {l : Literal} (h : l.InRange) (hs : l.significant ≠ []) :
    wrap32 l.exp = l.exp := by
  have hpos := List.length_pos_iff.mpr hs
  obtain ⟨hlo, hhi⟩ := h.2 hs
  exact wrap32_of_le (by simp only [maxNum] at *; omega) (by omega)

theorem toRat_number {l : Literal} (s : Settings) (h : l.InRange) :
    (l.number s).toRat = l.toRat := by
  by_cases hs : l.significant = []
  · rw [number_of_eq s hs, toRat, ← value_significant, hs]
    simp [NumberString.toRat, NumberString.zero, new]
  · rw [number_of_ne s hs, toRat, ← value_significant, wrap32_exp h hs]
    rfl

theorem normalized_number {l : Literal} (s : Settings) (h : l.InRange) :
    (l.number s).Normalized := by
  by_cases hs : l.significant = []
  · rw [number_of_eq s hs]
    exact normalized_zero s
  · rw [number_of_ne s hs, wrap32_exp h hs]
    have hsign : l.sign.value ≠ 0 := by cases l.sign <;> decide
    constructor
    · cases l.sign <;> simp [new, SignMark.value]
    · exact l.isDigits_significant
    · exact fun h0 => absurd h0 hsign
    · exact fun _ => significant_leading hs
    · exact (h.2 hs).1
    · exact (h.2 hs).2

/-! ## What is accepted -/

theorem prefix_value_le {e : ExponentPart} {p : List UInt8} (hp : p <+: e.digits) :
    Positional.value 10 (digitValues p) ≤ Positional.value 10 (digitValues e.digits) := by
  obtain ⟨q, hq⟩ := hp
  have happ : digitValues (p ++ q) = digitValues p ++ digitValues q := List.map_append
  rw [← hq, happ, value_append]
  exact Nat.le_add_right_of_le (Nat.le_mul_of_pos_right _ (by positivity))

theorem accepted_of_inRange {l : Literal} (h : l.InRange) : l.Accepted := by
  have hbound {i : Int} (hi : |i| ≤ maxNum) : wrap32 i = i := by
    obtain ⟨hlo, hhi⟩ := abs_le.mp hi
    simp only [maxNum] at hlo hhi
    exact wrap32_of_le (by simp only [maxNum]; omega) (by simp only [maxNum]; omega)
  constructor
  · intro e he
    obtain ⟨hvalue, hexp⟩ := h.1 (by rw [he]; rfl)
    constructor
    · intro p hp
      have hle := prefix_value_le ((List.mem_inits p e.digits).mp hp)
      have habs : |l.exponentValue| = (Positional.value 10 (digitValues e.digits) : ℕ) := by
        rw [exponentValue, he, Option.elim, ExponentPart.value, abs_mul, Nat.abs_cast]
        cases e.sign <;> simp [SignMark.value]
      have hle' : ((Positional.value 10 (digitValues p) : ℕ) : Int) ≤ maxNum := by omega
      rw [hbound (by rwa [Nat.abs_cast])]
      exact hle'
    · rw [hbound hexp, labs, hbound (by rwa [abs_abs])]
      exact hexp
  · intro _ hs
    have hpos := List.length_pos_iff.mpr hs
    obtain ⟨hlo, hhi⟩ := h.2 hs
    rw [wrap32_of_le (by omega) (by omega)]
    exact hhi

end Literal

theorem newInstance_text (s : Settings) (l : Literal) :
    newInstance s l.text = if l.Accepted then some (l.number s) else none := by
  rw [newInstance, l.numberStringScan_text, if_neg (by decide), l.format_text]

/--
A string is recognized as the number it writes: a number is made exactly of
the literals in the permitted range, and it is the one written.
-/
def Recognizes (s : Settings) (number : List UInt8) : Prop :=
  match newInstance s number with
  | some n =>
      (∃ l : Literal, l.text = number) ∧
        ∀ l : Literal, l.text = number → l.InRange ∧ n.Normalized ∧ n.toRat = l.toRat
  | none => ∀ l : Literal, l.text = number → ¬ l.InRange

/--
The exponent is out of range, but the values the 32-bit exponent takes are not
seen to be.
-/
def Literal.Evades (l : Literal) : Prop := ¬ l.InRange ∧ l.Accepted

theorem newInstance_recognizes_iff (s : Settings) (number : List UInt8) :
    Recognizes s number ↔ ∀ l : Literal, l.text = number → ¬ l.Evades := by
  constructor
  · rintro h l rfl ⟨hrange, haccept⟩
    rw [Recognizes, newInstance_text, if_pos haccept] at h
    exact hrange (h.2 l rfl).1
  · intro h
    cases hscan : numberStringScan number with
    | true =>
        have hnone : newInstance s number = none := by rw [newInstance, hscan, if_pos rfl]
        rw [Recognizes, hnone]
        rintro l rfl
        rw [l.numberStringScan_text] at hscan
        cases hscan
    | false =>
        obtain ⟨l, rfl⟩ := Literal.exists_text hscan
        by_cases haccept : l.Accepted
        · have hsome := newInstance_text s l
          rw [if_pos haccept] at hsome
          rw [Recognizes, hsome]
          refine ⟨⟨l, rfl⟩, fun l' hl' => ?_⟩
          have hl := newInstance_text s l'
          rw [hl', hsome] at hl
          split at hl
          · case isTrue haccept' =>
            have hrange : l'.InRange := by
              by_contra hrange
              exact h l' hl' ⟨hrange, haccept'⟩
            rw [Option.some.inj hl]
            exact ⟨hrange, l'.normalized_number s hrange, l'.toRat_number s hrange⟩
          · cases hl
        · have hnone := newInstance_text s l
          rw [if_neg haccept] at hnone
          rw [Recognizes, hnone]
          intro l' hl' hrange
          have hl := newInstance_text s l'
          rw [hl', hnone, if_pos (Literal.accepted_of_inRange hrange)] at hl
          cases hl

/-- The literal `1E4294967297`. -/
def wrappingLiteral : Literal where
  leading := []
  sign := .absent
  gap := []
  whole := [49]
  fraction := none
  exponent := some ⟨69, .absent, [52, 50, 57, 52, 57, 54, 55, 50, 57, 55],
    by decide, List.all_eq_true.mp rfl, by decide⟩
  trailing := []
  leading_blank := List.forall_mem_nil _
  gap_blank := List.forall_mem_nil _
  whole_digits := List.all_eq_true.mp rfl
  fraction_digits := List.forall_mem_nil _
  digits_ne := by decide
  trailing_blank := List.forall_mem_nil _

/-- `1E4294967297` is read as ten. -/
theorem newInstance_wraps :
    newInstance ⟨9, 0, .scientific⟩ wrappingLiteral.text = some ⟨1, 1, [1], 9, true⟩ ∧
      ¬ Recognizes ⟨9, 0, .scientific⟩ wrappingLiteral.text := by
  have hread : newInstance ⟨9, 0, .scientific⟩ wrappingLiteral.text =
      some ⟨1, 1, [1], 9, true⟩ := by decide
  refine ⟨hread, fun h => ?_⟩
  rw [Recognizes, hread] at h
  obtain ⟨hrange, -⟩ := h.2 wrappingLiteral rfl
  have hvalue : |wrappingLiteral.exponentValue| ≤ maxNum := (hrange.1 rfl).1
  exact absurd hvalue (by decide)

end NumberString

end LeooRexx
