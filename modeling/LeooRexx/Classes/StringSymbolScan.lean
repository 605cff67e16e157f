import LeooRexx.Classes.StringSymbol
import LeooRexx.Parser.SymbolScan

/-!
# Symbols of strings and of the source

A string is compared with a line that holds it alone.  Without a sign both read it as a
symbol when all of it is symbol characters; with one, `isSymbol` looks at the first and
the last character before the sign and the scanner at the whole run.
-/

namespace LeooRexx

open StringConversion RexxSource StringMisc

def Reads (s : List UInt8) (t : SymbolToken) : Prop :=
  lookup (s.headD 0) ≠ 0 ∧ symbolToken s 0 = .ok t ∧ t.line_offset = s.length

def SymbolAgrees (s : List UInt8) : Prop :=
  (isSymbol s ≠ .badVariable ↔ ∃ t, Reads s t) ∧
    ∀ t, Reads s t → getVariableRetriever s = some (addText t.subclass)

structure Signed (s word : List UInt8) (sign : UInt8) (digits : List UInt8) : Prop where
  eq : s = word ++ sign :: digits
  word : Symbolic word
  sign : isSign sign = true
  nonempty : digits ≠ []
  digits : AllDigits digits

/-! ## The run of symbol characters -/

theorem takeWhile_symbolic {word rest : List UInt8} (hword : Symbolic word)
    (hrest : Outside rest) :
    (word ++ rest).takeWhile (fun c => lookup c ≠ 0) = word := by
  rw [List.takeWhile_append_of_pos (by simpa [Symbolic] using hword)]
  cases rest with
  | nil => simp
  | cons c rest =>
      have hc : lookup c = 0 := hrest c rfl
      simp [hc]

theorem exists_run (s : List UInt8) :
    ∃ word rest, s = word ++ rest ∧ Symbolic word ∧ Outside rest := by
  refine ⟨s.takeWhile (fun c => lookup c ≠ 0), s.dropWhile (fun c => lookup c ≠ 0),
    List.takeWhile_append_dropWhile.symm, ?_, ?_⟩
  · intro c hc
    simpa using List.mem_takeWhile_imp hc
  · intro c hc
    have hhead := List.head?_dropWhile_not (fun c => decide (lookup c ≠ 0)) s
    rw [Option.mem_def.mp hc] at hhead
    simpa using hhead

theorem toupper_eq_E {c : UInt8} : toupper c = 69 ↔ isE c = true := by
  have table : ∀ n < 256, toupper (UInt8.ofNat n) = 69 ↔ isE (UInt8.ofNat n) = true := by
    decide +kernel
  simpa using table c.toNat c.toNat_lt

theorem outside_sign {sign : UInt8} (h : isSign sign = true) (rest : List UInt8) :
    Outside (sign :: rest) := by
  intro c hc
  obtain rfl : sign = c := by simpa using hc
  exact lookup_sign h

/-! ## The string -/

section String

variable {s : List UInt8} (hpos : s.length ≠ 0) (hlen : s.length ≤ maxSymbolLength)
include hpos hlen

theorem isSymbol_word (hs : Symbolic s) : isSymbol s = symbolType s (s.count period) := by
  have hnothing : Outside [] := by simp [Outside]
  have hrun := takeWhile_symbolic hs hnothing
  rw [List.append_nil] at hrun
  have hend : symbolEnd s = s.length := by rw [symbolEnd, hrun]
  have hperiods : periods s = s.count period := by rw [periods, hrun]
  simp [isSymbol, hpos, Nat.not_lt.mpr hlen, hend, exponentSign, hperiods]

theorem isSymbol_signed {word digits : List UInt8} {sign : UInt8}
    (h : Signed s word sign digits) :
    isSymbol s = if isdigit (word.headD 0) ∧ isE (word.getLastD 0) then
      symbolType s (word.count period) else .badVariable := by
  have hrun := takeWhile_symbolic h.word (outside_sign h.sign digits)
  rw [← h.eq] at hrun
  have hend : symbolEnd s = word.length := by rw [symbolEnd, hrun]
  have hsign : s.getD word.length 0 = sign := by simp [h.eq]
  have hnotPeriod : sign ≠ period := by
    rintro rfl
    exact absurd h.sign (by decide)
  have hmore : word.length + 1 < s.length := by
    have hdigits := List.length_pos_iff.mpr h.nonempty
    rw [h.eq, List.length_append, List.length_cons]
    omega
  have hdrop : (s.drop (word.length + 1)).all isdigit = true := by
    have htail : s.drop (word.length + 1) = digits := by
      have hshape : s = (word ++ [sign]) ++ digits := by simp [h.eq]
      rw [hshape]
      exact List.drop_left' (by simp)
    rw [htail, List.all_eq_true]
    exact h.digits
  have hshort : word.length < s.length := by omega
  by_cases hnil : word = []
  · subst hnil
    have hfirst : isdigit (s.getD 0 0) = false := by
      have hd : isdigit sign = false := by
        rcases (by simpa [isSign] using h.sign : sign = 43 ∨ sign = 45) with rfl | rfl <;> rfl
      simpa [h.eq] using hd
    have hno : isdigit (([] : List UInt8).headD 0) = false := rfl
    have hexponent : exponentSign s ([] : List UInt8).length = false := by
      simp only [exponentSign, hsign, hnotPeriod, hfirst, decide_false, Bool.or_self,
        Bool.and_false, Bool.false_and]
    simp only [isSymbol, hpos, Nat.not_lt.mpr hlen, or_self, if_false, hend, hexponent, hno,
      Bool.false_eq_true, false_and, hshort, if_true]
  · have hfirst : s.getD 0 0 = word.headD 0 := by
      obtain ⟨c, word, rfl⟩ := List.exists_cons_of_ne_nil hnil
      simp [h.eq]
    have hlast : s.getD (word.length - 1) 0 = word.getLastD 0 := by
      have hlt : word.length - 1 < word.length :=
        Nat.sub_lt (List.length_pos_iff.mpr hnil) Nat.one_pos
      rw [h.eq, List.getD_eq_getElem?_getD, List.getElem?_append_left hlt,
        ← List.getLast?_eq_getElem?, List.getLastD_eq_getLast?]
    have hexponent : exponentSign s word.length =
        decide (isdigit (word.headD 0) = true ∧ isE (word.getLastD 0) = true) := by
      simp only [exponentSign, hmore, hsign, h.sign, hnotPeriod, hfirst, hlast, toupper_eq_E,
        decide_true, decide_false, Bool.true_and, Bool.or_false, Bool.decide_and, Bool.decide_eq_true]
    simp only [isSymbol, hpos, Nat.not_lt.mpr hlen, or_self, if_false, hend, hexponent, hdrop,
      hshort, if_true, decide_eq_true_eq, periods, hrun]

theorem isSymbol_bad (hs : ¬ Symbolic s) (hnot : ∀ word sign digits, ¬ Signed s word sign digits) :
    isSymbol s = .badVariable := by
  obtain ⟨word, rest, hsplit, hword, hrest⟩ := exists_run s
  have hrun := takeWhile_symbolic hword hrest
  rw [← hsplit] at hrun
  have hend : symbolEnd s = word.length := by rw [symbolEnd, hrun]
  cases rest with
  | nil =>
      rw [List.append_nil] at hsplit
      exact absurd (hsplit ▸ hword) hs
  | cons c rest =>
      have hshort : word.length < s.length := by
        rw [hsplit, List.length_append, List.length_cons]
        omega
      have hdrop : s.drop (word.length + 1) = rest := by
        have hshape : s = (word ++ [c]) ++ rest := by simp [hsplit]
        rw [hshape]
        exact List.drop_left' (by simp)
      have hc : s.getD word.length 0 = c := by simp [hsplit]
      cases hexponent : exponentSign s word.length with
      | false => simp [isSymbol, hpos, Nat.not_lt.mpr hlen, hend, hexponent, hshort]
      | true =>
          simp only [exponentSign, hc, Bool.and_eq_true, decide_eq_true_eq] at hexponent
          have hsign : isSign c = true := hexponent.1.1.2
          have hmore : rest ≠ [] := by
            rintro rfl
            have hlong := hexponent.1.1.1
            rw [hsplit, List.length_append] at hlong
            simp at hlong
          have hdigits : rest.all isdigit = false := by
            rw [Bool.eq_false_iff]
            intro hall
            exact hnot word c rest ⟨hsplit, hword, hsign, hmore, List.all_eq_true.mp hall⟩
          simp [isSymbol, hpos, Nat.not_lt.mpr hlen, hend, hdrop, hdigits, hshort]

end String

end LeooRexx
