import LeooRexx.Classes.StringWord

/-!
# Word functions and the words

A cursor stands at the words that are still to come.  Each method is then computed from
the list of the words of the string and of the places where they stand.
-/

namespace LeooRexx

namespace StringWord

open RexxTarget (isBlank)
open StringArguments

variable {data : List UInt8}

/-! ## The cursor -/

theorem skip_eq (p : UInt8 → Bool) {scan length : ℕ} (h : scan + length = data.length) :
    skip p data scan length = (runEnd p data scan, data.length - runEnd p data scan) := by
  induction length generalizing scan with
  | zero =>
      obtain rfl : scan = data.length := h
      rw [skip, runEnd_length, Nat.sub_self]
  | succ length ih =>
      have hlt : scan < data.length := by omega
      have hget : data.getD scan 0 = data[scan] := by simp [hlt]
      rw [skip, hget]
      split
      case isTrue hp => rw [ih (by omega), runEnd_of_pos p data hlt hp]
      case isFalse hp =>
          rw [runEnd_of_not p data hlt (by simpa using hp)]
          exact Prod.ext rfl (by simp only; omega)

theorem skipBlanks_eq {scan length : ℕ} (h : scan + length = data.length) :
    skipBlanks data scan length =
      (wordStart isBlank data scan, data.length - wordStart isBlank data scan) :=
  skip_eq isBlank h

theorem skipNonBlanks_eq {scan length : ℕ} (h : scan + length = data.length) :
    skipNonBlanks data scan length =
      (wordEnd isBlank data scan, data.length - wordEnd isBlank data scan) :=
  skip_eq _ h

def Stands (data : List UInt8) (c : Cursor) : List Token → Prop
  | [] => c.word = data.length ∧ c.length = 0 ∧ c.wordLength = 0
  | t :: ts =>
      c.word = t.start ∧ c.wordLength = t.length ∧ 0 < t.length ∧
        c.nextSite = t.start + t.length ∧ c.nextSite + c.length = data.length ∧
        tokensFrom isBlank data c.nextSite = ts

theorem stands_nextWord {c : Cursor} (h : c.word + c.length = data.length) :
    Stands data (nextWord data c) (tokensFrom isBlank data c.word) := by
  have hstart : c.word ≤ wordStart isBlank data c.word := le_runEnd isBlank data c.word
  have hle : wordStart isBlank data c.word ≤ data.length := runEnd_le isBlank data (by omega)
  rw [nextWord, skipBlanks_eq h]
  by_cases hword : wordStart isBlank data c.word < data.length
  · have hne : c.length ≠ 0 := by omega
    have hleft : data.length - wordStart isBlank data c.word ≠ 0 := by omega
    have hend := lt_wordEnd isBlank data hword
    have hendle : wordEnd isBlank data (wordStart isBlank data c.word) ≤ data.length :=
      runEnd_le _ data hle
    rw [if_pos hne, tokensFrom_of_word hword]
    simp only [ne_eq, hleft, not_false_eq_true, if_true]
    rw [skipNonBlanks_eq (by omega)]
    refine ⟨rfl, ?_, ?_, ?_, ?_, rfl⟩ <;> simp only <;> omega
  · rw [tokensFrom_of_end hword]
    by_cases hne : c.length = 0
    · rw [if_neg (by simpa using hne)]
      exact ⟨by simp only; omega, hne, rfl⟩
    · have hleft : data.length - wordStart isBlank data c.word = 0 := by omega
      rw [if_pos hne]
      simp only [hleft, ne_eq, not_true_eq_false, if_false]
      exact ⟨by simp only; omega, rfl, rfl⟩

theorem stands_firstWord (data : List UInt8) :
    Stands data (firstWord data) (tokens isBlank data) :=
  stands_nextWord (Nat.zero_add _)

section Standing

variable {c : Cursor} {t : Token} {ts : List Token}

theorem Stands.step (h : Stands data c (t :: ts)) : Stands data (c.step data) ts := by
  obtain ⟨_, _, _, _, hlength, hrest⟩ := h
  rw [← hrest]
  exact stands_nextWord (c := { c with word := c.nextSite }) hlength

theorem Stands.wordLength_eq_zero_iff (h : Stands data c ts) : c.wordLength = 0 ↔ ts = [] := by
  cases ts with
  | nil => simpa using h.2.2
  | cons t ts =>
      have hpos := h.2.2.1
      have hlength := h.2.1
      simp only [List.cons_ne_nil, iff_false]
      omega

theorem Stands.word_eq (h : Stands data c ts) : c.word = site data ts := by
  cases ts with
  | nil => exact h.1
  | cons t ts => exact h.1

theorem Stands.wordStart_nextSite (h : Stands data c (t :: ts)) :
    wordStart isBlank data c.nextSite = site data ts := by
  obtain ⟨_, _, _, _, hlength, hrest⟩ := h
  have hle : wordStart isBlank data c.nextSite ≤ data.length := runEnd_le isBlank data (by omega)
  rw [← hrest]
  by_cases hword : wordStart isBlank data c.nextSite < data.length
  · rw [tokensFrom_of_word hword]
    rfl
  · rw [tokensFrom_of_end hword]
    exact le_antisymm hle (not_lt.mp hword)

theorem seek_stands (h : Stands data c ts) (n : ℕ) :
    (seek data (n + 1) c).1 = n - ts.length ∧
      Stands data (seek data (n + 1) c).2 (ts.drop n) := by
  induction n generalizing c ts with
  | zero =>
      rw [seek, if_neg (by simp)]
      exact ⟨(Nat.zero_sub _).symm, h⟩
  | succ n ih =>
      rw [seek]
      cases ts with
      | nil =>
          rw [if_neg (by simp [h.2.2])]
          exact ⟨rfl, h⟩
      | cons t ts =>
          have hword : c.wordLength ≠ 0 := by simp [h.wordLength_eq_zero_iff]
          rw [if_pos ⟨Nat.succ_ne_zero n, hword⟩, List.length_cons, Nat.add_sub_add_right,
            List.drop_succ_cons]
          exact ih h.step

theorem Stands.text_eq (h : Stands data c (t :: ts)) :
    (data.drop c.word).take c.wordLength = t.text data := by
  rw [h.1, h.2.1]
  rfl

theorem Stands.length_text (h : Stands data c (t :: ts)) : (t.text data).length = t.length := by
  obtain ⟨_, _, _, hnext, hlength, _⟩ := h
  rw [Token.text, List.length_take, List.length_drop]
  omega

end Standing

/-! ## One word -/

def wordsOf (this : List UInt8) : List Token := tokens isBlank this

theorem stands_wanted (this : List UInt8) (n : ℕ) :
    ∃ left c, seek this (n + 1) (firstWord this) = (left, c) ∧
      left = n - (wordsOf this).length ∧ Stands this c ((wordsOf this).drop n) := by
  have hseek := seek_stands (stands_firstWord this) n
  exact ⟨_, _, rfl, hseek⟩

theorem word_eq (this : List UInt8) (n : ℕ) :
    word this (positive n) = .ok ((wordsOf this)[n]?.elim [] fun t => t.text this) := by
  obtain ⟨left, c, hseek, _, hwanted⟩ := stands_wanted this n
  simp only [word, getPosition_positive, hseek, bind, Except.bind, pure, Except.pure,
    ← List.head?_drop]
  split
  case isTrue hnull =>
      obtain rfl := List.length_eq_zero_iff.mp hnull
      have hnone : (wordsOf ([] : List UInt8)).drop n = [] := by
        simp [wordsOf, tokens, tokensFrom]
      rw [hnone]
      rfl
  case isFalse _ =>
      cases hleft : (wordsOf this).drop n with
      | nil =>
          rw [hleft] at hwanted
          rw [if_neg (not_not.mpr hwanted.2.2)]
          rfl
      | cons t ts =>
          rw [hleft] at hwanted
          rw [if_pos (by simp [hwanted.wordLength_eq_zero_iff]), hwanted.text_eq]
          rfl

theorem wordIndex_eq (this : List UInt8) (n : ℕ) :
    wordIndex this (positive n) = .ok ((wordsOf this)[n]?.elim 0 fun t => t.start + 1) := by
  obtain ⟨left, c, hseek, _, hwanted⟩ := stands_wanted this n
  simp only [wordIndex, getPosition_positive, hseek, bind, Except.bind, pure, Except.pure,
    ← List.head?_drop]
  cases hleft : (wordsOf this).drop n with
  | nil =>
      rw [hleft] at hwanted
      rw [if_pos hwanted.2.2]
      rfl
  | cons t ts =>
      rw [hleft] at hwanted
      rw [if_neg (by simp [hwanted.wordLength_eq_zero_iff]), hwanted.1]
      rfl

theorem wordLength_eq (this : List UInt8) (n : ℕ) :
    wordLength this (positive n) = .ok ((wordsOf this)[n]?.elim 0 Token.length) := by
  obtain ⟨left, c, hseek, _, hwanted⟩ := stands_wanted this n
  simp only [wordLength, getPosition_positive, hseek, bind, Except.bind, pure, Except.pure,
    ← List.head?_drop]
  cases hleft : (wordsOf this).drop n with
  | nil =>
      rw [hleft] at hwanted
      rw [hwanted.2.2]
      rfl
  | cons t ts =>
      rw [hleft] at hwanted
      rw [hwanted.2.1]
      rfl

/-! ## All words -/

theorem wordCountLoop_eq {fuel string length : ℕ} (h : string + length = data.length)
    (hstands : wordStart isBlank data string = string)
    (hfuel : (tokensFrom isBlank data string).length < fuel) (count : ℕ) :
    wordCountLoop data fuel string length count =
      some (count + (tokensFrom isBlank data string).length) := by
  induction fuel generalizing string length count with
  | zero => exact absurd hfuel (Nat.not_lt_zero _)
  | succ fuel ih =>
      rw [wordCountLoop]
      split
      case isTrue hmore =>
          have hword : wordStart isBlank data string < data.length := by omega
          have htokens := tokensFrom_of_word hword
          have hend : wordEnd isBlank data string ≤ data.length := runEnd_le _ data (by omega)
          rw [hstands] at htokens
          rw [htokens, List.length_cons] at hfuel ⊢
          simp only [skipNonBlanks_eq h]
          split
          case isTrue hdone =>
              have hnone : ¬ wordStart isBlank data (wordEnd isBlank data string) <
                  data.length := by
                have hle : wordEnd isBlank data string ≤
                  wordStart isBlank data (wordEnd isBlank data string) := le_runEnd isBlank data _
                omega
              rw [tokensFrom_of_end hnone]
              rfl
          case isFalse hleft =>
              have hstart : wordStart isBlank data (wordEnd isBlank data string) ≤
                  data.length := runEnd_le _ data hend
              rw [← tokensFrom_wordStart] at hfuel ⊢
              rw [skipBlanks_eq (by omega)]
              simp only
              rw [ih (by omega) (wordStart_wordStart isBlank data _) (by omega)]
              simp only [Option.some.injEq]
              omega
      case isFalse hnone =>
          have hend : ¬ wordStart isBlank data string < data.length := by omega
          rw [tokensFrom_of_end hend]
          rfl

theorem words_eq (this : List UInt8) : words this = some (wordsOf this).length := by
  have hlength : (tokensFrom isBlank this 0).length ≤ this.length - 0 := length_tokensFrom_le 0
  rw [words, wordCount]
  split
  case isTrue _ =>
      have hle : wordStart isBlank this 0 ≤ this.length := runEnd_le _ this (Nat.zero_le _)
      rw [skipBlanks_eq (Nat.zero_add _)]
      simp only
      rw [wordCountLoop_eq (by omega) (wordStart_wordStart isBlank this 0)] <;>
        rw [tokensFrom_wordStart]
      · rw [Nat.zero_add]
        rfl
      · omega
  case isFalse hnull =>
      have hzero : (wordsOf this).length = 0 := by
        rw [wordsOf, tokens]
        omega
      rw [hzero]

end StringWord

end LeooRexx
