import Mathlib.Data.List.Basic
import Mathlib.Data.List.TakeWhile
import Mathlib.Tactic.Common

/-!
# Words

A text cut at blanks.  A word is kept as the place where it starts and its length, so
that what lies between two words can be spoken of as well.
-/

namespace LeooRexx

variable {α : Type*}

def runEnd (p : α → Bool) (text : List α) (i : ℕ) : ℕ := i + ((text.drop i).takeWhile p).length

section RunEnd

variable (p : α → Bool) (text : List α)

theorem le_runEnd (i : ℕ) : i ≤ runEnd p text i := Nat.le_add_right _ _

theorem runEnd_le {i : ℕ} (h : i ≤ text.length) : runEnd p text i ≤ text.length := by
  have hlength : ((text.drop i).takeWhile p).length ≤ (text.drop i).length :=
    (List.takeWhile_sublist p).length_le
  rw [List.length_drop] at hlength
  simp only [runEnd]
  omega

theorem drop_runEnd (i : ℕ) : text.drop (runEnd p text i) = (text.drop i).dropWhile p := by
  have hsplit : ((text.drop i).takeWhile p ++ (text.drop i).dropWhile p).drop
      ((text.drop i).takeWhile p).length = (text.drop i).dropWhile p := List.drop_left
  rwa [List.takeWhile_append_dropWhile, List.drop_drop] at hsplit

theorem take_runEnd (i : ℕ) :
    (text.drop i).take (runEnd p text i - i) = (text.drop i).takeWhile p := by
  have hsplit : ((text.drop i).takeWhile p ++ (text.drop i).dropWhile p).take
      ((text.drop i).takeWhile p).length = (text.drop i).takeWhile p := List.take_left
  rwa [List.takeWhile_append_dropWhile, ← Nat.add_sub_cancel_left (n := i)
    (m := ((text.drop i).takeWhile p).length)] at hsplit

theorem not_at_runEnd {i : ℕ} (h : runEnd p text i < text.length) :
    p (text[runEnd p text i]) = false := by
  have hne : (text.drop i).dropWhile p ≠ [] := by
    rw [← drop_runEnd]
    simpa using h
  have hhead : (text.drop i).dropWhile p =
      text[runEnd p text i] :: text.drop (runEnd p text i + 1) := by
    rw [← drop_runEnd, List.drop_eq_getElem_cons h]
  have hstop := List.head_dropWhile_not p hne
  simpa [hhead] using hstop

theorem runEnd_of_not {i : ℕ} (h : i < text.length) (hp : p (text[i]) = false) :
    runEnd p text i = i := by
  rw [runEnd, List.drop_eq_getElem_cons h, List.takeWhile_cons_of_neg (by simp [hp]),
    List.length_nil, Nat.add_zero]

theorem runEnd_of_pos {i : ℕ} (h : i < text.length) (hp : p (text[i]) = true) :
    runEnd p text i = runEnd p text (i + 1) := by
  simp only [runEnd, List.drop_eq_getElem_cons h, List.takeWhile_cons_of_pos hp,
    List.length_cons]
  omega

theorem runEnd_runEnd (i : ℕ) : runEnd p text (runEnd p text i) = runEnd p text i := by
  by_cases h : runEnd p text i < text.length
  · exact runEnd_of_not p text h (not_at_runEnd p text h)
  · conv_lhs => rw [runEnd]
    rw [List.drop_of_length_le (not_lt.mp h)]
    rfl

theorem runEnd_take {i m : ℕ} (h : i ≤ m) :
    runEnd p (text.take m) i = min (runEnd p text i) m := by
  rw [runEnd, runEnd, List.drop_take, ← List.take_takeWhile, List.length_take]
  omega

theorem runEnd_length : runEnd p text text.length = text.length := by
  simp [runEnd]

end RunEnd

structure Token where
  start : ℕ
  length : ℕ
  deriving DecidableEq

def Token.text (t : Token) (text : List α) : List α := (text.drop t.start).take t.length

variable (blank : α → Bool) (text : List α)

def wordStart (i : ℕ) : ℕ := runEnd blank text i

def wordEnd (i : ℕ) : ℕ := runEnd (fun c => !blank c) text i

theorem wordStart_wordStart (i : ℕ) :
    wordStart blank text (wordStart blank text i) = wordStart blank text i :=
  runEnd_runEnd blank text i

theorem lt_wordEnd {i : ℕ} (h : wordStart blank text i < text.length) :
    wordStart blank text i < wordEnd blank text (wordStart blank text i) := by
  have hstop : (!blank (text[wordStart blank text i])) = true := by
    rw [Bool.not_eq_true']
    exact not_at_runEnd blank text h
  rw [wordEnd, runEnd_of_pos _ text h hstop]
  exact le_runEnd _ text _

def tokensFrom (i : ℕ) : List Token :=
  if _h : wordStart blank text i < text.length then
    ⟨wordStart blank text i,
        wordEnd blank text (wordStart blank text i) - wordStart blank text i⟩ ::
      tokensFrom (wordEnd blank text (wordStart blank text i))
  else []
termination_by text.length - i
decreasing_by
  have hword := lt_wordEnd blank text _h
  have hstart : i ≤ wordStart blank text i := le_runEnd blank text i
  omega

def tokens : List Token := tokensFrom blank text 0

variable {blank text}

theorem tokensFrom_of_end {i : ℕ} (h : ¬ wordStart blank text i < text.length) :
    tokensFrom blank text i = [] := by
  rw [tokensFrom, dif_neg h]

theorem tokensFrom_of_word {i : ℕ} (h : wordStart blank text i < text.length) :
    tokensFrom blank text i =
      ⟨wordStart blank text i,
          wordEnd blank text (wordStart blank text i) - wordStart blank text i⟩ ::
        tokensFrom blank text (wordEnd blank text (wordStart blank text i)) := by
  rw [tokensFrom, dif_pos h]

theorem tokensFrom_wordStart (i : ℕ) :
    tokensFrom blank text (wordStart blank text i) = tokensFrom blank text i := by
  have hagain := wordStart_wordStart blank text i
  by_cases h : wordStart blank text i < text.length
  · rw [tokensFrom_of_word (i := i) h, tokensFrom_of_word (by rwa [hagain]), hagain]
  · rw [tokensFrom_of_end (i := i) h, tokensFrom_of_end (by rwa [hagain])]

theorem length_tokensFrom_le (i : ℕ) : (tokensFrom blank text i).length ≤ text.length - i := by
  induction i using tokensFrom.induct blank text with
  | case1 i h ih =>
      have hword := lt_wordEnd blank text h
      have hstart : i ≤ wordStart blank text i := le_runEnd blank text i
      rw [tokensFrom_of_word h, List.length_cons]
      omega
  | case2 i h => simp [tokensFrom_of_end h]

theorem tokensFrom_behind (i : ℕ) :
    tokensFrom blank text (wordEnd blank text (wordStart blank text i) + 1) =
      tokensFrom blank text (wordEnd blank text (wordStart blank text i)) := by
  by_cases h : wordEnd blank text (wordStart blank text i) < text.length
  · have hblank : blank (text[wordEnd blank text (wordStart blank text i)]) = true := by
      rw [← Bool.not_eq_false']
      exact not_at_runEnd (fun c => !blank c) text h
    have hskip : wordStart blank text (wordEnd blank text (wordStart blank text i)) =
        wordStart blank text (wordEnd blank text (wordStart blank text i) + 1) :=
      runEnd_of_pos blank text h hblank
    rw [← tokensFrom_wordStart (i := wordEnd blank text (wordStart blank text i)), hskip,
      tokensFrom_wordStart]
  · have hfrom := le_runEnd blank text (wordEnd blank text (wordStart blank text i))
    have hfrom' := le_runEnd blank text (wordEnd blank text (wordStart blank text i) + 1)
    rw [tokensFrom_of_end (by rw [wordStart]; omega), tokensFrom_of_end (by rw [wordStart]; omega)]

def site (text : List α) (ts : List Token) : ℕ := ts.head?.elim text.length Token.start

def span (text : List α) (ts : List Token) : List α :=
  (text.drop (site text ts)).take
    (ts.getLast?.elim 0 (fun t => t.start + t.length) - site text ts)

/-! ## The texts of the words -/

theorem filter_splitOnP_blanks {blanks : List α} (h : ∀ c ∈ blanks, blank c = true)
    (rest : List α) :
    ((blanks ++ rest).splitOnP blank).filter (fun w => !w.isEmpty) =
      (rest.splitOnP blank).filter (fun w => !w.isEmpty) := by
  induction blanks with
  | nil => rfl
  | cons c blanks ih =>
      have hc : blank c = true := h c List.mem_cons_self
      have hempty : ∀ d ∈ ([] : List α), blank d = false := fun _ hd => absurd hd List.not_mem_nil
      have hsplit : ((c :: (blanks ++ rest)).splitOnP blank) =
          [] :: (blanks ++ rest).splitOnP blank :=
        List.splitOnP_append_cons_of_forall_mem hempty c hc _
      rw [List.cons_append, hsplit, List.filter_cons_of_neg (by simp)]
      exact ih fun d hd => h d (List.mem_cons_of_mem c hd)

theorem filter_splitOnP_word {word rest : List α} (hne : word ≠ [])
    (hword : ∀ c ∈ word, blank c = false) (hrest : ∀ c ∈ rest.head?, blank c = true) :
    ((word ++ rest).splitOnP blank).filter (fun w => !w.isEmpty) =
      word :: (rest.splitOnP blank).filter (fun w => !w.isEmpty) := by
  cases rest with
  | nil => simp [List.splitOnP_eq_singleton hword, List.splitOnP_nil, hne]
  | cons c rest =>
      have hc : blank c = true := hrest c rfl
      have hsingle : ∀ d ∈ [c], blank d = true := by simpa using hc
      have hblank := filter_splitOnP_blanks hsingle rest
      rw [List.splitOnP_append_cons_of_forall_mem hword c hc, List.filter_cons_of_pos (by simpa)]
      rw [List.singleton_append] at hblank
      rw [hblank]

theorem map_text_tokensFrom (i : ℕ) :
    (tokensFrom blank text i).map (fun t => t.text text) =
      ((text.drop i).splitOnP blank).filter (fun w => !w.isEmpty) := by
  induction i using tokensFrom.induct blank text with
  | case1 i h ih =>
      have hblanks : ∀ c ∈ (text.drop i).takeWhile blank, blank c = true :=
        fun c hc => List.mem_takeWhile_imp hc
      have hsplit : text.drop i =
          (text.drop i).takeWhile blank ++ text.drop (wordStart blank text i) := by
        rw [wordStart, drop_runEnd, List.takeWhile_append_dropWhile]
      have hword : text.drop (wordStart blank text i) =
          (text.drop (wordStart blank text i)).takeWhile (fun c => !blank c) ++
            text.drop (wordEnd blank text (wordStart blank text i)) := by
        rw [wordEnd, drop_runEnd, List.takeWhile_append_dropWhile]
      rw [tokensFrom_of_word h, List.map_cons, ih, hsplit, filter_splitOnP_blanks hblanks]
      conv_rhs => rw [hword]
      rw [filter_splitOnP_word]
      · rw [Token.text, wordEnd, take_runEnd]
      · intro hnil
        have hlt := lt_wordEnd blank text h
        simp [wordEnd, runEnd, hnil] at hlt
      · intro c hc
        simpa using List.mem_takeWhile_imp hc
      · intro c hc
        rcases Nat.lt_or_ge (wordEnd blank text (wordStart blank text i)) text.length with
          hlt | hge
        · rw [List.drop_eq_getElem_cons hlt, List.head?_cons, Option.mem_some_iff] at hc
          have hstop := not_at_runEnd (fun c => !blank c) text hlt
          rw [← hc, ← Bool.not_eq_false']
          exact hstop
        · simp [List.drop_of_length_le hge] at hc
  | case2 i h =>
      have hall : ∀ c ∈ text.drop i, blank c = true := by
        have hdrop : (text.drop i).dropWhile blank = [] := by
          rw [← drop_runEnd, List.drop_eq_nil_iff]
          exact not_lt.mp h
        simpa [List.dropWhile_eq_nil_iff] using hdrop
      have hblanks := filter_splitOnP_blanks hall []
      rw [List.append_nil] at hblanks
      rw [tokensFrom_of_end h, hblanks]
      rfl


/-! ## Words handed out to `n` takers -/

variable (blank text)

/-- What the taker `k` of `n` gets of the text from `start` on: a word, the last one the
rest behind the item that ended the word before it. -/
def wordValue (start n k : ℕ) : List α :=
  if k + 1 < n then (tokensFrom blank text start)[k]?.elim [] fun t => t.text text
  else if k = 0 then text.drop start
  else (tokensFrom blank text start)[k - 1]?.elim [] fun t => text.drop (t.start + t.length + 1)

def wordValues : ℕ → ℕ → List (List α)
  | _, 0 => []
  | i, 1 => [text.drop i]
  | i, n + 2 =>
      (text.drop (wordStart blank text i)).take
          (wordEnd blank text (wordStart blank text i) - wordStart blank text i) ::
        wordValues (wordEnd blank text (wordStart blank text i) + 1) (n + 1)

variable {blank text}

theorem wordValue_succ (i n k : ℕ) :
    wordValue blank text i (n + 2) (k + 1) =
      wordValue blank text (wordEnd blank text (wordStart blank text i) + 1) (n + 1) k := by
  have hend : wordStart blank text i ≤ wordEnd blank text (wordStart blank text i) :=
    le_runEnd _ text _
  by_cases h : wordStart blank text i < text.length
  · have hword := lt_wordEnd blank text h
    have hsum : wordStart blank text i +
        (wordEnd blank text (wordStart blank text i) - wordStart blank text i) + 1 =
          wordEnd blank text (wordStart blank text i) + 1 := by omega
    simp only [wordValue, tokensFrom_of_word h, tokensFrom_behind, List.getElem?_cons_succ,
      Nat.add_one_ne_zero, if_false, Nat.add_sub_cancel]
    by_cases hk : k + 1 < n + 1
    · rw [if_pos (by omega), if_pos hk]
    · rw [if_neg (by omega), if_neg hk]
      cases k with
      | zero => simp [hsum]
      | succ k => simp
  · have hdrop : text.drop (wordEnd blank text (wordStart blank text i) + 1) = [] :=
      List.drop_of_length_le (by omega)
    have hfrom := le_runEnd blank text (wordEnd blank text (wordStart blank text i))
    have hnone : tokensFrom blank text (wordEnd blank text (wordStart blank text i) + 1) = [] := by
      rw [tokensFrom_behind, tokensFrom_of_end (by rw [wordStart]; omega)]
    simp [wordValue, tokensFrom_of_end h, hnone, hdrop]

theorem wordValues_eq (i n : ℕ) :
    wordValues blank text i n = (List.range n).map (wordValue blank text i n) := by
  induction n using Nat.twoStepInduction generalizing i with
  | zero => rfl
  | one => simp [wordValues, wordValue]
  | more n _ ih =>
      have hfirst : wordValue blank text i (n + 2) 0 =
          (text.drop (wordStart blank text i)).take
            (wordEnd blank text (wordStart blank text i) - wordStart blank text i) := by
        rw [wordValue, if_pos (by omega)]
        by_cases h : wordStart blank text i < text.length
        · rw [tokensFrom_of_word h]
          rfl
        · rw [tokensFrom_of_end h, List.drop_of_length_le (not_lt.mp h), List.take_nil]
          rfl
      rw [wordValues, ih, List.range_succ_eq_map (n := n + 1), List.map_cons, List.map_map, hfirst]
      congr 1
      exact List.map_congr_left fun k _ => (wordValue_succ i n k).symm

theorem wordValues_of_length_le {i : ℕ} (h : text.length ≤ i) (n : ℕ) :
    wordValues blank text i n = List.replicate n [] := by
  induction n using Nat.twoStepInduction generalizing i with
  | zero => rfl
  | one => simp [wordValues, List.drop_of_length_le h]
  | more n _ ih =>
      have hstart : i ≤ wordStart blank text i := le_runEnd blank text i
      have hend : wordStart blank text i ≤ wordEnd blank text (wordStart blank text i) :=
        le_runEnd _ text _
      rw [wordValues, ih (by omega), List.drop_of_length_le (by omega), List.take_nil]
      rfl

end LeooRexx
