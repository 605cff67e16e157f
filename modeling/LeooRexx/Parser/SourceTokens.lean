import Mathlib.Data.List.GetD
import LeooRexx.Parser.SourceScan

/-!
# Where tokens are

Blanks, comments and continued lines are skipped; a comma or a minus sign that does not
continue the line leaves the position where it was.
-/

namespace LeooRexx

namespace RexxSource

namespace Source

variable {src : Source} {pos : ScanPosition} {blanks : Bool} {c : UInt8}
  {l m rest text : List (Option UInt8)}

def AtLineEnd (l : List (Option UInt8)) : Prop := ∀ c, l.head? ≠ some (some c)

theorem atLineEnd_of_end (h : src.current_length pos ≤ pos.line_offset) :
    AtLineEnd (src.remaining pos) := by
  intro c
  rcases Nat.lt_or_ge pos.line_number src.line_count with hline | hline
  · rw [remaining_nextLine h hline]
    simp
  · rw [remaining_end h hline]
    simp

theorem next_in_line {d : UInt8} :
    (src.remaining (pos.step 1)).head? = some (some d) ↔
      pos.line_offset + 1 < src.current_length pos ∧ src.GETCHAR (pos.step 1) = d := by
  rcases Nat.lt_or_ge (pos.line_offset + 1) (src.current_length pos) with hmore | hlast
  · rw [remaining_char (show (pos.step 1).line_offset < _ from hmore)]
    simp [hmore]
  · have hend := atLineEnd_of_end (show src.current_length (pos.step 1) ≤ _ from hlast)
    exact iff_of_false (hend d) fun h => Nat.not_lt.mpr hlast h.1

theorem startsComment_iff : src.startsComment pos = true ↔
    src.GETCHAR pos = slash ∧ (src.remaining (pos.step 1)).head? = some (some star) := by
  rw [startsComment, decide_eq_true_eq, next_in_line]

theorem startsLineComment_iff : src.startsLineComment pos = true ↔
    src.GETCHAR pos = minus ∧ (src.remaining (pos.step 1)).head? = some (some minus) := by
  rw [startsLineComment, decide_eq_true_eq, next_in_line]

theorem remaining_pair {d : UInt8} (hin : pos.line_offset < src.current_length pos)
    (h : (src.remaining (pos.step 1)).head? = some (some d)) :
    src.remaining pos = some (src.GETCHAR pos) :: some d :: src.remaining (pos.step 2) := by
  obtain ⟨hmore, hchar⟩ := next_in_line.mp h
  rw [remaining_char hin, remaining_char (show (pos.step 1).line_offset < _ from hmore), hchar,
    step_step]

theorem remaining_lineEnd (src : Source) (pos : ScanPosition) :
    ∃ t, (∀ c ∈ t, c ≠ none) ∧ src.remaining pos = t ++ src.remaining (src.lineEnd pos) := by
  refine ⟨src.chars pos.line_number pos.line_offset, fun c hc => ?_, ?_⟩
  · obtain ⟨i, -, rfl⟩ := List.mem_map.mp hc
    exact Option.some_ne_none _
  · have hend : src.chars (src.lineEnd pos).line_number (src.lineEnd pos).line_offset = [] :=
      chars_end (Nat.le_refl _)
    rw [remaining, remaining, hend, List.nil_append]
    rfl

theorem remaining_comment (hin : pos.line_offset < src.current_length pos)
    (h : src.startsComment pos = true) :
    src.remaining pos = some slash :: some star :: src.remaining (pos.step 2) := by
  obtain ⟨hchar, hhead⟩ := startsComment_iff.mp h
  rw [remaining_pair hin hhead, hchar]

theorem remaining_lineComment (hin : pos.line_offset < src.current_length pos)
    (h : src.startsLineComment pos = true) :
    ∃ t, (∀ c ∈ t, c ≠ none) ∧ src.remaining pos =
      some minus :: some minus :: (t ++ src.remaining (src.lineEnd pos)) := by
  obtain ⟨hchar, hhead⟩ := startsLineComment_iff.mp h
  obtain ⟨t, ht, hremaining⟩ := remaining_lineEnd src (pos.step 2)
  refine ⟨t, ht, ?_⟩
  rw [remaining_pair hin hhead, hchar, hremaining]
  rfl

def Unclosed (text : List (Option UInt8)) : Prop :=
  ∃ l, some slash :: some star :: l <:+ text ∧ ∀ rest, ¬ Closes 1 l rest

theorem Unclosed.mono (h : Unclosed m) (hsuffix : m <:+ text) : Unclosed text := by
  obtain ⟨l, hl, hopen⟩ := h
  exact ⟨l, hl.trans hsuffix, hopen⟩

/-! ## What follows a comma or a minus sign -/

inductive Trailing : List (Option UInt8) → List (Option UInt8) → Prop
  | lineEnd {l : List (Option UInt8)} (h : AtLineEnd l) : Trailing l l
  | blank {c : UInt8} {l rest : List (Option UInt8)} (hc : isBlank c = true)
      (h : Trailing l rest) : Trailing (some c :: l) rest
  | comment {l m rest : List (Option UInt8)} (hclose : Closes 1 l m) (h : Trailing m rest) :
      Trailing (some slash :: some star :: l) rest
  | lineComment {t rest : List (Option UInt8)} (ht : ∀ c ∈ t, c ≠ none) (h : AtLineEnd rest) :
      Trailing (some minus :: some minus :: (t ++ rest)) rest

theorem trailing_char_iff : Trailing (some c :: l) rest ↔
    isBlank c = true ∧ Trailing l rest ∨
      (c = slash ∧ ∃ l' m, l = some star :: l' ∧ Closes 1 l' m ∧ Trailing m rest) ∨
      c = minus ∧ ∃ t, l = some minus :: (t ++ rest) ∧ (∀ c ∈ t, c ≠ none) ∧ AtLineEnd rest := by
  constructor
  · intro h
    generalize htext : some c :: l = text at h
    cases h with
    | lineEnd h =>
        subst htext
        exact absurd rfl (h c)
    | blank hc h =>
        obtain ⟨rfl, rfl⟩ := by simpa using htext
        exact .inl ⟨hc, h⟩
    | comment hclose h =>
        rw [List.cons.injEq, Option.some.injEq] at htext
        exact .inr (.inl ⟨htext.1, _, _, htext.2, hclose, h⟩)
    | lineComment ht h =>
        rw [List.cons.injEq, Option.some.injEq] at htext
        exact .inr (.inr ⟨htext.1, _, htext.2, ht, h⟩)
  · rintro (⟨hc, h⟩ | ⟨rfl, l', m, rfl, hclose, h⟩ | ⟨rfl, t, rfl, ht, h⟩)
    · exact .blank hc h
    · exact .comment hclose h
    · exact .lineComment ht h

theorem trailing_blank_iff (hc : isBlank c = true) :
    Trailing (some c :: l) rest ↔ Trailing l rest := by
  rw [trailing_char_iff]
  refine ⟨?_, fun h => .inl ⟨hc, h⟩⟩
  rintro (⟨-, h⟩ | ⟨rfl, -⟩ | ⟨rfl, -⟩)
  · exact h
  · exact absurd hc (by decide)
  · exact absurd hc (by decide)

theorem trailing_comment_iff (hclose : Closes 1 l m) :
    Trailing (some slash :: some star :: l) rest ↔ Trailing m rest := by
  refine ⟨fun h => ?_, .comment hclose⟩
  rcases trailing_char_iff.mp h with ⟨hc, -⟩ | ⟨-, l', m', hl, hclose', h⟩ | ⟨hc, -⟩
  · exact absurd hc (by decide)
  · rw [List.cons.injEq] at hl
    obtain rfl := hl.2
    obtain rfl := hclose.unique hclose'
    exact h
  · exact absurd hc (by decide)

theorem Trailing.suffix (h : Trailing text rest) : rest <:+ text := by
  induction h with
  | lineEnd => exact List.suffix_rfl
  | blank _ _ ih => exact ih.trans ⟨[_], rfl⟩
  | comment hclose _ ih => exact (ih.trans hclose.suffix).trans ⟨[_, _], rfl⟩
  | @lineComment t rest _ _ => exact ⟨some minus :: some minus :: t, rfl⟩

def TrailingEnd (src : Source) (text : List (Option UInt8)) : ScanResult ScanPosition → Prop
  | .done pos =>
      src.current_length pos ≤ pos.line_offset ∧ Trailing text (src.remaining pos) ∨
        pos.line_offset < src.current_length pos ∧ ∀ rest, ¬ Trailing text rest
  | .raised _ => Unclosed text
  | .unfinished => False

theorem TrailingEnd.congr {result : ScanResult ScanPosition} (hsuffix : m <:+ text)
    (hiff : ∀ rest, Trailing text rest ↔ Trailing m rest) (h : TrailingEnd src m result) :
    TrailingEnd src text result := by
  cases result with
  | done pos =>
      exact h.imp (And.imp_right (hiff _).mpr)
        (And.imp_right fun hno rest hrest => hno rest ((hiff rest).mp hrest))
  | raised => exact Unclosed.mono h hsuffix
  | unfinished => exact h

theorem skipTrailing_end (h : Fenced src) {rounds : ℕ}
    (hrounds : (src.remaining pos).length < rounds) :
    TrailingEnd src (src.remaining pos) (src.skipTrailing rounds pos) := by
  induction rounds generalizing pos with
  | zero => omega
  | succ rounds ih =>
      rw [skipTrailing]
      split
      next hend => exact .inl ⟨hend, .lineEnd (atLineEnd_of_end hend)⟩
      next hin =>
        have hin' := Nat.not_le.mp hin
        have hrest := remaining_char hin'
        split
        next hcomment =>
          have hpair := remaining_comment hin' hcomment
          rw [hpair, List.length_cons, List.length_cons] at hrounds
          rw [hpair]
          have hcommentEnd := comment_end h pos
          cases hresult : src.comment pos with
          | done pos' =>
              rw [hresult] at hcommentEnd
              have hclose : Closes 1 _ (src.remaining pos') := hcommentEnd
              have hlength := hclose.suffix.length_le
              exact (ih (by omega)).congr (hclose.suffix.trans ⟨[_, _], rfl⟩) fun rest =>
                trailing_comment_iff hclose
          | raised startline =>
              rw [hresult] at hcommentEnd
              exact ⟨_, List.suffix_rfl, hcommentEnd⟩
          | unfinished =>
              rw [hresult] at hcommentEnd
              exact hcommentEnd.elim
        next hcomment =>
          split
          next hline =>
            obtain ⟨t, ht, hremaining⟩ := remaining_lineComment hin' hline
            rw [hremaining]
            have hend : src.current_length (src.lineEnd pos) ≤ (src.lineEnd pos).line_offset :=
              Nat.le_refl _
            exact .inl ⟨hend, .lineComment ht (atLineEnd_of_end hend)⟩
          next hline =>
            rw [hrest, List.length_cons] at hrounds
            rw [hrest]
            split
            next hblank =>
              exact (ih (by omega)).congr ⟨[_], rfl⟩ fun rest => trailing_blank_iff hblank
            next hblank =>
              refine .inr ⟨hin', fun rest htrailing => ?_⟩
              rcases trailing_char_iff.mp htrailing with
                ⟨hc, -⟩ | ⟨hc, l', m, hl, -⟩ | ⟨hc, t, hl, -⟩
              · exact hblank hc
              · exact hcomment (startsComment_iff.mpr ⟨hc, by rw [hl]; rfl⟩)
              · exact hline (startsLineComment_iff.mpr ⟨hc, by rw [hl]; rfl⟩)

/-! ## Locating a token -/

def Continuer (c : UInt8) (l : List (Option UInt8)) : Prop :=
  (c = comma ∨ c = minus) ∧ ¬ (c = minus ∧ l.head? = some (some minus))

inductive Skips (blanks : Bool) : List (Option UInt8) → List (Option UInt8) → Prop
  | refl (l : List (Option UInt8)) : Skips blanks l l
  | blank {c : UInt8} {l rest : List (Option UInt8)} (hblanks : blanks = false)
      (hc : isBlank c = true) (h : Skips blanks l rest) : Skips blanks (some c :: l) rest
  | comment {l m rest : List (Option UInt8)} (hclose : Closes 1 l m) (h : Skips blanks m rest) :
      Skips blanks (some slash :: some star :: l) rest
  | continuation {c : UInt8} {l m rest : List (Option UInt8)} (hblanks : blanks = false)
      (hc : Continuer c l) (htrailing : Trailing l (none :: m)) (h : Skips blanks m rest) :
      Skips blanks (some c :: l) rest

inductive Located (blanks : Bool) :
    List (Option UInt8) → TokenClass → List (Option UInt8) → Prop
  | eol {l : List (Option UInt8)} (h : AtLineEnd l) : Located blanks l .eol l
  | lineComment {t rest : List (Option UInt8)} (ht : ∀ c ∈ t, c ≠ none) (h : AtLineEnd rest) :
      Located blanks (some minus :: some minus :: (t ++ rest)) .eol rest
  | blank {c : UInt8} {l : List (Option UInt8)} (hblanks : blanks = true)
      (hc : isBlank c = true) : Located blanks (some c :: l) .blank (some c :: l)
  | continuedBlank {c : UInt8} {l m : List (Option UInt8)} (hblanks : blanks = true)
      (hc : Continuer c l) (htrailing : Trailing l (none :: m)) (hm : ¬ AtLineEnd m) :
      Located blanks (some c :: l) .blank m
  | continuedEnd {c : UInt8} {l m : List (Option UInt8)} (hblanks : blanks = true)
      (hc : Continuer c l) (htrailing : Trailing l (none :: m)) (hm : AtLineEnd m) :
      Located blanks (some c :: l) .eol m
  | lastLine {c : UInt8} {l : List (Option UInt8)} (hc : Continuer c l)
      (htrailing : Trailing l []) : Located blanks (some c :: l) .eol []
  | character {c : UInt8} {l : List (Option UInt8)} (hblank : isBlank c = false)
      (hcomment : ¬ (c = slash ∧ l.head? = some (some star)))
      (hline : ¬ (c = minus ∧ l.head? = some (some minus)))
      (htrailing : c = comma ∨ c = minus → ∀ rest, ¬ Trailing l rest) :
      Located blanks (some c :: l) (.character c) (some c :: l)

def LocateEnd (src : Source) (blanks : Bool) (text : List (Option UInt8)) :
    ScanResult (TokenClass × ScanPosition) → Prop
  | .done (token, pos) =>
      ∃ mid, Skips blanks text mid ∧ Located blanks mid token (src.remaining pos)
  | .raised _ => Unclosed text
  | .unfinished => False

theorem LocateEnd.skip {result : ScanResult (TokenClass × ScanPosition)} (hsuffix : m <:+ text)
    (hskip : ∀ mid, Skips blanks m mid → Skips blanks text mid)
    (h : LocateEnd src blanks m result) : LocateEnd src blanks text result := by
  cases result with
  | done found =>
      obtain ⟨mid, hmid, hlocated⟩ := h
      exact ⟨mid, hskip mid hmid, hlocated⟩
  | raised => exact Unclosed.mono h hsuffix
  | unfinished => exact h

theorem locateLoop_end (h : Fenced src) {rounds : ℕ}
    (hrounds : (src.remaining pos).length < rounds) :
    LocateEnd src blanks (src.remaining pos) (src.locateLoop blanks rounds pos) := by
  induction rounds generalizing pos with
  | zero => omega
  | succ rounds ih =>
      rw [locateLoop]
      split
      next hend => exact ⟨_, .refl _, .eol (atLineEnd_of_end hend)⟩
      next hin =>
      have hin' := Nat.not_le.mp hin
      have hrest := remaining_char hin'
      rw [hrest, List.length_cons] at hrounds
      split
      next hblank =>
        rw [hrest]
        split
        next hblanks => exact ⟨_, .refl _, hrest ▸ .blank hblanks hblank⟩
        next hblanks =>
          exact (ih (by omega)).skip ⟨[_], rfl⟩ fun mid hmid =>
            .blank (Bool.eq_false_iff.mpr hblanks) hblank hmid
      next hblank =>
      split
      next hsign =>
        split
        next hline =>
          obtain ⟨t, ht, hremaining⟩ := remaining_lineComment hin' hline
          rw [hremaining]
          exact ⟨_, .refl _, .lineComment ht (atLineEnd_of_end (Nat.le_refl _))⟩
        next hline =>
          have hcontinuer : Continuer (src.GETCHAR pos) (src.remaining (pos.step 1)) :=
            ⟨hsign, fun hminus => hline (startsLineComment_iff.mpr hminus)⟩
          have htrailingEnd : TrailingEnd src (src.remaining (pos.step 1))
              (src.skipTrailing (src.rounds (pos.step 1)) (pos.step 1)) :=
            skipTrailing_end h (Nat.lt_succ_self _)
          rw [hrest]
          cases hresult : src.skipTrailing (src.rounds (pos.step 1)) (pos.step 1) with
          | raised startline =>
              rw [hresult] at htrailingEnd
              exact Unclosed.mono htrailingEnd ⟨[_], rfl⟩
          | unfinished =>
              rw [hresult] at htrailingEnd
              exact htrailingEnd.elim
          | done trailing =>
              rw [hresult] at htrailingEnd
              simp only
              rcases htrailingEnd with ⟨hend, htrailing⟩ | ⟨hmore, hnone⟩
              · rw [if_pos hend]
                have hlength := htrailing.suffix.length_le
                split
                next hnextLine =>
                  have hnext := remaining_nextLine hend hnextLine
                  rw [hnext] at htrailing hlength
                  rw [List.length_cons] at hlength
                  split
                  next hblanks =>
                    refine ⟨_, .refl _, ?_⟩
                    split
                    next hzero =>
                      exact .continuedEnd hblanks hcontinuer htrailing
                        (atLineEnd_of_end (Nat.le_of_eq hzero))
                    next hpositive =>
                      refine .continuedBlank hblanks hcontinuer htrailing fun hat => ?_
                      have hstart := remaining_char (show trailing.nextLine.line_offset < _ from
                        Nat.pos_of_ne_zero hpositive)
                      exact hat _ (by rw [hstart]; rfl)
                  next hblanks =>
                    refine (ih (by omega)).skip ?_ fun mid hmid =>
                      .continuation (Bool.eq_false_iff.mpr hblanks) hcontinuer htrailing hmid
                    exact (List.suffix_cons _ _).trans
                      (htrailing.suffix.trans (List.suffix_cons _ _))
                next hlast =>
                  have hnil := remaining_end hend (Nat.not_lt.mp hlast)
                  obtain ⟨more, rfl⟩ : ∃ more, rounds = more + 1 := ⟨rounds - 1, by omega⟩
                  rw [locateLoop, if_pos hend]
                  refine ⟨_, .refl _, ?_⟩
                  rw [hnil] at htrailing ⊢
                  exact .lastLine hcontinuer htrailing
              · rw [if_neg (Nat.not_le.mpr hmore)]
                refine ⟨_, .refl _, ?_⟩
                rw [hrest]
                refine .character (Bool.eq_false_iff.mpr hblank) ?_ hcontinuer.2 fun _ => hnone
                rintro ⟨hslash, -⟩
                rw [hslash] at hsign
                exact absurd hsign (by decide)
      next hsign =>
        split
        next hcomment =>
          have hpair := remaining_comment hin' hcomment
          rw [hrest, List.cons.injEq] at hpair
          rw [hpair.2, List.length_cons] at hrounds
          rw [hrest, hpair.1, hpair.2]
          have hcommentEnd := comment_end h pos
          cases hresult : src.comment pos with
          | done pos' =>
              rw [hresult] at hcommentEnd
              have hclose : Closes 1 _ (src.remaining pos') := hcommentEnd
              have hlength := hclose.suffix.length_le
              exact (ih (by omega)).skip (hclose.suffix.trans ⟨[_, _], rfl⟩) fun mid hmid =>
                .comment hclose hmid
          | raised startline =>
              rw [hresult] at hcommentEnd
              exact ⟨_, List.suffix_rfl, hcommentEnd⟩
          | unfinished =>
              rw [hresult] at hcommentEnd
              exact hcommentEnd.elim
        next hcomment =>
          rw [not_or] at hsign
          refine ⟨_, .refl _, ?_⟩
          rw [hrest]
          exact .character (Bool.eq_false_iff.mpr hblank)
            (fun hboth => hcomment (startsComment_iff.mpr hboth)) (fun hboth => hsign.2 hboth.1)
            fun hboth => absurd hboth (not_or.mpr hsign)

theorem locateToken_end (h : Fenced src) (previous : Option PreviousToken)
    (hline : pos.line_number ≤ src.line_count) :
    LocateEnd src (significant previous) (src.remaining pos) (src.locateToken previous pos) := by
  rw [locateToken, if_neg (Nat.not_lt.mpr hline)]
  split
  next hend => exact ⟨_, .refl _, .eol (atLineEnd_of_end hend)⟩
  next => exact locateLoop_end h (Nat.lt_succ_self _)

/-! ## From the buffer to the tokens -/

theorem lines_fenced {memory : Memory} {stop current : ℕ} {lines : List (ℕ × ℕ)}
    (h : Lines memory stop current lines) (hbehind : memory stop ≠ star ∧ memory stop ≠ slash) :
    ∀ d ∈ lines, memory (d.1 + d.2) ≠ star ∧ memory (d.1 + d.2) ≠ slash := by
  induction h with
  | nil => simp
  | last hlt _ =>
      refine List.forall_mem_singleton.mpr ?_
      rwa [Nat.add_sub_cancel' (Nat.le_of_lt hlt)]
  | line hle _ _ hend _ ih =>
      refine List.forall_mem_cons.mpr ⟨?_, ih⟩
      rw [Nat.add_sub_cancel' hle]
      rcases hend with hend | hend
      · rw [hend]
        decide
      · rw [hend]
        decide

theorem fenced_of_lines {memory : Memory} {lines : List (ℕ × ℕ)}
    (h : ∀ d ∈ lines, memory (d.1 + d.2) ≠ star ∧ memory (d.1 + d.2) ≠ slash) :
    Fenced ⟨memory, (0, 0) :: lines⟩ := by
  intro line hpositive
  rcases Nat.eq_zero_or_pos line with rfl | hline
  · exact absurd hpositive (Nat.lt_irrefl 0)
  · obtain ⟨n, rfl⟩ := Nat.exists_eq_add_of_le' hline
    have hdescriptor : descriptor ⟨memory, (0, 0) :: lines⟩ (n + 1) = lines.getD n (0, 0) := rfl
    rcases Nat.lt_or_ge n lines.length with hlt | hge
    · rw [hdescriptor, List.getD_eq_getElem _ _ hlt]
      exact h _ (List.getElem_mem hlt)
    · rw [hdescriptor, List.getD_eq_default _ _ hge] at hpositive
      exact absurd hpositive (Nat.lt_irrefl 0)

def commaProgram : Memory := fun n => if n = 0 then comma else 0

end Source

end RexxSource

end LeooRexx
