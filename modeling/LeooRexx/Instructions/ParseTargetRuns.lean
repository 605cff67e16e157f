import LeooRexx.Instructions.ParseTarget
import Mathlib.Data.List.Forall2

/-!
# The cursors of a parse

Each trigger sets all four cursors within the string, in their order, and each fetch
stays between `start` and `end`; so in any template every piece lies inside the
string.  Skipping a word leaves the cursors where fetching it does.
-/

namespace LeooRexx.RexxTarget

/-! ## The invariants -/

/-- The cursors that triggers start from; `end` may still be anything. -/
structure Positioned (t : RexxTarget) : Prop where
  length_eq : t.stringLength = t.string.length
  pattern_le : t.patternStart ≤ t.patternEnd
  pattern_le_length : t.patternEnd ≤ t.stringLength

structure Bounded (t : RexxTarget) : Prop extends t.Positioned where
  start_le : t.start ≤ t.endAt
  end_le : t.endAt ≤ t.stringLength
  start_le_subcurrent : t.start ≤ t.subcurrent

theorem next_positioned (t : RexxTarget) : t.next.Positioned :=
  ⟨rfl, Nat.le_refl 0, Nat.zero_le _⟩

section Triggers

variable {t : RexxTarget} (h : t.Positioned)
include h

theorem bounded_of {t' : RexxTarget} (hstring : t'.string = t.string)
    (hlength : t'.stringLength = t.stringLength) (hsub : t'.subcurrent = t'.start)
    (hcursors : t'.start ≤ t'.endAt ∧ t'.endAt ≤ t.stringLength ∧
      t'.patternStart ≤ t'.patternEnd ∧ t'.patternEnd ≤ t.stringLength) : t'.Bounded := by
  obtain ⟨hstart, hend, hpattern, hpattern'⟩ := hcursors
  refine ⟨⟨?_, hpattern, ?_⟩, hstart, ?_, ?_⟩
  · rw [hlength, hstring, h.length_eq]
  · rwa [hlength]
  · rwa [hlength]
  · rw [hsub]

theorem moveToEnd_bounded : t.moveToEnd.Bounded :=
  bounded_of h rfl rfl rfl
    ⟨h.pattern_le_length, Nat.le_refl _, Nat.le_refl _, Nat.le_refl _⟩

theorem forward_bounded (offset : Nat) : (t.forward offset).Bounded := by
  obtain ⟨hlen, hpattern, hend⟩ := id h
  apply bounded_of h
  · simp only [forward]
    split <;> split <;> rfl
  · simp only [forward]
    split <;> split <;> rfl
  · rfl
  · simp only [forward]
    split <;> split <;> simp only at * <;> omega

theorem forwardLength_bounded (offset : Nat) : (t.forwardLength offset).Bounded := by
  obtain ⟨hlen, hpattern, hend⟩ := id h
  apply bounded_of h
  · simp only [forwardLength]
    split <;> rfl
  · simp only [forwardLength]
    split <;> rfl
  · rfl
  · simp only [forwardLength]
    split <;> simp only at * <;> omega

theorem absolute_bounded (offset : Nat) : (t.absolute offset).Bounded := by
  obtain ⟨hlen, hpattern, hend⟩ := id h
  obtain ⟨position, hposition⟩ : ∃ position,
    position = if offset > 0 then offset - 1 else offset := ⟨_, rfl⟩
  simp only [absolute, ← hposition]
  apply bounded_of h
  · split
    · rfl
    · simp only
      split <;> rfl
  · split
    · rfl
    · simp only
      split <;> rfl
  · rfl
  · split
    · simp only at *
      omega
    · simp only
      split <;> simp only at * <;> omega

theorem backward_bounded (offset : Nat) : (t.backward offset).Bounded := by
  obtain ⟨hlen, hpattern, hend⟩ := id h
  apply bounded_of h
  · simp only [backward]
    split <;> rfl
  · simp only [backward]
    split <;> rfl
  · rfl
  · simp only [backward]
    split <;> simp only at * <;> omega

theorem backwardLength_bounded (offset : Nat) : (t.backwardLength offset).Bounded := by
  obtain ⟨hlen, hpattern, hend⟩ := id h
  apply bounded_of h
  · simp only [backwardLength]
    split <;> rfl
  · simp only [backwardLength]
    split <;> rfl
  · rfl
  · simp only [backwardLength]
    split <;> simp only at * <;> omega

/-! ### Searches -/

omit h

theorem posLoop_spec (hit : List UInt8 → Bool) (haypointer : List UInt8) (location count : Nat) :
    posLoop hit haypointer location count = 0 ∨
      location ≤ posLoop hit haypointer location count ∧
        posLoop hit haypointer location count < location + count := by
  induction count generalizing haypointer location with
  | zero => exact .inl rfl
  | succ count ih =>
      rw [posLoop]
      split
      · omega
      · have hrest := ih (haypointer.drop 1) (location + 1)
        omega

theorem posBy_spec (compare : List UInt8 → List UInt8 → Bool) (haystack needle : List UInt8)
    (start : Nat) :
    posBy compare haystack needle start = 0 ∨
      start + 1 ≤ posBy compare haystack needle start ∧
        posBy compare haystack needle start - 1 + needle.length ≤ haystack.length := by
  simp only [posBy]
  split
  · exact .inl rfl
  · have hloop := posLoop_spec
      (fun haypointer => compare (haypointer.take needle.length) needle)
      (haystack.drop start) (start + 1) (haystack.length - start - needle.length + 1)
    omega

include h

theorem searchBy_bounded (compare : List UInt8 → List UInt8 → Bool) (string : List UInt8) :
    (t.searchBy (posBy compare) string).Bounded := by
  obtain ⟨hlen, hpattern, hend⟩ := id h
  have hpos := posBy_spec compare t.string string t.patternEnd
  apply bounded_of h
  · simp only [searchBy]
    split <;> rfl
  · simp only [searchBy]
    split <;> rfl
  · rfl
  · simp only [searchBy]
    split <;> simp only at * <;> omega

theorem trigger_bounded (trigger : Trigger) : (t.trigger trigger).Bounded := by
  cases trigger with
  | moveToEnd => exact moveToEnd_bounded h
  | forward offset => exact forward_bounded h offset
  | forwardLength offset => exact forwardLength_bounded h offset
  | absolute offset => exact absolute_bounded h offset
  | backward offset => exact backward_bounded h offset
  | backwardLength offset => exact backwardLength_bounded h offset
  | search string => exact searchBy_bounded h _ string
  | caselessSearch string => exact searchBy_bounded h _ string

end Triggers

/-! ## Fetches -/

structure Advanced (t t' : RexxTarget) : Prop where
  string : t'.string = t.string
  stringLength : t'.stringLength = t.stringLength
  start : t'.start = t.start
  endAt : t'.endAt = t.endAt
  patternStart : t'.patternStart = t.patternStart
  patternEnd : t'.patternEnd = t.patternEnd
  subcurrent : min t.subcurrent t.endAt ≤ t'.subcurrent

theorem Advanced.bounded {t t' : RexxTarget} (h : Advanced t t') (hbounded : t.Bounded) :
    t'.Bounded := by
  obtain ⟨⟨hlen, hpattern, hpattern'⟩, hstart, hend, hsub⟩ := hbounded
  obtain ⟨gstring, glength, gstart, gend, gpattern, gpattern', gsub⟩ := h
  refine ⟨⟨?_, ?_, ?_⟩, ?_, ?_, ?_⟩
  · rw [glength, gstring, hlen]
  · rwa [gpattern, gpattern']
  · rwa [gpattern', glength]
  · rwa [gstart, gend]
  · rwa [gend, glength]
  · rw [gstart]
    exact Nat.le_trans (Nat.le_min.mpr ⟨hsub, hstart⟩) gsub

theorem findBlank_le {scanner : List UInt8} {count length : Nat}
    (h : findBlank scanner count = some length) : length < count := by
  induction scanner generalizing count length with
  | nil => simp [findBlank] at h
  | cons c scanner ih =>
      cases count with
      | zero => simp [findBlank] at h
      | succ count =>
          simp only [findBlank] at h
          split at h
          · cases h
            omega
          · obtain ⟨rest, hrest, rfl⟩ := Option.map_eq_some_iff.mp h
            have hlt := ih hrest
            omega

def Piece.Within (p : Piece) (t : RexxTarget) : Prop :=
  ∀ offset length, p = .part offset length → t.subcurrent ≤ offset ∧ offset + length ≤ t.endAt

theorem skipWord_eq_getWord (t : RexxTarget) : t.skipWord = t.getWord.2 := by
  simp only [skipWord, getWord]
  by_cases hsub : t.subcurrent < t.endAt
  · have hge : ¬ t.subcurrent ≥ t.endAt := by omega
    simp only [hsub, hge, if_true, if_false]
    by_cases hscan : t.subcurrent + skipBlanks (t.string.drop t.subcurrent) < t.endAt
    · have hge' : ¬ t.subcurrent + skipBlanks (t.string.drop t.subcurrent) ≥ t.endAt := by omega
      simp only [hscan, hge', if_true, if_false]
      split <;> rfl
    · have hge' : t.subcurrent + skipBlanks (t.string.drop t.subcurrent) ≥ t.endAt := by omega
      simp only [hscan, hge', if_true, if_false]
  · have hge : t.subcurrent ≥ t.endAt := by omega
    simp only [hsub, hge, if_true, if_false]

theorem Advanced.of_subcurrent (t : RexxTarget) {subcurrent : Nat}
    (h : min t.subcurrent t.endAt ≤ subcurrent) :
    Advanced t { t with subcurrent := subcurrent } :=
  ⟨rfl, rfl, rfl, rfl, rfl, rfl, h⟩

theorem Piece.null_within (t : RexxTarget) : Piece.null.Within t := by
  intro offset length h
  contradiction

theorem Piece.part_within {t : RexxTarget} {offset length : Nat} (hlow : t.subcurrent ≤ offset)
    (hhigh : offset + length ≤ t.endAt) : (Piece.part offset length).Within t := by
  intro offset' length' h
  cases h
  exact ⟨hlow, hhigh⟩

theorem getWord_spec (t : RexxTarget) : t.getWord.1.Within t ∧ Advanced t t.getWord.2 := by
  simp only [getWord]
  split
  · exact ⟨Piece.null_within t, Advanced.of_subcurrent t (Nat.min_le_left _ _)⟩
  · rename_i hsub
    split
    · exact ⟨Piece.null_within t, Advanced.of_subcurrent t (by omega)⟩
    · rename_i hscan
      split
      · exact ⟨Piece.part_within (by omega) (by omega), Advanced.of_subcurrent t (by omega)⟩
      · rename_i length hblank
        have hlt := findBlank_le hblank
        exact ⟨Piece.part_within (by omega) (by omega), Advanced.of_subcurrent t (by omega)⟩

theorem remainder_spec (t : RexxTarget) : t.remainder.1.Within t ∧ Advanced t t.remainder.2 := by
  simp only [remainder]
  split
  · exact ⟨Piece.null_within t, Advanced.of_subcurrent t (Nat.min_le_left _ _)⟩
  · exact ⟨Piece.part_within (Nat.le_refl _) (by omega), Advanced.of_subcurrent t (by omega)⟩

theorem fetch_spec (t : RexxTarget) (fetch : Fetch) :
    (∀ p, (t.fetch fetch).1 = some p → p.Within t) ∧ Advanced t (t.fetch fetch).2 := by
  cases fetch with
  | getWord =>
      have hspec := getWord_spec t
      exact ⟨fun p hp => Option.some.inj hp ▸ hspec.1, hspec.2⟩
  | skipWord =>
      have hspec := getWord_spec t
      rw [← skipWord_eq_getWord] at hspec
      exact ⟨fun p hp => absurd hp (Option.some_ne_none p).symm, hspec.2⟩
  | remainder =>
      have hspec := remainder_spec t
      exact ⟨fun p hp => Option.some.inj hp ▸ hspec.1, hspec.2⟩
  | skipRemainder =>
      exact ⟨fun p hp => absurd hp (Option.some_ne_none p).symm,
        Advanced.of_subcurrent t (Nat.min_le_right _ _)⟩

/-! ## Templates -/

/-- The entries of a template: a trigger with its fetches, or the comma that steps to
the next string. -/
inductive Step where
  | next
  | parse (trigger : Trigger) (fetches : List Fetch)

structure Extraction where
  target : RexxTarget
  fetch : Fetch
  piece : Option Piece

def fetchAll (t : RexxTarget) : List Fetch → List Extraction × RexxTarget
  | [] => ([], t)
  | fetch :: fetches =>
      let (piece, t') := t.fetch fetch
      let (extractions, t'') := t'.fetchAll fetches
      (⟨t, fetch, piece⟩ :: extractions, t'')

def step (t : RexxTarget) : Step → List Extraction × RexxTarget
  | .next => ([], t.next)
  | .parse trigger fetches => (t.trigger trigger).fetchAll fetches

/-- The loop of the `PARSE` instruction over its template. -/
def run (t : RexxTarget) : List Step → List Extraction × RexxTarget
  | [] => ([], t)
  | s :: template =>
      let (extractions, t') := t.step s
      let (extractions', t'') := t'.run template
      (extractions ++ extractions', t'')

structure Extraction.Sound (e : Extraction) : Prop where
  start_le : e.target.start ≤ e.target.endAt
  end_le : e.target.endAt ≤ e.target.string.length
  pattern_le : e.target.patternStart ≤ e.target.patternEnd
  pattern_le_length : e.target.patternEnd ≤ e.target.string.length
  piece_in : ∀ offset length, e.piece = some (.part offset length) →
    e.target.start ≤ offset ∧ offset + length ≤ e.target.endAt

theorem fetchAll_sound {t : RexxTarget} (h : t.Bounded) (fetches : List Fetch) :
    (∀ e ∈ (t.fetchAll fetches).1, e.Sound) ∧ (t.fetchAll fetches).2.Bounded := by
  induction fetches generalizing t with
  | nil => exact ⟨fun e he => absurd he List.not_mem_nil, h⟩
  | cons fetch fetches ih =>
      obtain ⟨hwithin, hadvanced⟩ := fetch_spec t fetch
      obtain ⟨hsound, hbounded⟩ := ih (hadvanced.bounded h)
      refine ⟨?_, hbounded⟩
      intro e he
      cases List.mem_cons.mp he with
      | inl hhead =>
          rw [hhead]
          refine ⟨h.start_le, h.length_eq ▸ h.end_le, h.pattern_le,
            h.length_eq ▸ h.pattern_le_length, ?_⟩
          intro offset length hpiece
          obtain ⟨hlow, hhigh⟩ := hwithin _ hpiece offset length rfl
          exact ⟨Nat.le_trans h.start_le_subcurrent hlow, hhigh⟩
      | inr htail => exact hsound e htail

theorem step_sound {t : RexxTarget} (h : t.Positioned) (s : Step) :
    (∀ e ∈ (t.step s).1, e.Sound) ∧ (t.step s).2.Positioned := by
  cases s with
  | next => exact ⟨fun e he => absurd he List.not_mem_nil, next_positioned t⟩
  | parse trigger fetches =>
      obtain ⟨hsound, hbounded⟩ := fetchAll_sound (trigger_bounded h trigger) fetches
      exact ⟨hsound, hbounded.toPositioned⟩

theorem run_sound {t : RexxTarget} (h : t.Positioned) (template : List Step) :
    ∀ e ∈ (t.run template).1, e.Sound := by
  induction template generalizing t with
  | nil => exact fun e he => absurd he List.not_mem_nil
  | cons s template ih =>
      obtain ⟨hsound, hpositioned⟩ := step_sound h s
      intro e he
      cases List.mem_append.mp he with
      | inl hhere => exact hsound e hhere
      | inr hlater => exact ih hpositioned e hlater

/-! ## Skipping words -/

def Fetch.Skips (f f' : Fetch) : Prop := f' = f ∨ f = .getWord ∧ f' = .skipWord

def Step.Skips : Step → Step → Prop
  | .next, .next => True
  | .parse trigger fetches, .parse trigger' fetches' =>
      trigger' = trigger ∧ List.Forall₂ Fetch.Skips fetches fetches'
  | _, _ => False

def Extraction.Skips (e e' : Extraction) : Prop :=
  e' = e ∨ e'.target = e.target ∧ e.fetch = .getWord ∧ e'.fetch = .skipWord

theorem fetchAll_skips (t : RexxTarget) {fetches fetches' : List Fetch}
    (h : List.Forall₂ Fetch.Skips fetches fetches') :
    List.Forall₂ Extraction.Skips (t.fetchAll fetches).1 (t.fetchAll fetches').1 ∧
      (t.fetchAll fetches').2 = (t.fetchAll fetches).2 := by
  induction h generalizing t with
  | nil => exact ⟨.nil, rfl⟩
  | @cons f f' _ _ hskip _ ih =>
      cases hskip with
      | inl hsame =>
          subst hsame
          obtain ⟨hlater, hlast⟩ := ih (t.fetch f').2
          exact ⟨.cons (.inl rfl) hlater, hlast⟩
      | inr hword =>
          obtain ⟨rfl, rfl⟩ := hword
          obtain ⟨hlater, hlast⟩ := ih t.getWord.2
          simp only [fetchAll, fetch, skipWord_eq_getWord]
          exact ⟨.cons (.inr ⟨rfl, rfl, rfl⟩) hlater, hlast⟩

theorem step_skips (t : RexxTarget) {s s' : Step} (h : s.Skips s') :
    List.Forall₂ Extraction.Skips (t.step s).1 (t.step s').1 ∧
      (t.step s').2 = (t.step s).2 := by
  cases s with
  | next =>
      cases s' with
      | next => exact ⟨.nil, rfl⟩
      | parse trigger fetches => exact False.elim h
  | parse trigger fetches =>
      cases s' with
      | next => exact False.elim h
      | parse trigger' fetches' =>
          obtain ⟨rfl, hfetches⟩ := h
          exact fetchAll_skips _ hfetches

theorem run_skips (t : RexxTarget) {template template' : List Step}
    (h : List.Forall₂ Step.Skips template template') :
    List.Forall₂ Extraction.Skips (t.run template).1 (t.run template').1 ∧
      (t.run template').2 = (t.run template).2 := by
  induction h generalizing t with
  | nil => exact ⟨.nil, rfl⟩
  | @cons s s' _ _ hskip _ ih =>
      obtain ⟨hhere, hnext⟩ := step_skips t hskip
      obtain ⟨hlater, hlast⟩ := ih (t.step s).2
      simp only [run, hnext]
      exact ⟨List.rel_append hhere hlater, hlast⟩

/-- In a template every piece is extracted with the cursors in order and lies inside
the string, and skipping words changes no other extraction. -/
theorem parse_sound (endAt : Nat) (string : List UInt8)
    (arglist : Option (List (Option (List UInt8)))) (translate : ParseTranslate)
    (template : List Step) :
    (∀ e ∈ ((init endAt string arglist translate).run template).1, e.Sound) ∧
    ∀ template', List.Forall₂ Step.Skips template template' →
      List.Forall₂ Extraction.Skips ((init endAt string arglist translate).run template).1
        ((init endAt string arglist translate).run template').1 ∧
      ((init endAt string arglist translate).run template').2
        = ((init endAt string arglist translate).run template).2 :=
  ⟨run_sound (next_positioned _) template, fun _ => run_skips _⟩

/-- `"ab cd"` parsed into two words, and with the first one skipped. -/
theorem parse_sound_two_words :
    let t := init 0 [97, 98, 32, 99, 100] none .keep
    let words := [Step.parse .moveToEnd [.getWord, .remainder]]
    let skipped := [Step.parse .moveToEnd [.skipWord, .remainder]]
    (t.run words).1.map Extraction.piece = [some (.part 0 2), some (.part 3 2)] ∧
      (∀ e ∈ (t.run words).1, e.Sound) ∧
      List.Forall₂ Extraction.Skips (t.run words).1 (t.run skipped).1 := by
  intro t words skipped
  have hsound := parse_sound 0 [97, 98, 32, 99, 100] none .keep words
  have hskips : List.Forall₂ Step.Skips words skipped :=
    .cons ⟨rfl, .cons (.inr ⟨rfl, rfl⟩) (.cons (.inl rfl) .nil)⟩ .nil
  exact ⟨by decide, hsound.1, (hsound.2 skipped hskips).1⟩

end LeooRexx.RexxTarget
