import LeooRexx.Foundation.Words
import LeooRexx.Instructions.ParseTargetRuns

/-!
# Parse triggers

`RexxTrigger::parse` moves the cursors of the target and hands its piece out to the
vars of the trigger.  With results traced every variable gets its word; without,
the words of placeholder dummies are skipped.
-/

namespace LeooRexx.RexxTarget

variable {ν : Type*}

def Piece.value (string : List UInt8) : Piece → List UInt8
  | .null => []
  | .part offset length => (string.drop offset).take length

/-- The loop with results traced; `none` is a placeholder dummy. -/
def assignTraced (t : RexxTarget) :
    List (Option ν) → List (ν × List UInt8) × RexxTarget
  | [] => ([], t)
  | variable_ :: vars =>
      let (value, t') := if vars.isEmpty then t.remainder else t.getWord
      let (assigned, t'') := t'.assignTraced vars
      match variable_ with
      | some name => ((name, value.value t.string) :: assigned, t'')
      | none => (assigned, t'')

def assignUntraced (t : RexxTarget) :
    List (Option ν) → List (ν × List UInt8) × RexxTarget
  | [] => ([], t)
  | some name :: vars =>
      let (value, t') := if vars.isEmpty then t.remainder else t.getWord
      let (assigned, t'') := t'.assignUntraced vars
      ((name, value.value t.string) :: assigned, t'')
  | none :: vars =>
      let t' := if vars.isEmpty then t.skipRemainder else t.skipWord
      t'.assignUntraced vars

/-- `RexxTrigger::parse`, its value evaluated. -/
def parse (tracing : Bool) (t : RexxTarget) (trigger : Trigger) (vars : List (Option ν)) :
    List (ν × List UInt8) × RexxTarget :=
  let t := t.trigger trigger
  if tracing then t.assignTraced vars else t.assignUntraced vars

/-- An entry of a template.  A trigger may use the variables that are set before. -/
inductive TemplateEntry (ν : Type*) where
  | next
  | trigger (value : List (ν × List UInt8) → Trigger) (vars : List (Option ν))

def execute (tracing : Bool) (t : RexxTarget) (assigned : List (ν × List UInt8)) :
    List (TemplateEntry ν) → List (ν × List UInt8) × RexxTarget
  | [] => (assigned, t)
  | .next :: template => execute tracing t.next assigned template
  | .trigger value vars :: template =>
      let (new, t') := t.parse tracing (value assigned) vars
      execute tracing t' (assigned ++ new) template

/-! ## Words of the piece -/

def pieceText (t : RexxTarget) : List UInt8 := t.string.take t.endAt

theorem skipBlanks_eq_takeWhile (scan : List UInt8) :
    skipBlanks scan = (scan.takeWhile isBlank).length := by
  induction scan with
  | nil => rfl
  | cons c scan ih =>
      rw [skipBlanks, List.takeWhile_cons]
      split <;> simp [ih]

theorem findBlank_eq (scanner : List UInt8) (count : Nat) :
    findBlank scanner count =
      if ((scanner.take count).takeWhile fun c => !isBlank c).length < (scanner.take count).length
      then some ((scanner.take count).takeWhile fun c => !isBlank c).length else none := by
  induction scanner generalizing count with
  | nil => simp [findBlank]
  | cons c scanner ih =>
      cases count with
      | zero => simp [findBlank]
      | succ count =>
          rw [findBlank, ih, List.take_succ_cons]
          by_cases hc : isBlank c = true
          · simp [hc]
          · simp only [hc, if_false, Bool.not_eq_true, Bool.not_false, List.takeWhile_cons,
              if_true, List.length_cons, Nat.add_lt_add_iff_right, Bool.false_eq_true]
            split <;> rfl

theorem length_pieceText {t : RexxTarget} (h : t.endAt ≤ t.string.length) :
    t.pieceText.length = t.endAt := by
  rw [pieceText, List.length_take, Nat.min_eq_left h]

theorem value_part {t : RexxTarget} {offset length : Nat} (h : offset + length ≤ t.endAt) :
    (Piece.part offset length).value t.string = (t.pieceText.drop offset).take length := by
  rw [Piece.value, pieceText, List.drop_take, List.take_take, Nat.min_eq_left (by omega)]

section Word

variable {t : RexxTarget} (h : t.endAt ≤ t.string.length)

theorem wordStart_pieceText (hsub : t.subcurrent ≤ t.endAt) :
    wordStart isBlank t.pieceText t.subcurrent =
      min (t.subcurrent + skipBlanks (t.string.drop t.subcurrent)) t.endAt := by
  rw [wordStart, pieceText, runEnd_take isBlank t.string hsub, skipBlanks_eq_takeWhile]
  rfl

include h

theorem wordEnd_pieceText {scan : Nat} :
    wordEnd isBlank t.pieceText scan = scan + (((t.string.drop scan).take
      (t.endAt - scan)).takeWhile fun c => !isBlank c).length := by
  rw [wordEnd, runEnd, pieceText, List.drop_take]

theorem getWord_value :
    t.getWord.1.value t.string =
        (t.pieceText.drop (wordStart isBlank t.pieceText t.subcurrent)).take
          (wordEnd isBlank t.pieceText (wordStart isBlank t.pieceText t.subcurrent) -
            wordStart isBlank t.pieceText t.subcurrent) ∧
      ∃ subcurrent, t.getWord.2 = { t with subcurrent := subcurrent } ∧
        (subcurrent = wordEnd isBlank t.pieceText
            (wordStart isBlank t.pieceText t.subcurrent) + 1 ∨
          t.endAt ≤ subcurrent ∧ t.endAt ≤ wordEnd isBlank t.pieceText
            (wordStart isBlank t.pieceText t.subcurrent)) := by
  have hlength := length_pieceText h
  have hstart := le_runEnd isBlank t.pieceText t.subcurrent
  have hend := le_runEnd (fun c => !isBlank c) t.pieceText
    (wordStart isBlank t.pieceText t.subcurrent)
  change t.subcurrent ≤ wordStart isBlank t.pieceText t.subcurrent at hstart
  change _ ≤ wordEnd isBlank t.pieceText _ at hend
  have hnothing : t.endAt ≤ wordStart isBlank t.pieceText t.subcurrent →
      ([] : List UInt8) = (t.pieceText.drop (wordStart isBlank t.pieceText t.subcurrent)).take
        (wordEnd isBlank t.pieceText (wordStart isBlank t.pieceText t.subcurrent) -
          wordStart isBlank t.pieceText t.subcurrent) := by
    intro hle
    rw [List.drop_of_length_le (by omega), List.take_nil]
  simp only [getWord]
  split
  case isTrue hused =>
      exact ⟨hnothing (by omega), t.subcurrent, rfl, .inr ⟨hused, by omega⟩⟩
  case isFalse hleft =>
    have hscan := wordStart_pieceText (t := t) (by omega)
    split
    case isTrue hblanks =>
        exact ⟨hnothing (by omega), _, rfl, .inr ⟨hblanks, by omega⟩⟩
    case isFalse hword =>
        rw [Nat.min_eq_left (by omega)] at hscan
        rw [hscan, wordEnd_pieceText h, findBlank_eq]
        have hsize : ((t.string.drop (t.subcurrent + skipBlanks (t.string.drop t.subcurrent))).take
            (t.endAt - (t.subcurrent + skipBlanks (t.string.drop t.subcurrent)))).length =
              t.endAt - (t.subcurrent + skipBlanks (t.string.drop t.subcurrent)) := by
          rw [List.length_take, List.length_drop]
          omega
        have hle := (List.takeWhile_sublist (fun c => !isBlank c) (l := (t.string.drop
          (t.subcurrent + skipBlanks (t.string.drop t.subcurrent))).take
            (t.endAt - (t.subcurrent + skipBlanks (t.string.drop t.subcurrent))))).length_le
        rw [hsize] at hle ⊢
        rw [Nat.add_sub_cancel_left]
        by_cases hblank : (((t.string.drop (t.subcurrent + skipBlanks
            (t.string.drop t.subcurrent))).take (t.endAt - (t.subcurrent + skipBlanks
              (t.string.drop t.subcurrent)))).takeWhile fun c => !isBlank c).length <
            t.endAt - (t.subcurrent + skipBlanks (t.string.drop t.subcurrent))
        · simp only [hblank, if_true]
          exact ⟨value_part (by omega), _, rfl, .inl rfl⟩
        · simp only [hblank, if_false]
          refine ⟨?_, _, rfl, .inl (by omega)⟩
          rw [value_part (by omega)]
          congr 1
          omega

theorem remainder_value :
    t.remainder.1.value t.string = t.pieceText.drop t.subcurrent := by
  have hlength := length_pieceText h
  simp only [remainder]
  split
  case isTrue hused => exact (List.drop_of_length_le (by omega)).symm
  case isFalse hleft =>
      rw [value_part (by omega), List.take_of_length_le (by rw [List.length_drop]; omega)]

end Word

/-! ## The loops -/

def assignments (vars : List (Option ν)) (values : List (List UInt8)) :
    List (ν × List UInt8) :=
  (vars.zip values).filterMap fun (variable_, value) => variable_.map fun name => (name, value)

theorem remainder_same (t : RexxTarget) :
    ∃ subcurrent, t.remainder.2 = { t with subcurrent := subcurrent } := by
  simp only [remainder]
  split
  · exact ⟨t.subcurrent, rfl⟩
  · exact ⟨t.endAt, rfl⟩

theorem getWord_same (t : RexxTarget) :
    ∃ subcurrent, t.getWord.2 = { t with subcurrent := subcurrent } := by
  simp only [getWord]
  split
  · exact ⟨t.subcurrent, rfl⟩
  · split
    · exact ⟨_, rfl⟩
    · split <;> exact ⟨_, rfl⟩

theorem assignTraced_word (t : RexxTarget) (variable_ next : Option ν)
    (vars : List (Option ν)) :
    (t.assignTraced (variable_ :: next :: vars)).1 =
        (variable_.map fun name => (name, t.getWord.1.value t.string)).toList ++
          (t.getWord.2.assignTraced (next :: vars)).1 ∧
      (t.assignTraced (variable_ :: next :: vars)).2 =
        (t.getWord.2.assignTraced (next :: vars)).2 := by
  cases variable_ <;> exact ⟨rfl, rfl⟩

theorem assignTraced_spec {t : RexxTarget} (h : t.endAt ≤ t.string.length)
    (vars : List (Option ν)) :
    (t.assignTraced vars).1 =
        assignments vars (wordValues isBlank t.pieceText t.subcurrent vars.length) ∧
      ∃ subcurrent, (t.assignTraced vars).2 = { t with subcurrent := subcurrent } := by
  induction vars generalizing t with
  | nil => exact ⟨rfl, t.subcurrent, rfl⟩
  | cons variable_ vars ih =>
      cases vars with
      | nil =>
          obtain ⟨subcurrent, hsame⟩ := remainder_same t
          have hvalue := remainder_value h
          cases variable_ <;>
            exact ⟨by simp [assignTraced, assignments, wordValues, hvalue], subcurrent, hsame⟩
      | cons next vars =>
          obtain ⟨hvalue, subcurrent, hsame, hbehind⟩ := getWord_value h
          have hrest := ih (t := t.getWord.2) (by rw [hsame]; exact h)
          have hvalues : wordValues isBlank t.pieceText subcurrent (next :: vars).length =
              wordValues isBlank t.pieceText (wordEnd isBlank t.pieceText
                (wordStart isBlank t.pieceText t.subcurrent) + 1) (next :: vars).length := by
            rcases hbehind with rfl | ⟨hfrom, hfrom'⟩
            · rfl
            · have hlength := length_pieceText h
              rw [wordValues_of_length_le (by omega), wordValues_of_length_le (by omega)]
          rw [hsame] at hrest
          obtain ⟨hassigned, subcurrent', hsame'⟩ := hrest
          change _ = assignments _ (wordValues isBlank t.pieceText subcurrent _) at hassigned
          rw [hvalues] at hassigned
          have hstep := assignTraced_word t variable_ next vars
          rw [hsame] at hstep
          refine ⟨?_, subcurrent', hstep.2.trans hsame'⟩
          rw [hstep.1, hassigned, hvalue]
          cases variable_ <;> rfl

theorem assignUntraced_eq (t : RexxTarget) (vars : List (Option ν)) :
    (t.assignUntraced vars).1 = (t.assignTraced vars).1 ∧
      ∃ subcurrent, (t.assignUntraced vars).2 = { t with subcurrent := subcurrent } := by
  induction vars generalizing t with
  | nil => exact ⟨rfl, t.subcurrent, rfl⟩
  | cons variable_ vars ih =>
      cases vars with
      | nil =>
          cases variable_ with
          | none => exact ⟨rfl, t.endAt, rfl⟩
          | some name => exact ⟨rfl, remainder_same t⟩
      | cons next vars =>
          obtain ⟨hrest, subcurrent, hsame⟩ := ih t.getWord.2
          obtain ⟨subcurrent', hword⟩ := getWord_same t
          have hlast : (t.getWord.2.assignUntraced (next :: vars)).2 =
              { t with subcurrent := subcurrent } := by
            rw [hsame, hword]
          cases variable_ with
          | none =>
              have hskip : t.assignUntraced (none :: next :: vars) =
                  t.getWord.2.assignUntraced (next :: vars) := by
                rw [← skipWord_eq_getWord]
                rfl
              rw [hskip, hrest]
              exact ⟨rfl, subcurrent, hlast⟩
          | some name =>
              refine ⟨?_, subcurrent, hlast⟩
              rw [(assignTraced_word t _ next vars).1, ← hrest]
              rfl

/-! ## Whole instructions -/

theorem trigger_congr (t : RexxTarget) (subcurrent : Nat) (trigger : Trigger) :
    ({ t with subcurrent := subcurrent }).trigger trigger = t.trigger trigger := by
  cases trigger <;>
    simp only [RexxTarget.trigger, moveToEnd, forward, forwardLength, absolute, backward,
      backwardLength, search, caselessSearch, searchBy] <;>
    split_ifs <;> rfl

theorem trigger_subcurrent (t : RexxTarget) (trigger : Trigger) :
    (t.trigger trigger).subcurrent = (t.trigger trigger).start := by
  cases trigger <;> rfl

theorem parse_spec {t : RexxTarget} (h : t.Positioned) (tracing : Bool) (trigger : Trigger)
    (vars : List (Option ν)) :
    (t.parse tracing trigger vars).1 = assignments vars
        ((List.range vars.length).map (wordValue isBlank (t.trigger trigger).pieceText
          (t.trigger trigger).start vars.length)) ∧
      ∃ subcurrent, (t.parse tracing trigger vars).2 =
        { t.trigger trigger with subcurrent := subcurrent } := by
  have hbounded := trigger_bounded h trigger
  have hend : (t.trigger trigger).endAt ≤ (t.trigger trigger).string.length := by
    rw [← hbounded.length_eq]
    exact hbounded.end_le
  obtain ⟨htraced, hsame⟩ := assignTraced_spec hend vars
  obtain ⟨huntraced, hsame'⟩ := assignUntraced_eq (t.trigger trigger) vars
  rw [trigger_subcurrent, wordValues_eq] at htraced
  cases tracing with
  | false => exact ⟨huntraced.trans htraced, hsame'⟩
  | true => exact ⟨htraced, hsame⟩

theorem Positioned.of_subcurrent {t : RexxTarget} (h : t.Positioned) (subcurrent : Nat) :
    ({ t with subcurrent := subcurrent }).Positioned := ⟨h.1, h.2, h.3⟩

theorem execute_positioned {t : RexxTarget} (h : t.Positioned) (tracing : Bool)
    (assigned : List (ν × List UInt8)) (template : List (TemplateEntry ν)) :
    (execute tracing t assigned template).2.Positioned := by
  induction template generalizing t assigned with
  | nil => exact h
  | cons entry template ih =>
      cases entry with
      | next => exact ih (next_positioned t) assigned
      | trigger value vars =>
          obtain ⟨_, subcurrent, hsame⟩ := parse_spec h tracing (value assigned) vars
          have hnext := (trigger_bounded h (value assigned)).toPositioned.of_subcurrent subcurrent
          rw [← hsame] at hnext
          exact ih hnext _

theorem execute_traced {t : RexxTarget} (h : t.Positioned) (subcurrent : Nat)
    (assigned : List (ν × List UInt8)) (template : List (TemplateEntry ν)) :
    (execute true { t with subcurrent := subcurrent } assigned template).1 =
        (execute false t assigned template).1 ∧
      ∃ subcurrent', (execute true { t with subcurrent := subcurrent } assigned template).2 =
        { (execute false t assigned template).2 with subcurrent := subcurrent' } := by
  induction template generalizing t subcurrent assigned with
  | nil => exact ⟨rfl, subcurrent, rfl⟩
  | cons entry template ih =>
      cases entry with
      | next => exact ih (next_positioned t) t.next.subcurrent assigned
      | trigger value vars =>
          obtain ⟨htraced, subcurrent₁, hsame₁⟩ := parse_spec h true (value assigned) vars
          obtain ⟨huntraced, subcurrent₂, hsame₂⟩ := parse_spec h false (value assigned) vars
          have hcongr : ({ t with subcurrent := subcurrent }).parse true (value assigned) vars =
              t.parse true (value assigned) vars := by
            rw [parse, trigger_congr]
            rfl
          have hpositioned :=
            (trigger_bounded h (value assigned)).toPositioned.of_subcurrent subcurrent₂
          simp only [execute, hcongr, htraced, huntraced, hsame₁, hsame₂]
          exact ih hpositioned subcurrent₁ _

theorem parse_assigns_words (endAt : Nat) (string : List UInt8)
    (arglist : Option (List (Option (List UInt8)))) (translate : ParseTranslate)
    (template : List (TemplateEntry ν)) :
    (execute true (init endAt string arglist translate) [] template).1 =
        (execute false (init endAt string arglist translate) [] template).1 ∧
      ∀ (tracing : Bool) (trigger : Trigger) (vars : List (Option ν)),
        let t := (execute tracing (init endAt string arglist translate) [] template).2
        (t.parse tracing trigger vars).1 = assignments vars
          ((List.range vars.length).map (wordValue isBlank (t.trigger trigger).pieceText
            (t.trigger trigger).start vars.length)) := by
  have hpositioned : (init endAt string arglist translate).Positioned := next_positioned _
  refine ⟨(execute_traced hpositioned _ [] template).1, ?_⟩
  intro tracing trigger vars
  exact (parse_spec (execute_positioned hpositioned tracing [] template) tracing trigger vars).1

end LeooRexx.RexxTarget
