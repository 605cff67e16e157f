import Mathlib.Data.List.Infix
import LeooRexx.Parser.Literal
import LeooRexx.Parser.SourceBuffer

/-!
# Comments and continuations

`comment` and `locateToken` move a position, made of a line and an offset, over the lines of a
source.  They may look at the character behind a line, which is its end or what lies in memory
behind the program.
-/

namespace LeooRexx

namespace RexxSource

abbrev star : UInt8 := 42

abbrev slash : UInt8 := 47

abbrev comma : UInt8 := 44

abbrev minus : UInt8 := 45

structure ScanPosition where
  line_number : ℕ
  line_offset : ℕ
  deriving DecidableEq

def ScanPosition.step (pos : ScanPosition) (n : ℕ) : ScanPosition :=
  { pos with line_offset := pos.line_offset + n }

def ScanPosition.nextLine (pos : ScanPosition) : ScanPosition := ⟨pos.line_number + 1, 0⟩

inductive ScanResult (α : Type) where
  | done (result : α)
  | raised (startline : ℕ)
  | unfinished

namespace Source

variable (src : Source)

def line_count : ℕ := src.sourceIndices.length - 1

def descriptor (line : ℕ) : ℕ × ℕ := src.sourceIndices.getD line (0, 0)

def current_length (pos : ScanPosition) : ℕ := (src.descriptor pos.line_number).2

def GETCHAR (pos : ScanPosition) : UInt8 :=
  src.memory ((src.descriptor pos.line_number).1 + pos.line_offset)

def lineEnd (pos : ScanPosition) : ScanPosition :=
  { pos with line_offset := src.current_length pos }

/-! ## The text that remains -/

def chars (line offset : ℕ) : List (Option UInt8) :=
  (List.range' offset ((src.descriptor line).2 - offset)).map fun i =>
    some (src.memory ((src.descriptor line).1 + i))

def following (line : ℕ) : List (Option UInt8) :=
  (List.range' (line + 1) (src.line_count - line)).flatMap fun n => none :: src.chars n 0

/-- What is left from a position on, with `none` for the line ends between lines. -/
def remaining (pos : ScanPosition) : List (Option UInt8) :=
  src.chars pos.line_number pos.line_offset ++ src.following pos.line_number

def rounds (pos : ScanPosition) : ℕ := (src.remaining pos).length + 1

/-! ## Comments -/

def commentLoop (startline : ℕ) : ℕ → ℕ → ScanPosition → ScanResult ScanPosition
  | _, 0, pos => .done pos
  | 0, _ + 1, _ => .unfinished
  | rounds + 1, level + 1, pos =>
      if src.current_length pos ≤ pos.line_offset then
        if src.line_count < pos.nextLine.line_number then .raised startline
        else commentLoop startline rounds (level + 1) pos.nextLine
      else if src.GETCHAR pos = star ∧ src.GETCHAR (pos.step 1) = slash then
        commentLoop startline rounds level (pos.step 2)
      else if src.GETCHAR pos = slash ∧ src.GETCHAR (pos.step 1) = star then
        commentLoop startline rounds (level + 2) (pos.step 2)
      else commentLoop startline rounds (level + 1) (pos.step 1)

def comment (pos : ScanPosition) : ScanResult ScanPosition :=
  src.commentLoop pos.line_number (src.rounds (pos.step 2)) 1 (pos.step 2)

/-! ## Continuations -/

def startsComment (pos : ScanPosition) : Bool :=
  src.GETCHAR pos = slash ∧ pos.line_offset + 1 < src.current_length pos ∧
    src.GETCHAR (pos.step 1) = star

def startsLineComment (pos : ScanPosition) : Bool :=
  src.GETCHAR pos = minus ∧ pos.line_offset + 1 < src.current_length pos ∧
    src.GETCHAR (pos.step 1) = minus

def skipTrailing : ℕ → ScanPosition → ScanResult ScanPosition
  | 0, _ => .unfinished
  | rounds + 1, pos =>
      if src.current_length pos ≤ pos.line_offset then .done pos
      else if src.startsComment pos then
        match src.comment pos with
        | .done pos => skipTrailing rounds pos
        | r => r
      else if src.startsLineComment pos then .done (src.lineEnd pos)
      else if isBlank (src.GETCHAR pos) then skipTrailing rounds (pos.step 1)
      else .done pos

inductive TokenClass where
  | eof
  | eol
  | blank
  | character (c : UInt8)
  deriving DecidableEq

def locateLoop (blanks : Bool) : ℕ → ScanPosition → ScanResult (TokenClass × ScanPosition)
  | 0, _ => .unfinished
  | rounds + 1, pos =>
      if src.current_length pos ≤ pos.line_offset then .done (.eol, pos)
      else if isBlank (src.GETCHAR pos) then
        if blanks then .done (.blank, pos) else locateLoop blanks rounds (pos.step 1)
      else if src.GETCHAR pos = comma ∨ src.GETCHAR pos = minus then
        if src.startsLineComment pos then .done (.eol, src.lineEnd pos)
        else
          match src.skipTrailing (src.rounds (pos.step 1)) (pos.step 1) with
          | .done trailing =>
              if src.current_length trailing ≤ trailing.line_offset then
                if trailing.line_number < src.line_count then
                  if blanks then
                    .done (if src.current_length trailing.nextLine = 0 then .eol else .blank,
                      trailing.nextLine)
                  else locateLoop blanks rounds trailing.nextLine
                -- there is no next line, and the loop ends at the end of this one
                else locateLoop blanks rounds trailing
              else .done (.character (src.GETCHAR pos), pos)
          | .raised startline => .raised startline
          | .unfinished => .unfinished
      else if src.startsComment pos then
        match src.comment pos with
        | .done pos => locateLoop blanks rounds pos
        | .raised startline => .raised startline
        | .unfinished => .unfinished
      else .done (.character (src.GETCHAR pos), pos)

inductive PreviousToken where
  | symbol
  | literal
  | right
  | sqright
  | other

def significant : Option PreviousToken → Bool
  | none => false
  | some .other => false
  | some _ => true

def locateToken (previous : Option PreviousToken) (pos : ScanPosition) :
    ScanResult (TokenClass × ScanPosition) :=
  if src.line_count < pos.line_number then .done (.eof, pos)
  else if src.current_length pos ≤ pos.line_offset then .done (.eol, pos)
  else src.locateLoop (significant previous) (src.rounds pos) pos

/-! ## The position and what remains -/

variable {src} {pos : ScanPosition}

@[simp] theorem step_step (m n : ℕ) : (pos.step m).step n = pos.step (m + n) := by
  simp [ScanPosition.step, Nat.add_assoc]

@[simp] theorem current_length_step (n : ℕ) :
    src.current_length (pos.step n) = src.current_length pos := rfl

@[simp] theorem current_length_lineEnd :
    src.current_length (src.lineEnd pos) = src.current_length pos := rfl

theorem remaining_char (h : pos.line_offset < src.current_length pos) :
    src.remaining pos = some (src.GETCHAR pos) :: src.remaining (pos.step 1) := by
  have hchars : src.chars pos.line_number pos.line_offset =
      some (src.GETCHAR pos) :: src.chars pos.line_number (pos.line_offset + 1) := by
    have hlength : (src.descriptor pos.line_number).2 - pos.line_offset =
        (src.descriptor pos.line_number).2 - (pos.line_offset + 1) + 1 := by
      have : pos.line_offset < (src.descriptor pos.line_number).2 := h
      omega
    rw [chars, hlength, List.range'_succ]
    rfl
  rw [remaining, hchars]
  rfl

theorem chars_end (h : src.current_length pos ≤ pos.line_offset) :
    src.chars pos.line_number pos.line_offset = [] := by
  have hzero : (src.descriptor pos.line_number).2 - pos.line_offset = 0 := Nat.sub_eq_zero_of_le h
  rw [chars, hzero]
  rfl

theorem remaining_nextLine (h : src.current_length pos ≤ pos.line_offset)
    (hline : pos.line_number < src.line_count) :
    src.remaining pos = none :: src.remaining pos.nextLine := by
  rw [remaining, chars_end h, following,
    show src.line_count - pos.line_number = src.line_count - (pos.line_number + 1) + 1 by omega,
    List.range'_succ]
  rfl

theorem remaining_end (h : src.current_length pos ≤ pos.line_offset)
    (hline : src.line_count ≤ pos.line_number) : src.remaining pos = [] := by
  rw [remaining, chars_end h, following, Nat.sub_eq_zero_of_le hline]
  rfl


/-! ## Nested comments -/

def Delimits (c : Option UInt8) (l : List (Option UInt8)) : Prop :=
  c = some star ∧ l.head? = some (some slash) ∨ c = some slash ∧ l.head? = some (some star)

inductive Closes : ℕ → List (Option UInt8) → List (Option UInt8) → Prop
  | done (l : List (Option UInt8)) : Closes 0 l l
  | close {level : ℕ} {l rest : List (Option UInt8)} (h : Closes level l rest) :
      Closes (level + 1) (some star :: some slash :: l) rest
  | opens {level : ℕ} {l rest : List (Option UInt8)} (h : Closes (level + 2) l rest) :
      Closes (level + 1) (some slash :: some star :: l) rest
  | other {level : ℕ} {c : Option UInt8} {l rest : List (Option UInt8)} (hc : ¬ Delimits c l)
      (h : Closes (level + 1) l rest) : Closes (level + 1) (c :: l) rest

variable {level : ℕ} {c : Option UInt8} {l m rest text : List (Option UInt8)}

theorem closes_close_iff :
    Closes (level + 1) (some star :: some slash :: l) rest ↔ Closes level l rest := by
  refine ⟨fun h => ?_, .close⟩
  cases h with
  | close h => exact h
  | other hc => exact absurd (.inl ⟨rfl, rfl⟩) hc

theorem closes_opens_iff :
    Closes (level + 1) (some slash :: some star :: l) rest ↔ Closes (level + 2) l rest := by
  refine ⟨fun h => ?_, .opens⟩
  cases h with
  | opens h => exact h
  | other hc => exact absurd (.inr ⟨rfl, rfl⟩) hc

theorem closes_other_iff (hc : ¬ Delimits c l) :
    Closes (level + 1) (c :: l) rest ↔ Closes (level + 1) l rest := by
  refine ⟨fun h => ?_, .other hc⟩
  cases h with
  | close => exact absurd (.inl ⟨rfl, rfl⟩) hc
  | opens => exact absurd (.inr ⟨rfl, rfl⟩) hc
  | other _ h => exact h

theorem Closes.suffix (h : Closes level text rest) : rest <:+ text := by
  induction h with
  | done => exact List.suffix_rfl
  | close _ ih => exact ih.trans ⟨[_, _], rfl⟩
  | opens _ ih => exact ih.trans ⟨[_, _], rfl⟩
  | other _ _ ih => exact ih.trans ⟨[_], rfl⟩

theorem Closes.unique (h : Closes level text rest) (h' : Closes level text m) : rest = m := by
  induction h with
  | done => cases h'; rfl
  | close _ ih => exact ih (closes_close_iff.mp h')
  | opens _ ih => exact ih (closes_opens_iff.mp h')
  | other hc _ ih => exact ih ((closes_other_iff hc).mp h')

def Fenced (src : Source) : Prop :=
  ∀ line, 0 < (src.descriptor line).2 →
    src.memory ((src.descriptor line).1 + (src.descriptor line).2) ≠ star ∧
      src.memory ((src.descriptor line).1 + (src.descriptor line).2) ≠ slash

theorem Fenced.next_char (h : Fenced src) (hin : pos.line_offset < src.current_length pos)
    {d : UInt8} (hd : d = star ∨ d = slash) :
    (src.remaining (pos.step 1)).head? = some (some d) ↔ src.GETCHAR (pos.step 1) = d := by
  rcases Nat.lt_or_ge (pos.line_offset + 1) (src.current_length pos) with hmore | hlast
  · rw [remaining_char (show (pos.step 1).line_offset < _ from hmore)]
    simp
  · have hend : (pos.step 1).line_offset = (src.descriptor pos.line_number).2 := by
      have hlt : pos.line_offset < (src.descriptor pos.line_number).2 := hin
      have hge : (src.descriptor pos.line_number).2 ≤ pos.line_offset + 1 := hlast
      exact Nat.le_antisymm hlt hge
    have hchar : src.GETCHAR (pos.step 1) = src.memory
        ((src.descriptor pos.line_number).1 + (src.descriptor pos.line_number).2) := by
      rw [GETCHAR, hend]
      rfl
    have hfence := h pos.line_number (Nat.lt_of_le_of_lt (Nat.zero_le _) hin)
    rw [← hchar] at hfence
    have hne : src.GETCHAR (pos.step 1) ≠ d := by
      rcases hd with rfl | rfl
      · exact hfence.1
      · exact hfence.2
    refine iff_of_false (fun hhead => ?_) hne
    rcases Nat.lt_or_ge pos.line_number src.line_count with hline | hline
    · rw [remaining_nextLine (show src.current_length _ ≤ (pos.step 1).line_offset from hlast)
        hline] at hhead
      cases hhead
    · rw [remaining_end (show src.current_length _ ≤ (pos.step 1).line_offset from hlast)
        hline] at hhead
      cases hhead

theorem Fenced.next_remaining (h : Fenced src) (hin : pos.line_offset < src.current_length pos)
    {d : UInt8} (hd : d = star ∨ d = slash) (hchar : src.GETCHAR (pos.step 1) = d) :
    src.remaining (pos.step 1) = some d :: src.remaining (pos.step 2) := by
  rcases Nat.lt_or_ge (pos.line_offset + 1) (src.current_length pos) with hmore | hlast
  · rw [remaining_char (show (pos.step 1).line_offset < _ from hmore), hchar, step_step]
  · have hhead := (h.next_char hin hd).mpr hchar
    rcases Nat.lt_or_ge pos.line_number src.line_count with hline | hline
    · rw [remaining_nextLine (show src.current_length _ ≤ (pos.step 1).line_offset from hlast)
        hline] at hhead
      cases hhead
    · rw [remaining_end (show src.current_length _ ≤ (pos.step 1).line_offset from hlast)
        hline] at hhead
      cases hhead

def CommentEnd (src : Source) (level : ℕ) (text : List (Option UInt8)) :
    ScanResult ScanPosition → Prop
  | .done pos => Closes level text (src.remaining pos)
  | .raised _ => ∀ rest, ¬ Closes level text rest
  | .unfinished => False

theorem CommentEnd.congr {level' : ℕ} {result : ScanResult ScanPosition}
    (hiff : ∀ rest, Closes level text rest ↔ Closes level' l rest)
    (h : CommentEnd src level' l result) : CommentEnd src level text result := by
  cases result with
  | done pos => exact (hiff _).mpr h
  | raised => exact fun rest hrest => h rest ((hiff rest).mp hrest)
  | unfinished => exact h

theorem commentLoop_end (h : Fenced src) (startline : ℕ) {rounds : ℕ}
    (hrounds : (src.remaining pos).length < rounds) :
    CommentEnd src level (src.remaining pos) (src.commentLoop startline rounds level pos) := by
  induction rounds generalizing level pos with
  | zero => omega
  | succ rounds ih =>
      cases level with
      | zero =>
          rw [commentLoop]
          exact .done _
      | succ level =>
          rw [commentLoop]
          split
          next hend =>
            split
            next hlast =>
              rw [remaining_end hend (Nat.le_of_lt_succ hlast)]
              intro rest hrest
              cases hrest
            next hmore =>
              have hrest := remaining_nextLine hend (Nat.not_le.mp fun hle =>
                hmore (Nat.lt_succ_of_le hle))
              rw [hrest, List.length_cons] at hrounds
              rw [hrest]
              refine (ih (by omega)).congr fun rest => closes_other_iff ?_
              rintro (⟨hc, -⟩ | ⟨hc, -⟩) <;> cases hc
          next hin =>
            have hin' := Nat.not_le.mp hin
            have hrest := remaining_char hin'
            rw [hrest, List.length_cons] at hrounds
            split
            next hclose =>
              have hnext := h.next_remaining hin' (.inr rfl) hclose.2
              rw [hnext, List.length_cons] at hrounds
              rw [hrest, hclose.1, hnext]
              exact (ih (by omega)).congr fun rest => closes_close_iff
            next hnoClose =>
              split
              next hopen =>
                have hnext := h.next_remaining hin' (.inl rfl) hopen.2
                rw [hnext, List.length_cons] at hrounds
                rw [hrest, hopen.1, hnext]
                exact (ih (by omega)).congr fun rest => closes_opens_iff
              next hnoOpen =>
                rw [hrest]
                refine (ih (by omega)).congr fun rest => closes_other_iff ?_
                rintro (⟨hc, hhead⟩ | ⟨hc, hhead⟩)
                · exact hnoClose ⟨Option.some.inj hc, (h.next_char hin' (.inr rfl)).mp hhead⟩
                · exact hnoOpen ⟨Option.some.inj hc, (h.next_char hin' (.inl rfl)).mp hhead⟩

theorem comment_end (h : Fenced src) (pos : ScanPosition) :
    CommentEnd src 1 (src.remaining (pos.step 2)) (src.comment pos) :=
  commentLoop_end h _ (Nat.lt_succ_self _)

end Source

end RexxSource

end LeooRexx
