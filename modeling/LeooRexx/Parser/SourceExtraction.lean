import Mathlib.Data.List.GetD
import Mathlib.Tactic.Common

/-!
# Source extraction

A program is an array of lines or a buffer with the descriptors of its lines, and an INTERPRET
string is a single line that stands for the line it is run from.  `extract` gives back the text
between two positions; `extractSource` gives it as an array of lines, and drops the last
character of a text of several lines that ends in mid-line.
-/

namespace LeooRexx

abbrev SourceLine := List UInt8

/-- Where the lines are: in an array, or in a buffer at the given positions and lengths. -/
inductive ProgramLines where
  | sourceArray (lines : List SourceLine)
  | sourceBuffer (data : List UInt8) (sourceIndices : List (ℕ × ℕ))

structure SourceText where
  source : Option ProgramLines
  line_count : ℕ
  interpret_adjust : ℕ

structure Location where
  line : ℕ
  offset : ℕ
  endline : ℕ
  endoffset : ℕ

/-- `extract` of a string. -/
def SourceLine.extract (text : SourceLine) (offset sublength : ℕ) : SourceLine :=
  (text.drop offset).take sublength

theorem SourceLine.extract_rest (text : SourceLine) (offset : ℕ) :
    text.extract offset (text.length - offset) = text.drop offset :=
  List.take_of_length_le (Nat.le_of_eq (List.length_drop ..))

def ProgramLines.line (position : ℕ) : ProgramLines → Option SourceLine
  -- in front of the first slot is the array's own address, which is no line
  | .sourceArray lines => if position = 0 then some [] else lines[position - 1]?
  | .sourceBuffer data sourceIndices =>
      sourceIndices[position]?.map fun descriptor =>
        SourceLine.extract data descriptor.1 descriptor.2

namespace SourceText

def get (s : SourceText) (position : ℕ) : Option SourceLine :=
  if s.line_count < position then some []
  else
    match s.source with
    | none => some []
    | some source => source.line position

def concatLines (s : SourceText) (line : SourceLine) : List ℕ → Option SourceLine
  | [] => some line
  | counter :: counters => do
      let next ← s.get counter
      concatLines s (line ++ next) counters

def connected (s : SourceText) (reconnect : Option SourceText) : Option SourceText :=
  if s.source.isSome then some s else reconnect

def extract (s : SourceText) (reconnect : Option SourceText) (location : Location) :
    Option SourceLine :=
  match s.connected reconnect with
  | none => some []
  | some s =>
      if location.line = 0 ∨ s.line_count < location.line then some []
      else if location.endline ≤ location.line then do
        let line ← s.get (location.line - s.interpret_adjust)
        return line.extract location.offset (location.endoffset - location.offset)
      else do
        let source_line ← s.get location.line
        let line := source_line.extract location.offset (source_line.length - location.offset)
        let counter := location.line + 1 - s.interpret_adjust
        let line ← s.concatLines line (List.range' counter (location.endline - counter))
        let source_line ← s.get (max counter location.endline)
        return line ++ source_line.extract 0 location.endoffset

/-- The end of the section: a missing one is the end of the program, and the start of a line
is the end of the line before. -/
def sectionEnd (s : SourceText) (location : Location) : Option (ℕ × ℕ) :=
  if location.endline = 0 then
    (s.get s.line_count).map fun line => (s.line_count, line.length)
  else if location.endoffset = 0 then
    (s.get (location.endline - 1)).map fun line => (location.endline - 1, line.length)
  else some (location.endline, location.endoffset)

/-- The first line of several: the line object itself where it is taken from its start on. -/
def sectionStart (s : SourceText) (line offset : ℕ) : Option (Option SourceLine) :=
  if offset = 0 then some (s.get line)
  else (s.get line).map fun source_line =>
    some (source_line.extract offset (source_line.length - offset))

def sectionLines (s : SourceText) (line offset endline endoffset : ℕ) :
    Option (List (Option SourceLine)) :=
  if line = endline then do
    let source_line ← s.get line
    return [some (source_line.extract offset (endoffset - offset))]
  else do
    let first ← s.sectionStart line offset
    let middle := (List.range' (line + 1) (endline - (line + 1))).map s.get
    if line < endline then
      let source_line ← s.get endline
      -- the end offset is behind the last character already
      let last :=
        if source_line.length ≤ endoffset then source_line
        else source_line.extract 0 (endoffset - 1)
      return first :: middle ++ [some last]
    else return []

def extractSource (s : SourceText) (reconnect : Option SourceText) (location : Location) :
    Option (List (Option SourceLine)) :=
  match s.connected reconnect with
  | none => some []
  | some s =>
      if location.line = 0 ∨ s.line_count < location.line - s.interpret_adjust then some []
      else do
        let (endline, endoffset) ← s.sectionEnd location
        s.sectionLines location.line location.offset endline endoffset

def joinLines (lines : List (Option SourceLine)) : Option SourceLine :=
  (lines.mapM id).map List.flatten

/-! ## The text between two positions -/

def charIndex (lines : List SourceLine) (line offset : ℕ) : ℕ :=
  (lines.take (line - 1)).flatten.length + offset

def between (lines : List SourceLine) (line offset endline endoffset : ℕ) : SourceLine :=
  (lines.flatten.drop (charIndex lines line offset)).take
    (charIndex lines endline endoffset - charIndex lines line offset)

section Between

variable {lines : List SourceLine} {line endline offset endoffset : ℕ}

theorem split_at (hpos : 0 < line) (hle : line ≤ lines.length) :
    lines = lines.take (line - 1) ++ lines.getD (line - 1) [] :: lines.drop line := by
  have hlt : line - 1 < lines.length := by omega
  have hnext : line - 1 + 1 = line := by omega
  have hsplit := List.drop_eq_getElem_cons hlt
  rw [hnext] at hsplit
  rw [List.getD_eq_getElem _ _ hlt, ← hsplit, List.take_append_drop]

theorem between_line (hpos : 0 < line) (hle : line ≤ lines.length)
    (hoffset : offset ≤ endoffset) (hend : endoffset ≤ (lines.getD (line - 1) []).length) :
    between lines line offset line endoffset =
      (lines.getD (line - 1) []).extract offset (endoffset - offset) := by
  have hcount : charIndex lines line endoffset - charIndex lines line offset =
      endoffset - offset := by
    simp only [charIndex]
    omega
  have hflat : lines.flatten = (lines.take (line - 1)).flatten ++
      (lines.getD (line - 1) [] ++ (lines.drop line).flatten) := by
    conv_lhs => rw [split_at hpos hle]
    simp
  rw [between, hcount, hflat, charIndex, List.drop_append, List.drop_of_length_le (by omega),
    Nat.add_sub_cancel_left, List.nil_append, List.drop_append_of_le_length (by omega),
    List.take_append_of_le_length (by rw [List.length_drop]; omega), SourceLine.extract]

theorem between_lines (hpos : 0 < line) (hlt : line < endline) (hle : endline ≤ lines.length)
    (hoffset : offset ≤ (lines.getD (line - 1) []).length)
    (hend : endoffset ≤ (lines.getD (endline - 1) []).length) :
    between lines line offset endline endoffset =
      (lines.getD (line - 1) []).drop offset ++
        ((lines.drop line).take (endline - 1 - line)).flatten ++
          (lines.getD (endline - 1) []).take endoffset := by
  obtain ⟨front, hfront⟩ : ∃ front, front = lines.take (line - 1) := ⟨_, rfl⟩
  obtain ⟨first, hfirst⟩ : ∃ first, first = lines.getD (line - 1) [] := ⟨_, rfl⟩
  obtain ⟨middle, hmiddle⟩ : ∃ middle, middle = (lines.drop line).take (endline - 1 - line) :=
    ⟨_, rfl⟩
  have hbefore : lines.take (endline - 1) = front ++ first :: middle := by
    have hlength : front.length = line - 1 := by
      rw [hfront, List.length_take]
      omega
    have hcount : endline - 1 - (line - 1) = endline - 1 - line + 1 := by omega
    conv_lhs => rw [split_at hpos (by omega : line ≤ lines.length), ← hfront, ← hfirst]
    rw [List.take_append, List.take_of_length_le (by omega), hlength, hcount,
      List.take_succ_cons, ← hmiddle]
  have hflat : lines.flatten = front.flatten ++ (first ++ (middle.flatten ++
      (lines.getD (endline - 1) [] ++ (lines.drop endline).flatten))) := by
    conv_lhs => rw [split_at (by omega : 0 < endline) hle, hbefore]
    simp
  have hstart : charIndex lines line offset = front.flatten.length + offset := by
    rw [charIndex, hfront]
  have hcount : charIndex lines endline endoffset - charIndex lines line offset =
      (first.drop offset).length + (middle.flatten.length + endoffset) := by
    rw [hstart, charIndex, hbefore, List.length_drop]
    simp only [List.flatten_append, List.flatten_cons, List.length_append]
    rw [← hfirst] at hoffset
    omega
  rw [between, hcount, hstart, hflat, ← List.drop_drop, List.drop_left, ← hfirst, ← hmiddle,
    List.drop_append_of_le_length (by rwa [hfirst]), List.take_length_add_append,
    List.take_length_add_append, List.take_append_of_le_length hend, List.append_assoc]

end Between

/-! ## Programs -/

def lines (s : SourceText) : List SourceLine :=
  match s.source with
  | none => []
  | some (.sourceArray lines) => lines
  | some (.sourceBuffer data sourceIndices) =>
      sourceIndices.tail.map fun descriptor => SourceLine.extract data descriptor.1 descriptor.2

def IsProgram (s : SourceText) : Prop :=
  match s.source with
  | none => False
  | some (.sourceArray lines) =>
      s.line_count = s.interpret_adjust + lines.length ∧
        (s.interpret_adjust = 0 ∨ lines.length = 1)
  | some (.sourceBuffer _ sourceIndices) =>
      s.interpret_adjust = 0 ∧ sourceIndices.length = s.line_count + 1

def lineText (s : SourceText) (line : ℕ) : SourceLine :=
  s.lines.getD (line - s.interpret_adjust - 1) []

structure Inside (s : SourceText) (location : Location) : Prop where
  start : s.interpret_adjust < location.line
  ordered : location.line ≤ location.endline
  stop : location.endline ≤ s.line_count
  offset : location.offset ≤ (s.lineText location.line).length
  endoffset : location.endoffset ≤ (s.lineText location.endline).length
  forward : location.line = location.endline → location.offset ≤ location.endoffset

def text (s : SourceText) (location : Location) : SourceLine :=
  between s.lines (location.line - s.interpret_adjust) location.offset
    (location.endline - s.interpret_adjust) location.endoffset

variable {s : SourceText}

theorem IsProgram.line_count_eq (h : s.IsProgram) :
    s.line_count = s.interpret_adjust + s.lines.length := by
  obtain ⟨source, line_count, interpret_adjust⟩ := s
  cases source with
  | none => exact h.elim
  | some source =>
      cases source with
      | sourceArray lines => exact h.1
      | sourceBuffer data sourceIndices =>
          obtain ⟨hadjust, hlength⟩ := h
          simp only at hadjust hlength
          simp [lines, hadjust, hlength]

theorem IsProgram.single (h : s.IsProgram) :
    s.interpret_adjust = 0 ∨ s.lines.length = 1 := by
  obtain ⟨source, line_count, interpret_adjust⟩ := s
  cases source with
  | none => exact h.elim
  | some source =>
      cases source with
      | sourceArray lines => exact h.2
      | sourceBuffer data sourceIndices => exact .inl h.1

theorem IsProgram.get_line (h : s.IsProgram) {position : ℕ} (hpos : 0 < position)
    (hle : position ≤ s.lines.length) :
    s.get position = some (s.lines.getD (position - 1) []) := by
  have hcount := h.line_count_eq
  obtain ⟨source, line_count, interpret_adjust⟩ := s
  have hbound : ¬ line_count < position := by
    simp only at hcount
    omega
  have hindex : position - 1 < (lines ⟨source, line_count, interpret_adjust⟩).length := by omega
  rw [get, if_neg hbound, List.getD_eq_getElem _ _ hindex]
  cases source with
  | none => exact h.elim
  | some source =>
      cases source with
      | sourceArray array =>
          simp only [lines] at hindex ⊢
          rw [ProgramLines.line, if_neg (by omega), List.getElem?_eq_getElem hindex]
      | sourceBuffer data sourceIndices =>
          simp only [lines, List.length_map, List.length_tail] at hindex ⊢
          have hat : position - 1 + 1 = position := by omega
          have hin : position < sourceIndices.length := by omega
          simp only [ProgramLines.line, List.getElem?_eq_getElem hin, Option.map_some,
            List.getElem_map, List.getElem_tail, hat]

theorem IsProgram.get_beyond (h : s.IsProgram) {position : ℕ} (hlt : s.lines.length < position)
    (hle : position ≤ s.line_count) : s.get position = none := by
  have hcount := h.line_count_eq
  obtain ⟨source, line_count, interpret_adjust⟩ := s
  rw [get, if_neg (Nat.not_lt.mpr hle)]
  cases source with
  | none => exact h.elim
  | some source =>
      cases source with
      | sourceArray array =>
          simp only [lines] at hlt
          exact (if_neg (by omega)).trans (List.getElem?_eq_none (by omega))
      | sourceBuffer data sourceIndices =>
          obtain ⟨hadjust, -⟩ := h
          simp only at hadjust hcount hle
          omega

theorem IsProgram.get_zero (h : s.IsProgram) : ∃ line, s.get 0 = some line := by
  obtain ⟨source, line_count, interpret_adjust⟩ := s
  cases source with
  | none => exact h.elim
  | some source =>
      cases source with
      | sourceArray array => exact ⟨[], rfl⟩
      | sourceBuffer data sourceIndices =>
          have hlength : sourceIndices.length = line_count + 1 := h.2
          have hin : 0 < sourceIndices.length := by omega
          exact ⟨SourceLine.extract data sourceIndices[0].1 sourceIndices[0].2, by
            simp [get, ProgramLines.line, List.getElem?_eq_getElem hin]⟩

theorem IsProgram.map_get (h : s.IsProgram) {line count : ℕ}
    (hle : line + count ≤ s.lines.length) :
    (List.range' (line + 1) count).map s.get = ((s.lines.drop line).take count).map some := by
  induction count generalizing line with
  | zero => rfl
  | succ count ih =>
      have hlt : line < s.lines.length := by omega
      have htail := ih (by omega : line + 1 + count ≤ s.lines.length)
      rw [List.range'_succ, List.map_cons, htail, h.get_line (by omega : 0 < line + 1) hlt,
        List.drop_eq_getElem_cons hlt, List.take_succ_cons, List.map_cons, Nat.add_sub_cancel,
        List.getD_eq_getElem _ _ hlt]

theorem concatLines_eq {counters : List ℕ} {texts : List SourceLine}
    (h : counters.map s.get = texts.map some) (line : SourceLine) :
    s.concatLines line counters = some (line ++ texts.flatten) := by
  induction counters generalizing line texts with
  | nil =>
      obtain rfl : texts = [] := by simpa using h.symm
      simp [concatLines]
  | cons counter counters ih =>
      cases texts with
      | nil => simp at h
      | cons next texts =>
          obtain ⟨hnext, htail⟩ : s.get counter = some next ∧
              counters.map s.get = texts.map some := by simpa using h
          simp [concatLines, hnext, ih htail]

theorem joinLines_map_some (texts : List SourceLine) :
    joinLines (texts.map some) = some texts.flatten := by
  have hall : (texts.map some).mapM id = some texts := by
    induction texts with
    | nil => rfl
    | cons text texts ih => simp [ih]
  rw [joinLines, hall, Option.map_some]

/-! ## Extraction -/

variable {location : Location}

theorem Inside.position_le (h : s.Inside location) (hs : s.IsProgram) {line : ℕ}
    (hlow : location.line ≤ line) (hhigh : line ≤ location.endline) :
    0 < line - s.interpret_adjust ∧ line - s.interpret_adjust ≤ s.lines.length := by
  have hcount := hs.line_count_eq
  have hstart := h.start
  have hstop := h.stop
  omega

theorem Inside.adjust_eq_zero (h : s.Inside location) (hs : s.IsProgram)
    (hlt : location.line < location.endline) : s.interpret_adjust = 0 := by
  have hcount := hs.line_count_eq
  have hstart := h.start
  have hstop := h.stop
  rcases hs.single with hzero | hone
  · exact hzero
  · omega

theorem extract_eq {t : SourceText} {reconnect : Option SourceText}
    (hsource : s.connected reconnect = some t) (ht : t.IsProgram) (h : t.Inside location) :
    s.extract reconnect location = some (t.text location) := by
  have hstart := h.start
  have hstop := h.stop
  have hordered := h.ordered
  have hrange : ¬ (location.line = 0 ∨ t.line_count < location.line) := by omega
  rw [extract, hsource]
  simp only [if_neg hrange]
  rcases Nat.eq_or_lt_of_le hordered with hsame | hlt
  · obtain ⟨hpos, hle⟩ := h.position_le ht (Nat.le_refl _) hordered
    rw [if_pos (Nat.le_of_eq hsame.symm), ht.get_line hpos hle, text, ← hsame,
      between_line hpos hle (h.forward hsame) (by rw [hsame]; exact h.endoffset)]
    rfl
  · have hzero := h.adjust_eq_zero ht hlt
    have hcount := ht.line_count_eq
    have hoffset := h.offset
    have hendoffset := h.endoffset
    simp only [lineText, hzero, Nat.sub_zero, Nat.zero_add] at hcount hstart hoffset hendoffset
    have hmiddle : location.endline - (location.line + 1) =
        location.endline - 1 - location.line := by
      omega
    have hlast : max (location.line + 1) location.endline = location.endline := by omega
    have hmap := ht.map_get
      (by omega : location.line + (location.endline - 1 - location.line) ≤ t.lines.length)
    simp only [if_neg (Nat.not_le.mpr hlt), hzero, Nat.sub_zero, hmiddle, hlast, text,
      ht.get_line hstart (by omega), ht.get_line (by omega : 0 < location.endline) (by omega),
      concatLines_eq hmap, between_lines hstart hlt (by omega) hoffset hendoffset,
      SourceLine.extract_rest]
    simp [SourceLine.extract]

theorem charIndex_succ {lines : List SourceLine} {line : ℕ} (hpos : 0 < line)
    (hle : line ≤ lines.length) :
    charIndex lines (line + 1) 0 = charIndex lines line (lines.getD (line - 1) []).length := by
  have hlt : line - 1 < lines.length := by omega
  have hnext : line - 1 + 1 = line := by omega
  have htake := List.take_succ_eq_append_getElem hlt
  rw [hnext] at htake
  rw [charIndex, charIndex, Nat.add_sub_cancel, htake, List.getD_eq_getElem _ _ hlt]
  simp only [List.flatten_append, List.flatten_singleton, List.length_append, Nat.add_zero]

section Lines

variable {line offset endline endoffset : ℕ}

theorem IsProgram.sectionStart_eq (hs : s.IsProgram) (hpos : 0 < line)
    (hle : line ≤ s.lines.length) :
    s.sectionStart line offset = some (some ((s.lines.getD (line - 1) []).drop offset)) := by
  rw [sectionStart, hs.get_line hpos hle]
  split
  next hzero => rw [hzero, List.drop_zero]
  next hsome =>
    rw [Option.map_some, SourceLine.extract_rest]

theorem sectionLines_line (hs : s.IsProgram) (hpos : 0 < line) (hle : line ≤ s.lines.length)
    (hoffset : offset ≤ endoffset) (hend : endoffset ≤ (s.lines.getD (line - 1) []).length) :
    (s.sectionLines line offset line endoffset).bind joinLines =
      some (between s.lines line offset line endoffset) := by
  rw [sectionLines, if_pos rfl, hs.get_line hpos hle, between_line hpos hle hoffset hend]
  simp [joinLines]

theorem sectionLines_lines (hs : s.IsProgram) (hpos : 0 < line) (hlt : line < endline)
    (hle : endline ≤ s.lines.length) :
    (s.sectionLines line offset endline endoffset).bind joinLines =
      some ((s.lines.getD (line - 1) []).drop offset ++
        ((s.lines.drop line).take (endline - 1 - line)).flatten ++
          if (s.lines.getD (endline - 1) []).length ≤ endoffset then
            s.lines.getD (endline - 1) []
          else (s.lines.getD (endline - 1) []).take (endoffset - 1)) := by
  have hcount : endline - (line + 1) = endline - 1 - line := by omega
  have hmap := hs.map_get (by omega : line + (endline - 1 - line) ≤ s.lines.length)
  have hfirst : s.sectionStart line offset = some (some _) := hs.sectionStart_eq hpos (by omega)
  have hjoin := joinLines_map_some ((s.lines.getD (line - 1) []).drop offset ::
    (s.lines.drop line).take (endline - 1 - line) ++
      [if (s.lines.getD (endline - 1) []).length ≤ endoffset then s.lines.getD (endline - 1) []
        else (s.lines.getD (endline - 1) []).take (endoffset - 1)])
  simp only [sectionLines, if_neg (Nat.ne_of_lt hlt), hfirst, hcount, hmap, if_pos hlt,
    hs.get_line (by omega : 0 < endline) hle]
  simpa [SourceLine.extract] using hjoin

theorem sectionLines_before (hs : s.IsProgram) (hpos : 0 < line) (hle : line ≤ s.lines.length)
    (hlt : endline < line) :
    (s.sectionLines line offset endline endoffset).bind joinLines = some [] := by
  have hfirst : s.sectionStart line offset = some (some _) := hs.sectionStart_eq hpos hle
  simp only [sectionLines, if_neg (Nat.ne_of_gt hlt), hfirst, if_neg (Nat.lt_asymm hlt)]
  rfl

theorem sectionLines_start (hs : s.IsProgram) (hpos : 0 < line) (hlt : line < endline)
    (hend : endline ≤ s.lines.length) (hoffset : offset ≤ (s.lines.getD (line - 1) []).length) :
    (s.sectionLines line offset (endline - 1) (s.lines.getD (endline - 1 - 1) []).length).bind
        joinLines = some (between s.lines line offset endline 0) := by
  have hsucc : endline - 1 + 1 = endline := by omega
  have hindex := charIndex_succ (by omega : 0 < endline - 1)
    (by omega : endline - 1 ≤ s.lines.length)
  rw [hsucc] at hindex
  have hbetween : between s.lines line offset endline 0 =
      between s.lines line offset (endline - 1) (s.lines.getD (endline - 1 - 1) []).length := by
    rw [between, between, hindex]
  rw [hbetween]
  rcases Nat.eq_or_lt_of_le (Nat.le_sub_one_of_lt hlt) with hsame | hbefore
  · rw [← hsame]
    exact sectionLines_line hs hpos (by omega) hoffset (Nat.le_refl _)
  · rw [sectionLines_lines hs hpos hbefore (by omega), if_pos (Nat.le_refl _),
      between_lines hpos hbefore (by omega) hoffset (Nat.le_refl _), List.take_length]

end Lines

theorem extractSource_eq {t : SourceText} {reconnect : Option SourceText}
    (hsource : s.connected reconnect = some t) (hline : 0 < location.line)
    (hcount : location.line ≤ t.line_count) (hend : location.endline ≠ 0) :
    s.extractSource reconnect location =
      if location.endoffset = 0 then
        (t.get (location.endline - 1)).bind fun line =>
          t.sectionLines location.line location.offset (location.endline - 1) line.length
      else t.sectionLines location.line location.offset location.endline location.endoffset := by
  have hrange : ¬ (location.line = 0 ∨ t.line_count < location.line - t.interpret_adjust) := by
    omega
  rw [extractSource, hsource]
  simp only [if_neg hrange, sectionEnd, if_neg hend]
  split
  · cases t.get (location.endline - 1) <;> rfl
  · rfl

theorem extractSource_program {t : SourceText} {reconnect : Option SourceText}
    (hsource : s.connected reconnect = some t) (ht : t.IsProgram) (h : t.Inside location)
    (hzero : t.interpret_adjust = 0) :
    (s.extractSource reconnect location).bind joinLines = some (t.text location) ↔
      location.line = location.endline ∨ location.endoffset = 0 ∨
        (t.lineText location.endline).length ≤ location.endoffset := by
  have hcount := ht.line_count_eq
  have hstart := h.start
  have hstop := h.stop
  have hordered := h.ordered
  have hoffset := h.offset
  have hendoffset := h.endoffset
  have hforward := h.forward
  simp only [lineText, hzero, Nat.sub_zero, Nat.zero_add] at hcount hstart hoffset hendoffset ⊢
  rw [extractSource_eq hsource hstart (by omega) (by omega)]
  simp only [text, hzero, Nat.sub_zero]
  by_cases hzeroEnd : location.endoffset = 0
  case pos =>
    refine iff_of_true ?_ (.inr (.inl hzeroEnd))
    obtain ⟨before, hbefore⟩ : ∃ before, t.get (location.endline - 1) = some before := by
      rcases Nat.eq_zero_or_pos (location.endline - 1) with hfirst | hpos
      · rw [hfirst]
        exact ht.get_zero
      · exact ⟨_, ht.get_line hpos (by omega)⟩
    rw [if_pos hzeroEnd, hbefore, Option.bind_some]
    rcases Nat.eq_or_lt_of_le hordered with hsame | hlt
    · have hfirst : location.offset = 0 := by omega
      refine (sectionLines_before ht hstart (by omega) (by omega)).trans ?_
      rw [hzeroEnd, hfirst, ← hsame, between, Nat.sub_self, List.take_zero]
    · have hline := ht.get_line (by omega : 0 < location.endline - 1) (by omega)
      obtain rfl := Option.some.inj (hbefore.symm.trans hline)
      rw [hzeroEnd]
      exact sectionLines_start ht hstart hlt (by omega) hoffset
  case neg =>
    rw [if_neg hzeroEnd]
    rcases Nat.eq_or_lt_of_le hordered with hsame | hlt
    · refine iff_of_true ?_ (.inl hsame)
      rw [← hsame]
      exact sectionLines_line ht hstart (by omega) (hforward hsame) (by rwa [hsame])
    · rw [sectionLines_lines ht hstart hlt (by omega),
        between_lines hstart hlt (by omega) hoffset hendoffset, Option.some.injEq,
        List.append_cancel_left_eq]
      have hne : location.line ≠ location.endline := Nat.ne_of_lt hlt
      by_cases hlen : (t.lines.getD (location.endline - 1) []).length ≤ location.endoffset
      · refine iff_of_true ?_ (.inr (.inr hlen))
        rw [if_pos hlen, List.take_of_length_le hlen]
      · refine iff_of_false (fun heq => ?_) (by tauto)
        have hlength := congrArg List.length heq
        rw [if_neg hlen, List.length_take, List.length_take] at hlength
        omega

theorem extractSource_interpret {t : SourceText} {reconnect : Option SourceText}
    (hsource : s.connected reconnect = some t) (ht : t.IsProgram) (h : t.Inside location)
    (hadjust : t.interpret_adjust ≠ 0) :
    (s.extractSource reconnect location).bind joinLines = some (t.text location) ↔
      t.interpret_adjust = 1 ∧ location.endoffset = 0 := by
  have hcount := ht.line_count_eq
  have hstart := h.start
  have hstop := h.stop
  have hordered := h.ordered
  have hone : t.lines.length = 1 := ht.single.resolve_left hadjust
  have hline : location.line = t.line_count := by omega
  have hsame : location.line = location.endline := by omega
  have hforward := h.forward hsame
  have hmissing : t.get location.line = none := ht.get_beyond (by omega) (by omega)
  rw [extractSource_eq hsource (by omega) (by omega) (by omega), ← hsame]
  by_cases hzeroEnd : location.endoffset = 0
  case neg =>
    refine iff_of_false ?_ fun hcond => hzeroEnd hcond.2
    rw [if_neg hzeroEnd, sectionLines, if_pos rfl, hmissing]
    simp
  case pos =>
    have hbefore : location.line - 1 = t.interpret_adjust := by omega
    have hfirst : location.offset = 0 := by omega
    have hnothing : t.text location = [] := by
      rw [text, hzeroEnd, hfirst, ← hsame, between, Nat.sub_self, List.take_zero]
    rw [if_pos hzeroEnd, hbefore, hnothing]
    by_cases hsecond : t.interpret_adjust = 1
    · refine iff_of_true ?_ ⟨hsecond, hzeroEnd⟩
      have hne : location.line ≠ 1 := by omega
      have hnot : ¬ location.line < 1 := by omega
      rw [hsecond, ht.get_line Nat.one_pos (by omega)]
      simp [sectionLines, sectionStart, hne, hfirst, hnot, joinLines]
    · refine iff_of_false ?_ fun hcond => hsecond hcond.1
      rw [ht.get_beyond (by omega) (by omega)]
      simp

/-- Extraction is exact but for a text of several lines that ends in mid-line, and for
INTERPRET strings, whose lines `extractSource` does not find. -/
theorem extraction_exact_iff {t : SourceText} {reconnect : Option SourceText}
    (hsource : s.connected reconnect = some t) (ht : t.IsProgram) (h : t.Inside location) :
    (s.extract reconnect location = some (t.text location) ∧
        (s.extractSource reconnect location).bind joinLines = some (t.text location)) ↔
      (t.interpret_adjust = 0 ∧
          (location.line = location.endline ∨ location.endoffset = 0 ∨
            (t.lineText location.endline).length ≤ location.endoffset)) ∨
        (t.interpret_adjust = 1 ∧ location.endoffset = 0) := by
  simp only [extract_eq hsource ht h, true_and]
  by_cases hzero : t.interpret_adjust = 0
  · rw [extractSource_program hsource ht h hzero]
    simp [hzero]
  · rw [extractSource_interpret hsource ht h hzero]
    simp [hzero]

/-- The lines `ab` and `cd`. -/
def twoLines : SourceText := ⟨some (.sourceArray [[97, 98], [99, 100]]), 2, 0⟩

theorem extraction_exact_iff_twoLines :
    (twoLines.extract none ⟨1, 1, 2, 2⟩ = some (twoLines.text ⟨1, 1, 2, 2⟩) ∧
        (twoLines.extractSource none ⟨1, 1, 2, 2⟩).bind joinLines =
          some (twoLines.text ⟨1, 1, 2, 2⟩)) ↔
      (twoLines.interpret_adjust = 0 ∧
          (1 = 2 ∨ 2 = 0 ∨ (twoLines.lineText 2).length ≤ 2)) ∨
        (twoLines.interpret_adjust = 1 ∧ 2 = 0) :=
  extraction_exact_iff rfl ⟨rfl, .inl rfl⟩
    ⟨by decide, by decide, by decide, by decide, by decide, by decide⟩

/-- The text from the first line to before the `d` loses the `c` as well. -/
theorem extractSource_short :
    twoLines.IsProgram ∧ twoLines.Inside ⟨1, 0, 2, 1⟩ ∧
      twoLines.extract none ⟨1, 0, 2, 1⟩ = some [97, 98, 99] ∧
      twoLines.extractSource none ⟨1, 0, 2, 1⟩ = some [some [97, 98], some []] ∧
      ¬ (twoLines.extractSource none ⟨1, 0, 2, 1⟩).bind joinLines =
        some (twoLines.text ⟨1, 0, 2, 1⟩) :=
  ⟨⟨rfl, .inl rfl⟩, ⟨by decide, by decide, by decide, by decide, by decide, by decide⟩,
    by decide, by decide, by decide⟩

end SourceText

end LeooRexx
