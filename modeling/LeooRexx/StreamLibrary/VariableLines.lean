import Mathlib.Data.List.Basic

/-!
# Lines of a persistent stream

`LINEIN` on a stream that is not binary: `read_variable_line` reads blocks into a buffer that is
made larger until a line end is found.  What a buffer holds before anything is read into it is
arbitrary.
-/

namespace LeooRexx

namespace VariableLines

def nl : UInt8 := 0x0A

def cr : UInt8 := 0x0D

def default_buffer_size : ℕ := 128

def line_end_size : ℕ := 1

structure STREAM_INFO where
  file : List UInt8
  tell : ℕ
  feof : Bool
  eof_state : Bool
  char_read_position : ℕ
  line_read_position : ℕ
  line_read_char_position : ℕ
  pseudo_lines : ℕ

def read_setup (stream_info : STREAM_INFO) : STREAM_INFO :=
  let stream_info := { stream_info with eof_state := false }
  if stream_info.char_read_position - 1 ≠ stream_info.tell then
    { stream_info with tell := stream_info.char_read_position - 1, feof := false }
  else stream_info

abbrev Storage := ℕ → ℕ → UInt8

/-- The locals of `read_variable_line`, and whether a byte behind those read was looked at. -/
structure Scan where
  stream_info : STREAM_INFO
  read_buffer : ℕ → UInt8
  read_buffer_size : ℕ
  current_buffer_size : ℕ
  buffer_length : ℕ
  buffer_index : ℕ
  overread : Bool

/-- Up to `length` bytes, from `offset` of the buffer on. -/
def read_stream_buffer (stream_info : STREAM_INFO) (buffer : ℕ → UInt8) (offset length : ℕ) :
    ℕ × (ℕ → UInt8) × STREAM_INFO :=
  let result := min length (stream_info.file.length - stream_info.tell)
  (result,
    fun i => if offset ≤ i ∧ i < offset + result then
      stream_info.file.getD (stream_info.tell + (i - offset)) 0 else buffer i,
    { stream_info with
      tell := stream_info.tell + result
      feof := stream_info.feof || decide (result < length) })

def isDelimiter (b : UInt8) : Bool := b == cr || b == nl || b == 0

def mempbrk (buffer : ℕ → UInt8) (start : ℕ) : ℕ → Option ℕ
  | 0 => none
  | length + 1 =>
      if isDelimiter (buffer start) then some start else mempbrk buffer (start + 1) length

def scan_pointer (s : Scan) : Option ℕ :=
  match mempbrk s.read_buffer s.buffer_index (s.buffer_length - s.buffer_index) with
  | some p => if p = s.current_buffer_size - 1 then none else some p
  | none => none

def extendBuffer (storage : Storage) (s : Scan) : Scan :=
  let read_buffer_size := s.read_buffer_size * 2
  let current_buffer_size := s.current_buffer_size + read_buffer_size
  let new_buffer := fun i =>
    if i < s.buffer_length then s.read_buffer i else storage current_buffer_size i
  let (read_count, read_buffer, stream_info) :=
    read_stream_buffer s.stream_info new_buffer s.buffer_length read_buffer_size
  { s with
    stream_info := stream_info
    read_buffer := read_buffer
    read_buffer_size := read_buffer_size
    current_buffer_size := current_buffer_size
    buffer_length := s.buffer_length + read_count
    buffer_index := s.buffer_length - line_end_size + 1 - 1 }

structure LineEnd where
  line_length : ℕ
  delimiterLength : ℕ
  scan : Scan

def scanStep (storage : Storage) (s : Scan) : Scan ⊕ LineEnd :=
  match scan_pointer s with
  | some p =>
      if s.read_buffer p = 0 then .inl { s with buffer_index := p + 1 }
      else if s.read_buffer p = cr then
        let s := { s with overread := s.overread || decide (s.buffer_length ≤ p + 1) }
        if s.read_buffer (p + 1) = nl then .inr ⟨p, 2, s⟩
        else .inl { s with buffer_index := p + 1 }
      else .inr ⟨p, 1, s⟩
  | none =>
      let buffer_index := s.buffer_length - line_end_size + 1
      if s.stream_info.feof && decide (buffer_index < s.current_buffer_size) then
        .inr ⟨s.buffer_length, 1,
          { s with stream_info := { s.stream_info with eof_state := true } }⟩
      else .inl (extendBuffer storage s)

def scanLoop (storage : Storage) : ℕ → Scan → Option LineEnd
  | 0, _ => none
  | fuel + 1, s =>
      match scanStep storage s with
      | .inl s => scanLoop storage fuel s
      | .inr lineEnd => some lineEnd

def startScan (storage : Storage) (stream_info : STREAM_INFO) : Scan :=
  let (read_count, read_buffer, stream_info) :=
    read_stream_buffer stream_info (storage default_buffer_size) 0 default_buffer_size
  { stream_info := stream_info
    read_buffer := read_buffer
    read_buffer_size := default_buffer_size
    current_buffer_size := default_buffer_size
    buffer_length := read_count
    buffer_index := 0
    overread := false }

inductive Condition where
  | NOTREADY
  deriving DecidableEq

structure Line where
  text : List UInt8
  stream_info : STREAM_INFO
  overread : Bool

def stepBehind (stream_info : STREAM_INFO) (count : ℕ) : STREAM_INFO :=
  let char_read_position := stream_info.char_read_position + count
  if stream_info.line_read_position ≠ 0 then
    { stream_info with
      char_read_position := char_read_position
      line_read_char_position := char_read_position
      line_read_position := stream_info.line_read_position + 1 }
  else { stream_info with char_read_position := char_read_position }

def read_variable_line (storage : Storage) (fuel : ℕ) (stream_info : STREAM_INFO) :
    Option (Except Condition Line) :=
  let s := startScan storage stream_info
  if s.buffer_length = 0 then some (.error .NOTREADY)
  else
    (scanLoop storage fuel s).map fun lineEnd =>
      .ok ⟨(List.range lineEnd.line_length).map lineEnd.scan.read_buffer,
        stepBehind lineEnd.scan.stream_info (lineEnd.line_length + lineEnd.delimiterLength),
        lineEnd.scan.overread⟩

/-- `LINEIN` without arguments. -/
def stream_linein (storage : Storage) (fuel : ℕ) (stream_info : STREAM_INFO) :
    Option (Except Condition Line) :=
  (read_variable_line storage fuel (read_setup stream_info)).map fun result =>
    result.map fun line =>
      { line with stream_info :=
          { line.stream_info with pseudo_lines := line.stream_info.pseudo_lines - 1 } }

structure Lines where
  texts : List (List UInt8)
  stream_info : STREAM_INFO
  overread : Bool

def lineinTimes (storage : ℕ → Storage) (fuel : ℕ) (stream_info : STREAM_INFO) :
    ℕ → Option (Except Condition Lines)
  | 0 => some (.ok ⟨[], stream_info, false⟩)
  | k + 1 =>
      match lineinTimes storage fuel stream_info k with
      | some (.ok lines) =>
          (stream_linein (storage k) fuel lines.stream_info).map fun result =>
            result.map fun line =>
              ⟨lines.texts ++ [line.text], line.stream_info, lines.overread || line.overread⟩
      | other => other

/-! ## The lines of a content -/

def splitLines : List UInt8 → List (List UInt8)
  | [] => []
  | b :: bytes =>
      if b = nl then [b] :: splitLines bytes
      else
        match splitLines bytes with
        | [] => [[b]]
        | line :: lines => (b :: line) :: lines

def chop (bytes : List UInt8) : List UInt8 :=
  if bytes.getLast? = some cr then bytes.dropLast else bytes

def lineText (line : List UInt8) : List UInt8 :=
  if line.getLast? = some nl then chop line.dropLast else line

def consumed (content : List UInt8) (k : ℕ) : ℕ := ((splitLines content).take k).flatten.length

/-- Each of the first `k` calls ends, returns the next line and stops behind it, and looks at no
byte that was not read. -/
def ReadsLines (storage : ℕ → Storage) (fuel : ℕ) (stream_info : STREAM_INFO) (k : ℕ) : Prop :=
  ∀ j ≤ k, ∃ lines, lineinTimes storage fuel stream_info j = some (.ok lines) ∧
    lines.texts = ((splitLines stream_info.file).take j).map lineText ∧
    lines.stream_info.char_read_position = 1 + consumed stream_info.file j ∧
    lines.overread = false

variable {storage : Storage} {s s' : Scan} {rest content pre post : List UInt8}
  {buffer : ℕ → UInt8} {start length p e fuel k : ℕ} {stream_info : STREAM_INFO}

theorem splitLines_terminated (hpre : nl ∉ pre) :
    splitLines (pre ++ nl :: post) = (pre ++ [nl]) :: splitLines post := by
  induction pre with
  | nil => rw [List.nil_append, splitLines, if_pos rfl, List.nil_append]
  | cons b pre ih =>
      have hb : b ≠ nl := fun h => hpre (h ▸ List.mem_cons_self)
      rw [List.cons_append, splitLines, if_neg hb,
        ih fun h => hpre (List.mem_cons_of_mem b h)]
      rfl

theorem splitLines_rest (hrest : nl ∉ rest) (hne : rest ≠ []) : splitLines rest = [rest] := by
  induction rest with
  | nil => exact absurd rfl hne
  | cons b rest ih =>
      have hb : b ≠ nl := fun h => hrest (h ▸ List.mem_cons_self)
      rw [splitLines, if_neg hb]
      cases rest with
      | nil => rfl
      | cons b' rest => rw [ih (fun h => hrest (List.mem_cons_of_mem b h)) (List.cons_ne_nil _ _)]

/-! ## One turn of the loop -/

theorem mempbrk_eq_some (h : mempbrk buffer start length = some p) :
    start ≤ p ∧ p < start + length ∧ isDelimiter (buffer p) = true ∧
      ∀ i, start ≤ i → i < p → isDelimiter (buffer i) = false := by
  induction length generalizing start with
  | zero => cases h
  | succ length ih =>
      rw [mempbrk] at h
      split at h
      next hfound =>
        obtain rfl := Option.some.inj h
        exact ⟨Nat.le_refl _, by omega, hfound, fun i hi hlt => by omega⟩
      next hnot =>
        obtain ⟨hstart, hend, hdelimiter, hbefore⟩ := ih h
        refine ⟨by omega, by omega, hdelimiter, ?_⟩
        intro i hi hlt
        rcases Nat.eq_or_lt_of_le hi with rfl | hlater
        · exact Bool.eq_false_iff.mpr hnot
        · exact hbefore i hlater hlt

theorem mempbrk_eq_none (h : mempbrk buffer start length = none) :
    ∀ i, start ≤ i → i < start + length → isDelimiter (buffer i) = false := by
  induction length generalizing start with
  | zero =>
      intro i hi hlt
      omega
  | succ length ih =>
      rw [mempbrk] at h
      split at h
      next => cases h
      next hnot =>
        intro i hi hlt
        rcases Nat.eq_or_lt_of_le hi with rfl | hlater
        · exact Bool.eq_false_iff.mpr hnot
        · exact ih h i hlater (by omega)

/-- Where the scan of the bytes `rest` from the position of the line on has got to. -/
structure ScanSound (rest : List UInt8) (s : Scan) : Prop where
  tail : s.stream_info.file.drop (s.stream_info.tell - s.buffer_length) = rest
  tell : s.buffer_length ≤ s.stream_info.tell
  bytes : ∀ i < s.buffer_length, rest[i]? = some (s.read_buffer i)
  filled : s.buffer_length = min s.current_buffer_size rest.length
  growth : 0 < s.read_buffer_size
  some_read : 0 < s.buffer_length
  index : s.buffer_index ≤ s.buffer_length
  index_full : s.buffer_length = s.current_buffer_size → s.buffer_index < s.current_buffer_size
  feof : s.stream_info.feof = decide (s.buffer_length < s.current_buffer_size)
  ahead : ∀ e, rest[e]? = some nl →
    s.buffer_index ≤ e ∧ (1 ≤ e → rest[e - 1]? = some cr → s.buffer_index ≤ e - 1)
  clean : nl ∈ rest → s.overread = false

def turns (rest : List UInt8) (s : Scan) : ℕ :=
  rest.length - s.buffer_index + (rest.length - s.buffer_length) +
    if s.buffer_length = s.current_buffer_size then 1 else 0

/-- How the loop may end: behind the first line feed, or behind everything and one more byte. -/
structure EndsAt (rest : List UInt8) (lineEnd : LineEnd) : Prop where
  terminated : ∀ e, rest[e]? = some nl → (∀ i < e, rest[i]? ≠ some nl) →
    lineEnd.line_length + lineEnd.delimiterLength = e + 1 ∧
      (List.range lineEnd.line_length).map lineEnd.scan.read_buffer = chop (rest.take e) ∧
      lineEnd.scan.overread = false
  unterminated : nl ∉ rest →
    lineEnd.line_length + lineEnd.delimiterLength = rest.length + 1
  tell : lineEnd.scan.stream_info.feof = true →
    lineEnd.scan.stream_info.file.length ≤ lineEnd.scan.stream_info.tell

theorem ScanSound.length_le (h : ScanSound rest s) : s.buffer_length ≤ rest.length := by
  rw [h.filled]
  exact Nat.min_le_right _ _

theorem ScanSound.at_end (h : ScanSound rest s) (hfeof : s.stream_info.feof = true) :
    s.stream_info.file.length ≤ s.stream_info.tell := by
  have hshort := h.feof
  rw [hfeof, eq_comm, decide_eq_true_iff] at hshort
  have hlength := congrArg List.length h.tail
  rw [List.length_drop] at hlength
  have hfilled := h.filled
  have htell := h.tell
  omega

theorem isDelimiter_false {b : UInt8} (h : isDelimiter b = false) : b ≠ cr ∧ b ≠ nl := by
  simp only [isDelimiter, Bool.or_eq_false_iff, beq_eq_false_iff_ne] at h
  exact ⟨h.1.1, h.1.2⟩

theorem ScanSound.ahead_of (h : ScanSound rest s) (hlt : p ≤ s.buffer_length)
    (hbefore : ∀ i, s.buffer_index ≤ i → i < p → isDelimiter (s.read_buffer i) = false) :
    ∀ e, rest[e]? = some nl → p ≤ e ∧ (1 ≤ e → rest[e - 1]? = some cr → p ≤ e - 1) := by
  intro e he
  obtain ⟨hindex, hcr⟩ := h.ahead e he
  have hskip : ∀ i b, s.buffer_index ≤ i → rest[i]? = some b → b = cr ∨ b = nl → p ≤ i := by
    intro i b hi hb hkind
    by_contra hlt'
    have hbyte := h.bytes i (by omega)
    rw [hb] at hbyte
    obtain rfl := Option.some.inj hbyte
    have hnot := isDelimiter_false (hbefore i hi (by omega))
    rcases hkind with hkind | hkind
    · exact hnot.1 hkind
    · exact hnot.2 hkind
  refine ⟨hskip e nl hindex he (.inr rfl), ?_⟩
  intro hone hcrAt
  exact hskip (e - 1) cr (hcr hone hcrAt) hcrAt (.inl rfl)

theorem ScanSound.pointer (h : ScanSound rest s) (hp : scan_pointer s = some p) :
    s.buffer_index ≤ p ∧ p < s.buffer_length ∧ p + 1 < s.current_buffer_size ∧
      isDelimiter (s.read_buffer p) = true ∧
      ∀ i, s.buffer_index ≤ i → i < p → isDelimiter (s.read_buffer i) = false := by
  rw [scan_pointer] at hp
  have hfilled := h.filled
  have hindex := h.index
  split at hp
  next q hq =>
    split at hp
    next => cases hp
    next hlast =>
      obtain rfl := Option.some.inj hp
      obtain ⟨hstart, hend, hdelimiter, hbefore⟩ := mempbrk_eq_some hq
      exact ⟨hstart, by omega, by omega, hdelimiter, hbefore⟩
  next => cases hp

theorem ScanSound.no_pointer (h : ScanSound rest s) (hp : scan_pointer s = none) :
    ∀ i, s.buffer_index ≤ i → i < s.buffer_length → i + 1 < s.current_buffer_size ∨
      s.buffer_length < s.current_buffer_size → isDelimiter (s.read_buffer i) = false := by
  intro i hi hlt hplace
  have hindex := h.index
  rw [scan_pointer] at hp
  split at hp
  next q hq =>
    split at hp
    next hlast =>
      obtain ⟨hstart, hend, -, hbefore⟩ := mempbrk_eq_some hq
      exact hbefore i hi (by omega)
    next => cases hp
  next hq => exact mempbrk_eq_none hq i hi (by omega)

theorem ScanSound.step (h : ScanSound rest s) (hlt : p < s.buffer_length)
    (hroom : p + 1 < s.current_buffer_size) (hindex : s.buffer_index ≤ p) {overread : Bool}
    (hahead : ∀ e, rest[e]? = some nl →
      p + 1 ≤ e ∧ (1 ≤ e → rest[e - 1]? = some cr → p + 1 ≤ e - 1))
    (hclean : nl ∈ rest → overread = false) :
    ScanSound rest { s with buffer_index := p + 1, overread := overread } ∧
      turns rest { s with buffer_index := p + 1, overread := overread } < turns rest s := by
  have hlength := h.length_le
  refine ⟨⟨h.tail, h.tell, h.bytes, h.filled, h.growth, h.some_read, hlt, fun _ => hroom, h.feof,
    hahead, hclean⟩, ?_⟩
  simp only [turns]
  omega

theorem getElem?_drop_getD {file : List UInt8} {skip i : ℕ} (hi : skip + i < file.length) :
    (file.drop skip)[i]? = some (file.getD (skip + i) 0) := by
  rw [List.getElem?_drop, List.getD_eq_getElem?_getD, List.getElem?_eq_getElem hi]
  rfl

theorem ScanSound.extend (h : ScanSound rest s) (storage : Storage)
    (hfull : s.buffer_length = s.current_buffer_size) (hnone : scan_pointer s = none) :
    ScanSound rest (extendBuffer storage s) ∧
      turns rest (extendBuffer storage s) < turns rest s := by
  have hlength := h.length_le
  have hsome := h.some_read
  have hindex := h.index_full hfull
  have htell := h.tell
  have hgrowth := h.growth
  have htail := congrArg List.length h.tail
  rw [List.length_drop] at htail
  generalize hresult : min (s.read_buffer_size * 2)
    (s.stream_info.file.length - s.stream_info.tell) = result
  have hnew : s.buffer_length + result =
      min (s.current_buffer_size + s.read_buffer_size * 2) rest.length := by omega
  have hlast : s.buffer_length - line_end_size + 1 - 1 = s.buffer_length - 1 := by
    rw [line_end_size]
    omega
  have hahead := h.ahead_of (Nat.sub_le s.buffer_length 1) fun i hi hlt =>
    h.no_pointer hnone i hi (by omega) (.inl (by omega))
  constructor
  · refine ⟨?_, ?_, ?_, ?_, ?_, ?_, ?_, ?_, ?_, ?_, h.clean⟩
    · change s.stream_info.file.drop (s.stream_info.tell + min (s.read_buffer_size * 2)
        (s.stream_info.file.length - s.stream_info.tell) -
          (s.buffer_length + min (s.read_buffer_size * 2)
            (s.stream_info.file.length - s.stream_info.tell))) = rest
      rw [Nat.add_sub_add_right]
      exact h.tail
    · change s.buffer_length + min (s.read_buffer_size * 2) _ ≤
        s.stream_info.tell + min (s.read_buffer_size * 2) _
      omega
    · intro i hi
      replace hi : i < s.buffer_length + result := hresult ▸ hi
      change rest[i]? = some (if s.buffer_length ≤ i ∧ i < s.buffer_length +
          min (s.read_buffer_size * 2) (s.stream_info.file.length - s.stream_info.tell) then
        s.stream_info.file.getD (s.stream_info.tell + (i - s.buffer_length)) 0
        else if i < s.buffer_length then s.read_buffer i
        else storage (s.current_buffer_size + s.read_buffer_size * 2) i)
      rw [hresult]
      rcases Nat.lt_or_ge i s.buffer_length with hold | hread
      · rw [if_neg (by omega), if_pos hold]
        exact h.bytes i hold
      · have hplace : s.stream_info.tell + (i - s.buffer_length) =
            s.stream_info.tell - s.buffer_length + i := by omega
        rw [if_pos ⟨hread, hi⟩, hplace, ← h.tail]
        exact getElem?_drop_getD (by omega)
    · change s.buffer_length + min (s.read_buffer_size * 2) _ = _
      rw [hresult]
      exact hnew
    · change 0 < s.read_buffer_size * 2
      omega
    · change 0 < s.buffer_length + min (s.read_buffer_size * 2) _
      omega
    · change s.buffer_length - line_end_size + 1 - 1 ≤
        s.buffer_length + min (s.read_buffer_size * 2) _
      omega
    · intro _
      change s.buffer_length - line_end_size + 1 - 1 <
        s.current_buffer_size + s.read_buffer_size * 2
      omega
    · change (s.stream_info.feof || decide (min (s.read_buffer_size * 2)
          (s.stream_info.file.length - s.stream_info.tell) < s.read_buffer_size * 2)) =
        decide (s.buffer_length + min (s.read_buffer_size * 2)
          (s.stream_info.file.length - s.stream_info.tell) <
            s.current_buffer_size + s.read_buffer_size * 2)
      rw [h.feof, hresult, hfull, decide_eq_false (Nat.lt_irrefl _), Bool.false_or]
      congr 1
      apply propext
      omega
    · intro e he
      change s.buffer_length - line_end_size + 1 - 1 ≤ e ∧
        (1 ≤ e → rest[e - 1]? = some cr → s.buffer_length - line_end_size + 1 - 1 ≤ e - 1)
      rw [hlast]
      exact hahead e he
  · change rest.length - (s.buffer_length - line_end_size + 1 - 1) +
        (rest.length - (s.buffer_length + min (s.read_buffer_size * 2) _)) +
        (if s.buffer_length + min (s.read_buffer_size * 2) _ =
          s.current_buffer_size + s.read_buffer_size * 2 then 1 else 0) < turns rest s
    rw [hresult, hlast, turns, if_pos hfull]
    split
    next => omega
    next => omega

theorem map_range_eq_take (hbytes : ∀ i < p, rest[i]? = some (buffer i)) :
    (List.range p).map buffer = rest.take p := by
  apply List.ext_getElem?
  intro i
  rw [List.getElem?_map, List.getElem?_take]
  rcases Nat.lt_or_ge i p with hlt | hge
  · rw [if_pos hlt, hbytes i hlt, List.getElem?_range hlt]
    rfl
  · rw [if_neg (Nat.not_lt.mpr hge), List.getElem?_eq_none_iff.mpr (by simpa using hge)]
    rfl

theorem chop_of_cr (hp : rest[p]? = some cr) : chop (rest.take (p + 1)) = rest.take p := by
  rw [List.take_add_one, hp, chop]
  simp

theorem chop_of_not_cr (hlength : e ≤ rest.length)
    (hnot : 1 ≤ e → rest[e - 1]? ≠ some cr) : chop (rest.take e) = rest.take e := by
  apply if_neg
  intro hlast
  rw [List.getLast?_eq_getElem?, List.length_take_of_le hlength] at hlast
  rcases Nat.eq_zero_or_pos e with rfl | hpos
  · simp at hlast
  · rw [List.getElem?_take, if_pos (by omega)] at hlast
    exact hnot hpos hlast

theorem ScanSound.nothing_behind (h : ScanSound rest s)
    (hshort : s.buffer_length < s.current_buffer_size) : s.buffer_length = rest.length := by
  have hfilled := h.filled
  omega

/-- A delimiter with room behind it, in front of which nothing belongs to a line end. -/
structure AtDelimiter (rest : List UInt8) (s : Scan) (p : ℕ) : Prop where
  index : s.buffer_index ≤ p
  lt : p < s.buffer_length
  room : p + 1 < s.current_buffer_size
  byte : rest[p]? = some (s.read_buffer p)
  delimiter : isDelimiter (s.read_buffer p) = true
  ahead : ∀ e, rest[e]? = some nl → p ≤ e ∧ (1 ≤ e → rest[e - 1]? = some cr → p ≤ e - 1)

theorem ScanSound.atDelimiter (h : ScanSound rest s) (hp : scan_pointer s = some p) :
    AtDelimiter rest s p := by
  obtain ⟨hindex, hlt, hroom, hdelimiter, hbefore⟩ := h.pointer hp
  exact ⟨hindex, hlt, hroom, h.bytes p hlt, hdelimiter,
    h.ahead_of (Nat.le_of_lt hlt) hbefore⟩

theorem AtDelimiter.lt_of_nl (h : AtDelimiter rest s p) (hnl : s.read_buffer p ≠ nl)
    (he : rest[e]? = some nl) : p < e := by
  have hle := (h.ahead e he).1
  have hne : e ≠ p := by
    rintro rfl
    exact hnl (Option.some.inj (h.byte.symm.trans he))
  omega

theorem AtDelimiter.over (h : AtDelimiter rest s p) (hnl : s.read_buffer p ≠ nl)
    (hcr : s.read_buffer p = cr → rest[p + 1]? ≠ some nl) :
    ∀ e, rest[e]? = some nl →
      p + 1 ≤ e ∧ (1 ≤ e → rest[e - 1]? = some cr → p + 1 ≤ e - 1) := by
  intro e he
  have hlt := h.lt_of_nl hnl he
  refine ⟨hlt, fun hone hcrAt => ?_⟩
  have hle := (h.ahead e he).2 hone hcrAt
  have hne : e - 1 ≠ p := by
    intro heq
    rw [heq, h.byte] at hcrAt
    have hnext : p + 1 = e := by omega
    exact hcr (Option.some.inj hcrAt) (hnext ▸ he)
  omega

theorem AtDelimiter.next_read (h : AtDelimiter rest s p) (hs : ScanSound rest s)
    (hnl : s.read_buffer p ≠ nl) (hmem : nl ∈ rest) : p + 1 < s.buffer_length := by
  obtain ⟨e, he⟩ := List.mem_iff_getElem?.mp hmem
  have hlt := h.lt_of_nl hnl he
  have helt := (List.getElem?_eq_some_iff.mp he).1
  have hfilled := hs.filled
  have hroom := h.room
  omega

theorem ScanSound.line_eq (h : ScanSound rest s) (hlt : p < s.buffer_length) :
    (List.range p).map s.read_buffer = rest.take p :=
  map_range_eq_take fun i hi => h.bytes i (by omega)

theorem AtDelimiter.endsAt_nl (h : AtDelimiter rest s p) (hs : ScanSound rest s)
    (hnl : s.read_buffer p = nl) : EndsAt rest ⟨p, 1, s⟩ := by
  have hnlByte : rest[p]? = some nl := hnl ▸ h.byte
  refine ⟨?_, fun hnone => absurd (List.mem_of_getElem? hnlByte) hnone, hs.at_end⟩
  intro e he hfirst
  have hle := (h.ahead e he).1
  have hlast : ¬ p < e := fun hlater => hfirst p hlater hnlByte
  obtain rfl : e = p := by omega
  refine ⟨rfl, ?_, hs.clean (List.mem_of_getElem? he)⟩
  have hlength := hs.length_le
  have hlt := h.lt
  rw [chop_of_not_cr (by omega)]
  · exact hs.line_eq hlt
  · intro hone hcrAt
    have hbefore := (h.ahead e he).2 hone hcrAt
    omega

theorem AtDelimiter.endsAt_cr (h : AtDelimiter rest s p) (hs : ScanSound rest s)
    (hcr : s.read_buffer p = cr) (hnext : s.read_buffer (p + 1) = nl) {overread : Bool}
    (hclean : nl ∈ rest → overread = false) :
    EndsAt rest ⟨p, 2, { s with overread := overread }⟩ := by
  have hnotNl : s.read_buffer p ≠ nl := by rw [hcr]; decide
  have hnextByte : p + 1 < s.buffer_length → rest[p + 1]? = some nl := fun hin =>
    hnext ▸ hs.bytes (p + 1) hin
  refine ⟨?_, ?_, hs.at_end⟩
  · intro e he hfirst
    have hmem : nl ∈ rest := List.mem_of_getElem? he
    have hlt := h.lt_of_nl hnotNl he
    have hlast : ¬ p + 1 < e := fun hlater =>
      hfirst (p + 1) hlater (hnextByte (h.next_read hs hnotNl hmem))
    obtain rfl : e = p + 1 := by omega
    refine ⟨rfl, ?_, hclean hmem⟩
    rw [chop_of_cr (hcr ▸ h.byte)]
    exact hs.line_eq h.lt
  · intro hnone
    -- the buffer goes on behind the data
    have hout : ¬ p + 1 < s.buffer_length := fun hin =>
      hnone (List.mem_of_getElem? (hnextByte hin))
    have hfilled := hs.filled
    have hlt := h.lt
    have hroom := h.room
    change p + 2 = rest.length + 1
    omega

theorem ScanSound.endsAt_end (h : ScanSound rest s)
    (hshort : s.buffer_length < s.current_buffer_size) (hp : scan_pointer s = none) :
    EndsAt rest ⟨s.buffer_length, 1,
      { s with stream_info := { s.stream_info with eof_state := true } }⟩ := by
  have hend := h.nothing_behind hshort
  have hahead := h.ahead_of (Nat.le_refl _) fun i hi hlt =>
    h.no_pointer hp i hi hlt (.inr hshort)
  have hnone : ∀ e : ℕ, rest[e]? ≠ some nl := by
    intro e he
    have hbehind := (hahead e he).1
    rw [List.getElem?_eq_none_iff.mpr (by omega)] at he
    cases he
  have hfeof : s.stream_info.feof = true := by
    rw [h.feof]
    exact decide_eq_true hshort
  refine ⟨fun e he => absurd he (hnone e), fun _ => ?_, fun _ => h.at_end hfeof⟩
  change s.buffer_length + 1 = rest.length + 1
  rw [hend]

theorem scanStep_spec (h : ScanSound rest s) (storage : Storage) :
    (∃ s', scanStep storage s = .inl s' ∧ ScanSound rest s' ∧ turns rest s' < turns rest s) ∨
      ∃ lineEnd, scanStep storage s = .inr lineEnd ∧ EndsAt rest lineEnd := by
  rw [scanStep]
  cases hpointer : scan_pointer s with
  | none =>
      have hsome := h.some_read
      have hlast : s.buffer_length - line_end_size + 1 = s.buffer_length := by
        rw [line_end_size]
        omega
      simp only [hlast]
      rcases Nat.lt_or_ge s.buffer_length s.current_buffer_size with hshort | hfull
      · have hended : (s.stream_info.feof &&
            decide (s.buffer_length < s.current_buffer_size)) = true := by
          rw [h.feof, decide_eq_true hshort, Bool.and_self]
        rw [if_pos hended]
        exact .inr ⟨_, rfl, h.endsAt_end hshort hpointer⟩
      · rw [decide_eq_false (Nat.not_lt.mpr hfull), Bool.and_false]
        have hcapacity : s.buffer_length = s.current_buffer_size := by
          have hfilled := h.filled
          omega
        exact .inl ⟨_, rfl, h.extend storage hcapacity hpointer⟩
  | some p =>
      have hat := h.atDelimiter hpointer
      simp only
      by_cases hnul : s.read_buffer p = 0
      · rw [if_pos hnul]
        have hnl : s.read_buffer p ≠ nl := by rw [hnul]; decide
        have hcr : s.read_buffer p ≠ cr := by rw [hnul]; decide
        exact .inl ⟨_, rfl, h.step hat.lt hat.room hat.index
          (hat.over hnl fun hcr' => absurd hcr' hcr) h.clean⟩
      rw [if_neg hnul]
      by_cases hcr : s.read_buffer p = cr
      · rw [if_pos hcr]
        have hnotNl : s.read_buffer p ≠ nl := by rw [hcr]; decide
        have hclean : nl ∈ rest →
            (s.overread || decide (s.buffer_length ≤ p + 1)) = false := by
          intro hmem
          rw [h.clean hmem, Bool.false_or]
          exact decide_eq_false (Nat.not_le.mpr (hat.next_read h hnotNl hmem))
        by_cases hnext : s.read_buffer (p + 1) = nl
        · rw [if_pos hnext]
          exact .inr ⟨_, rfl, hat.endsAt_cr h hcr hnext hclean⟩
        · rw [if_neg hnext]
          have hnotNext : rest[p + 1]? ≠ some nl := by
            intro hnl
            have hin := hat.next_read h hnotNl (List.mem_of_getElem? hnl)
            rw [h.bytes (p + 1) hin] at hnl
            exact hnext (Option.some.inj hnl)
          exact .inl ⟨_, rfl, h.step hat.lt hat.room hat.index
            (hat.over hnotNl fun _ => hnotNext) hclean⟩
      · rw [if_neg hcr]
        have hnl : s.read_buffer p = nl := by
          have hdelimiter := hat.delimiter
          simp only [isDelimiter, Bool.or_eq_true, beq_iff_eq] at hdelimiter
          tauto
        exact .inr ⟨_, rfl, hat.endsAt_nl h hnl⟩

theorem scanLoop_spec (h : ScanSound rest s) (storage : Storage) (hfuel : turns rest s < fuel) :
    ∃ lineEnd, scanLoop storage fuel s = some lineEnd ∧ EndsAt rest lineEnd := by
  induction fuel generalizing s with
  | zero => exact absurd hfuel (Nat.not_lt_zero _)
  | succ fuel ih =>
      rw [scanLoop]
      rcases scanStep_spec h storage with ⟨s', hstep, hsound, hless⟩ | ⟨lineEnd, hstep, hends⟩
      · rw [hstep]
        exact ih hsound (by omega)
      · rw [hstep]
        exact ⟨lineEnd, rfl, hends⟩

/-! ## One call -/

structure SameStream (stream_info stream_info' : STREAM_INFO) : Prop where
  file : stream_info'.file = stream_info.file
  position : stream_info'.char_read_position = stream_info.char_read_position

theorem SameStream.trans {a b c : STREAM_INFO} (h : SameStream a b) (h' : SameStream b c) :
    SameStream a c := ⟨h'.file.trans h.file, h'.position.trans h.position⟩

def resultStream : Scan ⊕ LineEnd → STREAM_INFO
  | .inl s => s.stream_info
  | .inr lineEnd => lineEnd.scan.stream_info

theorem scanStep_same (storage : Storage) (s : Scan) :
    SameStream s.stream_info (resultStream (scanStep storage s)) := by
  rw [scanStep]
  split
  next p _ =>
    simp only
    split
    next => exact ⟨rfl, rfl⟩
    next =>
      split
      next => split <;> exact ⟨rfl, rfl⟩
      next => exact ⟨rfl, rfl⟩
  next =>
    simp only
    split <;> exact ⟨rfl, rfl⟩

theorem scanLoop_same {lineEnd : LineEnd} (h : scanLoop storage fuel s = some lineEnd) :
    SameStream s.stream_info lineEnd.scan.stream_info := by
  induction fuel generalizing s with
  | zero => cases h
  | succ fuel ih =>
      rw [scanLoop] at h
      have hstep := scanStep_same storage s
      cases hresult : scanStep storage s with
      | inl s' =>
          rw [hresult] at h hstep
          exact hstep.trans (ih h)
      | inr lineEnd' =>
          rw [hresult] at h hstep
          obtain rfl := Option.some.inj h
          exact hstep

def EndFlag (stream_info : STREAM_INFO) : Prop :=
  stream_info.feof = true → stream_info.file.length ≤ stream_info.tell

theorem startScan_sound (storage : Storage) (hfeof : stream_info.feof = false)
    (htell : stream_info.tell < stream_info.file.length) :
    ScanSound (stream_info.file.drop stream_info.tell) (startScan storage stream_info) := by
  have hlength := @List.length_drop _ stream_info.tell stream_info.file
  generalize hresult : min default_buffer_size
    (stream_info.file.length - stream_info.tell) = result
  have hsmall : result ≤ stream_info.file.length - stream_info.tell := by
    rw [← hresult]
    exact Nat.min_le_right _ _
  have hread : 0 < result := by
    rw [← hresult, default_buffer_size]
    omega
  have hsize : 0 < default_buffer_size := by decide
  refine ⟨?_, ?_, ?_, ?_, hsize, ?_, Nat.zero_le _, fun _ => hsize, ?_,
    fun e he => ⟨Nat.zero_le _, fun _ _ => Nat.zero_le _⟩, fun _ => rfl⟩
  · change stream_info.file.drop (stream_info.tell + min default_buffer_size _ -
      min default_buffer_size _) = _
    rw [Nat.add_sub_cancel]
  · change min default_buffer_size _ ≤ stream_info.tell + min default_buffer_size _
    omega
  · intro i hi
    replace hi : i < result := hresult ▸ hi
    change (stream_info.file.drop stream_info.tell)[i]? =
      some (if 0 ≤ i ∧ i < 0 + min default_buffer_size
          (stream_info.file.length - stream_info.tell) then
        stream_info.file.getD (stream_info.tell + (i - 0)) 0 else storage default_buffer_size i)
    rw [hresult, if_pos (by omega), Nat.sub_zero]
    exact getElem?_drop_getD (by omega)
  · change min default_buffer_size _ = min default_buffer_size _
    rw [hlength]
  · change 0 < min default_buffer_size _
    rw [hresult]
    exact hread
  · change (stream_info.feof || decide (min default_buffer_size _ < default_buffer_size)) =
      decide (min default_buffer_size _ < default_buffer_size)
    rw [hfeof, Bool.false_or]

theorem turns_startScan (storage : Storage) (stream_info : STREAM_INFO)
    (rest : List UInt8) : turns rest (startScan storage stream_info) ≤ 2 * rest.length + 1 := by
  rw [turns]
  split <;> omega

structure ReadsLine (stream_info : STREAM_INFO) (rest : List UInt8) (line : Line) : Prop where
  file : line.stream_info.file = stream_info.file
  flag : EndFlag line.stream_info
  terminated : ∀ pre post, nl ∉ pre → rest = pre ++ nl :: post → line.text = chop pre ∧
    line.stream_info.char_read_position = stream_info.char_read_position + (pre.length + 1) ∧
    line.overread = false
  unterminated : nl ∉ rest → line.stream_info.char_read_position =
    stream_info.char_read_position + (rest.length + 1)

theorem stepBehind_same (stream_info : STREAM_INFO) (count : ℕ) :
    (stepBehind stream_info count).file = stream_info.file ∧
      (stepBehind stream_info count).tell = stream_info.tell ∧
      (stepBehind stream_info count).feof = stream_info.feof ∧
      (stepBehind stream_info count).char_read_position =
        stream_info.char_read_position + count := by
  simp only [stepBehind]
  split <;> exact ⟨rfl, rfl, rfl, rfl⟩

theorem read_setup_spec (hflag : EndFlag stream_info)
    (hposition : stream_info.char_read_position - 1 < stream_info.file.length) :
    (read_setup stream_info).file = stream_info.file ∧
      (read_setup stream_info).char_read_position = stream_info.char_read_position ∧
      (read_setup stream_info).tell = stream_info.char_read_position - 1 ∧
      (read_setup stream_info).feof = false := by
  simp only [read_setup]
  split
  next => exact ⟨rfl, rfl, rfl, rfl⟩
  next hthere =>
    refine ⟨rfl, rfl, (not_not.mp hthere).symm, ?_⟩
    rw [Bool.eq_false_iff]
    intro hfeof
    have := hflag hfeof
    omega

theorem stream_linein_spec (storage : Storage) (hflag : EndFlag stream_info)
    (hposition : stream_info.char_read_position - 1 < stream_info.file.length)
    (hfuel : 2 * stream_info.file.length + 2 ≤ fuel) :
    ∃ line, stream_linein storage fuel stream_info = some (.ok line) ∧
      ReadsLine stream_info (stream_info.file.drop (stream_info.char_read_position - 1)) line := by
  obtain ⟨hfile, hread, htell, hfeof⟩ := read_setup_spec hflag hposition
  generalize hready : read_setup stream_info = ready at *
  have hsound := startScan_sound storage hfeof (by rw [hfile, htell]; exact hposition)
  rw [hfile, htell] at hsound
  generalize hrest : stream_info.file.drop (stream_info.char_read_position - 1) = rest at *
  have hlength : rest.length ≤ stream_info.file.length := by
    rw [← hrest, List.length_drop]
    exact Nat.sub_le _ _
  have hturns := turns_startScan storage ready rest
  have henough : turns rest (startScan storage ready) < fuel := by omega
  obtain ⟨lineEnd, hloop, hends⟩ := scanLoop_spec hsound storage henough
  have hsame := scanLoop_same hloop
  have hstart : SameStream ready (startScan storage ready).stream_info := ⟨rfl, rfl⟩
  obtain ⟨hfile', hposition'⟩ := hstart.trans hsame
  obtain ⟨hbehindFile, hbehindTell, hbehindFeof, hbehindPosition⟩ := stepBehind_same
    lineEnd.scan.stream_info (lineEnd.line_length + lineEnd.delimiterLength)
  have hsome : ¬ (startScan storage ready).buffer_length = 0 := Nat.ne_of_gt hsound.some_read
  refine ⟨Line.mk ((List.range lineEnd.line_length).map lineEnd.scan.read_buffer)
      { stepBehind lineEnd.scan.stream_info (lineEnd.line_length + lineEnd.delimiterLength) with
        pseudo_lines := (stepBehind lineEnd.scan.stream_info
          (lineEnd.line_length + lineEnd.delimiterLength)).pseudo_lines - 1 }
      lineEnd.scan.overread, ?_, ?_, ?_, ?_, ?_⟩
  · rw [stream_linein, hready, read_variable_line]
    simp only [if_neg hsome, hloop]
    rfl
  · exact hbehindFile.trans (hfile'.trans hfile)
  · intro hend
    change (stepBehind _ _).file.length ≤ (stepBehind _ _).tell
    rw [hbehindFile, hbehindTell]
    exact hends.tell (hbehindFeof.symm.trans hend)
  · rintro pre post hpre hsplit
    have hat : rest[pre.length]? = some nl := by
      rw [hsplit, List.getElem?_append_right (Nat.le_refl _), Nat.sub_self]
      rfl
    have hfirst : ∀ i < pre.length, rest[i]? ≠ some nl := by
      intro i hi hnl
      rw [hsplit, List.getElem?_append_left hi] at hnl
      exact hpre (List.mem_of_getElem? hnl)
    obtain ⟨hcount, htext, hclean⟩ := hends.terminated _ hat hfirst
    have htake : rest.take pre.length = pre := by
      rw [hsplit]
      exact List.take_left
    refine ⟨htext.trans (congrArg chop htake), ?_, hclean⟩
    change (stepBehind _ _).char_read_position = _
    rw [hbehindPosition, hposition', hread, hcount]
  · intro hnone
    change (stepBehind _ _).char_read_position = _
    rw [hbehindPosition, hposition', hread, hends.unterminated hnone]

/-! ## Successive calls -/

structure LeftAfter (content : List UInt8) (j : ℕ) (rest : List UInt8) : Prop where
  drop : content.drop (consumed content j) = rest
  inside : consumed content j ≤ content.length
  lines : splitLines rest = (splitLines content).drop j
  feeds : rest.count nl + j = content.count nl

theorem consumed_terminated (hpre : nl ∉ pre) (j : ℕ) :
    consumed (pre ++ nl :: post) (j + 1) = pre.length + 1 + consumed post j := by
  rw [consumed, splitLines_terminated hpre, List.take_succ_cons, List.flatten_cons,
    List.length_append, List.length_append, List.length_singleton, consumed]

theorem leftAfter {j : ℕ} (h : j ≤ content.count nl) : ∃ rest, LeftAfter content j rest := by
  induction j generalizing content with
  | zero =>
      refine ⟨content, ?_, Nat.zero_le _, rfl, rfl⟩
      rw [consumed, List.take_zero]
      rfl
  | succ j ih =>
      have hmem : nl ∈ content := List.count_pos_iff.mp (by omega)
      obtain ⟨pre, post, rfl, hpre⟩ := List.eq_append_cons_of_mem hmem
      have hcount : (pre ++ nl :: post).count nl = post.count nl + 1 := by
        rw [List.count_append, List.count_eq_zero_of_not_mem hpre, List.count_cons_self,
          Nat.zero_add]
      have hpost : j ≤ post.count nl := by omega
      obtain ⟨rest, hdrop, hinside, hlines, hfeeds⟩ := ih hpost
      have hconsumed := @consumed_terminated pre post hpre j
      refine ⟨rest, ?_, ?_, ?_, by omega⟩
      · rw [hconsumed, ← List.drop_drop]
        have hfirst : (pre ++ nl :: post).drop (pre.length + 1) = post := by
          have hsplit : pre ++ nl :: post = (pre ++ [nl]) ++ post := by simp
          rw [hsplit]
          exact List.drop_left' (List.length_append ..)
        rw [hfirst]
        exact hdrop
      · rw [hconsumed, List.length_append, List.length_cons]
        omega
      · rw [splitLines_terminated hpre, List.drop_succ_cons]
        exact hlines

/-- The stream after the calls for the first `j` lines. -/
structure ReadTo (stream_info : STREAM_INFO) (j : ℕ) (lines : Lines) : Prop where
  texts : lines.texts = ((splitLines stream_info.file).take j).map lineText
  file : lines.stream_info.file = stream_info.file
  flag : EndFlag lines.stream_info
  position : lines.stream_info.char_read_position = 1 + consumed stream_info.file j
  clean : lines.overread = false

theorem lineText_terminated : lineText (pre ++ [nl]) = chop pre := by
  rw [lineText, List.getLast?_concat, if_pos rfl, List.dropLast_concat]

theorem take_succ_of_drop {lines : List (List UInt8)} {j : ℕ} {line : List UInt8}
    {later : List (List UInt8)} (h : lines.drop j = line :: later) :
    lines.take (j + 1) = lines.take j ++ [line] := by
  have hat : lines[j]? = some line := by
    have hhead := congrArg List.head? h
    rwa [List.head?_drop] at hhead
  rw [List.take_add_one, hat]
  rfl

theorem lineinTimes_succ {storage : ℕ → Storage} {j : ℕ} {lines : Lines}
    (hlines : lineinTimes storage fuel stream_info j = some (.ok lines))
    (hread : ReadTo stream_info j lines) (hleft : LeftAfter stream_info.file j rest)
    (hne : rest ≠ []) (hfuel : 2 * stream_info.file.length + 2 ≤ fuel) :
    ∃ line, lineinTimes storage fuel stream_info (j + 1) =
        some (.ok ⟨lines.texts ++ [line.text], line.stream_info,
          lines.overread || line.overread⟩) ∧
      ReadsLine lines.stream_info rest line := by
  have hposition : lines.stream_info.char_read_position - 1 = consumed stream_info.file j := by
    rw [hread.position]
    omega
  have hinside : lines.stream_info.char_read_position - 1 < lines.stream_info.file.length := by
    rw [hposition, hread.file]
    by_contra hout
    have hdrop := hleft.drop
    rw [List.drop_eq_nil_of_le (Nat.not_lt.mp hout)] at hdrop
    exact hne hdrop.symm
  have henough : 2 * lines.stream_info.file.length + 2 ≤ fuel := by
    rw [hread.file]
    exact hfuel
  obtain ⟨line, hline, hreads⟩ := stream_linein_spec (storage j) hread.flag hinside henough
  rw [hposition, hread.file, hleft.drop] at hreads
  refine ⟨line, ?_, hreads⟩
  rw [lineinTimes, hlines]
  simp only [hline]
  rfl

theorem lineinTimes_readTo {storage : ℕ → Storage} {j : ℕ}
    (hstart : stream_info.char_read_position = 1) (hflag : EndFlag stream_info)
    (hfuel : 2 * stream_info.file.length + 2 ≤ fuel) (hj : j ≤ stream_info.file.count nl) :
    ∃ lines, lineinTimes storage fuel stream_info j = some (.ok lines) ∧
      ReadTo stream_info j lines := by
  induction j with
  | zero =>
      refine ⟨⟨[], stream_info, false⟩, rfl, rfl, rfl, hflag, ?_, rfl⟩
      rw [hstart, consumed, List.take_zero]
      rfl
  | succ j ih =>
      obtain ⟨lines, hlines, hread⟩ := ih (by omega)
      have hfewer : j ≤ stream_info.file.count nl := by omega
      obtain ⟨rest, hleft⟩ := leftAfter hfewer
      have hfeeds := hleft.feeds
      have hmem : nl ∈ rest := List.count_pos_iff.mp (by omega)
      obtain ⟨pre, post, hsplit, hpre⟩ := List.eq_append_cons_of_mem hmem
      obtain ⟨line, hline, hreads⟩ := lineinTimes_succ hlines hread hleft
        (List.ne_nil_of_mem hmem) hfuel
      obtain ⟨htext, hposition, hclean⟩ := hreads.terminated pre post hpre hsplit
      have hdrop : (splitLines stream_info.file).drop j = (pre ++ [nl]) :: splitLines post := by
        rw [← hleft.lines, hsplit, splitLines_terminated hpre]
      have htake := take_succ_of_drop hdrop
      refine ⟨_, hline, ?_, ?_, hreads.flag, ?_, ?_⟩
      · change lines.texts ++ [line.text] = _
        rw [htake, List.map_append, hread.texts, htext, ← lineText_terminated]
        rfl
      · exact hreads.file.trans hread.file
      · change line.stream_info.char_read_position = _
        rw [hposition, hread.position, consumed, consumed, htake, List.flatten_append,
          List.length_append, List.flatten_singleton, List.length_append, List.length_singleton,
          Nat.add_assoc]
      · change (lines.overread || line.overread) = false
        rw [hread.clean, hclean]
        rfl

/-- As many calls as there are lines read the lines if and only if each line that they read ends
with a line feed. -/
theorem linein_readsLines (storage : ℕ → Storage) (fuel : ℕ) (stream_info : STREAM_INFO) (k : ℕ)
    (hstart : stream_info.char_read_position = 1) (hflag : EndFlag stream_info)
    (hfuel : 2 * stream_info.file.length + 2 ≤ fuel)
    (hk : k ≤ (splitLines stream_info.file).length) :
    ReadsLines storage fuel stream_info k ↔ k ≤ stream_info.file.count nl := by
  constructor
  · intro h
    by_contra hmore
    -- the call for the line without a line feed
    obtain ⟨lines, hlines, hread⟩ := @lineinTimes_readTo fuel stream_info storage _ hstart hflag
      hfuel (Nat.le_refl (stream_info.file.count nl))
    obtain ⟨rest, hleft⟩ := leftAfter (Nat.le_refl (stream_info.file.count nl))
    have hnone : nl ∉ rest := List.count_eq_zero.mp (by have := hleft.feeds; omega)
    have hne : rest ≠ [] := by
      rintro rfl
      have hlength := congrArg List.length hleft.lines
      rw [List.length_drop] at hlength
      have hnil : (splitLines []).length = 0 := rfl
      omega
    obtain ⟨line, hline, hreads⟩ := lineinTimes_succ hlines hread hleft hne hfuel
    obtain ⟨lines', hlines', -, hposition, -⟩ := h (stream_info.file.count nl + 1) (by omega)
    obtain rfl := Except.ok.inj (Option.some.inj (hline.symm.trans hlines'))
    have hbehind := hreads.unterminated hnone
    have hdrop : (splitLines stream_info.file).drop (stream_info.file.count nl) = [rest] := by
      rw [← hleft.lines, splitLines_rest hnone hne]
    have hconsumed : consumed stream_info.file (stream_info.file.count nl + 1) =
        consumed stream_info.file (stream_info.file.count nl) + rest.length := by
      rw [consumed, take_succ_of_drop hdrop, List.flatten_append, List.length_append,
        List.flatten_singleton, consumed]
    change line.stream_info.char_read_position = _ at hposition
    rw [hbehind, hread.position, hconsumed] at hposition
    omega
  · intro hterminated j hj
    obtain ⟨lines, hlines, hread⟩ := @lineinTimes_readTo fuel stream_info storage _ hstart hflag
      hfuel (Nat.le_trans hj hterminated)
    exact ⟨lines, hlines, hread.texts, hread.position, hread.clean⟩

def opened (content : List UInt8) : STREAM_INFO :=
  { file := content
    tell := 0
    feof := false
    eof_state := false
    char_read_position := 1
    line_read_position := 1
    line_read_char_position := 1
    pseudo_lines := 0 }

/-- The lines `a` and `b`, the first with both characters of a line end. -/
theorem linein_readsLines_twoLines :
    ReadsLines (fun _ _ _ => nl) 12 (opened [97, cr, nl, 98, nl]) 2 ↔ 2 ≤ 2 :=
  linein_readsLines (fun _ _ _ => nl) 12 (opened [97, cr, nl, 98, nl]) 2 rfl
    (fun h => by cases h) (by decide) (by decide)

def outcome (storage : ℕ → Storage) (fuel : ℕ) (stream_info : STREAM_INFO) (k : ℕ) :
    Option (List (List UInt8) × ℕ × Bool) :=
  match lineinTimes storage fuel stream_info k with
  | some (.ok lines) => some (lines.texts, lines.stream_info.char_read_position, lines.overread)
  | _ => none

/-- A last line without a line feed puts the position too far, and a carriage return at its end is
lost when the buffer happens to hold a line feed behind it. -/
theorem linein_unterminated :
    (outcome (fun _ _ _ => 0) 4 (opened [97]) 1 = some ([[97]], 3, false) ∧
        ¬ ReadsLines (fun _ _ _ => 0) 4 (opened [97]) 1) ∧
      outcome (fun _ _ _ => nl) 12 (opened [97, nl, 98, cr]) 2 =
        some ([[97], [98]], 6, true) ∧
        (splitLines [97, nl, 98, cr]).map lineText = [[97], [98, cr]] := by
  have hlast : outcome (fun _ _ _ => 0) 4 (opened [97]) 1 = some ([[97]], 3, false) := by decide
  refine ⟨⟨hlast, ?_⟩, by decide, by decide⟩
  intro h
  obtain ⟨lines, hlines, -, hposition, -⟩ := h 1 (Nat.le_refl 1)
  rw [outcome, hlines] at hlast
  have hthree := congrArg (fun result => result.map fun r => r.2.1) hlast
  have hconsumed : consumed (opened [97]).file 1 = 1 := by decide
  rw [hconsumed] at hposition
  exact absurd (hposition.symm.trans (Option.some.inj hthree)) (by decide)

end VariableLines

end LeooRexx
