import Mathlib.Data.Int.Basic
import Mathlib.Data.List.Basic

/-!
# Records of a binary stream

`LINEIN`, `LINEOUT` and `LINES` on a persistent binary stream.  A record is as long as
`stream_reclength` says, and the offset in a record is computed from a position that starts
at 1, so that the last byte of each record has the offset minus one.
-/

namespace LeooRexx

namespace FixedRecords

structure STREAM_INFO where
  file : List UInt8
  stream_reclength : ℕ
  char_read_position : ℕ
  char_write_position : ℕ
  reclength_pos : 1 ≤ stream_reclength
  read_pos : 1 ≤ char_read_position
  write_pos : 1 ≤ char_write_position

def blank : UInt8 := 0x20

def stream_size (stream_info : STREAM_INFO) : ℕ := stream_info.file.length

/-- The bytes of a file after a write at an offset; a hole before the offset is filled with NUL. -/
def written (file : List UInt8) (offset : ℕ) (data : List UInt8) : List UInt8 :=
  file.take offset ++ List.replicate (offset - file.length) 0 ++ data ++
    file.drop (offset + data.length)

def write_stream_line (stream_info : STREAM_INFO) (buffer : List UInt8) : STREAM_INFO :=
  { stream_info with
    file := written stream_info.file (stream_info.char_write_position - 1) buffer
    char_write_position := stream_info.char_write_position + buffer.length
    write_pos := Nat.le_trans stream_info.write_pos (Nat.le_add_right _ _) }

/-- `position % stream_reclength - 1`, the offset as the code computes it. -/
def recordOffset (stream_info : STREAM_INFO) (position : ℕ) : ℤ :=
  (position : ℤ) % stream_info.stream_reclength - 1

def complete_line (stream_info : STREAM_INFO) : STREAM_INFO :=
  let offset := recordOffset stream_info stream_info.char_write_position
  if 0 ≠ offset then
    let write_length := stream_info.stream_reclength - offset
    write_stream_line stream_info (List.replicate write_length.toNat blank)
  else stream_info

def write_fixed_line (stream_info : STREAM_INFO) (data : List UInt8) : STREAM_INFO :=
  let write_length :=
    stream_info.stream_reclength - recordOffset stream_info stream_info.char_write_position
  let buffer := List.replicate write_length.toNat blank
  write_stream_line stream_info (data ++ buffer.drop data.length)

inductive Error where
  | Error_Incorrect_call
  deriving DecidableEq

/-- `stream_lineout` of a string on a binary stream, without a position. -/
def stream_lineout (stream_info : STREAM_INFO) (string : List UInt8) :
    Except Error STREAM_INFO :=
  if (stream_info.stream_reclength : ℤ) <
      string.length + recordOffset stream_info stream_info.char_write_position then
    .error .Error_Incorrect_call
  else if stream_info.stream_reclength = string.length then
    .ok (write_stream_line stream_info (string.take stream_info.stream_reclength))
  else .ok (write_fixed_line stream_info string)

def read_stream_line (stream_info : STREAM_INFO) (length : ℕ) : List UInt8 × STREAM_INFO :=
  let buffer := (stream_info.file.drop (stream_info.char_read_position - 1)).take length
  (buffer, { stream_info with
    char_read_position := stream_info.char_read_position + buffer.length
    read_pos := Nat.le_trans stream_info.read_pos (Nat.le_add_right _ _) })

def stream_linein (stream_info : STREAM_INFO) : List UInt8 × STREAM_INFO :=
  let offset := stream_info.char_read_position % stream_info.stream_reclength
  read_stream_line stream_info
    (stream_info.stream_reclength - if offset = 0 then 0 else offset - 1)

def stream_lines (stream_info : STREAM_INFO) : ℤ :=
  if stream_size stream_info = stream_info.char_read_position - 1 then 0
  else
    let fudge := if stream_size stream_info % stream_info.stream_reclength = 0 then 0 else 1
    ((stream_size stream_info / stream_info.stream_reclength + fudge : ℕ) : ℤ) -
      ((stream_info.char_read_position - 1) / stream_info.stream_reclength : ℕ)

/-! ## Records -/

def recordEnd (reclength position : ℕ) : ℕ := ((position - 1) / reclength + 1) * reclength

def recordRest (reclength position : ℕ) : ℕ := recordEnd reclength position + 1 - position

def recordsLeft (reclength size position : ℕ) : ℕ :=
  (List.range ((size + reclength - 1) / reclength)).countP
    fun k => decide (position ≤ min ((k + 1) * reclength) size)

inductive Operation where
  | lineout (string : List UInt8)
  | completeLine
  | linein
  | lines

def Meets (stream_info : STREAM_INFO) : Operation → Prop
  | .lineout string =>
      let rest := recordRest stream_info.stream_reclength stream_info.char_write_position
      match stream_lineout stream_info string with
      | .error _ => rest < string.length
      | .ok stream_info' =>
          string.length ≤ rest ∧
            stream_info' = write_stream_line stream_info
              (string ++ List.replicate (rest - string.length) blank)
  | .completeLine =>
      let rest := recordRest stream_info.stream_reclength stream_info.char_write_position
      complete_line stream_info =
        if rest = stream_info.stream_reclength then stream_info
        else write_stream_line stream_info (List.replicate rest blank)
  | .linein =>
      stream_linein stream_info = read_stream_line stream_info
        (recordRest stream_info.stream_reclength stream_info.char_read_position)
  | .lines =>
      stream_lines stream_info = recordsLeft stream_info.stream_reclength
        (stream_size stream_info) stream_info.char_read_position

/-- Where the offset in a record does not wrap, or its wrapping makes no difference. -/
def OffsetFits (stream_info : STREAM_INFO) : Operation → Prop
  | .lineout string =>
      stream_info.char_write_position % stream_info.stream_reclength ≠ 0 ∨
        (stream_info.stream_reclength = 1 ∧ string.length = 1) ∨
        stream_info.stream_reclength + 1 < string.length
  | .completeLine => stream_info.char_write_position % stream_info.stream_reclength ≠ 0
  | .linein =>
      stream_info.char_read_position % stream_info.stream_reclength ≠ 0 ∨
        stream_info.stream_reclength = 1 ∨
        stream_size stream_info ≤ stream_info.char_read_position
  | .lines =>
      stream_info.char_read_position ≤ stream_size stream_info + 1 ∨
        (stream_info.char_read_position - 1) / stream_info.stream_reclength =
          (stream_size stream_info + stream_info.stream_reclength - 1) /
            stream_info.stream_reclength

variable {stream_info : STREAM_INFO} {string buffer buffer' : List UInt8} {R p n q size : ℕ}

/-! ## The offset in a record -/

theorem pred_mod_of_ne (hp : 1 ≤ p) (h : p % R ≠ 0) (hR : 1 ≤ R) : (p - 1) % R = p % R - 1 := by
  have hdivision := Nat.mod_add_div p R
  have hlt := Nat.mod_lt p hR
  have hpred : p - 1 = p % R - 1 + R * (p / R) := by omega
  rw [hpred, Nat.add_mul_mod_self_left]
  exact Nat.mod_eq_of_lt (by omega)

theorem pred_mod_of_eq (hp : 1 ≤ p) (h : p % R = 0) (hR : 1 ≤ R) : (p - 1) % R = R - 1 := by
  have hdivision := Nat.mod_add_div p R
  obtain ⟨k, hk⟩ : ∃ k, p / R = k + 1 := by
    apply Nat.exists_eq_succ_of_ne_zero
    intro hzero
    rw [hzero] at hdivision
    omega
  have hproduct : R * (k + 1) = R * k + R := Nat.mul_succ R k
  rw [hk] at hdivision
  have hpred : p - 1 = R - 1 + R * k := by omega
  rw [hpred, Nat.add_mul_mod_self_left]
  exact Nat.mod_eq_of_lt (by omega)

theorem recordRest_eq (hp : 1 ≤ p) : recordRest R p = R - (p - 1) % R := by
  have hdivision := Nat.mod_add_div (p - 1) R
  have hproduct : ((p - 1) / R + 1) * R = R * ((p - 1) / R) + R := by
    rw [Nat.add_mul, Nat.mul_comm, Nat.one_mul]
  rw [recordRest, recordEnd, hproduct]
  omega

theorem room_of_ne (hp : 1 ≤ p) (h : p % R ≠ 0) (hR : 1 ≤ R) :
    (R : ℤ) - ((p : ℤ) % R - 1) = recordRest R p ∧ recordRest R p ≤ R := by
  have hlt := Nat.mod_lt p hR
  rw [recordRest_eq hp, pred_mod_of_ne hp h hR]
  omega

theorem room_of_eq (hp : 1 ≤ p) (h : p % R = 0) (hR : 1 ≤ R) :
    (p : ℤ) % R = 0 ∧ recordRest R p = 1 := by
  rw [recordRest_eq hp, pred_mod_of_eq hp h hR]
  omega

/-! ## Writing -/

theorem length_of_written (h : write_stream_line stream_info buffer =
    write_stream_line stream_info buffer') : buffer.length = buffer'.length := by
  have hposition := congrArg STREAM_INFO.char_write_position h
  simp only [write_stream_line] at hposition
  omega

theorem write_fixed_line_eq
    (h : (stream_info.stream_reclength : ℤ) -
      recordOffset stream_info stream_info.char_write_position = n) :
    write_fixed_line stream_info string = write_stream_line stream_info
      (string ++ List.replicate (n - string.length) blank) := by
  simp only [write_fixed_line]
  rw [h, Int.toNat_natCast, List.drop_replicate]

theorem lineout_meets_of_ne
    (h : stream_info.char_write_position % stream_info.stream_reclength ≠ 0) :
    Meets stream_info (.lineout string) := by
  obtain ⟨hroom, -⟩ := room_of_ne stream_info.write_pos h stream_info.reclength_pos
  have hoffset : recordOffset stream_info stream_info.char_write_position =
      (stream_info.char_write_position : ℤ) % stream_info.stream_reclength - 1 := rfl
  rw [← hoffset] at hroom
  simp only [Meets]
  generalize recordRest stream_info.stream_reclength stream_info.char_write_position = rest at *
  rw [stream_lineout]
  by_cases herror : (stream_info.stream_reclength : ℤ) <
      string.length + recordOffset stream_info stream_info.char_write_position
  · rw [if_pos herror]
    simp only
    omega
  · have hfits : string.length ≤ rest := by omega
    rw [if_neg herror]
    by_cases hwhole : stream_info.stream_reclength = string.length
    · rw [if_pos hwhole]
      simp only
      have hrest : rest - string.length = 0 := by omega
      refine ⟨hfits, ?_⟩
      rw [hwhole, List.take_length, hrest, List.replicate_zero, List.append_nil]
    · rw [if_neg hwhole]
      exact ⟨hfits, write_fixed_line_eq hroom⟩

theorem lineout_meets_of_eq
    (h : stream_info.char_write_position % stream_info.stream_reclength = 0) :
    Meets stream_info (.lineout string) ↔
      (stream_info.stream_reclength = 1 ∧ string.length = 1) ∨
        stream_info.stream_reclength + 1 < string.length := by
  obtain ⟨hmod, hrest⟩ := room_of_eq stream_info.write_pos h stream_info.reclength_pos
  have hoffset : recordOffset stream_info stream_info.char_write_position = -1 := by
    rw [recordOffset, hmod]
    rfl
  have hpos := stream_info.reclength_pos
  simp only [Meets, hrest]
  rw [stream_lineout, hoffset]
  by_cases herror : (stream_info.stream_reclength : ℤ) < string.length + -1
  · rw [if_pos herror]
    simp only
    omega
  · rw [if_neg herror]
    by_cases hwhole : stream_info.stream_reclength = string.length
    · rw [if_pos hwhole, hwhole, List.take_length]
      constructor
      · intro hmeets
        have := hmeets.1
        omega
      · intro hexact
        have hone : string.length = 1 := by omega
        refine ⟨by omega, ?_⟩
        rw [hone, Nat.sub_self, List.replicate_zero, List.append_nil]
    · rw [if_neg hwhole]
      have hroom : (stream_info.stream_reclength : ℤ) -
          recordOffset stream_info stream_info.char_write_position =
          (stream_info.stream_reclength + 1 : ℕ) := by
        rw [hoffset]
        omega
      simp only [write_fixed_line_eq hroom]
      constructor
      · rintro ⟨hle, heq⟩
        have hlength := length_of_written heq
        simp only [List.length_append, List.length_replicate] at hlength
        omega
      · omega

theorem completeLine_meets :
    Meets stream_info .completeLine ↔
      stream_info.char_write_position % stream_info.stream_reclength ≠ 0 := by
  have hpos := stream_info.reclength_pos
  have hoffset : recordOffset stream_info stream_info.char_write_position =
      (stream_info.char_write_position : ℤ) % stream_info.stream_reclength - 1 := rfl
  simp only [Meets, complete_line]
  by_cases h : stream_info.char_write_position % stream_info.stream_reclength = 0
  · obtain ⟨hmod, hrest⟩ := room_of_eq stream_info.write_pos h hpos
    have hroom : ((stream_info.stream_reclength : ℤ) - (0 - 1)).toNat =
        stream_info.stream_reclength + 1 := by omega
    rw [hoffset, hmod, if_pos (by decide), hrest, hroom]
    constructor
    · intro heq
      have hposition := congrArg STREAM_INFO.char_write_position heq
      split at hposition
      · simp [write_stream_line] at hposition
      · simp [write_stream_line] at hposition
        omega
    · intro hne
      exact absurd h hne
  · obtain ⟨hroom, hle⟩ := room_of_ne stream_info.write_pos h hpos
    rw [hoffset]
    constructor
    · intro _
      exact h
    · intro _
      by_cases hstart : (0 : ℤ) =
          (stream_info.char_write_position : ℤ) % stream_info.stream_reclength - 1
      · rw [if_neg (not_not.mpr hstart), if_pos (by omega)]
      · rw [if_pos hstart, hroom, Int.toNat_natCast, if_neg (by omega)]

/-! ## Reading -/

theorem read_stream_line_congr {length length' : ℕ}
    (h : (stream_info.file.drop (stream_info.char_read_position - 1)).take length =
      (stream_info.file.drop (stream_info.char_read_position - 1)).take length') :
    read_stream_line stream_info length = read_stream_line stream_info length' := by
  simp only [read_stream_line, h]

theorem linein_meets :
    Meets stream_info .linein ↔ OffsetFits stream_info .linein := by
  have hpos := stream_info.reclength_pos
  have hread := stream_info.read_pos
  simp only [Meets, OffsetFits, stream_linein, stream_size]
  by_cases h : stream_info.char_read_position % stream_info.stream_reclength = 0
  · obtain ⟨-, hrest⟩ := room_of_eq hread h hpos
    rw [if_pos h, hrest, Nat.sub_zero]
    constructor
    · intro heq
      have hposition := congrArg (fun result => result.2.char_read_position) heq
      simp only [read_stream_line, List.length_take, List.length_drop] at hposition
      omega
    · intro hexact
      apply read_stream_line_congr
      rcases hexact with hne | hone | hend
      · exact absurd h hne
      · rw [hone]
      · have hlength : (stream_info.file.drop (stream_info.char_read_position - 1)).length ≤ 1 := by
          rw [List.length_drop]
          omega
        rw [List.take_of_length_le hlength, List.take_of_length_le (Nat.le_trans hlength hpos)]
  · have hroom : stream_info.stream_reclength -
        (stream_info.char_read_position % stream_info.stream_reclength - 1) =
        recordRest stream_info.stream_reclength stream_info.char_read_position := by
      rw [recordRest_eq hread, pred_mod_of_ne hread h hpos]
    rw [if_neg h, hroom]
    constructor
    · intro _
      exact .inl h
    · intro _
      rfl

/-! ## Counting records -/

theorem countP_range (q n : ℕ) :
    (List.range n).countP (fun k => decide (q ≤ k)) = n - q := by
  induction n with
  | zero => simp
  | succ n ih =>
      rw [List.range_succ, List.countP_append, ih]
      by_cases h : q ≤ n
      · simp [h]
        omega
      · simp [h]
        omega

theorem recordsLeft_of_le (hR : 1 ≤ R) (hp : 1 ≤ p) (h : p ≤ size) :
    recordsLeft R size p = (size + R - 1) / R - (p - 1) / R := by
  rw [recordsLeft, ← countP_range ((p - 1) / R) ((size + R - 1) / R)]
  apply List.countP_congr
  intro k _
  have hdivision : (p - 1) / R ≤ k ↔ p - 1 < (k + 1) * R := by
    rw [← Nat.lt_succ_iff, Nat.succ_eq_add_one, Nat.div_lt_iff_lt_mul hR]
  simp only [decide_eq_true_eq, hdivision, Nat.le_min]
  omega

theorem recordsLeft_of_lt (h : size < p) : recordsLeft R size p = 0 := by
  rw [recordsLeft, List.countP_eq_zero]
  intro k _
  simp only [decide_eq_true_eq, Nat.le_min]
  omega

theorem records_eq (hR : 1 ≤ R) :
    size / R + (if size % R = 0 then 0 else 1) = (size + R - 1) / R := by
  have hdivision := Nat.mod_add_div size R
  have hlt := Nat.mod_lt size hR
  symm
  split
  · rename_i h
    have hsum : size + R - 1 = R - 1 + R * (size / R) := by omega
    rw [hsum, Nat.add_mul_div_left _ _ hR, Nat.div_eq_of_lt (by omega)]
    omega
  · rename_i h
    have hproduct : R * (size / R + 1) = R * (size / R) + R := Nat.mul_succ R _
    have hsum : size + R - 1 = size % R - 1 + R * (size / R + 1) := by omega
    rw [hsum, Nat.add_mul_div_left _ _ hR, Nat.div_eq_of_lt (by omega)]
    omega

theorem lines_meets :
    Meets stream_info .lines ↔ OffsetFits stream_info .lines := by
  have hpos := stream_info.reclength_pos
  have hread := stream_info.read_pos
  simp only [Meets, OffsetFits, stream_lines]
  rw [records_eq hpos]
  generalize stream_size stream_info = size
  generalize stream_info.char_read_position = p at *
  generalize stream_info.stream_reclength = R at *
  rcases Nat.lt_or_ge size p with hbehind | hwithin
  · rw [recordsLeft_of_lt hbehind]
    by_cases hend : size = p - 1
    · rw [if_pos hend]
      simp
      omega
    · rw [if_neg hend]
      omega
  · rw [recordsLeft_of_le hpos hread hwithin, if_neg (by omega)]
    have hle : (p - 1) / R ≤ (size + R - 1) / R := Nat.div_le_div_right (by omega)
    omega

/-! ## Operations on records -/

/-- An operation on records does what it should exactly where the wrapped offset does no harm. -/
theorem operation_meets (stream_info : STREAM_INFO) (operation : Operation) :
    Meets stream_info operation ↔ OffsetFits stream_info operation := by
  cases operation with
  | lineout string =>
      by_cases h : stream_info.char_write_position % stream_info.stream_reclength = 0
      · rw [lineout_meets_of_eq h]
        constructor
        · exact .inr
        · intro hfits
          exact hfits.resolve_left (not_not.mpr h)
      · constructor
        · intro _
          exact .inl h
        · intro _
          exact lineout_meets_of_ne h
  | completeLine => exact completeLine_meets
  | linein => exact linein_meets
  | lines => exact lines_meets

def lastByte : STREAM_INFO where
  file := [1, 2, 3, 4, 5, 6, 7, 8]
  stream_reclength := 4
  char_read_position := 4
  char_write_position := 4
  reclength_pos := by decide
  read_pos := by decide
  write_pos := by decide

/-- A line without a string writes five blanks in place of one. -/
theorem lastByte_completeLine : ¬ ∀ stream_info operation, Meets stream_info operation := by
  intro hall
  exact completeLine_meets.mp (hall lastByte .completeLine) rfl

end FixedRecords

end LeooRexx
