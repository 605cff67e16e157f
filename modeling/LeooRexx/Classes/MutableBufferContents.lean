import LeooRexx.Classes.MutableBufferRuns
import LeooRexx.Classes.StringSub

/-!
# The contents of a mutable buffer

A buffer stands for the string of its contents.  Every method edits them as the string
class edits a string, except that `insert` may write its text, or a part of it, outside
the block; then nothing holds the contents.
-/

namespace LeooRexx.RexxMutableBuffer

open StringSub (fitted upTo)

/-- The bytes from `stringData` on. -/
def content (b : RexxMutableBuffer) : List UInt8 := b.data.read 0 b.length

structure Held (b : RexxMutableBuffer) : Prop where
  inside : b.data.inside = true
  size_eq : b.data.size = stringDataSize b.bufferLength
  length_le : b.length ≤ b.data.size

def Stores (b : RexxMutableBuffer) (s : List UInt8) : Prop := b.Held ∧ b.content = s

/-! ## The string methods -/

def returned (s : List UInt8) (result : Except StringArgumentError Written) : List UInt8 :=
  result.toOption.elim s Written.string

/-- The string method for an operation.  Appending is `||`; a buffer that is given another
size keeps as much of its contents. -/
def stringStep (bufferLength : Nat) (s : List UInt8) : Op → List UInt8
  | .append string => s ++ string
  | .insert string pos len pad =>
      returned s (StringSub.insert s string (pos.map Nat.cast) (len.map Nat.cast)
        (pad.map fun c => [c]))
  | .overlay string pos len pad =>
      returned s (StringSub.overlay s string (pos.map Nat.cast) (len.map Nat.cast)
        (pad.map fun c => [c]))
  | .delete start len => returned s (StringSub.delstr s start (len.map Nat.cast))
  | .setBufferSize newsize =>
      if newsize ≠ 0 ∧ newsize = bufferLength then s else s.take newsize

def strings (b : RexxMutableBuffer) (s : List UInt8) : List Op → List (List UInt8)
  | [] => [s]
  | op :: ops => s :: (b.step op).strings (stringStep b.bufferLength s op) ops

/-! ## Parts of the contents -/

variable {b : RexxMutableBuffer} {s : List UInt8}

theorem Stores.length_eq (h : b.Stores s) : s.length = b.length := by
  rw [← h.2, content, Block.length_read]

theorem newRexx_stores (string : List UInt8) (size : Option Nat) :
    (newRexx string size).Stores string := by
  have hwithin := newRexx_withinCapacity string size
  refine ⟨⟨hwithin.inside, rfl, Nat.le_trans hwithin.length_le hwithin.bufferLength_le⟩, ?_⟩
  exact Block.read_write_self _ 0 string

theorem enlarge_stores (h : b.Stores s) (needed : Nat) :
    (b.enlarge needed).Stores s ∧ (b.enlarge needed).length = b.length ∧
      needed ≤ (b.enlarge needed).bufferLength := by
  obtain ⟨⟨hinside, hsize, hlength⟩, hcontent⟩ := h
  simp only [enlarge]
  split
  case isTrue hmore =>
      simp only [stringDataSize] at hsize
      refine ⟨⟨⟨hinside, rfl, ?_⟩, hcontent⟩, rfl, ?_⟩
      · simp only [Block.size_realloc, stringDataSize]
        split <;> omega
      · simp only
        split <;> omega
  case isFalse hless => exact ⟨⟨⟨hinside, hsize, hlength⟩, hcontent⟩, rfl, by omega⟩

theorem place_read_self (data : Block) (offset count : Nat) (string : List UInt8)
    (padChar : UInt8) :
    (place data offset string count padChar).read offset count = fitted string count padChar := by
  simp only [place, fitted]
  split
  case isTrue hle =>
      have hself := Block.read_write_self data offset (string.take count)
      rw [List.length_take, Nat.min_eq_left hle] at hself
      rw [hself, Nat.sub_eq_zero_of_le hle, List.replicate_zero, List.append_nil]
  case isFalse hlong =>
      obtain ⟨rest, rfl⟩ : ∃ rest, count = string.length + rest :=
        ⟨count - string.length, by omega⟩
      have hself := Block.read_write_self (data.write offset string) (offset + string.length)
        (List.replicate rest padChar)
      rw [List.length_replicate] at hself
      rw [Block.read_add, Nat.add_sub_cancel_left, hself, Block.read_write_outside _ (by simp),
        Block.read_write_self, List.take_of_length_le (by omega)]

theorem place_read_outside (data : Block) {offset count at_ n : Nat} (string : List UInt8)
    (padChar : UInt8) (h : at_ + n ≤ offset ∨ offset + count ≤ at_) :
    (place data offset string count padChar).read at_ n = data.read at_ n := by
  simp only [place]
  split
  case isTrue hle =>
      exact Block.read_write_outside _ (by rw [List.length_take]; omega)
  case isFalse hlong =>
      rw [Block.read_write_outside _ (by rw [List.length_replicate]; omega),
        Block.read_write_outside _ (by omega)]

theorem padded_read (data : Block) (length start : Nat) (padChar : UInt8) :
    (if start > length then data.write length (List.replicate (start - length) padChar)
      else data).read 0 start = upTo (data.read 0 length) start padChar := by
  rw [upTo, Block.length_read]
  split
  case isTrue hpast =>
      obtain ⟨pads, rfl⟩ : ∃ pads, start = length + pads := ⟨start - length, by omega⟩
      have hself := Block.read_write_self data length (List.replicate pads padChar)
      rw [List.length_replicate] at hself
      rw [Block.read_add, Nat.add_sub_cancel_left, Nat.zero_add, hself,
        Block.read_write_outside _ (by omega), List.take_of_length_le (by simp)]
  case isFalse hwithin =>
      rw [Block.take_read _ _ (by omega), Nat.sub_eq_zero_of_le (by omega), List.replicate_zero,
        List.append_nil]

theorem padded_read_behind (data : Block) {length start at_ n : Nat} (padChar : UInt8)
    (h : start ≤ at_ ∨ n = 0) :
    (if start > length then data.write length (List.replicate (start - length) padChar)
      else data).read at_ n = data.read at_ n := by
  rcases h with h | rfl
  · split
    case isTrue hpast =>
        exact Block.read_write_outside _ (by rw [List.length_replicate]; omega)
    case isFalse _ => rfl
  · rfl

/-! ## The methods -/

theorem append_stores (h : b.Stores s) (string : List UInt8) :
    (b.append string).Stores (s ++ string) := by
  obtain ⟨⟨⟨hinside, hsize, hlength⟩, hcontent⟩, hsame, hroom⟩ :=
    enlarge_stores h (b.length + string.length)
  have hlen := h.length_eq
  rw [content, hsame] at hcontent
  simp only [stringDataSize] at hsize
  refine ⟨⟨Block.inside_write hinside ?_, hsize, ?_⟩, ?_⟩
  · omega
  · simp only [append, Block.size_write]
    omega
  · simp only [content, append, hsame]
    rw [Block.read_add, Nat.zero_add, Block.read_write_self, Block.read_write_outside _ (by omega),
      hcontent]

/-- The inserted text, or the padding before it, ends within the block as it is
enlarged for the contents with the text. -/
def InsertHeld (b : RexxMutableBuffer) (start insertLength : Nat) : Prop :=
  start ≤ b.length ∨ start + insertLength ≤ stringDataSize b.bufferLength ∨
    b.bufferLength < b.length + insertLength ∧
      start + insertLength ≤ stringDataSize (max (b.bufferLength * 2) (b.length + insertLength))

theorem insertHeld_iff (b : RexxMutableBuffer) (start insertLength : Nat) :
    InsertHeld b start insertLength ↔ start ≤ b.length ∨
      start + insertLength ≤ stringDataSize (b.enlarge (b.length + insertLength)).bufferLength := by
  simp only [InsertHeld, enlarge, stringDataSize]
  split
  · simp only
    split <;> omega
  · omega

theorem insert_content (h : b.Stores s) (string : List UInt8) (pos len : Option Nat)
    (pad : Option UInt8) :
    (b.insert string pos len pad).content =
      upTo s (pos.getD 0) (pad.getD 32) ++
        fitted string (len.getD string.length) (pad.getD 32) ++ s.drop (pos.getD 0) := by
  obtain ⟨⟨_, hcontent⟩, hsame, _⟩ := enlarge_stores h (b.length + len.getD string.length)
  have hlen := h.length_eq
  rw [content, hsame] at hcontent
  simp only [content, insert, hsame]
  generalize (b.enlarge (b.length + len.getD string.length)).data = data at hcontent ⊢
  generalize len.getD string.length = count
  generalize pos.getD 0 = start
  generalize pad.getD 32 = padChar
  have hlength : (if start > b.length then start + count else b.length + count) =
      start + (count + (b.length - start)) := by
    split <;> omega
  rw [hlength, Block.read_add, Block.read_add, Nat.zero_add, place_read_self,
    place_read_outside _ string padChar (.inl (Nat.le_of_eq (Nat.zero_add _))),
    place_read_outside _ string padChar (.inr (Nat.le_refl _)), List.append_assoc]
  have hback : s.drop start = data.read start (b.length - start) := by
    rcases Nat.le_total start b.length with hle | hle
    · rw [← hcontent, Block.drop_read _ _ hle, Nat.zero_add]
    · rw [List.drop_of_length_le (by omega), Nat.sub_eq_zero_of_le hle]
      rfl
  rw [hback]
  by_cases hsplit : start < b.length
  · have hself := Block.read_write_self data (start + count)
      (data.read start (b.length - start))
    have hnone : start - b.length = 0 := by omega
    rw [Block.length_read] at hself
    rw [if_pos hsplit, hself, Block.read_write_outside _ (by omega), upTo, ← hcontent,
      Block.take_read _ _ (by omega), Block.length_read, hnone, List.replicate_zero,
      List.append_nil]
  · have hnone : b.length - start = 0 := by omega
    rw [if_neg hsplit, padded_read, hcontent, hnone]
    rfl

theorem insert_held_iff (h : b.Stores s) (string : List UInt8) (pos len : Option Nat)
    (pad : Option UInt8) :
    (b.insert string pos len pad).Held ↔
      InsertHeld b (pos.getD 0) (len.getD string.length) := by
  rw [insertHeld_iff]
  obtain ⟨⟨⟨hinside, hsize, _⟩, _⟩, hsame, hroom⟩ :=
    enlarge_stores h (b.length + len.getD string.length)
  simp only [insert]
  generalize b.enlarge (b.length + len.getD string.length) = g at *
  generalize len.getD string.length = count at *
  generalize pos.getD 0 = start
  constructor
  · intro hheld
    have hend := hheld.length_le
    have hsize' := hheld.size_eq
    simp only at hend hsize'
    rw [hsize'] at hend
    split at hend
    · exact .inr hend
    · exact .inl (by omega)
  · intro hfits
    simp only [stringDataSize] at hfits hsize
    obtain ⟨hshift, hshiftsize⟩ := shift_spec hinside g.length start count
      (by omega) (by omega) (pad.getD 32)
    obtain ⟨hplace, hplacesize⟩ := place_spec hshift start count
      (by rw [hshiftsize]; omega) string (pad.getD 32)
    refine ⟨hplace, ?_, ?_⟩
    · simp only [stringDataSize]
      rw [hplacesize, hshiftsize, hsize]
    · simp only
      rw [hplacesize, hshiftsize]
      split <;> omega

theorem insert_stores_iff (h : b.Stores s) (string : List UInt8) (pos len : Option Nat)
    (pad : Option UInt8) :
    (b.insert string pos len pad).Stores (stringStep b.bufferLength s (.insert string pos len pad)) ↔
      InsertHeld b (pos.getD 0) (len.getD string.length) := by
  obtain ⟨w, hw, hexact, hbytes⟩ := StringSub.insert_eq s string pos len pad
  have hstring : stringStep b.bufferLength s (.insert string pos len pad) = w.bytes := by
    rw [stringStep, hw]
    exact hexact.string_eq
  rw [← insert_held_iff h string pos len pad, Stores, hstring, hbytes, insert_content h]
  exact and_iff_left rfl

theorem overlay_content (h : b.Stores s) (string : List UInt8) (start : Nat)
    (len : Option Nat) (pad : Option UInt8) {b' : RexxMutableBuffer} {pos : Option Nat}
    (hpos : optionalPosition pos 1 = .ok (start + 1))
    (hoverlay : b.overlay string pos len pad = .ok b') :
    b'.Stores (upTo s start (pad.getD 32) ++
      fitted string (len.getD string.length) (pad.getD 32) ++
        s.drop (start + len.getD string.length)) := by
  obtain ⟨⟨⟨hinside, hsize, hlength⟩, hcontent⟩, hsame, hroom⟩ :=
    enlarge_stores h (start + len.getD string.length)
  have hlen := h.length_eq
  simp only [overlay, hpos, bind, Except.bind, pure, Except.pure, Except.ok.injEq,
    Nat.add_sub_cancel] at hoverlay
  subst hoverlay
  rw [content] at hcontent
  generalize b.enlarge (start + len.getD string.length) = g at *
  generalize len.getD string.length = count at *
  simp only [stringDataSize] at hsize
  obtain ⟨hpad, hpadsize⟩ := pad_spec hinside g.length start (by omega) (pad.getD 32)
  obtain ⟨hplace, hplacesize⟩ := place_spec hpad start count (by rw [hpadsize]; omega) string
    (pad.getD 32)
  have hend : (if start > g.length then start + count
      else if start + count > g.length then start + count else g.length) =
        start + (count + (g.length - (start + count))) := by
    split <;> try split <;> omega
    omega
  refine ⟨⟨hplace, ?_, ?_⟩, ?_⟩
  · simp only [stringDataSize]
    rw [hplacesize, hpadsize, hsize]
  · simp only [hend]
    rw [hplacesize, hpadsize]
    omega
  · have hback : s.drop (start + count) =
        g.data.read (start + count) (g.length - (start + count)) := by
      rcases Nat.le_total (start + count) g.length with hle | hle
      · rw [← hcontent, Block.drop_read _ _ hle, Nat.zero_add]
      · rw [List.drop_of_length_le (by omega), Nat.sub_eq_zero_of_le hle]
        rfl
    simp only [content, hend]
    rw [Block.read_add, Block.read_add, Nat.zero_add, place_read_self,
      place_read_outside _ string _ (.inl (Nat.le_of_eq (Nat.zero_add _))),
      place_read_outside _ string _ (.inr (Nat.le_refl _)), padded_read,
      padded_read_behind _ _ (.inl (Nat.le_add_right _ _)), hcontent, hback, List.append_assoc]

theorem overlay_stores (h : b.Stores s) (string : List UInt8) (pos len : Option Nat)
    (pad : Option UInt8) :
    (b.step (.overlay string pos len pad)).Stores (stringStep b.bufferLength s (.overlay string pos len pad)) := by
  by_cases hzero : pos = some 0
  · subst hzero
    exact h
  · obtain ⟨start, hpos, hposition⟩ : ∃ start : Option Nat,
        pos.map Nat.cast = start.map StringArguments.positive ∧
          optionalPosition pos 1 = .ok (start.getD 0 + 1) := by
      cases pos with
      | none => exact ⟨none, rfl, rfl⟩
      | some position =>
          obtain ⟨n, rfl⟩ : ∃ n, position = n + 1 :=
            Nat.exists_eq_succ_of_ne_zero fun hnone => hzero (congrArg some hnone)
          exact ⟨some n, rfl, rfl⟩
    obtain ⟨w, hw, hexact, hbytes⟩ := StringSub.overlay_eq s string start len pad
    have hstring : stringStep b.bufferLength s (.overlay string pos len pad) = w.bytes := by
      rw [stringStep, hpos, hw]
      exact hexact.string_eq
    have hok : ∃ b', b.overlay string pos len pad = .ok b' := by
      simp only [overlay, hposition, bind, Except.bind, pure, Except.pure]
      exact ⟨_, rfl⟩
    obtain ⟨b', hb'⟩ := hok
    have hstores := overlay_content h string _ len pad hposition hb'
    rw [hstring, hbytes, step, hb']
    exact hstores

theorem delete_stores (h : b.Stores s) (start : Nat) (len : Option Nat) :
    (b.step (.delete start len)).Stores (stringStep b.bufferLength s (.delete start len)) := by
  cases start with
  | zero => exact h
  | succ start =>
      have hlen := h.length_eq
      obtain ⟨w, hw, hexact, hbytes⟩ := StringSub.delstr_eq s start len
      have hstring : stringStep b.bufferLength s (.delete (start + 1) len) = w.bytes := by
        rw [stringStep]
        change returned s (StringSub.delstr s (StringArguments.positive start) _) = _
        rw [hw]
        exact hexact.string_eq
      obtain ⟨⟨hinside, hsize, hlength⟩, hcontent⟩ := id h
      rw [content] at hcontent
      rw [hstring, hbytes, hlen, step]
      simp only [mydelete, getPosition, Nat.succ_ne_zero, if_false, bind, Except.bind, pure,
        Except.pure, Nat.add_sub_cancel]
      generalize len.getD (b.length - start) = range
      split
      case isTrue hwithin =>
        split
        case isTrue hmiddle =>
            have hrest : b.length - range = start + (b.length - (start + range)) := by omega
            have hself := Block.read_write_self b.data start
              (b.data.read (start + range) (b.length - (start + range)))
            rw [Block.length_read] at hself
            refine ⟨⟨Block.inside_write hinside ?_, hsize, ?_⟩, ?_⟩
            · rw [Block.length_read]
              omega
            · simp only [Except.toOption, Option.getD_some, Block.size_write]
              omega
            · simp only [content, Except.toOption, Option.getD_some]
              rw [hrest, Block.read_add, Nat.zero_add, hself,
                Block.read_write_outside _ (by omega), ← hcontent,
                Block.take_read _ _ (by omega), Block.drop_read _ _ (by omega), Nat.zero_add]
        case isFalse hback =>
            refine ⟨⟨hinside, hsize, ?_⟩, ?_⟩
            · simp only [Except.toOption, Option.getD_some]
              omega
            · simp only [content, Except.toOption, Option.getD_some]
              rw [List.drop_of_length_le (by omega), List.append_nil, ← hcontent,
                Block.take_read _ _ (by omega)]
      case isFalse hpast =>
          refine ⟨⟨hinside, hsize, hlength⟩, ?_⟩
          simp only [content, Except.toOption, Option.getD_some]
          rw [hcontent, List.take_of_length_le (by omega), List.drop_of_length_le (by omega),
            List.append_nil]

theorem setBufferSize_stores (h : b.Stores s) (newsize : Nat) :
    (b.setBufferSize newsize).Stores (stringStep b.bufferLength s (.setBufferSize newsize)) := by
  have hlen := h.length_eq
  obtain ⟨⟨hinside, hsize, hlength⟩, hcontent⟩ := id h
  rw [content] at hcontent
  simp only [setBufferSize, stringStep]
  by_cases hzero : newsize = 0
  · subst hzero
    exact ⟨⟨hinside, rfl, Nat.zero_le _⟩, rfl⟩
  · by_cases hsame : newsize = b.bufferLength
    · rw [if_neg hzero, if_neg (not_not.mpr hsame), if_pos ⟨hzero, hsame⟩]
      exact h
    · have hother : ¬ (newsize ≠ 0 ∧ newsize = b.bufferLength) := fun hboth => hsame hboth.2
      rw [if_neg hzero, if_pos hsame, if_neg hother]
      simp only [stringDataSize] at hsize
      refine ⟨⟨hinside, rfl, ?_⟩, ?_⟩
      · simp only [Block.size_realloc, stringDataSize]
        split <;> omega
      · simp only [content, Block.read_realloc]
        split
        case isTrue hshort => rw [← hcontent, Block.take_read _ _ (by omega)]
        case isFalse hlong => rw [List.take_of_length_le (by omega), hcontent]

/-! ## Runs -/

/-- What an operation needs: only `insert` needs anything. -/
def Holds (b : RexxMutableBuffer) : Op → Prop
  | .insert string pos len _ => InsertHeld b (pos.getD 0) (len.getD string.length)
  | _ => True

def RunHolds (b : RexxMutableBuffer) : List Op → Prop
  | [] => True
  | op :: ops => b.Holds op ∧ (b.step op).RunHolds ops

theorem step_stores_iff (h : b.Stores s) (op : Op) :
    (b.step op).Stores (stringStep b.bufferLength s op) ↔ b.Holds op := by
  cases op with
  | append string => exact iff_of_true (append_stores h string) trivial
  | insert string pos len pad => exact insert_stores_iff h string pos len pad
  | overlay string pos len pad => exact iff_of_true (overlay_stores h string pos len pad) trivial
  | delete start len => exact iff_of_true (delete_stores h start len) trivial
  | setBufferSize newsize => exact iff_of_true (setBufferSize_stores h newsize) trivial

theorem states_store_iff (h : b.Stores s) (ops : List Op) :
    List.Forall₂ Stores (b.states ops) (b.strings s ops) ↔ b.RunHolds ops := by
  induction ops generalizing b s with
  | nil => simp [states, strings, RunHolds, h]
  | cons op ops ih =>
      simp only [states, strings, RunHolds, List.forall₂_cons, h, true_and]
      constructor
      · intro hall
        have hnext : (b.step op).Stores (stringStep b.bufferLength s op) := by
          cases ops <;> exact (List.forall₂_cons.mp hall).1
        exact ⟨(step_stores_iff h op).mp hnext, (ih hnext).mp hall⟩
      · rintro ⟨hholds, hrun⟩
        exact (ih ((step_stores_iff h op).mpr hholds)).mpr hrun

/-- A run edits the buffer as the string methods edit the string exactly when no
insertion leaves the block. -/
theorem run_stores_iff (string : List UInt8) (size : Option Nat) (ops : List Op) :
    List.Forall₂ Stores ((newRexx string size).states ops)
        ((newRexx string size).strings string ops) ↔
      (newRexx string size).RunHolds ops :=
  states_store_iff (newRexx_stores string size) ops

/-- One character inserted at the offset 300 of an empty buffer of 256 bytes. -/
theorem insert_outside_block :
    let b := (newRexx [] none).insert [97] (some 300) none none
    (¬ List.Forall₂ Stores ((newRexx [] none).states [.insert [97] (some 300) none none])
      ((newRexx [] none).strings [] [.insert [97] (some 300) none none])) ∧
      b.data.inside = false ∧ b.data.size < b.length := by
  intro b
  have hinside : b.data.inside = false := by decide +kernel
  refine ⟨?_, hinside, by decide⟩
  intro hall
  have hstores := (List.forall₂_cons.mp (List.forall₂_cons.mp hall).2).1
  have hheld : b.Held := hstores.1
  rw [hheld.inside] at hinside
  contradiction

end LeooRexx.RexxMutableBuffer
