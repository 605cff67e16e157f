import LeooRexx.Runtime.RexxCompoundTail

/-!
# The capacity of a tail

A tail is built right as long as its buffer has grown once at most, or has the room that
the first growth gave it: its pieces up to the one that left the internal buffer, and the
pad.
-/

namespace LeooRexx.RexxCompoundTail

open NumberString (ltoa)

def bare (t : RexxCompoundTail) : RexxCompoundTail := { t with formatted := true }

structure Holding (t : RexxCompoundTail) (bytes : List UInt8) : Prop where
  inside : t.store.inside = true
  current_eq : t.current = bytes.length
  content : t.store.read 0 t.current = bytes
  remainder_eq : t.remainder + t.current = t.store.size
  direct_eq : t.direct = none

variable {t : RexxCompoundTail} {bytes data : List UInt8}

/-! ## One append -/

theorem append_fits (h : t.Holding bytes) (hroom : bytes.length + data.length ≤ t.store.size) :
    (t.append data).Holding (bytes ++ data) ∧ (t.append data).store.size = t.store.size ∧
      (t.append data).allocated = t.allocated := by
  obtain ⟨hinside, hcurrent, hcontent, hremainder, hdirect⟩ := h
  have henough : ¬ t.remainder < data.length := by omega
  simp only [append, ensureCapacity, if_neg henough]
  refine ⟨⟨Block.inside_write hinside (by omega), ?_, ?_, ?_, hdirect⟩, rfl, trivial⟩
  · simp only [List.length_append]
    omega
  · rw [Block.read_add, Nat.zero_add, Block.read_write_self, Block.read_write_outside _ (by omega),
      hcontent]
  · simp only [Block.size_write]
    omega

theorem append_grows (h : t.Holding bytes) (hbuffer : t.allocated = false)
    (hmore : t.store.size < bytes.length + data.length) :
    (t.append data).Holding (bytes ++ data) ∧
      (t.append data).store.size = bytes.length + data.length + allocationPad ∧
      (t.append data).allocated = true := by
  obtain ⟨hinside, hcurrent, hcontent, hremainder, hdirect⟩ := h
  have hshort : t.remainder < data.length := by omega
  simp only [append, ensureCapacity, if_pos hshort, expandCapacity, hbuffer, Bool.false_eq_true,
    if_false]
  have hcopied : ((t.store.renew (t.current + data.length + allocationPad)).write 0
      (t.store.read 0 t.current)).inside = true :=
    Block.inside_write (b := t.store.renew _) hinside
      (by rw [Block.length_read, Block.size_renew]; omega)
  refine ⟨⟨Block.inside_write hcopied ?_, ?_, ?_, ?_, hdirect⟩, ?_, trivial⟩
  · simp only [Block.size_write, Block.size_renew]
    omega
  · simp only [List.length_append]
    omega
  · have hself := Block.read_write_self (t.store.renew (t.current + data.length + allocationPad)) 0
      (t.store.read 0 t.current)
    rw [Block.length_read] at hself
    rw [Block.read_add, Nat.zero_add, Block.read_write_self, Block.read_write_outside _ (by omega),
      hself, hcontent]
  · simp only [Block.size_write, Block.size_renew]
    omega
  · simp only [Block.size_write, Block.size_renew]
    omega

theorem append_overruns (h : t.Holding bytes) (hallocated : t.allocated = true)
    (hmore : t.store.size < bytes.length + data.length) :
    (t.append data).store.inside = false := by
  obtain ⟨hinside, hcurrent, hcontent, hremainder, hdirect⟩ := h
  have hshort : t.remainder < data.length := by omega
  have hne : data ≠ [] := by
    rintro rfl
    exact Nat.not_lt_zero _ hshort
  simp only [append, ensureCapacity, if_pos hshort, expandCapacity, hallocated, if_true,
    Block.write]
  rw [hcurrent, decide_eq_false (by simp only [hne, false_or]; omega), Bool.and_false]

theorem append_outside (h : t.store.inside = false) : (t.append data).store.inside = false := by
  simp only [append, ensureCapacity, expandCapacity]
  split_ifs <;> simp [Block.write, h]

/-! ## All pieces -/

/-- The room in the end for pieces of these sizes behind `sum` bytes in the internal
buffer: the first piece that leaves it decides. -/
def capacityFor (sum : Nat) : List Nat → Nat
  | [] => maxSymbolLength
  | size :: sizes =>
      if maxSymbolLength < sum + size then sum + size + allocationPad
      else capacityFor (sum + size) sizes

def appendAll (t : RexxCompoundTail) (chunks : List (List UInt8)) : RexxCompoundTail :=
  chunks.foldl append t

theorem appendAll_outside (h : t.store.inside = false) (chunks : List (List UInt8)) :
    (t.appendAll chunks).store.inside = false := by
  induction chunks generalizing t with
  | nil => exact h
  | cons chunk chunks ih => exact ih (append_outside h)

theorem appendAll_allocated (h : t.Holding bytes) (hallocated : t.allocated = true)
    (chunks : List (List UInt8)) :
    if bytes.length + chunks.flatten.length ≤ t.store.size then
      (t.appendAll chunks).Holding (bytes ++ chunks.flatten)
    else (t.appendAll chunks).store.inside = false := by
  induction chunks generalizing t bytes with
  | nil =>
      have hle : bytes.length ≤ t.store.size := by
        have hcurrent := h.current_eq
        have hremainder := h.remainder_eq
        omega
      simpa [appendAll, hle] using h
  | cons chunk chunks ih =>
      rw [List.flatten_cons, List.length_append, ← Nat.add_assoc, ← List.append_assoc]
      by_cases hroom : bytes.length + chunk.length ≤ t.store.size
      · obtain ⟨hnext, hsize, hsame⟩ := append_fits h hroom
        have hrest := ih hnext (hsame.trans hallocated)
        rw [hsize, List.length_append] at hrest
        exact hrest
      · rw [if_neg (by omega)]
        exact appendAll_outside (append_overruns h hallocated (by omega)) chunks

theorem appendAll_buffer (h : t.Holding bytes) (hbuffer : t.allocated = false)
    (hsize : t.store.size = maxSymbolLength) (chunks : List (List UInt8)) :
    if bytes.length + chunks.flatten.length ≤
        capacityFor bytes.length (chunks.map List.length) then
      (t.appendAll chunks).Holding (bytes ++ chunks.flatten)
    else (t.appendAll chunks).store.inside = false := by
  induction chunks generalizing t bytes with
  | nil =>
      have hle : bytes.length ≤ maxSymbolLength := by
        have hcurrent := h.current_eq
        have hremainder := h.remainder_eq
        omega
      simpa [appendAll, capacityFor, hle] using h
  | cons chunk chunks ih =>
      rw [List.flatten_cons, List.length_append, ← Nat.add_assoc, ← List.append_assoc,
        List.map_cons, capacityFor]
      by_cases hroom : bytes.length + chunk.length ≤ t.store.size
      · obtain ⟨hnext, hsize', hsame⟩ := append_fits h hroom
        have hrest := ih hnext (hsame.trans hbuffer) (hsize'.trans hsize)
        have hbelow : ¬ maxSymbolLength < bytes.length + chunk.length := by omega
        rw [List.length_append] at hrest
        rw [if_neg hbelow]
        exact hrest
      · have hmore : t.store.size < bytes.length + chunk.length := by omega
        obtain ⟨hnext, hsize', hallocated⟩ := append_grows h hbuffer hmore
        have hrest := appendAll_allocated hnext hallocated chunks
        have habove : maxSymbolLength < bytes.length + chunk.length := by omega
        rw [List.length_append, hsize'] at hrest
        rw [if_pos habove]
        exact hrest

/-! ## Whole tails -/

def Formats : TailPiece → Prop
  | .integer i => i.stringrep = none → (ltoa i.value).length ≤ 10
  | _ => True

def restChunks (pieces : List TailPiece) : List (List UInt8) :=
  pieces.flatMap fun piece => [[chDot], piece.value]

theorem bare_append (t : RexxCompoundTail) (data : List UInt8) :
    (t.append data).bare = t.bare.append data ∧ (t.append data).formatted = t.formatted := by
  by_cases hshort : t.remainder < data.length
  · simp only [append, ensureCapacity, bare, hshort, if_true, expandCapacity]
    by_cases hallocated : t.allocated = true
    · simp only [hallocated, if_true, and_self]
    · simp only [hallocated, if_false, and_self, Bool.false_eq_true]
  · simp only [append, ensureCapacity, bare, hshort, if_false]
    exact ⟨trivial, trivial⟩

theorem stringBuffer_inside_iff (value : Int) :
    (stringBuffer value).inside = true ↔ (ltoa value).length ≤ 10 := by
  rw [stringBuffer, Block.inside_write_iff]
  simp only [Block.malloc, true_and, List.append_eq_nil_iff, List.cons_ne_nil, and_false, false_or,
    List.length_append, List.length_cons, List.length_nil]
  omega

theorem copyIntoTail_spec (t : RexxCompoundTail) (piece : TailPiece) :
    (t.copyIntoTail piece).bare = t.bare.append piece.value ∧
      ((t.copyIntoTail piece).formatted = true ↔ t.formatted = true ∧ Formats piece) := by
  cases piece with
  | string value =>
      obtain ⟨hbare, hformatted⟩ := bare_append t value
      exact ⟨hbare, by simp [copyIntoTail, hformatted, Formats]⟩
  | object value =>
      obtain ⟨hbare, hformatted⟩ := bare_append t value
      exact ⟨hbare, by simp [copyIntoTail, hformatted, Formats]⟩
  | integer i =>
      cases hrep : i.stringrep with
      | some stringrep =>
          obtain ⟨hbare, hformatted⟩ := bare_append t stringrep
          exact ⟨by simp [copyIntoTail, hrep, hbare, TailPiece.value, RexxInteger.stringValue],
            by simp [copyIntoTail, hrep, hformatted, Formats]⟩
      | none =>
          obtain ⟨hbare, hformatted⟩ := bare_append
            { t with formatted := t.formatted && (stringBuffer i.value).inside } (ltoa i.value)
          refine ⟨?_, ?_⟩
          · simp only [copyIntoTail, hrep, hbare, TailPiece.value, RexxInteger.stringValue]
            rfl
          · simp only [copyIntoTail, hrep, hformatted, Formats, Bool.and_eq_true,
              stringBuffer_inside_iff, true_implies]

theorem copyRest_spec (t : RexxCompoundTail) (pieces : List TailPiece) :
    (t.copyRest pieces).bare = t.bare.appendAll (restChunks pieces) ∧
      ((t.copyRest pieces).formatted = true ↔
        t.formatted = true ∧ ∀ piece ∈ pieces, Formats piece) := by
  induction pieces generalizing t with
  | nil => exact ⟨rfl, by simp [copyRest]⟩
  | cons piece pieces ih =>
      obtain ⟨hrest, hformatted⟩ := ih (t.addDot.copyIntoTail piece)
      obtain ⟨hcopied, hcopied'⟩ := copyIntoTail_spec t.addDot piece
      obtain ⟨hdot, hdot'⟩ := bare_append t [chDot]
      rw [addDot] at hcopied hcopied'
      rw [copyRest, hrest, hformatted, addDot, hcopied, hdot, hcopied', hdot',
        List.forall_mem_cons, and_assoc]
      exact ⟨rfl, Iff.rfl⟩

theorem init_holding : init.Holding [] := ⟨rfl, rfl, rfl, rfl, rfl⟩

def sizes : List TailPiece → List Nat
  | [] => []
  | piece :: pieces => piece.value.length :: (restChunks pieces).map List.length

def joined (pieces : List TailPiece) : List UInt8 :=
  [chDot].intercalate (pieces.map TailPiece.value)

theorem joined_cons (piece : TailPiece) (pieces : List TailPiece) :
    joined (piece :: pieces) = piece.value ++ (restChunks pieces).flatten := by
  induction pieces generalizing piece with
  | nil => simp [joined, restChunks]
  | cons next pieces ih =>
      have hrest := ih next
      simp only [joined, List.map_cons, restChunks, List.flatMap_cons] at hrest ⊢
      rw [List.intercalate_cons_cons, hrest]
      simp

def Fits (pieces : List TailPiece) : Prop :=
  (joined pieces).length ≤ capacityFor 0 (sizes pieces) ∧ ∀ piece ∈ pieces, Formats piece

theorem copied_built_iff (piece : TailPiece) (pieces : List TailPiece) :
    ((init.copyIntoTail piece).copyRest pieces).finish.Built (joined (piece :: pieces)) ↔
      Fits (piece :: pieces) := by
  obtain ⟨hrest, hformatted⟩ := copyRest_spec (init.copyIntoTail piece) pieces
  obtain ⟨hfirst, hfirst'⟩ := copyIntoTail_spec init piece
  have hall := appendAll_buffer init_holding rfl rfl (piece.value :: restChunks pieces)
  have hchunks : (init.copyIntoTail piece).bare.appendAll (restChunks pieces) =
      init.appendAll (piece.value :: restChunks pieces) := by
    rw [hfirst]
    rfl
  rw [hfirst'] at hformatted
  rw [hchunks] at hrest
  rw [← hrest, List.flatten_cons, List.nil_append, ← joined_cons, List.length_nil, Nat.zero_add,
    List.map_cons] at hall
  rw [Fits, sizes, List.forall_mem_cons]
  generalize (init.copyIntoTail piece).copyRest pieces = t at *
  split at hall
  case isTrue hroom =>
      obtain ⟨hinside, hcurrent, hcontent, _, hdirect⟩ := hall
      change t.direct = none at hdirect
      have hstring : t.finish.string = joined (piece :: pieces) := by
        simp only [string, finish, hdirect]
        exact hcontent
      constructor
      · intro hbuilt
        obtain ⟨⟨_, hpiece⟩, hpieces⟩ := hformatted.mp hbuilt.formatted
        exact ⟨hroom, hpiece, hpieces⟩
      · rintro ⟨_, hpiece, hpieces⟩
        exact ⟨hinside, hformatted.mpr ⟨⟨rfl, hpiece⟩, hpieces⟩, hcurrent, hstring⟩
  case isFalse hmore =>
      refine iff_of_false ?_ fun hfits => hmore hfits.1
      intro hbuilt
      have hinside : t.bare.store.inside = true := hbuilt.inside
      rw [hall] at hinside
      contradiction

theorem capacityFor_singleton (n : Nat) : n ≤ capacityFor 0 [n] := by
  simp only [capacityFor]
  split <;> omega

theorem fits_singleton_iff (piece : TailPiece) : Fits [piece] ↔ Formats piece := by
  have hjoined : (joined [piece]).length ≤ capacityFor 0 (sizes [piece]) := by
    simpa [joined, sizes, restChunks] using capacityFor_singleton piece.value.length
  rw [Fits, List.forall_mem_singleton]
  exact and_iff_right hjoined

theorem direct_built (value : List UInt8) :
    ({ init with direct := some value, length := value.length, remainder := 0 } :
      RexxCompoundTail).Built value :=
  ⟨rfl, rfl, rfl, List.take_length⟩

theorem buildTail_built_iff (pieces : List TailPiece) :
    (buildTail pieces).Built (joined pieces) ↔ Fits pieces := by
  match pieces with
  | [] =>
      refine iff_of_true ⟨rfl, rfl, rfl, rfl⟩ ⟨Nat.zero_le _, ?_⟩
      exact fun piece hpiece => absurd hpiece List.not_mem_nil
  | [piece] =>
      have hjoined : joined [piece] = piece.value := by simp [joined]
      have hcopied := copied_built_iff piece []
      rw [hjoined] at hcopied ⊢
      cases piece with
      | string value =>
          exact iff_of_true (direct_built value) ((fits_singleton_iff _).mpr trivial)
      | object value => exact hcopied
      | integer i =>
          cases hrep : i.stringrep with
          | some stringrep =>
              have hvalue : (TailPiece.integer i).value = stringrep := by
                simp [TailPiece.value, RexxInteger.stringValue, hrep]
              rw [hvalue]
              simp only [buildTail, hrep]
              refine iff_of_true (direct_built stringrep) ((fits_singleton_iff _).mpr ?_)
              intro hnone
              exact absurd hnone (by simp [hrep])
          | none =>
              simp only [buildTail, hrep]
              exact hcopied
  | piece :: next :: pieces => exact copied_built_iff piece (next :: pieces)

theorem buildTailArguments_built_iff (parts : List (Option TailPiece)) :
    (buildTailArguments parts).Built (joined (parts.map fun part => part.getD (.string []))) ↔
      Fits (parts.map fun part => part.getD (.string [])) := by
  cases parts with
  | nil =>
      refine iff_of_true ⟨rfl, rfl, rfl, rfl⟩ ⟨Nat.zero_le _, ?_⟩
      exact fun piece hpiece => absurd hpiece List.not_mem_nil
  | cons part parts => exact copied_built_iff _ _

end LeooRexx.RexxCompoundTail
