import LeooRexx.Classes.MutableBuffer

/-!
# The capacity of a mutable buffer

Every method but `insert` grows the buffer to what it writes.  `insert` grows it to
the contents and the inserted text, and leaves out the padding up to a position past
the end.
-/

namespace LeooRexx.RexxMutableBuffer

structure WithinCapacity (b : RexxMutableBuffer) : Prop where
  inside : b.data.inside = true
  length_le : b.length ≤ b.bufferLength
  bufferLength_le : b.bufferLength ≤ b.data.size

variable {b : RexxMutableBuffer}

theorem newRexx_withinCapacity (string : List UInt8) (size : Option Nat) :
    (newRexx string size).WithinCapacity := by
  have hlen : string.length ≤ (newRexx string size).bufferLength := by
    simp only [newRexx]
    split <;> omega
  refine ⟨?_, hlen, Nat.le_add_right _ 4⟩
  apply Block.inside_write rfl
  rw [Block.size_malloc, Nat.zero_add]
  exact Nat.le_trans hlen (Nat.le_add_right _ 4)

theorem enlarge_spec (h : b.WithinCapacity) (needed : Nat) :
    (b.enlarge needed).WithinCapacity ∧ (b.enlarge needed).length = b.length ∧
      needed ≤ (b.enlarge needed).bufferLength := by
  obtain ⟨hinside, hlen, hsize⟩ := h
  simp only [enlarge]
  split
  · refine ⟨⟨hinside, ?_, Nat.le_add_right _ 4⟩, rfl, ?_⟩
    · simp only
      split <;> omega
    · simp only
      split <;> omega
  · exact ⟨⟨hinside, hlen, hsize⟩, rfl, by omega⟩

theorem place_spec {data : Block} (h : data.inside = true) (offset count : Nat)
    (hroom : offset + count ≤ data.size) (string : List UInt8) (padChar : UInt8) :
    (place data offset string count padChar).inside = true ∧
      (place data offset string count padChar).size = data.size := by
  simp only [place]
  split
  · refine ⟨Block.inside_write h ?_, rfl⟩
    rw [List.length_take]
    omega
  · refine ⟨Block.inside_write (Block.inside_write h ?_) ?_, rfl⟩
    · omega
    · rw [List.length_replicate, Block.size_write]
      omega

theorem append_withinCapacity (h : b.WithinCapacity) (string : List UInt8) :
    (b.append string).WithinCapacity := by
  obtain ⟨⟨hinside, hlen, hsize⟩, hsame, hroom⟩ := enlarge_spec h (b.length + string.length)
  have hend : (b.enlarge (b.length + string.length)).length + string.length
      ≤ (b.enlarge (b.length + string.length)).bufferLength := by
    rwa [hsame]
  exact ⟨Block.inside_write hinside (Nat.le_trans hend hsize), hend, hsize⟩

theorem setBufferSize_withinCapacity (h : b.WithinCapacity) (newsize : Nat) :
    (b.setBufferSize newsize).WithinCapacity := by
  obtain ⟨hinside, hlen, hsize⟩ := h
  simp only [setBufferSize]
  split
  · exact ⟨hinside, Nat.zero_le _, Nat.le_add_right _ 4⟩
  · split
    · refine ⟨hinside, ?_, Nat.le_add_right _ 4⟩
      simp only
      split <;> omega
    · exact ⟨hinside, hlen, hsize⟩

theorem pad_spec {data : Block} (h : data.inside = true) (length start : Nat)
    (hroom : start ≤ data.size) (padChar : UInt8) :
    (if start > length then data.write length (List.replicate (start - length) padChar)
      else data).inside = true ∧
    (if start > length then data.write length (List.replicate (start - length) padChar)
      else data).size = data.size := by
  split
  · refine ⟨Block.inside_write h ?_, rfl⟩
    rw [List.length_replicate]
    omega
  · exact ⟨h, rfl⟩

theorem overlay_withinCapacity (h : b.WithinCapacity) {string : List UInt8}
    {pos len : Option Nat} {pad : Option UInt8} {b' : RexxMutableBuffer}
    (hoverlay : b.overlay string pos len pad = .ok b') : b'.WithinCapacity := by
  simp only [overlay] at hoverlay
  cases hposition : optionalPosition pos 1 with
  | error e =>
      simp [hposition, bind, Except.bind] at hoverlay
  | ok position =>
      simp only [hposition, bind, Except.bind, pure, Except.pure, Except.ok.injEq] at hoverlay
      subst hoverlay
      obtain ⟨⟨hinside, hlen, hsize⟩, hsame, hroom⟩ :=
        enlarge_spec h (position - 1 + len.getD string.length)
      have hstart : position - 1
          ≤ (b.enlarge (position - 1 + len.getD string.length)).data.size := by omega
      obtain ⟨hpad, hpadsize⟩ := pad_spec hinside
        (b.enlarge (position - 1 + len.getD string.length)).length _ hstart (pad.getD 32)
      obtain ⟨hplace, hplacesize⟩ := place_spec hpad (position - 1) (len.getD string.length)
        (by rw [hpadsize]; omega) string (pad.getD 32)
      refine ⟨hplace, ?_, ?_⟩
      · simp only
        split
        · exact hroom
        · split <;> omega
      · simp only
        rw [hplacesize, hpadsize]
        exact hsize

theorem mydelete_withinCapacity (h : b.WithinCapacity) {start : Nat} {len : Option Nat}
    {b' : RexxMutableBuffer} (hdelete : b.mydelete start len = .ok b') :
    b'.WithinCapacity := by
  obtain ⟨hinside, hlen, hsize⟩ := id h
  simp only [mydelete] at hdelete
  cases hposition : getPosition start with
  | error e => simp [hposition, bind, Except.bind] at hdelete
  | ok position =>
      simp only [hposition, bind, Except.bind, pure, Except.pure] at hdelete
      split at hdelete
      · split at hdelete
        · cases hdelete
          refine ⟨Block.inside_write hinside ?_, ?_, hsize⟩
          · rw [Block.length_read]
            omega
          · simp only
            omega
        · cases hdelete
          exact ⟨hinside, by simp only; omega, hsize⟩
      · cases hdelete
        exact h

/-! ## Insertion -/

def InsertFits (b : RexxMutableBuffer) (start insertLength : Nat) : Prop :=
  start ≤ b.length ∨ start + insertLength ≤ b.bufferLength ∨
    b.bufferLength < b.length + insertLength ∧ start + insertLength ≤ b.bufferLength * 2

theorem insertFits_iff (h : b.WithinCapacity) (start insertLength : Nat) :
    InsertFits b start insertLength ↔
      start ≤ b.length ∨
        start + insertLength ≤ (b.enlarge (b.length + insertLength)).bufferLength := by
  have hlen := h.length_le
  simp only [InsertFits, enlarge]
  split
  · simp only
    split <;> omega
  · omega

theorem shift_spec {data : Block} (h : data.inside = true) (length start count : Nat)
    (hlength : length + count ≤ data.size) (hstart : start ≤ data.size) (padChar : UInt8) :
    (if start < length then data.write (start + count) (data.read start (length - start))
      else if start > length then data.write length (List.replicate (start - length) padChar)
      else data).inside = true ∧
    (if start < length then data.write (start + count) (data.read start (length - start))
      else if start > length then data.write length (List.replicate (start - length) padChar)
      else data).size = data.size := by
  split
  · refine ⟨Block.inside_write h ?_, rfl⟩
    rw [Block.length_read]
    omega
  · exact pad_spec h _ _ hstart padChar

theorem insert_withinCapacity_iff (h : b.WithinCapacity) (string : List UInt8)
    (pos len : Option Nat) (pad : Option UInt8) :
    (b.insert string pos len pad).WithinCapacity ↔
      InsertFits b (pos.getD 0) (len.getD string.length) := by
  rw [insertFits_iff h]
  simp only [insert]
  obtain ⟨start, hstart⟩ : ∃ start, start = pos.getD 0 := ⟨_, rfl⟩
  obtain ⟨count, hcount⟩ : ∃ count, count = len.getD string.length := ⟨_, rfl⟩
  rw [← hstart, ← hcount]
  have hspec := enlarge_spec h (b.length + count)
  obtain ⟨g, hg⟩ : ∃ g, g = b.enlarge (b.length + count) := ⟨_, rfl⟩
  rw [← hg] at hspec ⊢
  obtain ⟨⟨hinside, hlen, hsize⟩, hsame, hroom⟩ := hspec
  constructor
  · intro hwithin
    have hend := hwithin.length_le
    simp only at hend
    split at hend
    · exact .inr hend
    · exact .inl (by omega)
  · intro hfits
    have hend : start + count ≤ g.bufferLength := by omega
    obtain ⟨hshift, hshiftsize⟩ := shift_spec hinside g.length start count
      (by omega) (by omega) (pad.getD 32)
    obtain ⟨hplace, hplacesize⟩ := place_spec hshift start count
      (by rw [hshiftsize]; omega) string (pad.getD 32)
    refine ⟨hplace, ?_, ?_⟩
    · simp only
      split <;> omega
    · simp only
      rw [hplacesize, hshiftsize]
      exact hsize

/-! ## Runs -/

def Fits (b : RexxMutableBuffer) : Op → Prop
  | .insert string pos len _ => InsertFits b (pos.getD 0) (len.getD string.length)
  | _ => True

def RunFits (b : RexxMutableBuffer) : List Op → Prop
  | [] => True
  | op :: ops => b.Fits op ∧ (b.step op).RunFits ops

theorem step_withinCapacity_iff (h : b.WithinCapacity) (op : Op) :
    (b.step op).WithinCapacity ↔ b.Fits op := by
  cases op with
  | append string => exact iff_of_true (append_withinCapacity h string) trivial
  | insert string pos len pad => exact insert_withinCapacity_iff h string pos len pad
  | overlay string pos len pad =>
      refine iff_of_true ?_ trivial
      simp only [step]
      cases hoverlay : b.overlay string pos len pad with
      | error e => exact h
      | ok b' => exact overlay_withinCapacity h hoverlay
  | delete start len =>
      refine iff_of_true ?_ trivial
      simp only [step]
      cases hdelete : b.mydelete start len with
      | error e => exact h
      | ok b' => exact mydelete_withinCapacity h hdelete
  | setBufferSize newsize => exact iff_of_true (setBufferSize_withinCapacity h newsize) trivial

theorem states_withinCapacity_iff (h : b.WithinCapacity) (ops : List Op) :
    (∀ s ∈ b.states ops, s.WithinCapacity) ↔ b.RunFits ops := by
  induction ops generalizing b with
  | nil => simp [states, RunFits, h]
  | cons op ops ih =>
      simp only [states, RunFits, List.forall_mem_cons, h, true_and]
      constructor
      · intro hall
        have hnext : (b.step op).WithinCapacity := hall _ (by cases ops <;> simp [states])
        exact ⟨(step_withinCapacity_iff h op).mp hnext, (ih hnext).mp hall⟩
      · rintro ⟨hfits, hrun⟩
        exact (ih ((step_withinCapacity_iff h op).mpr hfits)).mpr hrun

/-- The runs that stay within the capacity are those in which no inserted text ends
past the buffer as it has been grown. -/
theorem run_withinCapacity_iff (string : List UInt8) (size : Option Nat) (ops : List Op) :
    (∀ b ∈ (newRexx string size).states ops, b.WithinCapacity) ↔
      (newRexx string size).RunFits ops :=
  states_withinCapacity_iff (newRexx_withinCapacity string size) ops

/-- One character inserted at the offset 300 of an empty buffer of 256 bytes is written
outside the block, and the recorded length passes the recorded buffer length. -/
theorem insert_past_capacity :
    let b := (newRexx [] none).insert [97] (some 300) none none
    (¬ ∀ s ∈ (newRexx [] none).states [.insert [97] (some 300) none none], s.WithinCapacity) ∧
      b.data.inside = false ∧ b.bufferLength < b.length := by
  intro b
  have hinside : b.data.inside = false := by decide +kernel
  refine ⟨?_, hinside, by decide⟩
  intro hall
  have hwithin := hall b (by simp [states, step, b])
  rw [hwithin.inside] at hinside
  contradiction

end LeooRexx.RexxMutableBuffer
