import Mathlib
import LeooRexx.Rexutils.SysStemEdits

/-!
# Copying from stem to stem

Copying keeps to the list of the target, if it does, only where nothing is noticed late: that
an element to copy is missing, or that the positions are not those of elements.
-/

namespace LeooRexx

namespace SysStem

open Moves

variable {p q : VariablePool} {c : CopyArguments} {ulCopyCount ulFromCount ulToCount : ℕ}

/-- As `Edits`, and on success the source is as it was too. -/
def CopyEdits (p : VariablePool) (result : VariablePool × Return) (c : CopyArguments)
    (ulFromCount ulToCount : ℕ) : Prop :=
  Edits p result (copied p c ulFromCount ulToCount) ∧
    (result.2 = .zero → ∀ i, result.1 (c.fromStem, i) = p (c.fromStem, i))

theorem copyEdits_minusOne : CopyEdits p (q, .minusOne) c ulFromCount ulToCount ↔ q = p :=
  and_iff_left nofun

theorem copyEdits_zero : CopyEdits p (q, .zero) c ulFromCount ulToCount ↔
    copied p c ulFromCount ulToCount = some q ∧ ∀ i, q (c.fromStem, i) = p (c.fromStem, i) :=
  and_congr edits_zero ⟨fun h => h rfl, fun h _ => h⟩

theorem copied_inRange (h : copied p c ulFromCount ulToCount = some q) :
    c.InRange ulFromCount ulToCount := by
  by_contra hno
  rw [copied] at h
  simp only [hno, if_false] at h
  cases h

/-! ## The elements that are copied -/

theorem copyMoves_nodup (hcount : ulCopyCount < 2 ^ 32) :
    ((copyMoves c ulCopyCount).map Prod.snd).Nodup :=
  targets_nodup (Nat.le_of_lt hcount)

theorem mem_copyMoves {x : (Text × ℕ) × (Text × ℕ)} :
    x ∈ copyMoves c ulCopyCount ↔ ∃ i < ulCopyCount,
      ((c.fromStem, (c.ulFrom + i) % 2 ^ 32), (c.toStem, (c.ulTo + i) % 2 ^ 32)) = x := by
  simp only [copyMoves, List.mem_map, List.mem_range]

theorem copyMoves_ordered (hne : c.fromStem ≠ c.toStem) :
    (copyMoves c ulCopyCount).Pairwise fun x y => x.2 ≠ y.1 := by
  rw [copyMoves, List.pairwise_map]
  refine List.pairwise_lt_range.imp fun _ heq => ?_
  exact hne (Prod.mk.inj heq).1.symm

theorem copyMoves_frame_zero (hto : 1 ≤ c.ulTo) (hlt : c.ulTo < 2 ^ 32) :
    (move isVariable (copyMoves c ulCopyCount) p).1 (c.toStem, 0) = p (c.toStem, 0) := by
  rw [← List.take_append_drop (2 ^ 31 - c.ulTo) (copyMoves c ulCopyCount)]
  refine move_frame_until (fun x hx heq => ?_) fun x hx => ?_
  · rw [copyMoves, ← List.map_take, List.take_range] at hx
    obtain ⟨i, hi, rfl⟩ := List.mem_map.mp hx
    rw [List.mem_range] at hi
    have heq' := (Prod.mk.inj heq).2
    omega
  · rw [List.head?_drop] at hx
    obtain ⟨hi, rfl⟩ := List.getElem?_eq_some_iff.mp hx
    simp only [copyMoves, List.getElem_map, List.getElem_range, Bool.and_eq_false_iff, isVariable,
      decide_eq_false_iff_not]
    omega

theorem consecutive_lt {a n : ℕ} (ha : a < 2 ^ 32) (hn : 1 ≤ n)
    (h : ∀ i < n, (a + i) % 2 ^ 32 < 2 ^ 31) : a + n ≤ 2 ^ 31 := by
  have hzero := h 0 hn
  by_contra hlt
  have hlast := h (2 ^ 31 - a) (by omega)
  omega

section Copied

variable (hfrom : c.ulFrom < 2 ^ 32) (hto : c.ulTo < 2 ^ 32) (hone : 1 ≤ ulCopyCount)

include hfrom hto hone in
theorem copyMoves_bound (h : (move isVariable (copyMoves c ulCopyCount) p).2 = true) :
    c.ulFrom + ulCopyCount ≤ 2 ^ 31 ∧ c.ulTo + ulCopyCount ≤ 2 ^ 31 := by
  have husable := fun i (hi : i < ulCopyCount) =>
    usable_of_move h _ (mem_copyMoves.mpr ⟨i, hi, rfl⟩)
  exact ⟨consecutive_lt hfrom hone fun i hi => isVariable_iff.mp (husable i hi).1,
    consecutive_lt hto hone fun i hi => isVariable_iff.mp (husable i hi).2⟩

variable (hbound : c.ulFrom + ulCopyCount ≤ 2 ^ 31 ∧ c.ulTo + ulCopyCount ≤ 2 ^ 31)
include hbound

theorem mem_copyMoves_of_le {i : ℕ} (hi : c.ulTo ≤ i) (hlt : i < c.ulTo + ulCopyCount) :
    ((c.fromStem, c.ulFrom + (i - c.ulTo)), (c.toStem, i)) ∈ copyMoves c ulCopyCount := by
  refine mem_copyMoves.mpr ⟨i - c.ulTo, by omega, ?_⟩
  rw [Nat.mod_eq_of_lt (by omega), Nat.mod_eq_of_lt (by omega), Nat.add_sub_cancel' hi]

theorem copyMoves_frame {t : Text} {i : ℕ}
    (h : t ≠ c.toStem ∨ i < c.ulTo ∨ c.ulTo + ulCopyCount ≤ i) :
    (move isVariable (copyMoves c ulCopyCount) p).1 (t, i) = p (t, i) := by
  refine move_frame fun x hx heq => ?_
  obtain ⟨j, hj, rfl⟩ := mem_copyMoves.mp hx
  obtain ⟨rfl, rfl⟩ := Prod.mk.inj heq
  rcases h with h | h | h
  · exact h rfl
  · omega
  · omega

end Copied

theorem copied_eq_some {k n : ℕ} (hrange : c.InRange ulFromCount ulToCount)
    (hk : k = if c.fInsert then c.ulTo - 1 else c.ulTo - 1 + c.count ulFromCount)
    (hlength : n = c.ulTo - 1 + c.count ulFromCount + (ulToCount - k))
    (hother : ∀ t i, t ≠ c.toStem → q (t, i) = p (t, i))
    (hzero : q (c.toStem, 0) =
      if n = ulToCount then p (c.toStem, 0) else some (sprintf n))
    (hbefore : ∀ i, i ≠ 0 → i < c.ulTo → q (c.toStem, i) = p (c.toStem, i))
    (hnew : ∀ i, c.ulTo ≤ i → i < c.ulTo + c.count ulFromCount →
      q (c.toStem, i) = p (c.fromStem, c.ulFrom + (i - c.ulTo)))
    (hafter : ∀ i, c.ulTo + c.count ulFromCount ≤ i → i ≤ n →
      q (c.toStem, i) = p (c.toStem, k + (i - (c.ulTo + c.count ulFromCount)) + 1))
    (hbeyond : ∀ i, i ≠ 0 → n < i → q (c.toStem, i) = p (c.toStem, i)) :
    copied p c ulFromCount ulToCount = some q := by
  obtain ⟨hfrom, hlast, hto, hend⟩ := id hrange
  have hkLe : c.ulTo - 1 ≤ k ∧ k ≤ c.ulTo - 1 + c.count ulFromCount := by
    rw [hk]
    split <;> omega
  simp only [copied]
  rw [if_pos hrange, ← hk]
  congr 1
  have htake : ((items p c.toStem ulToCount).take (c.ulTo - 1)).length = c.ulTo - 1 := by
    rw [List.length_take, length_items]
    omega
  have hnewLength : (((items p c.fromStem ulFromCount).drop (c.ulFrom - 1)).take
      (c.count ulFromCount)).length = c.count ulFromCount := by
    rw [List.length_take, List.length_drop, length_items]
    omega
  have hall : ((items p c.toStem ulToCount).take (c.ulTo - 1) ++
      ((items p c.fromStem ulFromCount).drop (c.ulFrom - 1)).take (c.count ulFromCount) ++
        (items p c.toStem ulToCount).drop k).length = n := by
    rw [List.length_append, List.length_append, htake, hnewLength, List.length_drop, length_items,
      hlength]
  funext ⟨t, i⟩
  by_cases ht : t = c.toStem
  · subst ht
    by_cases hi : i = 0
    · subst hi
      rw [withItems_zero, hall, hzero]
    rcases Nat.lt_or_ge n i with hgt | hle
    · rw [withItems_beyond hi (hall ▸ hgt), if_neg (by omega), hbeyond i hi hgt]
    rw [withItems_item hi (hall ▸ hle), List.append_assoc]
    rcases Nat.lt_or_ge i c.ulTo with hlt | hge
    · rw [List.getElem?_append_left (by omega), List.getElem?_take_of_lt (by omega),
        getElem?_items, if_pos (by omega), Nat.sub_add_cancel (by omega), hbefore i hi hlt]
      rfl
    rw [List.getElem?_append_right (by omega), htake]
    rcases Nat.lt_or_ge i (c.ulTo + c.count ulFromCount) with hlt | hge'
    · rw [List.getElem?_append_left (by omega), List.getElem?_take_of_lt (by omega),
        List.getElem?_drop, getElem?_items, if_pos (by omega), hnew i hge hlt]
      simp only [Option.join_some]
      congr 2
      omega
    · rw [List.getElem?_append_right (by omega), hnewLength, List.getElem?_drop, getElem?_items,
        if_pos (by omega), hafter i hge' hle]
      simp only [Option.join_some]
      congr 2
      omega
  · rw [withItems_of_ne ht, hother t i ht]

/-! ## Copying over elements -/

structure OverwriteKeeps (p : VariablePool) (c : CopyArguments) (ulFromCount ulToCount : ℕ) :
    Prop where
  moves : ¬ Movable isVariable (copyMoves c (c.count ulFromCount)) p →
    Idle isVariable (copyMoves c (c.count ulFromCount)) p
  range : Movable isVariable (copyMoves c (c.count ulFromCount)) p →
    c.InRange ulFromCount ulToCount
  same : Movable isVariable (copyMoves c (c.count ulFromCount)) p → c.fromStem = c.toStem →
    Idle isVariable (copyMoves c (c.count ulFromCount)) p ∧
      c.ulTo + c.count ulFromCount ≤ ulToCount + 1

section Numbers

variable (hfrom : c.ulFrom < 2 ^ 32) (hto : c.ulTo < 2 ^ 32) (hone : 1 ≤ c.count ulFromCount)
  (hcount : c.count ulFromCount < 2 ^ 32) (hn : ulToCount < 2 ^ 32)
  (htext : ∀ m < 2 ^ 32, p (c.toStem, 0) = some (sprintf m) → m = ulToCount)

theorem overwrite_copied (hover : c.fInsert = false) (hrange : c.InRange ulFromCount ulToCount)
    (hbound : c.ulFrom + c.count ulFromCount ≤ 2 ^ 31 ∧ c.ulTo + c.count ulFromCount ≤ 2 ^ 31)
    (hvalue : ∀ i, c.ulTo ≤ i → i < c.ulTo + c.count ulFromCount →
      (move isVariable (copyMoves c (c.count ulFromCount)) p).1 (c.toStem, i) =
        p (c.fromStem, c.ulFrom + (i - c.ulTo))) :
    copied p c ulFromCount ulToCount =
      some (if ulToCount < c.ulTo + c.count ulFromCount - 1 then
        setCount (move isVariable (copyMoves c (c.count ulFromCount)) p).1 c.toStem
          (c.ulTo + c.count ulFromCount - 1)
      else (move isVariable (copyMoves c (c.count ulFromCount)) p).1) := by
  have hto := hrange.2.2.1
  have hframe : ∀ t i, t ≠ c.toStem ∨ i ≠ 0 →
      (if ulToCount < c.ulTo + c.count ulFromCount - 1 then
        setCount (move isVariable (copyMoves c (c.count ulFromCount)) p).1 c.toStem
          (c.ulTo + c.count ulFromCount - 1)
      else (move isVariable (copyMoves c (c.count ulFromCount)) p).1) (t, i) =
        (move isVariable (copyMoves c (c.count ulFromCount)) p).1 (t, i) := by
    intro t i h
    split
    · exact setCount_of_ne h
    · rfl
  refine copied_eq_some hrange (k := c.ulTo - 1 + c.count ulFromCount)
    (n := max ulToCount (c.ulTo + c.count ulFromCount - 1)) (by simp [hover]) (by omega)
    (fun t i ht => ?_) ?_ (fun i hi hlt => ?_) (fun i hge hlt => ?_) (fun i hge hle => ?_)
    fun i hi hlt => ?_
  · rw [hframe t i (.inl ht), copyMoves_frame hbound (.inl ht)]
  · split
    next hgrown =>
      rw [setCount_zero, if_neg (by omega), Nat.max_eq_right (Nat.le_of_lt hgrown)]
    next hnot =>
      rw [if_pos (by omega), copyMoves_frame hbound (.inr (.inl hto))]
  · rw [hframe _ i (.inr hi), copyMoves_frame hbound (.inr (.inl hlt))]
  · rw [hframe _ i (.inr (by omega)), hvalue i hge hlt]
  · rw [hframe _ i (.inr (by omega)), copyMoves_frame hbound (.inr (.inr hge))]
    congr 2
    omega
  · rw [hframe _ i (.inr hi), copyMoves_frame hbound (.inr (.inr (by omega)))]

include hfrom hto hone hcount htext in
theorem overwriteElements_edits_iff (hover : c.fInsert = false) :
    CopyEdits p (overwriteElements p c (c.count ulFromCount) ulToCount) c ulFromCount ulToCount ↔
      OverwriteKeeps p c ulFromCount ulToCount := by
  rw [overwriteElements]
  by_cases hmoved : (move isVariable (copyMoves c (c.count ulFromCount)) p).2 = true
  · have hbound := copyMoves_bound hfrom hto hone hmoved
    have hlast : (c.ulTo + c.count ulFromCount + ULONG_MAX) % 2 ^ 32 =
        c.ulTo + c.count ulFromCount - 1 := by
      rw [ULONG_MAX]
      omega
    simp only [hmoved, Bool.true_eq_false, if_false]
    rw [hlast, ← apply_ite (Prod.mk · Return.zero), copyEdits_zero]
    have hmovable : Idle isVariable (copyMoves c (c.count ulFromCount)) p →
        Movable isVariable (copyMoves c (c.count ulFromCount)) p :=
      fun h => movable_of_idle h hmoved
    constructor
    · rintro ⟨hcopied, hsource⟩
      have hrange := copied_inRange hcopied
      -- a stem copied to itself has to stay as it is
      have hsame : c.fromStem = c.toStem →
          Idle isVariable (copyMoves c (c.count ulFromCount)) p ∧
            c.ulTo + c.count ulFromCount ≤ ulToCount + 1 := by
        intro heq
        rw [heq] at hsource
        have hkept : c.ulTo + c.count ulFromCount ≤ ulToCount + 1 := by
          by_contra hgrown
          have hzero := hsource 0
          rw [if_pos (by omega), setCount_zero] at hzero
          have := htext _ (by omega) hzero.symm
          omega
        rw [if_neg (by omega)] at hsource
        refine ⟨(move_unchanged_iff (copyMoves_nodup hcount)).mp ?_, hkept⟩
        funext x
        obtain ⟨t, i⟩ := x
        by_cases ht : t = c.toStem
        · rw [ht]
          exact hsource i
        · exact copyMoves_frame hbound (.inl ht)
      refine ⟨fun hno => ?_, fun _ => hrange, fun _ => hsame⟩
      by_cases heq : c.fromStem = c.toStem
      · exact (hsame heq).1
      · exact absurd (movable_of_move (copyMoves_ordered heq) hmoved) hno
    · intro h
      have hyes : Movable isVariable (copyMoves c (c.count ulFromCount)) p := by
        by_contra hno
        exact hno (hmovable (h.moves hno))
      have hrange := h.range hyes
      by_cases heq : c.fromStem = c.toStem
      · obtain ⟨hidle, hkept⟩ := h.same hyes heq
        have hcopied := overwrite_copied hover hrange hbound fun i hge hlt => by
          rw [move_of_idle hidle]
          exact idle_value hidle hyes (mem_copyMoves_of_le hbound hge hlt)
        refine ⟨hcopied, fun i => ?_⟩
        rw [if_neg (by omega), move_of_idle hidle]
      · have hcopied := overwrite_copied hover hrange hbound fun i hge hlt =>
          move_value (copyMoves_ordered heq) (copyMoves_nodup hcount) hmoved
            (mem_copyMoves_of_le hbound hge hlt)
        refine ⟨hcopied, fun i => ?_⟩
        split
        · rw [setCount_of_ne (.inl heq), copyMoves_frame hbound (.inl heq)]
        · exact copyMoves_frame hbound (.inl heq)
  · have hnot := mt move_of_movable hmoved
    rw [Bool.not_eq_true] at hmoved
    simp only [hmoved, if_true]
    rw [copyEdits_minusOne, move_unchanged_iff (copyMoves_nodup hcount)]
    exact ⟨fun h => ⟨fun _ => h, fun hyes => absurd hyes hnot, fun hyes => absurd hyes hnot⟩,
      fun h => h.moves hnot⟩

end Numbers

/-! ## Inserting elements -/

structure InsertCopyKeeps (p : VariablePool) (c : CopyArguments) (ulFromCount ulToCount : ℕ) :
    Prop where
  moves : ¬ Movable isVariable (roomMoves c.toStem (c.count ulFromCount) c.ulTo ulToCount) p →
    Idle isVariable (roomMoves c.toStem (c.count ulFromCount) c.ulTo ulToCount) p
  start : Movable isVariable (roomMoves c.toStem (c.count ulFromCount) c.ulTo ulToCount) p →
    c.ulTo = 0 → Idle isVariable (roomMoves c.toStem (c.count ulFromCount) c.ulTo ulToCount) p
  copies : Movable isVariable (roomMoves c.toStem (c.count ulFromCount) c.ulTo ulToCount) p →
    c.ulTo ≠ 0 → c.fromStem ≠ c.toStem ∧ 1 ≤ c.ulFrom ∧
      c.ulFrom + c.count ulFromCount ≤ ulFromCount + 1 ∧
        Movable isVariable (copyMoves c (c.count ulFromCount)) p

section Numbers

variable (hfrom : c.ulFrom < 2 ^ 32) (hto : c.ulTo < 2 ^ 32) (hone : 1 ≤ c.count ulFromCount)
  (hcount : c.count ulFromCount < 2 ^ 32) (hn : ulToCount < 2 ^ 32)
  (htext : ∀ m < 2 ^ 32, p (c.toStem, 0) = some (sprintf m) → m = ulToCount)

def roomy (p : VariablePool) (c : CopyArguments) (ulFromCount ulToCount : ℕ) : VariablePool :=
  setCount (move isVariable (roomMoves c.toStem (c.count ulFromCount) c.ulTo ulToCount) p).1
    c.toStem ((ulToCount + c.count ulFromCount) % 2 ^ 32)

theorem roomy_of_ne {i : ℕ} (hne : c.fromStem ≠ c.toStem) :
    roomy p c ulFromCount ulToCount (c.fromStem, i) = p (c.fromStem, i) := by
  rw [roomy, setCount_of_ne (.inl hne)]
  refine move_frame fun x hx heq => ?_
  obtain ⟨j, -, rfl⟩ := mem_roomMoves.mp hx
  exact hne (Prod.mk.inj heq).1.symm

theorem movable_roomy (hne : c.fromStem ≠ c.toStem) :
    Movable isVariable (copyMoves c (c.count ulFromCount)) (roomy p c ulFromCount ulToCount) ↔
      Movable isVariable (copyMoves c (c.count ulFromCount)) p := by
  refine forall₂_congr fun x hx => ?_
  obtain ⟨i, -, rfl⟩ := mem_copyMoves.mp hx
  rw [roomy_of_ne hne]

theorem room_bound (hone : 1 ≤ c.count ulFromCount) (hend : c.ulTo ≤ ulToCount + 1)
    (hbound : c.ulTo + c.count ulFromCount ≤ 2 ^ 31)
    (hmoved : (move isVariable
      (roomMoves c.toStem (c.count ulFromCount) c.ulTo ulToCount) p).2 = true) :
    ulToCount + c.count ulFromCount < 2 ^ 32 := by
  rcases Nat.lt_or_ge ulToCount c.ulTo with hlt | hge
  · omega
  · have hlast := (usable_of_move hmoved _ (mem_roomMoves.mpr ⟨ulToCount, by omega, rfl⟩)).1
    rw [isVariable_iff] at hlast
    simp only at hlast
    omega

theorem insert_copied (hinsert : c.fInsert = true) (hrange : c.InRange ulFromCount ulToCount)
    (hone : 1 ≤ c.count ulFromCount)
    (hbound : c.ulFrom + c.count ulFromCount ≤ 2 ^ 31 ∧ c.ulTo + c.count ulFromCount ≤ 2 ^ 31)
    (hne : c.fromStem ≠ c.toStem)
    (hcount : c.count ulFromCount < 2 ^ 32)
    (hmoved : (move isVariable
      (roomMoves c.toStem (c.count ulFromCount) c.ulTo ulToCount) p).2 = true)
    (hcopied : (move isVariable (copyMoves c (c.count ulFromCount))
      (roomy p c ulFromCount ulToCount)).2 = true) :
    copied p c ulFromCount ulToCount = some (move isVariable
      (copyMoves c (c.count ulFromCount)) (roomy p c ulFromCount ulToCount)).1 := by
  obtain ⟨-, -, hto, hend⟩ := id hrange
  have hroom := room_bound hone hend hbound.2 hmoved
  have hframe : ∀ t i, t ≠ c.toStem ∨ i < c.ulTo ∨ c.ulTo + c.count ulFromCount ≤ i →
      t ≠ c.toStem ∨ i ≠ 0 →
        (move isVariable (copyMoves c (c.count ulFromCount))
          (roomy p c ulFromCount ulToCount)).1 (t, i) =
          (move isVariable (roomMoves c.toStem (c.count ulFromCount) c.ulTo ulToCount) p).1
            (t, i) := by
    intro t i h h'
    rw [copyMoves_frame hbound h, roomy, setCount_of_ne h']
  refine copied_eq_some hrange (k := c.ulTo - 1) (n := ulToCount + c.count ulFromCount)
    (by simp [hinsert]) (by omega) (fun t i ht => ?_) ?_ (fun i hi hlt => ?_)
    (fun i hge hlt => ?_) (fun i hge hle => ?_) fun i hi hlt => ?_
  · rw [hframe t i (.inl ht) (.inl ht), roomMoves_frame hroom (.inl ht)]
  · rw [copyMoves_frame hbound (.inr (.inl hto)), roomy, setCount_zero, if_neg (by omega),
      Nat.mod_eq_of_lt hroom]
  · rw [hframe _ i (.inr (.inl hlt)) (.inr hi), roomMoves_frame hroom (.inr (.inl (by omega)))]
  · rw [move_value (copyMoves_ordered hne) (copyMoves_nodup hcount) hcopied
      (mem_copyMoves_of_le hbound hge hlt), roomy_of_ne hne]
  · rw [hframe _ i (.inr (.inr hge)) (.inr (by omega)), roomMoves_value hone hroom hmoved hge hle]
    congr 2
    omega
  · rw [hframe _ i (.inr (.inr (by omega))) (.inr hi), roomMoves_frame hroom (.inr (.inr hlt))]

include hfrom hto hone hcount hn htext in
theorem insertElements_edits_iff (hinsert : c.fInsert = true)
    (hcheck : c.ulTo ≤ (ulToCount + 1) % 2 ^ 32) :
    CopyEdits p (copyElements p c (c.count ulFromCount) ulToCount) c ulFromCount ulToCount ↔
      InsertCopyKeeps p c ulFromCount ulToCount := by
  rw [copyElements, if_pos hinsert]
  by_cases hmoved : (move isVariable
      (roomMoves c.toStem (c.count ulFromCount) c.ulTo ulToCount) p).2 = true
  swap
  · have hnot := mt move_of_movable hmoved
    rw [Bool.not_eq_true] at hmoved
    simp only [hmoved, if_true]
    rw [copyEdits_minusOne, move_unchanged_iff (roomMoves_nodup hn)]
    exact ⟨fun h => ⟨fun _ => h, fun hyes => absurd hyes hnot, fun hyes => absurd hyes hnot⟩,
      fun h => h.moves hnot⟩
  simp only [hmoved, Bool.true_eq_false, if_false]
  split
  next hzero =>
    rw [copyEdits_minusOne, move_unchanged_iff (roomMoves_nodup hn)]
    refine ⟨fun h => ⟨fun _ => h, fun _ _ => h, fun _ hno => absurd hzero hno⟩, fun h => ?_⟩
    by_cases hyes : Movable isVariable
        (roomMoves c.toStem (c.count ulFromCount) c.ulTo ulToCount) p
    · exact h.start hyes hzero
    · exact h.moves hyes
  next hpos =>
    have hend : c.ulTo ≤ ulToCount + 1 := by omega
    have hcopies (h : InsertCopyKeeps p c ulFromCount ulToCount) :
        c.fromStem ≠ c.toStem ∧ 1 ≤ c.ulFrom ∧
          c.ulFrom + c.count ulFromCount ≤ ulFromCount + 1 ∧
            Movable isVariable (copyMoves c (c.count ulFromCount)) p := by
      refine h.copies ?_ hpos
      by_contra hno
      exact hno (movable_of_idle (h.moves hno) hmoved)
    -- the number of elements of the target is not what it was
    have hchanged : (move isVariable (copyMoves c (c.count ulFromCount))
        (roomy p c ulFromCount ulToCount)).1 (c.toStem, 0) ≠ p (c.toStem, 0) := by
      rw [copyMoves_frame_zero (Nat.one_le_iff_ne_zero.mpr hpos) hto, roomy, setCount_zero]
      intro heq
      have := htext _ (by omega) heq.symm
      omega
    rw [← roomy, overwriteElements]
    by_cases hcopied : (move isVariable (copyMoves c (c.count ulFromCount))
        (roomy p c ulFromCount ulToCount)).2 = true
    · have hbound := copyMoves_bound hfrom hto hone hcopied
      have hroom := room_bound hone hend hbound.2 hmoved
      have hlast : ¬ (ulToCount + c.count ulFromCount) % 2 ^ 32 <
          (c.ulTo + c.count ulFromCount + ULONG_MAX) % 2 ^ 32 := by
        rw [ULONG_MAX]
        omega
      simp only [hcopied, Bool.true_eq_false, if_false, hlast]
      rw [copyEdits_zero]
      constructor
      · rintro ⟨hedited, hsource⟩
        have hrange := copied_inRange hedited
        have hne : c.fromStem ≠ c.toStem := fun heq => hchanged (heq ▸ hsource 0)
        have hyes := movable_of_move (roomMoves_ordered hone hroom) hmoved
        refine ⟨fun hno => absurd hyes hno, fun _ hzero => absurd hzero hpos, fun _ _ =>
          ⟨hne, hrange.1, hrange.2.1, (movable_roomy hne).mp
            (movable_of_move (copyMoves_ordered hne) hcopied)⟩⟩
      · intro h
        obtain ⟨hne, hone', hfromEnd, -⟩ := hcopies h
        refine ⟨insert_copied hinsert ⟨hone', hfromEnd, Nat.one_le_iff_ne_zero.mpr hpos, hend⟩
          hone hbound hne hcount hmoved hcopied, fun i => ?_⟩
        rw [copyMoves_frame hbound (.inl hne), roomy_of_ne hne]
    · have hnot := mt move_of_movable hcopied
      rw [Bool.not_eq_true] at hcopied
      simp only [hcopied, if_true]
      rw [copyEdits_minusOne]
      refine iff_of_false (fun h => hchanged (congrFun h _)) fun h => hnot ?_
      obtain ⟨hne, -, -, hmovable⟩ := hcopies h
      exact (movable_roomy hne).mpr hmovable

end Numbers

/-! ## The three functions -/

inductive StemCall where
  | delete (args : List (Option Text))
  | insert (args : List (Option Text))
  | copy (args : List (Option Text))

def StemCall.Meets (p : VariablePool) : StemCall → Prop
  | .delete args =>
      Edits p (SysStemDelete args p) (do
        let c ← deleteArguments args
        deleted p c (← (fetchCount p c.stem).toOption))
  | .insert args =>
      Edits p (SysStemInsert args p) (do
        let c ← insertArguments args
        inserted p c (← (fetchCount p c.stem).toOption))
  | .copy args =>
      Edits p (SysStemCopy args p) (do
        let c ← copyArguments args
        copied p c (← (fetchCount p c.fromStem).toOption) (← (fetchToCount p c.toStem).toOption)) ∧
      ((SysStemCopy args p).2 = .zero → ∀ c, copyArguments args = some c →
        ∀ i, (SysStemCopy args p).1 (c.fromStem, i) = p (c.fromStem, i))

/-- The condition on the arguments and the elements that the function comes to. -/
def StemCall.HoldsWhen (p : VariablePool) : StemCall → Prop
  | .delete args => ∀ c n, deleteArguments args = some c → fetchCount p c.stem = .ok n →
      (c.ulFirst + c.ulItems + ULONG_MAX) % 2 ^ 32 ≤ n → DeleteKeeps p c n
  | .insert args => ∀ c n, insertArguments args = some c → fetchCount p c.stem = .ok n →
      c.ulPosition ≠ 0 → c.ulPosition ≤ (n + 1) % 2 ^ 32 → InsertKeeps p c n
  | .copy args => ∀ c ulFromCount ulToCount, copyArguments args = some c →
      fetchCount p c.fromStem = .ok ulFromCount → c.ulCopyCount ≤ ulFromCount →
      ulFromCount ≠ 0 → fetchToCount p c.toStem = .ok ulToCount →
      c.ulTo ≤ (ulToCount + 1) % 2 ^ 32 →
        if c.fInsert then InsertCopyKeeps p c ulFromCount ulToCount
        else OverwriteKeeps p c ulFromCount ulToCount

theorem deleteArguments_lt {args : List (Option Text)} {c : DeleteArguments}
    (h : deleteArguments args = some c) :
    c.ulFirst < 2 ^ 32 ∧ c.ulItems < 2 ^ 32 ∧ c.ulItems ≠ 0 := by
  simp only [deleteArguments, Option.bind_eq_bind, Option.bind_eq_some_iff] at h
  obtain ⟨_, -, stem, -, first, -, ulFirst, hfirst, h⟩ := h
  split at h
  · simp only [Option.bind_eq_some_iff] at h
    obtain ⟨items, -, ulItems, hitems, _, hpos, h⟩ := h
    obtain rfl := Option.some.inj h
    refine ⟨sscanf_lt hfirst, sscanf_lt hitems, fun hzero => ?_⟩
    simp only at hzero
    simp [hzero, guard] at hpos
  · obtain rfl := Option.some.inj h
    exact ⟨sscanf_lt hfirst, by simp, Nat.one_ne_zero⟩

theorem numberArgument_lt {args : List (Option Text)} {i omitted n : ℕ}
    (homitted : omitted < 2 ^ 32) (h : numberArgument args i omitted = some n) : n < 2 ^ 32 := by
  rw [numberArgument] at h
  split at h
  · rwa [← Option.some.inj h]
  · exact sscanf_lt h

theorem copyArguments_lt {args : List (Option Text)} {c : CopyArguments}
    (h : copyArguments args = some c) :
    c.ulFrom < 2 ^ 32 ∧ c.ulTo < 2 ^ 32 ∧ c.ulCopyCount < 2 ^ 32 := by
  simp only [copyArguments, Option.bind_eq_bind, Option.bind_eq_some_iff] at h
  obtain ⟨_, -, fromStem, -, toStem, -, ulFrom, hfrom, ulTo, hto, ulCopyCount, hcount, fInsert, -,
    h⟩ := h
  obtain rfl := Option.some.inj h
  exact ⟨numberArgument_lt (by decide) hfrom, numberArgument_lt (by decide) hto,
    numberArgument_lt (by decide) hcount⟩

theorem fetchCount_error {stem : Text} {r : Return} (h : fetchCount p stem = .error r) :
    r ≠ .zero := by
  rintro rfl
  rw [fetchCount] at h
  split at h
  · cases h
  split at h
  · cases h
  split at h <;> cases h

theorem fetchToCount_error {stem : Text} {r : Return} (h : fetchToCount p stem = .error r) :
    r ≠ .zero := by
  rw [fetchToCount] at h
  split at h
  · cases h
  · exact fetchCount_error h

theorem edits_self {r : Return} {edited : Option VariablePool} (h : r ≠ .zero) :
    Edits p (p, r) edited := by
  cases r with
  | zero => exact absurd rfl h
  | minusOne => exact rfl
  | invalidRoutine => exact rfl

theorem delete_meets_iff (args : List (Option Text)) :
    (StemCall.delete args).Meets p ↔ (StemCall.delete args).HoldsWhen p := by
  rw [StemCall.Meets, StemCall.HoldsWhen, SysStemDelete]
  cases hargs : deleteArguments args with
  | none => exact iff_of_true rfl nofun
  | some c =>
      obtain ⟨hfirst, hitems, hpos⟩ := deleteArguments_lt hargs
      cases hcount : fetchCount p c.stem with
      | error r =>
          refine iff_of_true ?_ fun c' n hc hn => ?_
          · simp only [hcount]
            exact edits_self (fetchCount_error hcount)
          · rw [← Option.some.inj hc, hcount] at hn
            cases hn
      | ok n =>
          simp only [hcount]
          split
          next hcheck =>
            refine iff_of_true (edits_self nofun) fun c' n' hc hn hcheck' => ?_
            obtain rfl := Option.some.inj hc
            obtain rfl := Except.ok.inj (hcount.symm.trans hn)
            omega
          next hcheck =>
            have hiff := deleteElements_edits_iff (p := p) (fetchCount_ok hcount).1 hfirst hitems
              hpos (Nat.not_lt.mp hcheck)
            simp only [hcount, Except.toOption, Option.bind_eq_bind, Option.bind_some]
            refine hiff.trans ?_
            refine ⟨fun h c' n' hc hn _ => ?_, fun h => h c n rfl hcount (Nat.not_lt.mp hcheck)⟩
            obtain rfl := Option.some.inj hc
            obtain rfl := Except.ok.inj (hcount.symm.trans hn)
            exact h

theorem insert_meets_iff (args : List (Option Text)) :
    (StemCall.insert args).Meets p ↔ (StemCall.insert args).HoldsWhen p := by
  rw [StemCall.Meets, StemCall.HoldsWhen, SysStemInsert]
  cases hargs : insertArguments args with
  | none => exact iff_of_true rfl nofun
  | some c =>
      cases hcount : fetchCount p c.stem with
      | error r =>
          refine iff_of_true ?_ fun c' n hc hn => ?_
          · simp only [hcount]
            exact edits_self (fetchCount_error hcount)
          · rw [← Option.some.inj hc, hcount] at hn
            cases hn
      | ok n =>
          have hlt := (fetchCount_ok hcount).1
          simp only [hcount]
          split
          next hcheck =>
            refine iff_of_true (edits_self nofun) fun c' n' hc hn hpos hcheck' => ?_
            obtain rfl := Option.some.inj hc
            obtain rfl := Except.ok.inj (hcount.symm.trans hn)
            omega
          next hcheck =>
            rw [not_or, Nat.not_lt] at hcheck
            have hiff := insertElement_edits_iff (p := p) (c := c) (n := n) (by omega)
              ⟨by omega, by omega⟩
            simp only [hcount, Except.toOption, Option.bind_eq_bind, Option.bind_some]
            refine hiff.trans ?_
            refine ⟨fun h c' n' hc hn _ _ => ?_, fun h => h c n rfl hcount hcheck.1 hcheck.2⟩
            obtain rfl := Option.some.inj hc
            obtain rfl := Except.ok.inj (hcount.symm.trans hn)
            exact h

theorem copyElements_edits_iff (hfrom : c.ulFrom < 2 ^ 32) (hto : c.ulTo < 2 ^ 32)
    (hcopy : c.ulCopyCount < 2 ^ 32) (hm : ulFromCount < 2 ^ 32)
    (hpos : ulFromCount ≠ 0)
    (hn : ulToCount < 2 ^ 32 ∧
      ∀ m < 2 ^ 32, p (c.toStem, 0) = some (sprintf m) → m = ulToCount)
    (hcheck : c.ulTo ≤ (ulToCount + 1) % 2 ^ 32) :
    CopyEdits p (copyElements p c (c.count ulFromCount) ulToCount) c ulFromCount ulToCount ↔
      if c.fInsert then InsertCopyKeeps p c ulFromCount ulToCount
      else OverwriteKeeps p c ulFromCount ulToCount := by
  have hcount : 1 ≤ c.count ulFromCount ∧ c.count ulFromCount < 2 ^ 32 := by
    rw [CopyArguments.count]
    split <;> omega
  cases hinsert : c.fInsert with
  | true =>
      rw [if_pos rfl]
      exact insertElements_edits_iff hfrom hto hcount.1 hcount.2 hn.1 hn.2 hinsert hcheck
  | false =>
      rw [copyElements, hinsert, if_neg Bool.false_ne_true, if_neg Bool.false_ne_true]
      exact overwriteElements_edits_iff hfrom hto hcount.1 hcount.2 hn.2 hinsert

theorem copy_meets_iff (args : List (Option Text)) :
    (StemCall.copy args).Meets p ↔ (StemCall.copy args).HoldsWhen p := by
  rw [StemCall.Meets, StemCall.HoldsWhen, SysStemCopy]
  cases hargs : copyArguments args with
  | none => exact iff_of_true ⟨rfl, nofun⟩ nofun
  | some c =>
      obtain ⟨hfrom, hto, hcopy⟩ := copyArguments_lt hargs
      cases hm : fetchCount p c.fromStem with
      | error r =>
          refine iff_of_true ⟨?_, fun hr => ?_⟩ fun c' m n hc hm' => ?_
          · simp only [hm]
            exact edits_self (fetchCount_error hm)
          · simp only [hm] at hr
            exact absurd hr (fetchCount_error hm)
          · rw [← Option.some.inj hc, hm] at hm'
            cases hm'
      | ok m =>
          simp only [hm]
          split
          next hcheck =>
            refine iff_of_true ⟨edits_self nofun, nofun⟩ fun c' m' n hc hm' hle hpos => ?_
            obtain rfl := Option.some.inj hc
            obtain rfl := Except.ok.inj (hm.symm.trans hm')
            omega
          next hcheck =>
            rw [not_or, Nat.not_lt] at hcheck
            obtain ⟨hle, hpos⟩ := hcheck
            cases hn : fetchToCount p c.toStem with
            | error r =>
                refine iff_of_true ⟨?_, fun hr => ?_⟩ fun c' m' n hc _ _ _ hn' => ?_
                · exact edits_self (fetchToCount_error hn)
                · exact absurd hr (fetchToCount_error hn)
                · rw [← Option.some.inj hc, hn] at hn'
                  cases hn'
            | ok n =>
                simp only
                split
                next hcheck =>
                  refine iff_of_true ⟨edits_self nofun, nofun⟩ fun c' m' n' hc _ _ _ hn' hend => ?_
                  obtain rfl := Option.some.inj hc
                  obtain rfl := Except.ok.inj (hn.symm.trans hn')
                  omega
                next hcheck =>
                  have hiff := copyElements_edits_iff (p := p) hfrom hto hcopy
                    (fetchCount_ok hm).1 hpos (fetchToCount_ok hn) (Nat.not_lt.mp hcheck)
                  refine Iff.trans ?_ (hiff.trans ?_)
                  · refine and_congr ?_ (imp_congr_right fun _ => ?_)
                    · simp only [hm, hn, Except.toOption, Option.bind_eq_bind, Option.bind_some]
                    exact ⟨fun h => h c rfl, fun h c' hc => Option.some.inj hc ▸ h⟩
                  · refine ⟨fun h c' m' n' hc hm' _ _ hn' _ => ?_, fun h =>
                      h c m n rfl hm hle hpos hn (Nat.not_lt.mp hcheck)⟩
                    obtain rfl := Option.some.inj hc
                    obtain rfl := Except.ok.inj (hm.symm.trans hm')
                    obtain rfl := Except.ok.inj (hn.symm.trans hn')
                    exact h

/-- A call meets its purpose exactly when the condition holds. -/
theorem StemCall.meets_iff (p : VariablePool) (call : StemCall) :
    call.Meets p ↔ call.HoldsWhen p := by
  cases call with
  | delete args => exact delete_meets_iff args
  | insert args => exact insert_meets_iff args
  | copy args => exact copy_meets_iff args

def gap : VariablePool := fun name =>
  if name = (['S', '.'], 0) then some ['3']
  else if name = (['S', '.'], 1) then some ['a']
  else if name = (['S', '.'], 3) then some ['c']
  else none

/-- The third element has been moved when the insertion fails. -/
theorem gap_not_meets :
    ¬ (StemCall.insert [some ['s', '.'], some ['1'], some ['x']]).Meets gap := by
  have hreturn : (SysStemInsert [some ['s', '.'], some ['1'], some ['x']] gap).2 = .minusOne := by
    decide +kernel
  have hmoved : (SysStemInsert [some ['s', '.'], some ['1'], some ['x']] gap).1 (['S', '.'], 4) =
      some ['c'] := by
    decide +kernel
  intro h
  rw [StemCall.Meets, Edits, hreturn] at h
  have hkept := congrFun h (['S', '.'], 4)
  rw [hmoved] at hkept
  exact absurd hkept (by decide)

end SysStem

end LeooRexx
