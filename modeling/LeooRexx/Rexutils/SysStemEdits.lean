import Mathlib
import LeooRexx.Rexutils.SysStem

/-!
# What the stem functions do to the list of a stem

A call that returns zero should have edited the list of the elements that the stem holds, and
one that fails should have changed nothing.
-/

namespace LeooRexx

namespace SysStem

open Moves

/-- A stem with `n` in its element zero as a list. -/
def items (p : VariablePool) (stem : Text) (n : ℕ) : List (Option Text) :=
  (List.range n).map fun i => p (stem, i + 1)

def withItems (p : VariablePool) (stem : Text) (n : ℕ) (l : List (Option Text)) :
    VariablePool := fun name =>
  if name.1 ≠ stem then p name
  else if name.2 = 0 then if l.length = n then p name else some (sprintf l.length)
  else if name.2 ≤ l.length then l[name.2 - 1]?.join
  else if name.2 ≤ n then none
  else p name

def DeleteArguments.InRange (c : DeleteArguments) (n : ℕ) : Prop :=
  1 ≤ c.ulFirst ∧ c.ulFirst + c.ulItems ≤ n + 1

def InsertArguments.InRange (c : InsertArguments) (n : ℕ) : Prop :=
  1 ≤ c.ulPosition ∧ c.ulPosition ≤ n + 1

def CopyArguments.InRange (c : CopyArguments) (ulFromCount ulToCount : ℕ) : Prop :=
  1 ≤ c.ulFrom ∧ c.ulFrom + c.count ulFromCount ≤ ulFromCount + 1 ∧
    1 ≤ c.ulTo ∧ c.ulTo ≤ ulToCount + 1

instance (c : DeleteArguments) (n : ℕ) : Decidable (c.InRange n) :=
  inferInstanceAs (Decidable (_ ∧ _))

instance (c : InsertArguments) (n : ℕ) : Decidable (c.InRange n) :=
  inferInstanceAs (Decidable (_ ∧ _))

instance (c : CopyArguments) (m n : ℕ) : Decidable (c.InRange m n) :=
  inferInstanceAs (Decidable (_ ∧ _))

def deleted (p : VariablePool) (c : DeleteArguments) (n : ℕ) : Option VariablePool :=
  let l := items p c.stem n
  if c.InRange n then
    some (withItems p c.stem n (l.take (c.ulFirst - 1) ++ l.drop (c.ulFirst - 1 + c.ulItems)))
  else none

def inserted (p : VariablePool) (c : InsertArguments) (n : ℕ) : Option VariablePool :=
  let l := items p c.stem n
  if c.InRange n then
    some (withItems p c.stem n
      (l.take (c.ulPosition - 1) ++ some c.value :: l.drop (c.ulPosition - 1)))
  else none

def copied (p : VariablePool) (c : CopyArguments) (ulFromCount ulToCount : ℕ) :
    Option VariablePool :=
  let l := items p c.toStem ulToCount
  let ulCopyCount := c.count ulFromCount
  let new := ((items p c.fromStem ulFromCount).drop (c.ulFrom - 1)).take ulCopyCount
  if c.InRange ulFromCount ulToCount then
    some (withItems p c.toStem ulToCount (l.take (c.ulTo - 1) ++ new ++
      l.drop (if c.fInsert then c.ulTo - 1 else c.ulTo - 1 + ulCopyCount)))
  else none

def Edits (p : VariablePool) (result : VariablePool × Return) (edited : Option VariablePool) :
    Prop :=
  match result.2 with
  | .zero => edited = some result.1
  | _ => result.1 = p

variable {p q : VariablePool} {stem : Text} {n : ℕ}

theorem deleted_inRange {c : DeleteArguments} (h : deleted p c n = some q) : c.InRange n := by
  by_contra hno
  rw [deleted, if_neg hno] at h
  cases h

theorem edits_zero {edited : Option VariablePool} :
    Edits p (q, .zero) edited ↔ edited = some q := Iff.rfl

theorem edits_minusOne {edited : Option VariablePool} : Edits p (q, .minusOne) edited ↔ q = p :=
  Iff.rfl

theorem length_items : (items p stem n).length = n := by simp [items]

theorem getElem?_items (j : ℕ) :
    (items p stem n)[j]? = if j < n then some (p (stem, j + 1)) else none := by
  split <;> simp [items, *]

section withItems

variable {l : List (Option Text)} {t : Text} {i : ℕ}

theorem setCount_zero : setCount p stem n (stem, 0) = some (sprintf n) := Function.update_self ..

theorem setCount_of_ne (h : t ≠ stem ∨ i ≠ 0) : setCount p stem n (t, i) = p (t, i) :=
  Function.update_of_ne (fun heq => by
    obtain ⟨rfl, rfl⟩ := Prod.mk.inj heq
    simp at h) _ _

theorem update_of_ne {v : Option Text} {j : ℕ} (h : i ≠ j) :
    Function.update p (stem, j) v (t, i) = p (t, i) :=
  Function.update_of_ne (fun heq => h (Prod.mk.inj heq).2) _ _

theorem withItems_of_ne (h : t ≠ stem) : withItems p stem n l (t, i) = p (t, i) := if_pos h

theorem withItems_zero :
    withItems p stem n l (stem, 0) =
      if l.length = n then p (stem, 0) else some (sprintf l.length) := by
  simp [withItems]

theorem withItems_item (hi : i ≠ 0) (h : i ≤ l.length) :
    withItems p stem n l (stem, i) = l[i - 1]?.join := by
  simp [withItems, hi, h]

theorem withItems_beyond (hi : i ≠ 0) (h : l.length < i) :
    withItems p stem n l (stem, i) = if i ≤ n then none else p (stem, i) := by
  simp [withItems, hi, Nat.not_le.mpr h]

end withItems

theorem isVariable_iff {name : Text × ℕ} : isVariable name = true ↔ name.2 < 2 ^ 31 := by
  simp [isVariable]

theorem targets_nodup {m first : ℕ} {f : ℕ → Text × ℕ} (hm : m ≤ 2 ^ 32) :
    (((List.range m).map fun i => (f i, (stem, (first + i) % 2 ^ 32))).map Prod.snd).Nodup := by
  rw [List.map_map]
  refine List.nodup_range.map_on fun i hi j hj heq => ?_
  rw [List.mem_range] at hi hj
  have heq' := (Prod.mk.inj heq).2
  omega

theorem fetchCount_ok (h : fetchCount p stem = .ok n) :
    n < 2 ^ 32 ∧ ∀ m < 2 ^ 32, p (stem, 0) = some (sprintf m) → m = n := by
  rw [fetchCount] at h
  split at h
  · cases h
  next text htext =>
    split at h
    · cases h
    split at h
    · cases h
    next ulCount hscan =>
      obtain rfl := Except.ok.inj h
      refine ⟨sscanf_lt hscan, fun m hm heq => ?_⟩
      rw [htext] at heq
      rw [Option.some.inj heq, sscanf_sprintf hm] at hscan
      exact Option.some.inj hscan

theorem fetchToCount_ok (h : fetchToCount p stem = .ok n) :
    n < 2 ^ 32 ∧ ∀ m < 2 ^ 32, p (stem, 0) = some (sprintf m) → m = n := by
  rw [fetchToCount] at h
  split at h
  next hnone =>
    obtain rfl := Except.ok.inj h
    refine ⟨by decide, fun m _ heq => ?_⟩
    rw [hnone] at heq
    cases heq
  next => exact fetchCount_ok h

/-! ## Deleting -/

section Delete

variable {c : DeleteArguments}

/-- The condition for `SysStemDelete`, about the elements that are moved and dropped. -/
structure DeleteKeeps (p : VariablePool) (c : DeleteArguments) (n : ℕ) : Prop where
  moves : ¬ Movable isVariable (deleteMoves c n) p → Idle isVariable (deleteMoves c n) p
  drops : Movable isVariable (deleteMoves c n) p →
    ¬ Droppable isVariable (deletedElements c n) p → Idle isVariable (deleteMoves c n) p ∧
      ∀ k ∈ (deletedElements c n).head?, (isVariable k && (p k).isSome) = false
  range : Movable isVariable (deleteMoves c n) p →
    Droppable isVariable (deletedElements c n) p → c.InRange n

theorem deleteMoves_nodup (hn : n < 2 ^ 32) : ((deleteMoves c n).map Prod.snd).Nodup :=
  targets_nodup (by omega)

theorem deletedElements_nodup : (deletedElements c n).Nodup :=
  List.nodup_range.map_on fun i _ j _ heq => by
    have heq' := (Prod.mk.inj heq).2
    omega

variable (hn : n < 2 ^ 32) (hfirst : c.ulFirst < 2 ^ 32) (hitems : c.ulItems < 2 ^ 32)
  (hpos : c.ulItems ≠ 0) (hcheck : (c.ulFirst + c.ulItems + ULONG_MAX) % 2 ^ 32 ≤ n)

section NoWrap

variable (hwrap : c.ulFirst + c.ulItems < 2 ^ 32)
include hn hwrap

theorem deleteMoves_eq : deleteMoves c n =
    (List.range (n + 1 - (c.ulFirst + c.ulItems))).map fun i =>
      ((c.stem, c.ulFirst + c.ulItems + i), (c.stem, c.ulFirst + i)) := by
  rw [deleteMoves, Nat.mod_eq_of_lt hwrap]
  refine List.map_congr_left fun i hi => ?_
  rw [List.mem_range] at hi
  rw [Nat.mod_eq_of_lt (show c.ulFirst + i < 2 ^ 32 by omega)]

theorem deleteMoves_ordered : (deleteMoves c n).Pairwise fun x y => x.2 ≠ y.1 := by
  rw [deleteMoves_eq hn hwrap, List.pairwise_map]
  refine List.pairwise_lt_range.imp fun {i j} hij heq => ?_
  have heq' := (Prod.mk.inj heq).2
  omega

include hpos hcheck

theorem deletedElements_eq : deletedElements c n =
    (List.range c.ulItems).map fun i => (c.stem, n + 1 - c.ulItems + i) := by
  have hcheck' : c.ulFirst + c.ulItems - 1 ≤ n := by
    rw [ULONG_MAX] at hcheck
    omega
  have hstart : (n + 2 ^ 32 - c.ulItems + 1) % 2 ^ 32 = n + 1 - c.ulItems := by omega
  rw [deletedElements, hstart, show n + 1 - (n + 1 - c.ulItems) = c.ulItems by omega]

theorem deletedElements_not_target {k : Text × ℕ} (hk : k ∈ deletedElements c n) :
    ∀ x ∈ deleteMoves c n, x.2 ≠ k := by
  rw [deletedElements_eq hn hpos hcheck hwrap] at hk
  rw [deleteMoves_eq hn hwrap]
  obtain ⟨j, -, rfl⟩ := List.mem_map.mp hk
  intro x hx heq
  obtain ⟨i, hi, rfl⟩ := List.mem_map.mp hx
  rw [List.mem_range] at hi
  have heq' := (Prod.mk.inj heq).2
  omega

theorem deleteElements_deleted (hrange : c.InRange n)
    (hmoved : (move isVariable (deleteMoves c n) p).2 = true)
    (hdropped : (drop isVariable (deletedElements c n)
      (move isVariable (deleteMoves c n) p).1).2 = true) :
    deleted p c n = some (setCount (drop isVariable (deletedElements c n)
      (move isVariable (deleteMoves c n) p).1).1 c.stem ((n + 2 ^ 32 - c.ulItems) % 2 ^ 32)) := by
  obtain ⟨hone, hlast⟩ := hrange
  rw [deleted, if_pos ⟨hone, hlast⟩]
  congr 1
  funext ⟨t, i⟩
  have hlength : ((items p c.stem n).take (c.ulFirst - 1) ++
      (items p c.stem n).drop (c.ulFirst - 1 + c.ulItems)).length = n - c.ulItems := by
    rw [List.length_append, List.length_take, List.length_drop, length_items]
    omega
  have hframe : (∀ x ∈ deleteMoves c n, x.2 ≠ (t, i)) → (t, i) ∉ deletedElements c n →
      (drop isVariable (deletedElements c n) (move isVariable (deleteMoves c n) p).1).1 (t, i) =
        p (t, i) := fun hx hk => (drop_frame hk).trans (move_frame hx)
  have hnotTarget : t ≠ c.stem ∨ i < c.ulFirst ∨ n < i + c.ulItems →
      ∀ x ∈ deleteMoves c n, x.2 ≠ (t, i) := by
    intro h x hx heq
    rw [deleteMoves_eq hn hwrap] at hx
    obtain ⟨j, hj, rfl⟩ := List.mem_map.mp hx
    rw [List.mem_range] at hj
    obtain ⟨rfl, rfl⟩ := Prod.mk.inj heq
    rcases h with h | h | h
    · exact h rfl
    · omega
    · omega
  have hnotDropped : t ≠ c.stem ∨ i ≤ n - c.ulItems ∨ n < i → (t, i) ∉ deletedElements c n := by
    intro h hk
    rw [deletedElements_eq hn hpos hcheck hwrap] at hk
    obtain ⟨j, hj, heq⟩ := List.mem_map.mp hk
    rw [List.mem_range] at hj
    obtain ⟨rfl, rfl⟩ := Prod.mk.inj heq
    rcases h with h | h | h
    · exact h rfl
    · omega
    · omega
  by_cases ht : t = c.stem
  · subst ht
    by_cases hi : i = 0
    · subst hi
      rw [withItems_zero, setCount_zero, hlength, if_neg (by omega)]
      congr 2
      omega
    rw [setCount_of_ne (.inr hi)]
    rcases Nat.lt_or_ge (n - c.ulItems) i with hgt | hle
    · rw [withItems_beyond hi (hlength ▸ hgt)]
      split
      next hle =>
        refine (drop_value hdropped ?_).symm
        rw [deletedElements_eq hn hpos hcheck hwrap]
        refine List.mem_map.mpr ⟨i - (n + 1 - c.ulItems), List.mem_range.mpr (by omega), ?_⟩
        rw [show n + 1 - c.ulItems + (i - (n + 1 - c.ulItems)) = i by omega]
      next hgt' =>
        exact (hframe (hnotTarget (.inr (.inr (by omega))))
          (hnotDropped (.inr (.inr (by omega))))).symm
    rw [withItems_item hi (hlength ▸ hle), drop_frame (hnotDropped (.inr (.inl hle)))]
    rcases Nat.lt_or_ge i c.ulFirst with hlt | hge
    · rw [move_frame (hnotTarget (.inr (.inl hlt))), List.getElem?_append_left (by
        rw [List.length_take, length_items]
        omega), List.getElem?_take_of_lt (by omega), getElem?_items, if_pos (by omega),
        Nat.sub_add_cancel (by omega)]
      rfl
    · have hx : ((c.stem, i + c.ulItems), (c.stem, i)) ∈ deleteMoves c n := by
        rw [deleteMoves_eq hn hwrap]
        refine List.mem_map.mpr ⟨i - c.ulFirst, List.mem_range.mpr (by omega), ?_⟩
        rw [show c.ulFirst + c.ulItems + (i - c.ulFirst) = i + c.ulItems by omega,
          show c.ulFirst + (i - c.ulFirst) = i by omega]
      rw [move_value (deleteMoves_ordered hn hwrap) (deleteMoves_nodup hn) hmoved hx,
        List.getElem?_append_right (by
          rw [List.length_take, length_items]
          omega), List.getElem?_drop, List.length_take, length_items, getElem?_items,
        if_pos (by omega)]
      simp only [Option.join_some]
      congr 2
      omega
  · rw [withItems_of_ne ht, setCount_of_ne (.inl ht)]
    exact (hframe (hnotTarget (.inl ht)) (hnotDropped (.inl ht))).symm

theorem deleteElements_unchanged_iff :
    (drop isVariable (deletedElements c n) (move isVariable (deleteMoves c n) p).1).1 = p ↔
      Idle isVariable (deleteMoves c n) p ∧
        ∀ k ∈ (deletedElements c n).head?, (isVariable k && (p k).isSome) = false := by
  constructor
  · intro h
    have hmove : (move isVariable (deleteMoves c n) p).1 = p := by
      funext k
      by_cases hk : ∀ x ∈ deleteMoves c n, x.2 ≠ k
      · exact move_frame hk
      · have hnot : k ∉ deletedElements c n := fun hin =>
          hk (deletedElements_not_target hn hpos hcheck hwrap hin)
        exact (drop_frame hnot).symm.trans (congrFun h k)
    rw [hmove, drop_unchanged_iff deletedElements_nodup] at h
    exact ⟨(move_unchanged_iff (deleteMoves_nodup hn)).mp hmove, h⟩
  · rintro ⟨hidle, hhead⟩
    rw [move_of_idle hidle, drop_unchanged_iff deletedElements_nodup]
    exact hhead

theorem deleteElements_droppable :
    (drop isVariable (deletedElements c n) (move isVariable (deleteMoves c n) p).1).2 = true ↔
      Droppable isVariable (deletedElements c n) p := by
  rw [drop_iff_droppable deletedElements_nodup]
  refine forall₂_congr fun k hk => ?_
  rw [move_frame (deletedElements_not_target hn hpos hcheck hwrap hk)]

end NoWrap

include hn hfirst hitems hcheck in
theorem deletedElements_of_wrap (hwrap : 2 ^ 32 ≤ c.ulFirst + c.ulItems)
    (hmoved : (move isVariable (deleteMoves c n) p).2 = true) :
    deletedElements c n = [] ∧ n + 1 < c.ulFirst + c.ulItems := by
  have hnext : (c.ulFirst + c.ulItems) % 2 ^ 32 = c.ulFirst + c.ulItems - 2 ^ 32 := by omega
  have husable := usable_of_move hmoved
  rw [deleteMoves, hnext] at husable
  have hbound : n < 2 ^ 31 ∧ c.ulFirst < 2 ^ 31 ∨ c.ulFirst + c.ulItems = 2 ^ 32 + n + 1 := by
    rw [ULONG_MAX] at hcheck
    rcases Nat.lt_or_ge n (c.ulFirst + c.ulItems - 2 ^ 32) with hlt | hge
    · exact .inr (by omega)
    · have hlast := (husable _ (List.mem_map.mpr
        ⟨n - (c.ulFirst + c.ulItems - 2 ^ 32), List.mem_range.mpr (by omega), rfl⟩)).1
      have hhead := (husable _ (List.mem_map.mpr ⟨0, List.mem_range.mpr (by omega), rfl⟩)).2
      rw [isVariable_iff] at hlast hhead
      simp only at hlast hhead
      exact .inl (by omega)
  refine ⟨?_, by omega⟩
  rw [deletedElements, List.map_eq_nil_iff, List.range_eq_nil]
  omega

include hn hfirst hitems hpos hcheck in
theorem deleteElements_edits_iff :
    Edits p (deleteElements p c n) (deleted p c n) ↔ DeleteKeeps p c n := by
  rw [deleteElements]
  by_cases hmoved : (move isVariable (deleteMoves c n) p).2 = true
  · simp only [hmoved, Bool.true_eq_false, if_false]
    have hidle : (Idle isVariable (deleteMoves c n) p → Movable isVariable (deleteMoves c n) p) :=
      fun h => movable_of_idle h hmoved
    rcases Nat.lt_or_ge (c.ulFirst + c.ulItems) (2 ^ 32) with hwrap | hwrap
    · have hmovable := movable_of_move (deleteMoves_ordered hn hwrap) hmoved
      have hdroppable := deleteElements_droppable (p := p) hn hpos hcheck hwrap
      split
      next hdropped =>
        have hnot : ¬ Droppable isVariable (deletedElements c n) p := by
          rw [← hdroppable, hdropped]
          exact Bool.false_ne_true
        rw [edits_minusOne, deleteElements_unchanged_iff hn hpos hcheck hwrap]
        exact ⟨fun h => ⟨fun hno => absurd hmovable hno, fun _ _ => h,
          fun _ hall => absurd hall hnot⟩, fun h => h.drops hmovable hnot⟩
      next hdropped =>
        rw [Bool.not_eq_false] at hdropped
        have hall := hdroppable.mp hdropped
        rw [edits_zero]
        constructor
        · intro hdeleted
          exact ⟨fun hno => absurd hmovable hno, fun _ hno => absurd hall hno, fun _ _ =>
            deleted_inRange hdeleted⟩
        · intro h
          exact deleteElements_deleted hn hpos hcheck hwrap (h.range hmovable hall) hmoved hdropped
    · obtain ⟨hnil, hbeyond⟩ := deletedElements_of_wrap hn hfirst hitems hcheck hwrap hmoved
      have hrange : ¬ c.InRange n := fun h => by
        have := h.2
        omega
      rw [hnil]
      simp only [drop, Bool.true_eq_false, if_false]
      rw [edits_zero, deleted, if_neg hrange]
      refine iff_of_false (fun h => by cases h) fun h => hrange ?_
      have hmovable : Movable isVariable (deleteMoves c n) p := by
        by_contra hno
        exact hno (hidle (h.moves hno))
      exact h.range hmovable (by simp [hnil, Droppable])
  · have hnot := mt move_of_movable hmoved
    rw [Bool.not_eq_true] at hmoved
    simp only [hmoved, if_true]
    rw [edits_minusOne, move_unchanged_iff (deleteMoves_nodup hn)]
    exact ⟨fun h => ⟨fun _ => h, fun hyes => absurd hyes hnot, fun hyes => absurd hyes hnot⟩,
      fun h => h.moves hnot⟩

end Delete

/-! ## Making room and inserting -/

section Room

variable {room position : ℕ}

theorem mem_roomMoves {x : (Text × ℕ) × (Text × ℕ)} :
    x ∈ roomMoves stem room position n ↔
      ∃ i, (position ≤ i ∧ i ≤ n) ∧ ((stem, i), (stem, (i + room) % 2 ^ 32)) = x := by
  simp only [roomMoves, List.mem_map, List.mem_reverse, List.mem_range'_1]
  exact exists_congr fun i => and_congr_left fun _ => ⟨fun h => by omega, fun h => by omega⟩

theorem roomMoves_nodup (hn : n < 2 ^ 32) :
    ((roomMoves stem room position n).map Prod.snd).Nodup := by
  rw [roomMoves, List.map_map]
  refine (List.nodup_reverse.mpr List.nodup_range').map_on fun i hi j hj heq => ?_
  rw [List.mem_reverse, List.mem_range'_1] at hi hj
  have heq' := (Prod.mk.inj heq).2
  omega

variable (hroom : 1 ≤ room) (hn : n + room < 2 ^ 32)
include hn

include hroom in
theorem roomMoves_ordered :
    (roomMoves stem room position n).Pairwise fun x y => x.2 ≠ y.1 := by
  rw [roomMoves, List.pairwise_map, List.pairwise_reverse]
  refine List.Pairwise.imp_of_mem (fun {i j} hi hj hij heq => ?_) (List.pairwise_lt_range' ..)
  rw [List.mem_range'_1] at hj
  have heq' := (Prod.mk.inj heq).2
  omega

theorem roomMoves_frame {t : Text} {i : ℕ} (h : t ≠ stem ∨ i < position + room ∨ n + room < i) :
    (move isVariable (roomMoves stem room position n) p).1 (t, i) = p (t, i) := by
  refine move_frame fun x hx heq => ?_
  obtain ⟨j, hj, rfl⟩ := mem_roomMoves.mp hx
  obtain ⟨rfl, rfl⟩ := Prod.mk.inj heq
  rcases h with h | h | h
  · exact h rfl
  · omega
  · omega

include hroom in
theorem roomMoves_value (hmoved : (move isVariable (roomMoves stem room position n) p).2 = true)
    {i : ℕ} (hi : position + room ≤ i) (hin : i ≤ n + room) :
    (move isVariable (roomMoves stem room position n) p).1 (stem, i) = p (stem, i - room) := by
  have hx : ((stem, i - room), (stem, i)) ∈ roomMoves stem room position n := by
    refine mem_roomMoves.mpr ⟨i - room, by omega, ?_⟩
    rw [Nat.sub_add_cancel (by omega), Nat.mod_eq_of_lt (by omega)]
  exact move_value (roomMoves_ordered hroom hn) (roomMoves_nodup (by omega)) hmoved hx

end Room

section Insert

variable {c : InsertArguments}

def InsertKeeps (p : VariablePool) (c : InsertArguments) (n : ℕ) : Prop :=
  ¬ Movable isVariable (roomMoves c.stem 1 c.ulPosition n) p →
    Idle isVariable (roomMoves c.stem 1 c.ulPosition n) p

variable (hn : n + 1 < 2 ^ 32) (hrange : c.InRange n)
include hn hrange

theorem insertElement_inserted
    (hmoved : (move isVariable (roomMoves c.stem 1 c.ulPosition n) p).2 = true) :
    inserted p c n = some (setCount (Function.update
      (move isVariable (roomMoves c.stem 1 c.ulPosition n) p).1 (c.stem, c.ulPosition)
      (some c.value)) c.stem ((n + 1) % 2 ^ 32)) := by
  obtain ⟨hone, hlast⟩ := hrange
  rw [inserted, if_pos ⟨hone, hlast⟩]
  congr 1
  funext ⟨t, i⟩
  have htake : ((items p c.stem n).take (c.ulPosition - 1)).length = c.ulPosition - 1 := by
    rw [List.length_take, length_items]
    omega
  have hlength : ((items p c.stem n).take (c.ulPosition - 1) ++
      some c.value :: (items p c.stem n).drop (c.ulPosition - 1)).length = n + 1 := by
    rw [List.length_append, htake, List.length_cons, List.length_drop, length_items]
    omega
  by_cases ht : t = c.stem
  · subst ht
    by_cases hi : i = 0
    · subst hi
      rw [withItems_zero, setCount_zero, hlength, if_neg (by omega), Nat.mod_eq_of_lt hn]
    rw [setCount_of_ne (.inr hi)]
    rcases Nat.lt_or_ge (n + 1) i with hgt | hle
    · rw [withItems_beyond hi (hlength ▸ hgt), if_neg (by omega), update_of_ne (by omega),
        roomMoves_frame hn (.inr (.inr hgt))]
    rw [withItems_item hi (hlength ▸ hle)]
    rcases Nat.lt_trichotomy i c.ulPosition with hlt | rfl | hgt
    · rw [update_of_ne (by omega), roomMoves_frame hn (.inr (.inl (by omega))),
        List.getElem?_append_left (by omega), List.getElem?_take_of_lt (by omega),
        getElem?_items, if_pos (by omega), Nat.sub_add_cancel (by omega)]
      rfl
    · rw [Function.update_self, List.getElem?_append_right (by omega), htake, Nat.sub_self]
      rfl
    · rw [update_of_ne (by omega), roomMoves_value (Nat.le_refl 1) hn hmoved (by omega) hle,
        List.getElem?_append_right (by omega), htake,
        show i - 1 - (c.ulPosition - 1) = i - 1 - c.ulPosition + 1 by omega,
        List.getElem?_cons_succ, List.getElem?_drop, getElem?_items, if_pos (by omega)]
      simp only [Option.join_some]
      congr 2
      omega
  · rw [withItems_of_ne ht, setCount_of_ne (.inl ht), Function.update_of_ne (fun heq =>
      ht (Prod.mk.inj heq).1), roomMoves_frame hn (.inl ht)]

theorem insertElement_edits_iff :
    Edits p (insertElement p c n) (inserted p c n) ↔ InsertKeeps p c n := by
  rw [insertElement]
  by_cases hmoved : (move isVariable (roomMoves c.stem 1 c.ulPosition n) p).2 = true
  · have hmovable := movable_of_move (roomMoves_ordered (Nat.le_refl 1) hn) hmoved
    simp only [hmoved, Bool.true_eq_false, if_false]
    refine iff_of_true ?_ fun hno => absurd hmovable hno
    split
    next hname =>
      -- nothing was moved, since the elements behind would have no names either
      have hnil : roomMoves c.stem 1 c.ulPosition n = [] := by
        refine List.eq_nil_iff_forall_not_mem.mpr fun x hx => ?_
        obtain ⟨i, hi, rfl⟩ := mem_roomMoves.mp hx
        have husable := isVariable_iff.mp (usable_of_move hmoved _ hx).1
        rw [← Bool.not_eq_true, isVariable_iff] at hname
        simp only at husable hname
        omega
      rw [hnil]
      exact rfl
    next => exact insertElement_inserted hn hrange hmoved
  · have hnot := mt move_of_movable hmoved
    rw [Bool.not_eq_true] at hmoved
    simp only [hmoved, if_true]
    rw [edits_minusOne, move_unchanged_iff (roomMoves_nodup (by omega))]
    exact ⟨fun h _ => h, fun h => h hnot⟩

end Insert

end SysStem

end LeooRexx
