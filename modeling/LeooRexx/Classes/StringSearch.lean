import LeooRexx.Classes.RawString
import LeooRexx.Classes.StringArguments
import LeooRexx.Foundation.Occurrences
import LeooRexx.Instructions.ParseTarget

/-!
# Searching strings

`pos`, `lastPos`, `countStr` and `changeStr` of the string class with their caseless
siblings.  The primitive `pos` takes an offset, its caller a position; both return the
position of a match, or 0.  `changeStr` counts the matches first and sizes its result
by that.
-/

namespace LeooRexx

namespace StringSearch

open RexxTarget (posBy)
open StringArguments
open StringConversion (toupper)

/-- `memcmp`. -/
def exactly (a b : List UInt8) : Bool := a = b

/-- `CaselessCompare`. -/
def caselessly (a b : List UInt8) : Bool := a.map toupper = b.map toupper

def pos : List UInt8 → List UInt8 → ℕ → ℕ := posBy exactly

def caselessPos : List UInt8 → List UInt8 → ℕ → ℕ := posBy caselessly

def posRexxBy (compare : List UInt8 → List UInt8 → Bool) (this needle : List UInt8)
    (pstart : Option ℤ) : Except StringArgumentError ℕ := do
  let start ← optionalPosition pstart 1
  return posBy compare this needle (start - 1)

def posRexx := posRexxBy exactly

def caselessPosRexx := posRexxBy caselessly

/-- The backward scan of the lowest level; `count` probes, the first `count - 1`
characters into the haystack. -/
def lastPosLoop (hit : List UInt8 → Bool) (haystack : List UInt8) : ℕ → Option ℕ
  | 0 => none
  | count + 1 =>
      if hit (haystack.drop count) then some count else lastPosLoop hit haystack count

def lastPosBy (compare : List UInt8 → List UInt8 → Bool) (this needle : List UInt8)
    (start : ℕ) : ℕ :=
  if needle.length = 0 ∨ this.length = 0 then 0
  else
    let haystackLen := min start this.length
    if needle.length > haystackLen then 0
    else
      let count := haystackLen - needle.length + 1
      match lastPosLoop (fun haystack => compare (haystack.take needle.length) needle) this
        count with
      | none => 0
      | some matchLocation => matchLocation + 1

def lastPos := lastPosBy exactly

def caselessLastPos := lastPosBy caselessly

def lastPosRexxBy (compare : List UInt8 → List UInt8 → Bool) (this needle : List UInt8)
    (start : Option ℤ) : Except StringArgumentError ℕ := do
  let startPos ← optionalPosition start this.length
  return lastPosBy compare this needle startPos

def lastPosRexx := lastPosRexxBy exactly

def caselessLastPosRexx := lastPosRexxBy caselessly

def countStrLoop (compare : List UInt8 → List UInt8 → Bool) (this needle : List UInt8) :
    ℕ → ℕ → ℕ → Option ℕ
  | 0, _, _ => none
  | fuel + 1, count, location =>
      if location ≠ 0 then
        countStrLoop compare this needle fuel (count + 1)
          (posBy compare this needle (location + needle.length - 1))
      else some count

def countStrBy (compare : List UInt8 → List UInt8 → Bool) (this needle : List UInt8) :
    Option ℕ :=
  countStrLoop compare this needle (this.length + 2) 0 (posBy compare this needle 0)

def countStr := countStrBy exactly

def caselessCountStr := countStrBy caselessly

/-- The loop of `changeStr`, with the place behind the last match and what is copied. -/
def changeStrLoop (compare : List UInt8 → List UInt8 → Bool)
    (this needle newNeedle : List UInt8) : ℕ → ℕ × List UInt8 → ℕ × List UInt8
  | 0, state => state
  | matches_ + 1, (start, copy) =>
      let location := posBy compare this needle start
      if location = 0 then (start, copy)
      else
        let copyLength := (location - 1) - start
        let copy :=
          if copyLength ≠ 0 then copy ++ (this.drop start).take copyLength else copy
        let copy := if newNeedle.length ≠ 0 then copy ++ newNeedle else copy
        changeStrLoop compare this needle newNeedle matches_
          (location + needle.length - 1, copy)

/-- The result of the changes; `none` within when the matches cannot be counted. -/
def changeStrBy (compare : List UInt8 → List UInt8 → Bool) (this needle newNeedle : List UInt8)
    (countArg : Option ℤ) : Except StringArgumentError (Option Written) := do
  let count ← optionalPositive 3 countArg maxWholeNumber
  return (countStrBy compare this needle).map fun matches_ =>
    let matches_ := if matches_ > count then count else matches_
    let allocated :=
      this.length - matches_ * needle.length + matches_ * newNeedle.length
    let (start, copy) := changeStrLoop compare this needle newNeedle matches_ (0, [])
    let copy :=
      if start < this.length then copy ++ (this.drop start).take (this.length - start) else copy
    ⟨allocated, copy⟩

def changeStr := changeStrBy exactly

def caselessChangeStr := changeStrBy caselessly

/-! ## Matches -/

variable {compare : List UInt8 → List UInt8 → Bool} {this needle newNeedle : List UInt8}

def Meets (compare : List UInt8 → List UInt8 → Bool) (this needle : List UInt8) (i : ℕ) : Prop :=
  needle ≠ [] ∧ i + needle.length ≤ this.length ∧
    compare ((this.drop i).take needle.length) needle = true

theorem meets_exactly_iff {i : ℕ} :
    Meets exactly this needle i ↔ needle ≠ [] ∧ OccursAt needle this i := by
  simp [Meets, exactly, OccursAt]

theorem posLoop_least (hit : List UInt8 → Bool) (haystack : List UInt8) (start count : ℕ) :
    RexxTarget.posLoop hit (haystack.drop start) (start + 1) count = 0 ∧
        (∀ i, start ≤ i → i < start + count → hit (haystack.drop i) = false) ∨
      ∃ i, RexxTarget.posLoop hit (haystack.drop start) (start + 1) count = i + 1 ∧
        IsLeast {j | start ≤ j ∧ j < start + count ∧ hit (haystack.drop j) = true} i := by
  induction count generalizing start with
  | zero => exact .inl ⟨rfl, fun i hlow hhigh => absurd hhigh (by omega)⟩
  | succ count ih =>
      rw [RexxTarget.posLoop]
      split
      case isTrue hhit =>
          exact .inr ⟨start, rfl, ⟨le_rfl, by omega, hhit⟩, fun j hj => hj.1⟩
      case isFalse hmiss =>
          rw [List.drop_drop]
          have hsplit : ∀ j, start ≤ j → hit (haystack.drop j) = true → start + 1 ≤ j := by
            intro j hlow hhit
            rcases Nat.eq_or_lt_of_le hlow with rfl | hlt
            · exact absurd hhit hmiss
            · exact hlt
          rcases ih (start + 1) with ⟨hzero, hnone⟩ | ⟨i, hfound, ⟨hlow, hhigh, hhit⟩, hleast⟩
          · refine .inl ⟨hzero, fun i hlow hhigh => ?_⟩
            by_contra hhit
            have hnext := hsplit i hlow (by simpa using hhit)
            exact hhit (hnone i hnext (by omega))
          · refine .inr ⟨i, hfound, ⟨by omega, by omega, hhit⟩, fun j hj => ?_⟩
            exact hleast ⟨hsplit j hj.1 hj.2.2, by have := hj.2.1; omega, hj.2.2⟩

theorem posBy_least (compare : List UInt8 → List UInt8 → Bool) (this needle : List UInt8)
    (start : ℕ) :
    posBy compare this needle start = 0 ∧ (∀ i, start ≤ i → ¬ Meets compare this needle i) ∨
      ∃ i, posBy compare this needle start = i + 1 ∧
        IsLeast {j | start ≤ j ∧ Meets compare this needle j} i := by
  simp only [posBy]
  split
  case isTrue hshort =>
      refine .inl ⟨rfl, fun i hlow hmeets => ?_⟩
      have hlength := List.length_pos_of_ne_nil hmeets.1
      have hfits := hmeets.2.1
      omega
  case isFalse hroom =>
      have hne : needle ≠ [] := by
        rintro rfl
        exact hroom (.inr (.inl rfl))
      have hiff : ∀ j, start ≤ j ∧ Meets compare this needle j ↔
          start ≤ j ∧ j < start + (this.length - start - needle.length + 1) ∧
            compare ((this.drop j).take needle.length) needle = true := by
        intro j
        simp only [Meets, ne_eq, hne, not_false_eq_true, true_and]
        refine and_congr_right fun hlow => and_congr_left fun _ => ?_
        omega
      simp only [hiff]
      rcases posLoop_least (fun haypointer => compare (haypointer.take needle.length) needle)
        this start (this.length - start - needle.length + 1) with ⟨hzero, hnone⟩ | hfound
      · refine .inl ⟨hzero, fun i hlow hmeets => ?_⟩
        have hi := ((hiff i).mp ⟨hlow, hmeets⟩).2
        simp [hnone i hlow hi.1] at hi
      · exact .inr hfound

theorem lastPosLoop_greatest (hit : List UInt8 → Bool) (haystack : List UInt8) (count : ℕ) :
    lastPosLoop hit haystack count = none ∧
        (∀ i, i < count → hit (haystack.drop i) = false) ∨
      ∃ i, lastPosLoop hit haystack count = some i ∧
        IsGreatest {j | j < count ∧ hit (haystack.drop j) = true} i := by
  induction count with
  | zero => exact .inl ⟨rfl, fun i hi => absurd hi (Nat.not_lt_zero i)⟩
  | succ count ih =>
      rw [lastPosLoop]
      split
      case isTrue hhit =>
          exact .inr ⟨count, rfl, ⟨Nat.lt_succ_self count, hhit⟩,
            fun j hj => Nat.le_of_lt_succ hj.1⟩
      case isFalse hmiss =>
          have hsplit : ∀ j, j < count + 1 → hit (haystack.drop j) = true → j < count := by
            intro j hlow hhit
            rcases Nat.eq_or_lt_of_le (Nat.le_of_lt_succ hlow) with rfl | hlt
            · exact absurd hhit hmiss
            · exact hlt
          rcases ih with ⟨hzero, hnone⟩ | ⟨i, hfound, hi, hgreatest⟩
          · refine .inl ⟨hzero, fun i hlow => ?_⟩
            by_contra hhit
            exact hhit (hnone i (hsplit i hlow (by simpa using hhit)))
          · exact .inr ⟨i, hfound, ⟨Nat.lt_succ_of_lt hi.1, hi.2⟩,
              fun j hj => hgreatest ⟨hsplit j hj.1 hj.2, hj.2⟩⟩

theorem lastPosBy_greatest (compare : List UInt8 → List UInt8 → Bool) (this needle : List UInt8)
    (start : ℕ) :
    lastPosBy compare this needle start = 0 ∧
        (∀ i, i + needle.length ≤ start → ¬ Meets compare this needle i) ∨
      ∃ i, lastPosBy compare this needle start = i + 1 ∧
        IsGreatest {j | j + needle.length ≤ start ∧ Meets compare this needle j} i := by
  simp only [lastPosBy]
  split
  case isTrue hnull =>
      refine .inl ⟨rfl, fun i _ hmeets => ?_⟩
      have hlength := List.length_pos_of_ne_nil hmeets.1
      have hfits := hmeets.2.1
      omega
  case isFalse hnull =>
    have hne : needle ≠ [] := by
      rintro rfl
      exact hnull (.inl rfl)
    split
    case isTrue hshort =>
        refine .inl ⟨rfl, fun i hstart hmeets => ?_⟩
        have hfits := hmeets.2.1
        omega
    case isFalse hroom =>
        have hiff : ∀ j, j + needle.length ≤ start ∧ Meets compare this needle j ↔
            j < min start this.length - needle.length + 1 ∧
              compare ((this.drop j).take needle.length) needle = true := by
          intro j
          simp only [Meets, ne_eq, hne, not_false_eq_true, true_and, ← and_assoc]
          refine and_congr_left fun _ => ?_
          omega
        simp only [hiff]
        rcases lastPosLoop_greatest (fun haystack => compare (haystack.take needle.length) needle)
          this (min start this.length - needle.length + 1) with ⟨hzero, hnone⟩ | hfound
        · rw [hzero]
          refine .inl ⟨rfl, fun i hlow hmeets => ?_⟩
          have hi := (hiff i).mp ⟨hlow, hmeets⟩
          simp [hnone i hi.1] at hi
        · obtain ⟨i, hi, hgreatest⟩ := hfound
          rw [hi]
          exact .inr ⟨i, rfl, hgreatest⟩

theorem posBy_firstOf (compare : List UInt8 → List UInt8 → Bool) (this needle : List UInt8)
    (start : ℕ) :
    FirstOf {i | start ≤ i ∧ Meets compare this needle i} (posBy compare this needle start) := by
  rcases posBy_least compare this needle start with ⟨hzero, hnone⟩ | hfound
  · exact .inl ⟨hzero, Set.eq_empty_iff_forall_notMem.mpr fun i hi => hnone i hi.1 hi.2⟩
  · exact .inr hfound

theorem lastPosBy_lastOf (compare : List UInt8 → List UInt8 → Bool) (this needle : List UInt8)
    (start : ℕ) :
    LastOf {i | i + needle.length ≤ start ∧ Meets compare this needle i}
      (lastPosBy compare this needle start) := by
  rcases lastPosBy_greatest compare this needle start with ⟨hzero, hnone⟩ | hfound
  · exact .inl ⟨hzero, Set.eq_empty_iff_forall_notMem.mpr fun i hi => hnone i hi.1 hi.2⟩
  · exact .inr hfound

theorem posBy_eq_zero {start : ℕ} (h : ∀ i, start ≤ i → ¬ Meets compare this needle i) :
    posBy compare this needle start = 0 := by
  rcases posBy_least compare this needle start with ⟨hzero, _⟩ | ⟨i, _, hleast⟩
  · exact hzero
  · exact absurd hleast.1.2 (h i hleast.1.1)

theorem posBy_eq_of_least {start i : ℕ}
    (h : IsLeast {j | start ≤ j ∧ Meets compare this needle j} i) :
    posBy compare this needle start = i + 1 := by
  rcases posBy_least compare this needle start with ⟨_, hnone⟩ | ⟨j, hfound, hleast⟩
  · exact absurd h.1.2 (hnone i h.1.1)
  · rw [hfound, hleast.unique h]

/-! ## Counting and changing -/

theorem changeStrLoop_hit (newNeedle : List UInt8) {start i : ℕ}
    (h : posBy compare this needle start = i + 1) (matches_ : ℕ) (copy : List UInt8) :
    changeStrLoop compare this needle newNeedle (matches_ + 1) (start, copy) =
      changeStrLoop compare this needle newNeedle matches_
        (i + needle.length, copy ++ (this.drop start).take (i - start) ++ newNeedle) := by
  have hbehind : i + 1 + needle.length - 1 = i + needle.length := by omega
  have hcopied : (if i - start ≠ 0 then copy ++ (this.drop start).take (i - start) else copy) =
      copy ++ (this.drop start).take (i - start) := by
    split
    case isTrue _ => rfl
    case isFalse hnone => simp [not_not.mp hnone]
  have hchanged : ∀ copy : List UInt8,
      (if newNeedle.length ≠ 0 then copy ++ newNeedle else copy) = copy ++ newNeedle := by
    intro copy
    split
    case isTrue _ => rfl
    case isFalse hnull => simp [List.length_eq_zero_iff.mp (not_not.mp hnull)]
  rw [changeStrLoop, h]
  simp only [Nat.succ_ne_zero, if_false, Nat.add_sub_cancel, hbehind, hcopied, hchanged]

section Changes

variable {start : ℕ} {places : List ℕ}
  (h : Successive (Meets compare this needle) needle.length start places)

include h

theorem countStrLoop_eq {fuel : ℕ} (hfuel : places.length < fuel) (count : ℕ) :
    countStrLoop compare this needle fuel count (posBy compare this needle start) =
      some (count + places.length) := by
  induction h generalizing fuel count with
  | none hnone =>
      obtain ⟨fuel, rfl⟩ := Nat.exists_eq_add_of_lt hfuel
      simp [countStrLoop, posBy_eq_zero hnone]
  | @next start i places hleast hplaces ih =>
      obtain ⟨fuel, rfl⟩ : ∃ fuel', fuel = fuel' + 1 := ⟨fuel - 1, by omega⟩
      have hfuel' : places.length < fuel := by simpa using hfuel
      have hrest := ih hfuel' (count + 1)
      have hbehind : i + 1 + needle.length - 1 = i + needle.length := by omega
      rw [countStrLoop, posBy_eq_of_least hleast, if_pos (Nat.succ_ne_zero i), hbehind, hrest,
        List.length_cons, Nat.add_right_comm, Nat.add_assoc]

theorem changeStrLoop_eq (newNeedle : List UInt8) {matches_ : ℕ}
    (hmatches : matches_ ≤ places.length) (copy : List UInt8) :
    (changeStrLoop compare this needle newNeedle matches_ (start, copy)).2 ++
        this.drop (changeStrLoop compare this needle newNeedle matches_ (start, copy)).1 =
      copy ++ replaceAt needle.length newNeedle this start (places.take matches_) := by
  induction h generalizing matches_ copy with
  | none _ =>
      obtain rfl : matches_ = 0 := by simpa using hmatches
      rfl
  | @next start i places hleast hplaces ih =>
      cases matches_ with
      | zero => rfl
      | succ matches_ =>
          have hmatches' : matches_ ≤ places.length := by simpa using hmatches
          have hrest := ih hmatches'
            (copy ++ (this.drop start).take (i - start) ++ newNeedle)
          rw [changeStrLoop_hit newNeedle (posBy_eq_of_least hleast), hrest]
          simp only [List.take_succ_cons, replaceAt, List.append_assoc]

end Changes

theorem meets_fits (i : ℕ) (h : Meets compare this needle i) :
    0 < needle.length ∧ i + needle.length ≤ this.length :=
  ⟨List.length_pos_of_ne_nil h.1, h.2.1⟩

theorem exists_successive (compare : List UInt8 → List UInt8 → Bool) (this needle : List UInt8) :
    ∃ places, Successive (Meets compare this needle) needle.length 0 places :=
  Successive.exists_of_fits meets_fits 0

section Whole

variable {places : List ℕ}
  (h : Successive (Meets compare this needle) needle.length 0 places)

include h

theorem places_length_le : places.length ≤ this.length := by
  cases h with
  | none _ => simp
  | next hleast hplaces =>
      have hwidth := (meets_fits _ hleast.1.2).1
      have hroom := (Successive.next hleast hplaces).room (fun i hi => (meets_fits i hi).2)
        (Nat.zero_le _)
      exact le_trans (Nat.le_mul_of_pos_right _ hwidth) (by omega)

theorem countStrBy_eq : countStrBy compare this needle = some places.length := by
  have hlength := places_length_le h
  rw [countStrBy, countStrLoop_eq h (by omega), Nat.zero_add]

theorem changeStrBy_eq (newNeedle : List UInt8) {countArg : Option ℤ} {count : ℕ}
    (hcount : optionalPositive 3 countArg maxWholeNumber = .ok count) :
    ∃ w, changeStrBy compare this needle newNeedle countArg = .ok (some w) ∧ w.Exact ∧
      w.bytes = replaceAt needle.length newNeedle this 0
        (places.take (min count places.length)) := by
  have hbound : (if places.length > count then count else places.length) =
      min count places.length := by
    split <;> omega
  have hmatches : min count places.length ≤ places.length := Nat.min_le_right _ _
  have hloop := changeStrLoop_eq h newNeedle hmatches []
  rw [List.nil_append] at hloop
  have hlength := length_replaceAt h newNeedle this (fun i hi => (meets_fits i hi).2) _ hmatches
  have hroom := h.room (fun i hi => (meets_fits i hi).2) (Nat.zero_le _)
  have hcut : min count places.length * needle.length ≤ places.length * needle.length :=
    Nat.mul_le_mul_right _ hmatches
  refine ⟨⟨this.length - min count places.length * needle.length +
    min count places.length * newNeedle.length, _⟩, ?_, ?_, rfl⟩
  · rw [changeStrBy, hcount, countStrBy_eq h, ← hloop]
    have hrest : ∀ (start : ℕ) (copy : List UInt8),
        (if start < this.length then copy ++ (this.drop start).take (this.length - start)
          else copy) = copy ++ this.drop start := by
      intro start copy
      split
      case isTrue _ => rw [← List.length_drop, List.take_length]
      case isFalse hend => rw [List.drop_of_length_le (not_lt.mp hend), List.append_nil]
    simp only [hrest, Option.map_some]
    change Except.ok (some _) = _
    rw [hbound]
  · change (replaceAt _ _ _ _ _).length = this.length - min count places.length * needle.length +
      min count places.length * newNeedle.length
    omega

end Whole

/-! ## The laws -/

def matchPlaces (needle haystack : List UInt8) : Set ℕ :=
  {i | needle ≠ [] ∧ OccursAt needle haystack i}

theorem meets_exactly (this needle : List UInt8) :
    Meets exactly this needle = (· ∈ matchPlaces needle this) :=
  funext fun _ => propext meets_exactly_iff

theorem search_and_replace (this needle : List UInt8) :
    (∀ start, FirstOf {i | start ≤ i ∧ i ∈ matchPlaces needle this} (pos this needle start)) ∧
    (∀ start : Option ℕ, posRexx this needle (start.map positive) =
      .ok (pos this needle (start.getD 0))) ∧
    (∀ start, LastOf {i | i + needle.length ≤ start ∧ i ∈ matchPlaces needle this}
      (lastPos this needle start)) ∧
    (∀ start : Option ℕ, lastPosRexx this needle (start.map positive) =
      .ok (lastPos this needle (start.elim this.length (· + 1)))) ∧
    ∃ places, Successive (· ∈ matchPlaces needle this) needle.length 0 places ∧
      countStr this needle = some places.length ∧
      ∀ (newNeedle : List UInt8) (count : Option ℕ), ∃ w,
        changeStr this needle newNeedle (count.map positive) = .ok (some w) ∧ w.Exact ∧
          w.bytes = replaceAt needle.length newNeedle this 0
            (places.take (min (count.elim maxWholeNumber (· + 1)) places.length)) := by
  have hplaces := exists_successive exactly this needle
  have hfirst := posBy_firstOf exactly this needle
  have hlast := lastPosBy_lastOf exactly this needle
  simp only [meets_exactly] at hplaces hfirst hlast
  refine ⟨hfirst, fun start => ?_, hlast, fun start => ?_, ?_⟩
  · rw [posRexx, posRexxBy, optionalPosition_positive]
    cases start <;> rfl
  · rw [lastPosRexx, lastPosRexxBy, optionalPosition_positive]
    rfl
  · obtain ⟨places, hplaces⟩ := hplaces
    have hmet := hplaces
    rw [← meets_exactly] at hmet
    exact ⟨places, hplaces, countStrBy_eq hmet, fun newNeedle count =>
      changeStrBy_eq hmet newNeedle (optionalPositive_positive count)⟩

/-- The null string stands at the start of every string; the search denies it. -/
theorem null_needle_not_found :
    OccursAt [] ([97] : List UInt8) 0 ∧
      ¬ FirstOf {i | 0 ≤ i ∧ OccursAt [] ([97] : List UInt8) i} (pos [97] [] 0) := by
  have hoccurs : OccursAt [] ([97] : List UInt8) 0 := ⟨by decide, rfl⟩
  refine ⟨hoccurs, ?_⟩
  rintro (⟨_, hnone⟩ | ⟨i, hi, _⟩)
  · exact Set.eq_empty_iff_forall_notMem.mp hnone 0 ⟨le_rfl, hoccurs⟩
  · exact Nat.succ_ne_zero i hi.symm

end StringSearch

end LeooRexx
