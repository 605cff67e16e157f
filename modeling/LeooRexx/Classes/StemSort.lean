import LeooRexx.Classes.RexxStemRuns
import LeooRexx.Foundation.Sorting
import LeooRexx.Instructions.ParseTarget
import LeooRexx.NumberString.Whole

/-!
# Sorting a stem

`RexxStem::sort` orders the string values of a range of elements with one of eight
comparators.  The comparison of columns counts one byte more than the shorter string has
behind the start column, and so looks at the null character behind the string; what it gives
is a total preorder even so.
-/

namespace LeooRexx

structure SortString where
  length : ℕ
  stringData : ℕ → UInt8
  terminated : stringData length = 0

namespace SortString

def bytes (s : SortString) (start count : ℕ) : List UInt8 :=
  (List.range' start count).map s.stringData

def fold (caseless : Bool) (c : UInt8) : UInt8 :=
  if caseless then RexxTarget.tolower c else c

/-- `memcmp`, or `strncasecmp`, which ends at a null character. -/
def compareMemory (caseless : Bool) : List UInt8 → List UInt8 → ℤ
  | a :: as, b :: bs =>
      if fold caseless a ≠ fold caseless b then
        ((fold caseless a).toNat : ℤ) - (fold caseless b).toNat
      else if caseless ∧ fold caseless a = 0 then 0
      else compareMemory caseless as bs
  | _, _ => 0

def lengthOrder (length otherLength : ℕ) : ℤ :=
  if otherLength < length then 1 else if length < otherLength then -1 else 0

/-- `sortCompare` and `sortCaselessCompare` of whole strings. -/
def sortCompare (caseless : Bool) (this other : SortString) : ℤ :=
  let compareLength := min this.length other.length
  let result := compareMemory caseless (this.bytes 0 compareLength) (other.bytes 0 compareLength)
  if result = 0 then lengthOrder this.length other.length else result

def columnLength (startCol colLength : ℕ) (this other : SortString) : ℕ :=
  if startCol < this.length ∧ startCol < other.length then
    min colLength (min this.length other.length - startCol + 1)
  else 0

/-- `sortCompare` and `sortCaselessCompare` of columns. -/
def sortCompareColumns (caseless : Bool) (startCol colLength : ℕ) (this other : SortString) : ℤ :=
  if startCol < this.length ∧ startCol < other.length then
    let stringLength := min this.length other.length - startCol + 1
    let compareLength := columnLength startCol colLength this other
    let result := compareMemory caseless (this.bytes startCol compareLength)
      (other.bytes startCol compareLength)
    if result = 0 ∧ stringLength < colLength then lengthOrder this.length other.length
    else result
  else lengthOrder this.length other.length

/-! ## The comparators -/

section Comparators

variable (sortStartCol sortCompLength : ℕ)

def compare_asc_i : SortString → SortString → ℤ := sortCompare true

def compare_asc_i_cols : SortString → SortString → ℤ :=
  sortCompareColumns true sortStartCol sortCompLength

def compare_asc : SortString → SortString → ℤ := sortCompare false

def compare_asc_cols : SortString → SortString → ℤ :=
  sortCompareColumns false sortStartCol sortCompLength

def compare_desc (arg1 arg2 : SortString) : ℤ := -sortCompare false arg1 arg2

def compare_desc_cols (arg1 arg2 : SortString) : ℤ :=
  -sortCompareColumns false sortStartCol sortCompLength arg1 arg2

def compare_desc_i (arg1 arg2 : SortString) : ℤ := -sortCompare true arg1 arg2

def compare_desc_i_cols (arg1 arg2 : SortString) : ℤ :=
  -sortCompareColumns true sortStartCol sortCompLength arg1 arg2

end Comparators

inductive SortOrder where
  | ascending
  | descending
  deriving DecidableEq

inductive SortType where
  | casesensitive
  | caseignore
  deriving DecidableEq

def ULONG_MAX : ℕ := 4294967295

/-- `lastcol - firstcol + 1` of unsigned numbers. -/
def compLength (firstcol lastcol : ℕ) : ℕ := (lastcol + 4294967296 - firstcol + 1) % 4294967296

def selected (order : SortOrder) (type : SortType) (firstcol lastcol : ℕ) :
    SortString → SortString → ℤ :=
  if firstcol = 0 ∧ lastcol = ULONG_MAX then
    match type, order with
    | .casesensitive, .ascending => compare_asc
    | .casesensitive, .descending => compare_desc
    | .caseignore, .ascending => compare_asc_i
    | .caseignore, .descending => compare_desc_i
  else
    match type, order with
    | .casesensitive, .ascending => compare_asc_cols firstcol (compLength firstcol lastcol)
    | .casesensitive, .descending => compare_desc_cols firstcol (compLength firstcol lastcol)
    | .caseignore, .ascending => compare_asc_i_cols firstcol (compLength firstcol lastcol)
    | .caseignore, .descending => compare_desc_i_cols firstcol (compLength firstcol lastcol)

def looksAt (firstcol lastcol : ℕ) (this other : SortString) : ℕ × ℕ :=
  if firstcol = 0 ∧ lastcol = ULONG_MAX then (0, min this.length other.length)
  else (firstcol, columnLength firstcol (compLength firstcol lastcol) this other)

def LooksInside (firstcol lastcol : ℕ) : Prop :=
  ∀ this other, (looksAt firstcol lastcol this other).2 ≠ 0 →
    (looksAt firstcol lastcol this other).1 + (looksAt firstcol lastcol this other).2 ≤
      min this.length other.length

def TotalPreorder (cmp : SortString → SortString → ℤ) : Prop :=
  Sorting.Consistent (fun (_ : Unit) x y => (cmp x y, ())) fun x y => cmp x y ≤ 0

/-! ## Comparison of texts -/

def compareText (caseless : Bool) (u v : List UInt8) : ℤ :=
  if compareMemory caseless u v = 0 then lengthOrder u.length v.length
  else compareMemory caseless u v

variable {caseless : Bool}

theorem lengthOrder_nonpos {m n : ℕ} : lengthOrder m n ≤ 0 ↔ m ≤ n := by
  unfold lengthOrder
  split_ifs <;> omega

theorem lengthOrder_swap (m n : ℕ) : lengthOrder n m = -lengthOrder m n := by
  unfold lengthOrder
  split_ifs <;> omega

theorem lengthOrder_succ (m n : ℕ) : lengthOrder (m + 1) (n + 1) = lengthOrder m n := by
  simp [lengthOrder]

theorem compareText_nil_left (v : List UInt8) :
    compareText caseless [] v = lengthOrder 0 v.length := by
  cases v <;> rfl

theorem compareText_nil_right (u : List UInt8) :
    compareText caseless u [] = lengthOrder u.length 0 := by
  cases u <;> rfl

theorem compareText_cons (a b : UInt8) (u v : List UInt8) :
    compareText caseless (a :: u) (b :: v) =
      if fold caseless a ≠ fold caseless b then
        ((fold caseless a).toNat : ℤ) - (fold caseless b).toNat
      else if caseless ∧ fold caseless a = 0 then lengthOrder u.length v.length
      else compareText caseless u v := by
  simp only [compareText, compareMemory, List.length_cons, lengthOrder_succ]
  by_cases hsame : fold caseless a = fold caseless b
  · simp only [hsame, ne_eq, not_true_eq_false, if_false]
    by_cases hnull : caseless = true ∧ fold caseless b = 0
    · simp only [if_pos hnull, if_true]
    · simp only [if_neg hnull]
  · have hdiffer : ((fold caseless a).toNat : ℤ) - (fold caseless b).toNat ≠ 0 := fun h =>
      hsame (UInt8.toNat_inj.mp (by omega))
    simp only [ne_eq, hsame, not_false_eq_true, if_true, hdiffer, if_false]

theorem compareText_swap (u v : List UInt8) :
    compareText caseless v u = -compareText caseless u v := by
  induction u generalizing v with
  | nil => rw [compareText_nil_left, compareText_nil_right, lengthOrder_swap]
  | cons a u ih =>
      cases v with
      | nil => rw [compareText_nil_left, compareText_nil_right, lengthOrder_swap]
      | cons b v =>
          rw [compareText_cons, compareText_cons]
          by_cases hsame : fold caseless a = fold caseless b
          · simp only [hsame, ne_eq, not_true_eq_false, if_false]
            split_ifs
            · exact lengthOrder_swap _ _
            · exact ih v
          · rw [if_pos (Ne.symm hsame), if_pos hsame]
            omega

theorem compareText_cons_nonpos {a b : UInt8} {u v : List UInt8} :
    compareText caseless (a :: u) (b :: v) ≤ 0 ↔
      (fold caseless a).toNat < (fold caseless b).toNat ∨
        fold caseless a = fold caseless b ∧
          if caseless ∧ fold caseless a = 0 then u.length ≤ v.length
          else compareText caseless u v ≤ 0 := by
  rw [compareText_cons]
  by_cases hsame : fold caseless a = fold caseless b
  · simp only [hsame, ne_eq, not_true_eq_false, if_false, lt_self_iff_false, true_and, false_or]
    split_ifs
    · exact lengthOrder_nonpos
    · exact Iff.rfl
  · have hdiffer : (fold caseless a).toNat ≠ (fold caseless b).toNat := fun h =>
      hsame (UInt8.toNat_inj.mp h)
    simp only [ne_eq, hsame, not_false_eq_true, if_true, false_and, or_false]
    omega

theorem compareText_trans {u v w : List UInt8} (huv : compareText caseless u v ≤ 0)
    (hvw : compareText caseless v w ≤ 0) : compareText caseless u w ≤ 0 := by
  induction u generalizing v w with
  | nil =>
      rw [compareText_nil_left, lengthOrder_nonpos]
      exact Nat.zero_le _
  | cons a u ih =>
      cases v with
      | nil =>
          rw [compareText_nil_right, lengthOrder_nonpos] at huv
          exact absurd huv (by simp)
      | cons b v =>
          cases w with
          | nil =>
              rw [compareText_nil_right, lengthOrder_nonpos] at hvw
              exact absurd hvw (by simp)
          | cons c w =>
              rw [compareText_cons_nonpos] at huv hvw ⊢
              rcases huv with hab | ⟨hab, huv⟩
              · rcases hvw with hbc | ⟨hbc, -⟩
                · exact .inl (hab.trans hbc)
                · exact .inl (hbc ▸ hab)
              · rcases hvw with hbc | ⟨hbc, hvw⟩
                · exact .inl (hab ▸ hbc)
                · refine .inr ⟨hab.trans hbc, ?_⟩
                  rw [← hab] at hvw
                  split_ifs at huv hvw ⊢ with hnull
                  · exact huv.trans hvw
                  · exact ih huv hvw

theorem compareMemory_take (u v : List UInt8) :
    compareMemory caseless (u.take (min u.length v.length)) (v.take (min u.length v.length)) =
      compareMemory caseless u v := by
  induction u generalizing v with
  | nil => simp [compareMemory]
  | cons a u ih =>
      cases v with
      | nil => simp [compareMemory]
      | cons b v =>
          simp only [List.length_cons, Nat.add_min_add_right, List.take_succ_cons, compareMemory,
            ih]

theorem bytes_take (s : SortString) (start : ℕ) {count k : ℕ} (h : k ≤ count) :
    (s.bytes start count).take k = s.bytes start k := by
  rw [bytes, ← List.map_take, List.take_range'_of_length_ge h, bytes]

/-! ## Total preorders -/

theorem length_bytes (s : SortString) (start count : ℕ) : (s.bytes start count).length = count := by
  rw [bytes, List.length_map, List.length_range']

theorem compareMemory_bytes (this other : SortString) (start m n : ℕ) :
    compareMemory caseless (this.bytes start (min m n)) (other.bytes start (min m n)) =
      compareMemory caseless (this.bytes start m) (other.bytes start n) := by
  have htake : _ = compareMemory caseless _ _ :=
    compareMemory_take (this.bytes start m) (other.bytes start n)
  rwa [length_bytes, length_bytes, bytes_take _ _ (Nat.min_le_left m n),
    bytes_take _ _ (Nat.min_le_right m n)] at htake

theorem sortCompare_eq (this other : SortString) :
    sortCompare caseless this other =
      compareText caseless (this.bytes 0 this.length) (other.bytes 0 other.length) := by
  rw [sortCompare, compareText, compareMemory_bytes, length_bytes, length_bytes]

def window (startCol colLength : ℕ) (s : SortString) : List UInt8 :=
  s.bytes startCol (min colLength (s.length - startCol + 1))

theorem sortCompareColumns_eq (startCol colLength : ℕ) (this other : SortString) :
    sortCompareColumns caseless startCol colLength this other =
      if startCol < this.length ∧ startCol < other.length then
        compareText caseless (this.window startCol colLength) (other.window startCol colLength)
      else lengthOrder this.length other.length := by
  rw [sortCompareColumns]
  split_ifs with hinside
  · have hlength : columnLength startCol colLength this other =
        min (min colLength (this.length - startCol + 1))
          (min colLength (other.length - startCol + 1)) := by
      rw [columnLength, if_pos hinside]
      omega
    simp only [hlength, compareMemory_bytes, compareText, window, length_bytes]
    by_cases hzero : compareMemory caseless
        (this.bytes startCol (min colLength (this.length - startCol + 1)))
        (other.bytes startCol (min colLength (other.length - startCol + 1))) = 0
    · simp only [hzero, true_and, if_true]
      unfold lengthOrder
      split_ifs <;> omega
    · simp only [hzero, false_and, if_false]
  · rfl

theorem totalPreorder_of {cmp : SortString → SortString → ℤ}
    (hswap : ∀ x y, cmp y x = -cmp x y)
    (htrans : ∀ x y z, cmp x y ≤ 0 → cmp y z ≤ 0 → cmp x z ≤ 0) : TotalPreorder cmp where
  total x y := by
    have h := hswap x y
    omega
  trans := htrans
  nonpos_iff _ _ _ := Iff.rfl
  nonneg_iff _ x y := by
    have h := hswap x y
    change 0 ≤ cmp x y ↔ cmp y x ≤ 0
    omega

theorem TotalPreorder.neg {cmp : SortString → SortString → ℤ} (h : TotalPreorder cmp)
    (hswap : ∀ x y, cmp y x = -cmp x y) : TotalPreorder fun x y => -cmp x y := by
  refine totalPreorder_of (fun x y => by rw [hswap x y]) fun x y z hxy hyz => ?_
  simp only [← hswap] at hxy hyz ⊢
  exact h.trans z y x hyz hxy

theorem sortCompare_swap (x y : SortString) :
    sortCompare caseless y x = -sortCompare caseless x y := by
  rw [sortCompare_eq, sortCompare_eq, compareText_swap]

theorem totalPreorder_sortCompare : TotalPreorder (sortCompare caseless) := by
  refine totalPreorder_of sortCompare_swap fun x y z hxy hyz => ?_
  rw [sortCompare_eq] at hxy hyz ⊢
  exact compareText_trans hxy hyz

theorem sortCompareColumns_swap (startCol colLength : ℕ) (x y : SortString) :
    sortCompareColumns caseless startCol colLength y x =
      -sortCompareColumns caseless startCol colLength x y := by
  rw [sortCompareColumns_eq, sortCompareColumns_eq]
  by_cases hinside : startCol < x.length ∧ startCol < y.length
  · rw [if_pos hinside, if_pos hinside.symm]
    exact compareText_swap _ _
  · rw [if_neg hinside, if_neg fun h => hinside h.symm]
    exact lengthOrder_swap _ _

theorem totalPreorder_sortCompareColumns (startCol colLength : ℕ) :
    TotalPreorder (sortCompareColumns caseless startCol colLength) := by
  refine totalPreorder_of (sortCompareColumns_swap startCol colLength) fun x y z hxy hyz => ?_
  rw [sortCompareColumns_eq] at hxy hyz ⊢
  by_cases hx : startCol < x.length <;> by_cases hy : startCol < y.length <;>
    by_cases hz : startCol < z.length <;>
    simp only [hx, hy, hz, and_self, and_true, and_false, if_true, if_false,
      lengthOrder_nonpos] at hxy hyz ⊢
  case pos => exact compareText_trans hxy hyz
  all_goals omega

theorem totalPreorder_selected (order : SortOrder) (type : SortType) (firstcol lastcol : ℕ) :
    TotalPreorder (selected order type firstcol lastcol) := by
  unfold selected
  split
  · cases type <;> cases order
    · exact totalPreorder_sortCompare
    · exact totalPreorder_sortCompare.neg sortCompare_swap
    · exact totalPreorder_sortCompare
    · exact totalPreorder_sortCompare.neg sortCompare_swap
  · cases type <;> cases order
    · exact totalPreorder_sortCompareColumns _ _
    · exact (totalPreorder_sortCompareColumns _ _).neg (sortCompareColumns_swap _ _)
    · exact totalPreorder_sortCompareColumns _ _
    · exact (totalPreorder_sortCompareColumns _ _).neg (sortCompareColumns_swap _ _)

/-! ## Where the comparators look -/

def nulls (length : ℕ) : SortString := ⟨length, fun _ => 0, rfl⟩

theorem looksInside_iff {firstcol lastcol : ℕ} (hcol : firstcol ≤ lastcol)
    (hmax : lastcol ≤ ULONG_MAX) :
    LooksInside firstcol lastcol ↔
      (firstcol = 0 ∧ lastcol = ULONG_MAX) ∨ firstcol = lastcol := by
  by_cases hall : firstcol = 0 ∧ lastcol = ULONG_MAX
  · refine iff_of_true (fun this other _ => ?_) (.inl hall)
    rw [looksAt, if_pos hall, Nat.zero_add]
  · have hlength : compLength firstcol lastcol = lastcol - firstcol + 1 := by
      rw [ULONG_MAX] at hall hmax
      rw [compLength]
      omega
    simp only [LooksInside, looksAt, hall, false_or, hlength, if_false]
    constructor
    · intro hinside
      have hnulls := hinside (nulls (firstcol + 1)) (nulls (firstcol + 1))
      simp only [columnLength, nulls, Nat.lt_succ_self, and_self, if_true, Nat.min_self] at hnulls
      omega
    · rintro rfl this other
      rw [columnLength]
      split_ifs <;> omega

end SortString

/-! ## The sort -/

open SortString

structure SortObjects (ν : Type) where
  longValue : ν → Option ℤ
  requestString : ν → SortString
  string : SortString → ν

abbrev Qsort := (SortString → SortString → ℤ) → List SortString → List SortString

def Qsort.Sorts (qsort : Qsort) : Prop :=
  ∀ cmp, TotalPreorder cmp → ∀ items,
    (qsort cmp items).Perm items ∧ (qsort cmp items).Pairwise fun x y => cmp x y ≤ 0

namespace RexxStem

variable {ν : Type}

def sortTail (stemPrefix : List UInt8) (index : ℕ) : List UInt8 :=
  stemPrefix ++ NumberString.ltoa (Int.bmod index 4294967296)

def sortTails (stemPrefix : List UInt8) (first last : ℕ) : List (List UInt8) :=
  (List.range' first (last + 1 - first)).map (sortTail stemPrefix)

def elementValues (s : RexxStem ν) : List (List UInt8) → Option (Option (List (ℕ × ν)))
  | [] => some (some [])
  | tail :: tails =>
      (s.findCompoundVariable tail).bind fun
        | none => some none
        | some element =>
            match s.variableValue element with
            | none => some none
            | some value =>
                (s.elementValues tails).map fun rest =>
                  rest.map fun items => (element, value) :: items

def storeValues (s : RexxStem ν) : List (ℕ × ν) → RexxStem ν
  | [] => s
  | (element, value) :: items => (s.setVariableValue element (some value)).storeValues items

def sortCount (o : SortObjects ν) (s : RexxStem ν) (stemPrefix : List UInt8) :
    Option (Option ℕ) :=
  (s.findCompoundVariable (sortTail stemPrefix 0)).map fun size_element => do
    let size_value ← s.variableValue (← size_element)
    let count ← o.longValue size_value
    return (count % 4294967296).toNat

def lastElement (count last : ℕ) : ℕ := if last = ULONG_MAX then count else last

def sort (o : SortObjects ν) (qsort : Qsort) (s : RexxStem ν) (stemPrefix : List UInt8)
    (order : SortOrder) (type : SortType) (first last firstcol lastcol : ℕ) :
    Option (RexxStem ν × Bool) :=
  (s.sortCount o stemPrefix).bind fun
    | none => some (s, false)
    | some count =>
        if count = 0 then some (s, true)
        else
          let last := lastElement count last
          if count < first ∨ count < last then some (s, false)
          else
            (s.elementValues (sortTails stemPrefix first last)).map fun
              | none => (s, false)
              | some items =>
                  let sorted := qsort (selected order type firstcol lastcol)
                    (items.map fun item => o.requestString item.2)
                  (s.storeValues ((items.map Prod.fst).zip (sorted.map o.string)), true)

/-! ## Elements by their tails -/

theorem ltoa_injective {v w : ℤ} (h : NumberString.ltoa v = NumberString.ltoa w) : v = w := by
  have hv := NumberString.newInstance_spells ⟨9, 0, .scientific⟩ (NumberString.spells_ltoa v)
  rw [h, NumberString.newInstance_spells _ (NumberString.spells_ltoa w), Option.some.injEq] at hv
  have hrat := congrArg NumberString.toRat hv
  simpa using hrat.symm

theorem nodup_sortTails (stemPrefix : List UInt8) (first : ℕ) {last : ℕ}
    (hlast : last < 4294967296) : (sortTails stemPrefix first last).Nodup := by
  refine List.Nodup.map_on (fun i hi j hj heq => ?_) List.nodup_range'
  have hmod : Int.bmod i 4294967296 % (4294967296 : ℕ) = Int.bmod j 4294967296 % (4294967296 : ℕ) :=
    congrArg (· % ((4294967296 : ℕ) : ℤ)) (ltoa_injective (List.append_cancel_left heq))
  rw [Int.bmod_emod, Int.bmod_emod] at hmod
  rw [List.mem_range'_1] at hi hj
  omega

variable {s : RexxStem ν} {m : List UInt8 → Option (Option ν)}

theorem findCompoundVariable_denotes (h : s.tails.Denotes m) (tail : List UInt8) :
    ∃ r, s.findCompoundVariable tail = some r ∧ m tail = r.map s.variableValue ∧
      s.tails.findEntry tail false = some (s.tails, r) := by
  obtain ⟨r, hfind, hvalue⟩ := h.find tail
  exact ⟨r, by simp [findCompoundVariable, hfind], hvalue, hfind⟩

theorem findEntry_setValue {t : CompoundTable ν} (h : t.Denotes m) {tail : List UInt8} {j : ℕ}
    (hfind : t.findEntry tail false = some (t, some j)) (i : ℕ) (value : Option ν) :
    (t.setValue i value).findEntry tail false = some (t.setValue i value, some j) := by
  obtain ⟨T, hv, -⟩ := h
  obtain ⟨r, hr, hiff⟩ := CompoundTable.findEntry_false_spec hv tail
  rw [hfind, Option.some.injEq, Prod.mk.injEq] at hr
  obtain ⟨hj, hname⟩ := (hiff j).mp hr.2.symm
  obtain ⟨r', hr', hiff'⟩ := CompoundTable.findEntry_false_spec (hv.setValue i value) tail
  rw [hr', (hiff' j).mpr ⟨hj, by rw [CompoundTable.name_setValue]; exact hname⟩]

structure Found (s : RexxStem ν) (m : List UInt8 → Option (Option ν))
    (tails : List (List UInt8)) (items : List (ℕ × ν)) : Prop where
  elements : List.Forall₂
    (fun tail element => s.tails.findEntry tail false = some (s.tails, some element)) tails
    (items.map Prod.fst)
  values : tails.map m = items.map fun item => some (some item.2)

theorem elementValues_spec (h : s.tails.Denotes m) (tails : List (List UInt8)) :
    ∃ r, s.elementValues tails = some r ∧ ∀ items, r = some items → Found s m tails items := by
  induction tails with
  | nil =>
      refine ⟨some [], rfl, fun items hitems => ?_⟩
      obtain rfl := Option.some.inj hitems
      exact ⟨.nil, rfl⟩
  | cons tail tails ih =>
      obtain ⟨r, hr, hvalue, hfind⟩ := findCompoundVariable_denotes h tail
      rw [elementValues, hr, Option.bind_some]
      cases r with
      | none => exact ⟨none, rfl, fun items hitems => by simp at hitems⟩
      | some element =>
          simp only
          cases hval : s.variableValue element with
          | none => exact ⟨none, rfl, fun items hitems => by simp at hitems⟩
          | some value =>
              obtain ⟨rest, hrest, hfound⟩ := ih
              refine ⟨rest.map fun items => (element, value) :: items, by rw [hrest]; rfl,
                fun items hitems => ?_⟩
              obtain ⟨found, hsome, rfl⟩ := Option.map_eq_some_iff.mp hitems
              obtain ⟨helements, hvalues⟩ := hfound found hsome
              refine ⟨.cons hfind helements, ?_⟩
              rw [List.map_cons, hvalue, Option.map_some, hval, hvalues, List.map_cons]

theorem storeValues_spec (h : s.tails.Denotes m) {tails : List (List UInt8)}
    {elements : List ℕ} {values : List ν} (hnodup : tails.Nodup)
    (hfound : List.Forall₂
      (fun tail element => s.tails.findEntry tail false = some (s.tails, some element)) tails
      elements) (hlength : elements.length = values.length) :
    ∃ t m', s.storeValues (elements.zip values) = { s with tails := t } ∧ t.Denotes m' ∧
      tails.map m' = values.map (fun value => some (some value)) ∧
      ∀ tail, tail ∉ tails → m' tail = m tail := by
  induction tails generalizing s m elements values with
  | nil =>
      obtain rfl : elements = [] := by cases hfound; rfl
      obtain rfl : values = [] := List.eq_nil_of_length_eq_zero hlength.symm
      exact ⟨s.tails, m, rfl, h, rfl, fun _ _ => rfl⟩
  | cons tail tails ih =>
      cases hfound with
      | @cons _ element _ elements hfind hrest =>
      cases values with
      | nil => simp at hlength
      | cons value values =>
          obtain ⟨hnotin, hnodup⟩ := List.nodup_cons.mp hnodup
          have hset : (s.setVariableValue element (some value)).tails.Denotes
            (Function.update m tail (some (some value))) := h.set hfind (some value)
          have hkept := hrest.imp fun _ _ hentry =>
            findEntry_setValue h hentry element (some value)
          obtain ⟨t, m', hstore, hm', hvalues, hothers⟩ :=
            ih hset hnodup hkept (Nat.succ.inj hlength)
          refine ⟨t, m', ?_, hm', ?_, fun tail' htail' => ?_⟩
          · rw [List.zip_cons_cons, storeValues, hstore]
            rfl
          · rw [List.map_cons, hvalues, hothers tail hnotin, Function.update_self, List.map_cons]
          · obtain ⟨hne, hnotin'⟩ := not_or.mp (mt List.mem_cons.mpr htail')
            rw [hothers tail' hnotin', Function.update_of_ne hne]

/-! ## Correctness -/

def countOf (o : SortObjects ν) (m : List UInt8 → Option (Option ν))
    (stemPrefix : List UInt8) : Option ℕ := do
  let size_value ← (m (sortTail stemPrefix 0)).join
  let count ← o.longValue size_value
  return (count % 4294967296).toNat

theorem sortCount_eq (h : s.tails.Denotes m) (o : SortObjects ν) (stemPrefix : List UInt8) :
    s.sortCount o stemPrefix = some (countOf o m stemPrefix) := by
  obtain ⟨r, hr, hvalue, -⟩ := findCompoundVariable_denotes h (sortTail stemPrefix 0)
  rw [sortCount, hr, Option.map_some, countOf, hvalue]
  cases r <;> rfl

/-- The values of some tails are a permutation of what they were, as strings, in order; the
others are what they were. -/
def Ordered (o : SortObjects ν) (cmp : SortString → SortString → ℤ)
    (tails : List (List UInt8)) (m m' : List UInt8 → Option (Option ν)) : Prop :=
  ∃ (values : List ν) (sorted : List SortString),
    tails.map m = values.map (fun value => some (some value)) ∧
    tails.map m' = sorted.map (fun string => some (some (o.string string))) ∧
    sorted.Perm (values.map o.requestString) ∧ (sorted.Pairwise fun x y => cmp x y ≤ 0) ∧
    ∀ tail, tail ∉ tails → m' tail = m tail

structure SortedStem (o : SortObjects ν) (cmp : SortString → SortString → ℤ)
    (s : RexxStem ν) (m : List UInt8 → Option (Option ν)) (stemPrefix : List UInt8)
    (first last : ℕ) (s' : RexxStem ν) (returned : Bool) : Prop where
  failed : returned = false → s' = s
  nothing : countOf o m stemPrefix = some 0 → s' = s
  ordered : ∀ count, countOf o m stemPrefix = some count → count ≠ 0 → returned = true →
    ∃ t m', s' = { s with tails := t } ∧ t.Denotes m' ∧
      Ordered o cmp (sortTails stemPrefix first (lastElement count last)) m m'

theorem sortedStem_failed (o : SortObjects ν) (cmp : SortString → SortString → ℤ)
    (s : RexxStem ν) (m : List UInt8 → Option (Option ν)) (stemPrefix : List UInt8)
    (first last : ℕ) : SortedStem o cmp s m stemPrefix first last s false :=
  ⟨fun _ => rfl, fun _ => rfl, fun _ _ _ h => by simp at h⟩

theorem countOf_lt {o : SortObjects ν} {stemPrefix : List UInt8} {count : ℕ}
    (h : countOf o m stemPrefix = some count) : count < 4294967296 := by
  simp only [countOf, Option.bind_eq_bind, Option.pure_def] at h
  obtain ⟨_, -, h⟩ := Option.bind_eq_some_iff.mp h
  obtain ⟨number, -, h⟩ := Option.bind_eq_some_iff.mp h
  obtain rfl := Option.some.inj h
  omega

theorem sort_spec {qsort : Qsort} (hqsort : qsort.Sorts) (h : s.tails.Denotes m)
    (o : SortObjects ν) (stemPrefix : List UInt8) (order : SortOrder) (type : SortType)
    (first last firstcol lastcol : ℕ) :
    ∃ s' returned, s.sort o qsort stemPrefix order type first last firstcol lastcol =
        some (s', returned) ∧
      SortedStem o (selected order type firstcol lastcol) s m stemPrefix first last s'
        returned := by
  rw [sort, sortCount_eq h, Option.bind_some]
  cases hcount : countOf o m stemPrefix with
  | none => exact ⟨s, false, rfl, sortedStem_failed ..⟩
  | some count =>
      simp only
      split
      next hzero =>
        refine ⟨s, true, rfl, fun _ => rfl, fun _ => rfl, fun count' hcount' hne => ?_⟩
        rw [hcount, Option.some.injEq] at hcount'
        exact absurd (hcount' ▸ hzero) hne
      split
      next => exact ⟨s, false, rfl, sortedStem_failed ..⟩
      next hzero hbounds =>
        obtain ⟨r, hr, hfound⟩ := elementValues_spec h
          (sortTails stemPrefix first (lastElement count last))
        rw [hr, Option.map_some]
        cases r with
        | none => exact ⟨s, false, rfl, sortedStem_failed ..⟩
        | some items =>
            obtain ⟨helements, hvalues⟩ := hfound items rfl
            obtain ⟨hperm, hsorted⟩ := hqsort _
              (totalPreorder_selected order type firstcol lastcol)
              (items.map fun item => o.requestString item.2)
            have hnodup := nodup_sortTails stemPrefix first
              (by have hlt := countOf_lt hcount; omega : lastElement count last < 4294967296)
            obtain ⟨t, m', hstore, hm', hset, hothers⟩ := storeValues_spec h hnodup helements
              (by rw [List.length_map, List.length_map, hperm.length_eq, List.length_map] :
                _ = ((qsort (selected order type firstcol lastcol)
                  (items.map fun item => o.requestString item.2)).map o.string).length)
            refine ⟨_, true, rfl, fun hfalse => by simp at hfalse, fun hzero' => ?_,
              fun count' hcount' _ _ => ?_⟩
            · rw [hcount, Option.some.injEq] at hzero'
              exact absurd hzero' hzero
            · rw [hcount, Option.some.injEq] at hcount'
              subst hcount'
              refine ⟨t, m', hstore, hm', items.map Prod.snd, _, ?_, ?_, ?_, hsorted, hothers⟩
              · rw [hvalues, List.map_map]
                rfl
              · rw [hset, List.map_map]
                rfl
              · rw [List.map_map]
                exact hperm

def mergeQsort : Qsort := fun cmp items => items.mergeSort fun x y => decide (cmp x y ≤ 0)

theorem mergeQsort_sorts : mergeQsort.Sorts := by
  intro cmp hcmp items
  refine ⟨List.mergeSort_perm _ _, ?_⟩
  have hsorted : (mergeQsort cmp items).Pairwise fun x y => decide (cmp x y ≤ 0) = true :=
    List.pairwise_mergeSort
      (fun x y z hxy hyz => decide_eq_true
        (hcmp.trans x y z (of_decide_eq_true hxy) (of_decide_eq_true hyz)))
      (fun x y => by simpa using hcmp.total x y) items
  exact hsorted.imp fun hle => of_decide_eq_true hle

def plainObjects : SortObjects SortString := ⟨fun _ => none, id, id⟩

def emptyStem : RexxStem SortString := ⟨[], nulls 0, .init, true⟩

/-- The string `a`. -/
def oneChar : SortString := ⟨1, fun i => if i = 0 then 97 else 0, rfl⟩

end RexxStem

end LeooRexx
