import LeooRexx.Classes.StringConversionCodecs
import LeooRexx.NumberString.BaseConversion

/-!
# Numbers as hexadecimal and character strings

`RexxNumberString::d2xD2c`: the digits are accumulated in base sixteen, a negative
number is complemented in place, and the result is padded or cut to the length that
was asked for.
-/

namespace LeooRexx

open Positional StringConversion DecimalRounding

namespace NumberString

/-- `Error_Incorrect_method_d2c` or `Error_Incorrect_method_d2x`. -/
def notWholeError (n : NumberString) (type : Bool) : RadixFault :=
  if type then .d2c n else .d2x n

/-- The loop over the decimal part, from position `pos` on with `count` digits left. -/
def checkDecimals (n : NumberString) (type : Bool) (currentDigits : Nat) :
    Nat → Nat → RadixOutcome Unit
  | _, 0 => .ok ()
  | pos, count + 1 =>
      if pos ≤ currentDigits then
        match n.number[pos]? with
        | none => .error .outOfBounds
        | some digit =>
            if digit ≠ 0 then
              -- the rounding digit of a number that is too long is not significant
              if n.length > currentDigits ∧ pos = currentDigits ∧ digit < 5 then .ok ()
              else .error (n.notWholeError type)
            else checkDecimals n type currentDigits (pos + 1) count
      else .ok ()

def overflowSpace : Nat := 2

def hexBufferLength (type : Bool) (length : Option Nat) (currentDigits : Nat) : Nat :=
  match length with
  | none => currentDigits + overflowSpace
  | some resultSize =>
      let nibbles := if type then resultSize * 2 else resultSize
      if nibbles < currentDigits then currentDigits + overflowSpace
      else nibbles + overflowSpace

def accumulateDigits : RadixNumber → List Nat → RadixOutcome RadixNumber
  | accumulator, [] => .ok accumulator
  | accumulator, [digit] => accumulator.addToBaseSixteen digit
  | accumulator, digit :: scan => do
      let accumulator ← accumulator.addToBaseSixteen digit
      let accumulator ← accumulator.multiplyBaseSixteen
      accumulateDigits accumulator scan

/-- `while (!*Scan) *Scan-- = 0xf`, and the subtraction after it. -/
def borrow : List Nat → RadixOutcome (List Nat)
  | [] => .error .outOfBounds
  | c :: scan =>
      if c = 0 then do
        let scan ← borrow scan
        return 0xf :: scan
      else .ok ((c - 1) :: scan)

def twosComplement (accumulator : RadixNumber) : RadixOutcome RadixNumber := do
  let cells ← borrow accumulator.cells
  return ⟨(cells.take accumulator.high).map (· ^^^ 0x0f) ++ cells.drop accumulator.high,
    accumulator.high⟩

def complementNegative (n : NumberString) (accumulator : RadixNumber) :
    RadixOutcome RadixNumber :=
  if n.sign < 0 then twosComplement accumulator else .ok accumulator

/-- Cutting off or padding in front; `room` is the number of cells in the buffer. -/
def fitResult (room : Nat) (padChar : UInt8) (resultSize : Nat) (hex : List UInt8) :
    RadixOutcome (List UInt8) :=
  if resultSize < hex.length then .ok (hex.drop (hex.length - resultSize))
  else if room < resultSize then .error .outOfBounds
  else .ok (List.replicate (resultSize - hex.length) padChar ++ hex)

/-- `PackHex`, with its conditions. -/
def packed (hex : List UInt8) : RadixOutcome (List UInt8) :=
  match packHex hex with
  | .ok w => .ok w.string
  | .error e => .error (.invalid e)

def accumulateNumber (n : NumberString) (room targetLength : Nat) :
    RadixOutcome RadixNumber := do
  let accumulator ← accumulateDigits (.cleared room) (n.number.take targetLength)
  if n.exp > 0 then
    let accumulator ← accumulator.multiplyBaseSixteen
    accumulateDigits accumulator (List.replicate n.exp.toNat 0)
  else return accumulator

/-- The checks that come first: the sum is compared as an unsigned number, in which a
negative one is large. -/
def checkWhole (n : NumberString) (type : Bool) (currentDigits : Nat) : RadixOutcome Unit :=
  if n.exp + n.length < 0 ∨ n.exp + n.length > currentDigits then .error (n.notWholeError type)
  else if n.exp < 0 then
    checkDecimals n type currentDigits (n.length + n.exp).toNat (-n.exp).toNat
  else .ok ()

/-- `TargetLength`: the digits in front of the decimal point. -/
def wholeLength (n : NumberString) : Nat :=
  if n.exp < 0 then (n.length + n.exp).toNat else n.length

def hexResultSize (type : Bool) (length : Option Nat) (hexLength : Nat) : Nat :=
  match length with
  | none => hexLength
  | some resultSize => if type then resultSize + resultSize else resultSize

def d2xD2c (s : Settings) (n : NumberString) (length : Option Nat) (type : Bool) :
    RadixOutcome (List UInt8) := do
  checkWhole n type s.digits
  if n.sign < 0 ∧ length = none then .error .d2xd2c
  else
    let room := hexBufferLength type length s.digits - 1
    let accumulator ← n.accumulateNumber room n.wholeLength
    let accumulator ← n.complementNegative accumulator
    let padChar : UInt8 := if n.sign < 0 then 70 else StringConversion.zero
    let hex := (accumulator.cells.take accumulator.high).reverse.map intToHexDigit
    let hex ← fitResult room padChar (hexResultSize type length accumulator.high) hex
    if type then packed hex else .ok hex

/-! ## Whole numbers -/

section Whole

variable {n : NumberString} (h : n.Normalized) {v : Int} (hv : n.toRat = v)
include h hv

theorem sign_of_whole : n.sign = v.sign := by
  cases eq_or_ne n.sign 0 with
  | inl h0 =>
      rw [(toRat_eq_zero_iff h).mpr h0] at hv
      rw [h0, Int.cast_eq_zero.mp hv.symm, Int.sign_zero]
  | inr h0 =>
      have hpos := h.decimal_pos h0
      cases h.sign_eq h0 with
      | inl hs =>
          have hneg : (v : ℚ) < 0 := by
            rw [← hv, toRat, hs]
            simpa using hpos
          rw [hs, Int.sign_eq_neg_one_of_neg (by exact_mod_cast hneg)]
      | inr hs =>
          have hgt : 0 < (v : ℚ) := by
            rw [← hv, toRat, hs]
            simpa using hpos
          rw [hs, Int.sign_eq_one_of_pos (by exact_mod_cast hgt)]

theorem value_of_whole :
    value 10 n.number * 10 ^ n.exp.toNat = v.natAbs * 10 ^ (-n.exp).toNat := by
  have habs : ((v.natAbs : ℕ) : ℚ) = value 10 n.number * 10 ^ n.exp := by
    have hsign := sign_of_whole h hv
    have hmul : (v.sign : ℚ) * v.natAbs = v.sign * (value 10 n.number * 10 ^ n.exp) := by
      calc (v.sign : ℚ) * v.natAbs = ((v.sign * v.natAbs : Int) : ℚ) := by
            rw [Int.cast_mul, Int.cast_natCast]
        _ = n.toRat := by rw [Int.sign_mul_natAbs, hv]
        _ = v.sign * (value 10 n.number * 10 ^ n.exp) := by rw [toRat, hsign]; rfl
    cases eq_or_ne v 0 with
    | inl h0 =>
        have hnum := h.zero (by rw [hsign, h0, Int.sign_zero])
        rw [h0, hnum.1]
        simp
    | inr h0 =>
        have hne : v.sign ≠ 0 := fun hzero => h0 (Int.sign_eq_zero_iff_zero.mp hzero)
        exact mul_left_cancel₀ (by exact_mod_cast hne) hmul
  have hexp : (n.exp : ℤ) = n.exp.toNat - (-n.exp).toNat := by omega
  rw [hexp, zpow_sub₀ (by norm_num), zpow_natCast, zpow_natCast, ← mul_div_assoc,
    eq_div_iff (by positivity)] at habs
  exact_mod_cast habs.symm

theorem exp_add_length_le {D : Nat} (hD : 0 < D) (hfit : v.natAbs < 10 ^ D) :
    0 < n.exp + n.length ∧ n.exp + n.length ≤ D := by
  cases eq_or_ne n.sign 0 with
  | inl h0 =>
      have hnum := h.zero h0
      rw [length, hnum.1, hnum.2, List.length_singleton]
      omega
  | inr h0 =>
      have hvalue := value_of_whole h hv
      have hw : 0 < v.natAbs := Int.natAbs_pos.mpr fun hzero => h0 (by
        rw [sign_of_whole h hv, hzero, Int.sign_zero])
      obtain ⟨d, ds, hds, hd⟩ := h.leading h0
      have hlen : n.length = ds.length + 1 := by rw [length, hds, List.length_cons]
      have hlow : 10 ^ ds.length ≤ value 10 n.number := hds ▸ le_value_cons hd ds
      have hhigh : value 10 n.number < 10 ^ n.length := value_lt (by norm_num) h.digits
      have hupper : 10 ^ (ds.length + n.exp.toNat) < 10 ^ (D + (-n.exp).toNat) := by
        calc 10 ^ (ds.length + n.exp.toNat) = 10 ^ ds.length * 10 ^ n.exp.toNat := pow_add ..
          _ ≤ value 10 n.number * 10 ^ n.exp.toNat := Nat.mul_le_mul_right _ hlow
          _ = v.natAbs * 10 ^ (-n.exp).toNat := hvalue
          _ < 10 ^ D * 10 ^ (-n.exp).toNat := Nat.mul_lt_mul_of_pos_right hfit (by positivity)
          _ = 10 ^ (D + (-n.exp).toNat) := (pow_add ..).symm
      have hlower : 10 ^ (-n.exp).toNat < 10 ^ (n.length + n.exp.toNat) := by
        calc 10 ^ (-n.exp).toNat ≤ v.natAbs * 10 ^ (-n.exp).toNat := Nat.le_mul_of_pos_left _ hw
          _ = value 10 n.number * 10 ^ n.exp.toNat := hvalue.symm
          _ < 10 ^ n.length * 10 ^ n.exp.toNat := Nat.mul_lt_mul_of_pos_right hhigh (by positivity)
          _ = 10 ^ (n.length + n.exp.toNat) := (pow_add ..).symm
      have hupper' := (Nat.pow_lt_pow_iff_right (by norm_num)).mp hupper
      have hlower' := (Nat.pow_lt_pow_iff_right (by norm_num)).mp hlower
      omega

theorem decimals_of_whole (hexp : n.exp < 0) {k : Nat} (hk : n.length = k + (-n.exp).toNat) :
    value 10 (n.number.take k) = v.natAbs ∧
      n.number.drop k = List.replicate (-n.exp).toNat 0 := by
  have hvalue := value_of_whole h hv
  have hpos : n.exp.toNat = 0 := by omega
  have hrest : n.number.length - k = (-n.exp).toNat := by
    rw [length] at hk
    omega
  rw [hpos, pow_zero, Nat.mul_one] at hvalue
  constructor
  · rw [value_take (by norm_num) h.digits, hrest, hvalue, Nat.mul_div_cancel _ (by positivity)]
  · apply value_inj (b := 10) (by norm_num)
    · rw [List.length_drop, List.length_replicate, hrest]
    · exact h.digits.drop k
    · exact isDigits_replicate_zero (by norm_num) _
    · rw [value_drop (by norm_num) h.digits, hrest, hvalue, Nat.mul_mod_left,
        value_replicate_zero]

end Whole

theorem checkDecimals_zeros (n : NumberString) (type : Bool) (currentDigits : Nat)
    {pos count : Nat} (hzeros : n.number.drop pos = List.replicate count 0) :
    checkDecimals n type currentDigits pos count = .ok () := by
  induction count generalizing pos with
  | zero => rfl
  | succ count ih =>
      rw [List.replicate_succ] at hzeros
      have hdigit : n.number[pos]? = some 0 := by
        rw [← List.head?_drop, hzeros, List.head?_cons]
      have hrest : n.number.drop (pos + 1) = List.replicate count 0 := by
        rw [← List.tail_drop, hzeros, List.tail_cons]
      rw [checkDecimals, hdigit]
      split
      · exact ih hrest
      · rfl

/-! ## Accumulating -/

theorem accumulateDigits_of {room : Nat} (hroom : 0 < room) {m : Nat} {ds : List Nat}
    (hds : IsDigits 10 ds) (hne : ds ≠ [])
    (hfit : m * 10 ^ (ds.length - 1) + value 10 ds < 16 ^ room) :
    accumulateDigits (.of 16 room m) ds =
      .ok (.of 16 room (m * 10 ^ (ds.length - 1) + value 10 ds)) := by
  induction ds generalizing m with
  | nil => exact absurd rfl hne
  | cons d ds ih =>
      have hd := isDigits_cons.mp hds
      cases ds with
      | nil =>
          simp only [List.length_singleton, Nat.sub_self, pow_zero, Nat.mul_one,
            value_singleton] at hfit ⊢
          exact RadixNumber.addToBaseSixteen_of (by omega) hfit
      | cons e ds =>
          have htotal : m * 10 ^ ((d :: e :: ds).length - 1) + value 10 (d :: e :: ds) =
              10 * (m + d) * 10 ^ ((e :: ds).length - 1) + value 10 (e :: ds) := by
            rw [value_cons]
            simp only [List.length_cons, Nat.add_sub_cancel, pow_succ]
            ring
          rw [htotal] at hfit ⊢
          have hstep : 10 * (m + d) < 16 ^ room :=
            calc 10 * (m + d) ≤ 10 * (m + d) * 10 ^ ((e :: ds).length - 1) :=
                  Nat.le_mul_of_pos_right _ (by positivity)
              _ < 16 ^ room := by omega
          rw [accumulateDigits, RadixNumber.addToBaseSixteen_of (by omega) (by omega),
            RadixOutcome.ok_bind, RadixNumber.multiplyBaseSixteen_of hroom hstep,
            RadixOutcome.ok_bind]
          exact ih hd.2 (List.cons_ne_nil e ds) hfit
          simp

theorem accumulateNumber_of {n : NumberString} (h : n.Normalized) {v : Int} (hv : n.toRat = v)
    {room targetLength : Nat} (hroom : 0 < room) (hfit : v.natAbs < 16 ^ room)
    (htarget : n.length = targetLength + (-n.exp).toNat) (hpos : 0 < targetLength) :
    n.accumulateNumber room targetLength = .ok (.of 16 room v.natAbs) := by
  have hdigits := h.digits.take targetLength
  have hne : n.number.take targetLength ≠ [] := by
    intro hnil
    have hlen := congrArg List.length hnil
    rw [List.length_take, List.length_nil] at hlen
    rw [length] at htarget
    omega
  have hvalue := value_of_whole h hv
  have hstart {w : Nat} (hw : value 10 (n.number.take targetLength) = w) (hlt : w < 16 ^ room) :
      accumulateDigits (.cleared room) (n.number.take targetLength) = .ok (.of 16 room w) := by
    rw [RadixNumber.cleared_eq_of (b := 16) (by norm_num),
      accumulateDigits_of hroom hdigits hne (by rw [Nat.zero_mul, Nat.zero_add, hw]; exact hlt),
      Nat.zero_mul, Nat.zero_add, hw]
  rw [accumulateNumber]
  cases lt_or_ge n.exp 0 with
  | inl hneg =>
      rw [hstart (decimals_of_whole h hv hneg htarget).1 hfit, RadixOutcome.ok_bind,
        if_neg hneg.not_gt]
      rfl
  | inr hge =>
      have hzero : (-n.exp).toNat = 0 := by omega
      have htake : n.number.take targetLength = n.number := by
        rw [List.take_of_length_le]
        rw [length] at htarget
        omega
      rw [hzero, pow_zero, Nat.mul_one] at hvalue
      cases hexp : n.exp.toNat with
      | zero =>
          rw [hexp, pow_zero, Nat.mul_one] at hvalue
          rw [hstart (by rw [htake, hvalue]) hfit, RadixOutcome.ok_bind, if_neg (by omega)]
          rfl
      | succ e =>
          rw [hexp, pow_succ] at hvalue
          have hsplit : 10 * value 10 n.number * 10 ^ e = v.natAbs := by
            rw [← hvalue]
            ring
          have hle : 10 * value 10 n.number ≤ v.natAbs :=
            hsplit ▸ Nat.le_mul_of_pos_right _ (by positivity)
          have hzeros : 10 * value 10 n.number * 10 ^ ((List.replicate (e + 1) 0).length - 1) +
              value 10 (List.replicate (e + 1) 0) = v.natAbs := by
            rw [List.length_replicate, Nat.add_sub_cancel, value_replicate_zero, Nat.add_zero,
              hsplit]
          rw [hstart (congrArg (value 10) htake) (by omega), RadixOutcome.ok_bind,
            if_pos (by omega), RadixNumber.multiplyBaseSixteen_of hroom (by omega),
            RadixOutcome.ok_bind,
            accumulateDigits_of hroom (isDigits_replicate_zero (by norm_num) _)
              (by simp) (by rw [hzeros]; exact hfit), hzeros]

/-! ## Two's complement -/

theorem borrow_eq (scan : List Nat) :
    borrow scan = RadixOutcome.inBuffer (Accumulator.decrement 16 scan) := by
  induction scan with
  | nil => rfl
  | cons c scan ih =>
      rw [borrow, Accumulator.decrement]
      split
      · rw [ih, RadixNumber.inBuffer_map]
      · rfl

theorem xor_eq_complement {c : Nat} (hc : c < 16) : c ^^^ 0x0f = 16 - 1 - c := by
  revert c
  decide

theorem twosComplement_of {room m : Nat} (hfit : m + 1 < 16 ^ room) (hroom : 0 < room) :
    ∃ cells, twosComplement (.of 16 room (m + 1)) =
        .ok ⟨cells, Accumulator.width 16 (m + 1)⟩ ∧
      cells.take (Accumulator.width 16 (m + 1)) =
        Accumulator.signedCells 16 (Accumulator.width 16 (m + 1)) (Int.negSucc m) := by
  have hwidth : Accumulator.width 16 (m + 1) ≤ room :=
    (Accumulator.width_le_iff (by norm_num) hroom).mpr hfit
  refine ⟨_, by rw [twosComplement, RadixNumber.of, borrow_eq,
    Accumulator.decrement_cells (by norm_num) hfit]; rfl, ?_⟩
  rw [Accumulator.take_cells hwidth, List.take_left' (by simp),
    Accumulator.signedCells_negSucc (by norm_num)]
  apply List.map_congr_left
  intro c hc
  exact xor_eq_complement (Accumulator.isDigits_cells (by norm_num) _ _ c hc)

/-! ## The result -/

/-- The lowest `size` hexadecimal digits of an integer. -/
def hexText (size : Nat) (v : Int) : List UInt8 :=
  (Accumulator.signedCells 16 size v).reverse.map intToHexDigit

@[simp] theorem length_hexText (size : Nat) (v : Int) : (hexText size v).length = size := by
  rw [hexText, List.length_map, List.length_reverse, Accumulator.signedCells,
    Accumulator.length_cells]

theorem drop_hexText {size high : Nat} (hle : size ≤ high) (v : Int) :
    (hexText high v).drop (high - size) = hexText size v := by
  rw [hexText, hexText, ← Accumulator.take_signedCells (by norm_num) hle, List.reverse_take,
    ← List.map_drop, Accumulator.signedCells, Accumulator.length_cells]

theorem pad_hexText {size high : Nat} (hle : high ≤ size) {v : Int} (hv : v.natAbs < 16 ^ high) :
    List.replicate (size - high) (if v < 0 then 70 else StringConversion.zero) ++
      hexText high v = hexText size v := by
  rw [hexText, hexText, Accumulator.signedCells_extend (by norm_num) hle hv,
    List.reverse_append, List.reverse_replicate, List.map_append, List.map_replicate]
  split <;> rfl

theorem fitResult_hexText {room size high : Nat} {v : Int} (hv : v.natAbs < 16 ^ high)
    (hroom : size ≤ room) :
    fitResult room (if v < 0 then 70 else StringConversion.zero) size (hexText high v) =
      .ok (hexText size v) := by
  rw [fitResult, length_hexText]
  split
  · rename_i hlt
    rw [drop_hexText hlt.le]
  · rename_i hle
    rw [if_neg (not_lt.mpr hroom), pad_hexText (not_lt.mp hle) hv]

theorem complementNegative_of {n : NumberString} {v : Int} (hneg : n.sign < 0 ↔ v < 0)
    {room : Nat} (hroom : 0 < room) (hfit : v.natAbs < 16 ^ room) :
    ∃ accumulator, n.complementNegative (.of 16 room v.natAbs) = .ok accumulator ∧
      accumulator.high = Accumulator.width 16 v.natAbs ∧
      accumulator.cells.take accumulator.high =
        Accumulator.signedCells 16 (Accumulator.width 16 v.natAbs) v := by
  cases v with
  | ofNat m =>
      have hnonneg : ¬ Int.ofNat m < 0 := Int.not_lt.mpr (Int.natCast_nonneg m)
      have hwidth : Accumulator.width 16 m ≤ room :=
        (Accumulator.width_le_iff (by norm_num) hroom).mpr hfit
      refine ⟨.of 16 room m, if_neg (mt hneg.mp hnonneg), rfl, ?_⟩
      rw [Accumulator.signedCells_ofNat (by norm_num)]
      exact Accumulator.take_cells hwidth
  | negSucc m =>
      cases twosComplement_of hfit hroom with
      | intro cells hcells =>
          have hsign := hneg.mpr (Int.negSucc_lt_zero m)
          exact ⟨_, (if_pos hsign).trans hcells.1, rfl, hcells.2⟩

theorem lt_hexBufferLength (type : Bool) (length : Option Nat) (currentDigits : Nat) :
    currentDigits < hexBufferLength type length currentDigits - 1 := by
  simp only [hexBufferLength, overflowSpace]
  split
  · omega
  · split <;> split <;> omega

theorem hexResultSize_le (type : Bool) (length : Option Nat) {hexLength currentDigits : Nat}
    (hle : hexLength ≤ currentDigits) :
    hexResultSize type length hexLength ≤ hexBufferLength type length currentDigits - 1 := by
  cases length with
  | none =>
      simp only [hexResultSize, hexBufferLength, overflowSpace]
      omega
  | some resultSize =>
      simp only [hexResultSize, hexBufferLength, overflowSpace]
      cases type with
      | false =>
          simp only [Bool.false_eq_true, if_false]
          split <;> omega
      | true =>
          simp only [if_true]
          split <;> omega

theorem checkWhole_ok {n : NumberString} (h : n.Normalized) {v : Int} (hv : n.toRat = v)
    {currentDigits : Nat} (hbounds : 0 < n.exp + n.length ∧ n.exp + n.length ≤ currentDigits)
    (type : Bool) : checkWhole n type currentDigits = .ok () := by
  rw [checkWhole, if_neg (by omega)]
  split
  · rename_i hexp
    have hlen : n.length = (n.length + n.exp).toNat + (-n.exp).toNat := by omega
    exact checkDecimals_zeros n type currentDigits (decimals_of_whole h hv hexp hlen).2
  · rfl

theorem wholeLength_spec {n : NumberString} (hpos : 0 < n.exp + n.length) (hlen : 1 ≤ n.length) :
    n.length = n.wholeLength + (-n.exp).toNat ∧ 0 < n.wholeLength := by
  rw [wholeLength]
  split <;> omega

theorem d2xD2c_whole {s : Settings} {n : NumberString} (h : n.Normalized) {v : Int}
    (hv : n.toRat = v) (hD : 0 < s.digits) (hfit : v.natAbs < 10 ^ s.digits)
    (type : Bool) {length : Option Nat} (hlength : 0 ≤ v ∨ length ≠ none) {size : Nat}
    (hsize : size = hexResultSize type length (Accumulator.width 16 v.natAbs)) :
    d2xD2c s n length type = if type then packed (hexText size v) else .ok (hexText size v) := by
  have hbounds := exp_add_length_le h hv hD hfit
  have hlen := wholeLength_spec hbounds.1 h.length_pos
  have hneg : n.sign < 0 ↔ v < 0 := by rw [sign_of_whole h hv, Int.sign_neg_iff]
  have hfit16 : v.natAbs < 16 ^ s.digits :=
    lt_of_lt_of_le hfit (Nat.pow_le_pow_left (by norm_num) _)
  have hroom := lt_hexBufferLength type length s.digits
  have hfitRoom : v.natAbs < 16 ^ (hexBufferLength type length s.digits - 1) :=
    lt_of_lt_of_le hfit16 (Nat.pow_le_pow_right (by norm_num) hroom.le)
  have hnumber := accumulateNumber_of h hv (Nat.zero_lt_of_lt hroom) hfitRoom hlen.1 hlen.2
  have hsizeRoom := hexResultSize_le type length
    ((Accumulator.width_le_iff (by norm_num) hD).mpr hfit16)
  have hhighFit := Accumulator.lt_pow_width (b := 16) (by norm_num) v.natAbs
  rw [← hsize] at hsizeRoom
  cases complementNegative_of hneg (Nat.zero_lt_of_lt hroom) hfitRoom with
  | intro accumulator hacc =>
      have hhex : (accumulator.cells.take accumulator.high).reverse.map intToHexDigit =
          hexText (Accumulator.width 16 v.natAbs) v := by
        rw [hacc.2.2, hexText]
      have hnegative : ¬ (n.sign < 0 ∧ length = none) := by
        rw [hneg]
        intro hboth
        exact hlength.elim (fun hge => hboth.1.not_ge hge) fun hne => hne hboth.2
      rw [d2xD2c, checkWhole_ok h hv hbounds, RadixOutcome.ok_bind, if_neg hnegative]
      simp only [hneg]
      rw [hnumber, RadixOutcome.ok_bind, hacc.1, RadixOutcome.ok_bind, hhex, hacc.2.1, ← hsize,
        fitResult_hexText hhighFit hsizeRoom, RadixOutcome.ok_bind]

end NumberString

end LeooRexx
