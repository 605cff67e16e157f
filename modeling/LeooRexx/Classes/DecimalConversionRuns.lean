import LeooRexx.Classes.DecimalConversion

/-!
# The conversions undo each other

What `x2dC2d` returns, as the signed value of the bytes that its length leaves, and
with it that it takes back what `d2xD2c` returned.
-/

namespace LeooRexx.DecimalConversion

open Positional StringConversion NumberString

def bytesValue (bytes : List UInt8) : Nat := value 256 (bytes.map UInt8.toNat)

/-! ## Bytes as cells -/

theorem isDigits_bytes (bytes : List UInt8) : IsDigits 256 (bytes.map UInt8.toNat) := by
  intro d hd
  obtain ⟨c, -, rfl⟩ := List.mem_map.mp hd
  exact UInt8.toNat_lt c

theorem bytesValue_lt (bytes : List UInt8) : bytesValue bytes < 256 ^ bytes.length := by
  have h := value_lt (by norm_num) (isDigits_bytes bytes)
  rwa [List.length_map] at h

theorem cells_bytes (bytes : List UInt8) :
    bytes.reverse.map UInt8.toNat = Accumulator.cells 256 bytes.length (bytesValue bytes) := by
  have h := Accumulator.cells_ofDigits (isDigits_reverse.mpr (isDigits_bytes bytes))
  rw [List.length_reverse, List.length_map] at h
  rw [List.map_reverse, ← h]
  rfl

theorem bytesValue_of_cells {bytes : List UInt8} {len n : Nat}
    (h : bytes.reverse.map UInt8.toNat = Accumulator.cells 256 len n) :
    bytesValue bytes = n % 256 ^ len := by
  rw [← Accumulator.value_reverse_cells, ← h, List.map_reverse, List.reverse_reverse]
  rfl

theorem bytesValue_cons (c : UInt8) (bytes : List UInt8) :
    bytesValue (c :: bytes) = c.toNat * 256 ^ bytes.length + bytesValue bytes := by
  rw [bytesValue, List.map_cons, value_cons, List.length_map]
  rfl

theorem bytesValue_drop {string : List UInt8} {size : Nat} (hsize : size ≤ string.length) :
    bytesValue (string.drop (string.length - size)) = bytesValue string % 256 ^ size := by
  rw [bytesValue, List.map_drop, value_drop (by norm_num) (isDigits_bytes string),
    List.length_map, Nat.sub_sub_self hsize]
  rfl

/-! ## Bits of a byte -/

theorem byte_masks : ∀ n < 256, n ^^^ 255 = 256 - 1 - n ∧ n &&& 15 = n % 16 ∧
    (n &&& 128 = 0 ↔ n < 128) ∧ (n &&& 8 = 0 ↔ n % 16 < 8) ∧ (n &&& 240) >>> 4 = n / 16 := by
  decide +kernel

theorem toNat_xor_ff (c : UInt8) : (c ^^^ 0xff).toNat = 256 - 1 - c.toNat := by
  rw [UInt8.toNat_xor]
  exact (byte_masks _ c.toNat_lt).1

theorem toNat_and_0f (c : UInt8) : (c &&& 0x0f).toNat = c.toNat % 16 := by
  rw [UInt8.toNat_and]
  exact (byte_masks _ c.toNat_lt).2.1

theorem and_80_ne_zero (c : UInt8) : c &&& 0x80 ≠ 0 ↔ 128 ≤ c.toNat := by
  rw [ne_eq, ← UInt8.toNat_inj, UInt8.toNat_and, ← Nat.not_lt]
  exact not_congr (byte_masks _ c.toNat_lt).2.2.1

theorem and_08_ne_zero (c : UInt8) : c &&& 0x08 ≠ 0 ↔ 8 ≤ c.toNat % 16 := by
  rw [ne_eq, ← UInt8.toNat_inj, UInt8.toNat_and, ← Nat.not_lt]
  exact not_congr (byte_masks _ c.toNat_lt).2.2.2.1

theorem high_nibble (c : UInt8) : (c.toNat &&& 0xf0) >>> 4 = c.toNat / 16 :=
  (byte_masks _ c.toNat_lt).2.2.2.2

/-! ## Negation in place -/

theorem increment_cells {scan : List UInt8} {n : Nat}
    (h : scan.map UInt8.toNat = Accumulator.cells 256 scan.length n) :
    (increment scan).map UInt8.toNat = Accumulator.cells 256 scan.length (n + 1) := by
  induction scan generalizing n with
  | nil => rfl
  | cons c scan ih =>
      rw [List.map_cons, List.length_cons, Accumulator.cells, List.cons.injEq] at h
      rw [increment, List.length_cons, Accumulator.cells]
      split
      · rename_i hsmall
        have hrem : (n + 1) % 256 = c.toNat + 1 := by omega
        have hquot : (n + 1) / 256 = n / 256 := by omega
        rw [List.map_cons, hrem, hquot, h.2,
          UInt8.toNat_ofNat_of_lt' (Nat.lt_of_le_of_lt hsmall (by decide))]
      · rename_i hlarge
        have hc := UInt8.toNat_lt c
        have hrem : (n + 1) % 256 = 0 := by omega
        have hquot : (n + 1) / 256 = n / 256 + 1 := by omega
        rw [List.map_cons, hrem, hquot, ih h.2]
        rfl

theorem bytesValue_negate (bytes : List UInt8) :
    bytesValue (negate bytes) = (256 ^ bytes.length - bytesValue bytes) % 256 ^ bytes.length := by
  have hlt := bytesValue_lt bytes
  have hcomplement : (bytes.map (· ^^^ 0xff)).reverse.map UInt8.toNat =
      Accumulator.cells 256 (bytes.map (· ^^^ 0xff)).reverse.length
        (256 ^ bytes.length - 1 - bytesValue bytes) := by
    rw [List.length_reverse, List.length_map, ← Accumulator.map_complement_cells (by norm_num) hlt,
      ← cells_bytes, ← List.map_reverse, List.map_map, List.map_map]
    exact List.map_congr_left fun c _ => toNat_xor_ff c
  have hincrement := increment_cells hcomplement
  rw [List.length_reverse, List.length_map] at hincrement
  have hsum : 256 ^ bytes.length - 1 - bytesValue bytes + 1 =
      256 ^ bytes.length - bytesValue bytes := by omega
  rw [hsum] at hincrement
  exact bytesValue_of_cells (by rw [negate, List.reverse_reverse]; exact hincrement)

/-! ## The sign bit -/

theorem sign_bit {bytes : List UInt8} (hne : bytes ≠ []) :
    first bytes &&& 0x80 ≠ 0 ↔ 256 ^ bytes.length ≤ 2 * bytesValue bytes := by
  cases bytes with
  | nil => exact absurd rfl hne
  | cons c bytes =>
      have hlow := bytesValue_lt bytes
      have hc := Nat.le_mul_of_pos_left (256 ^ bytes.length) (n := 128)
      rw [first, List.headD_cons, and_80_ne_zero, bytesValue_cons, List.length_cons, pow_succ]
      constructor
      · intro h
        have hmul := Nat.mul_le_mul_right (256 ^ bytes.length) h
        omega
      · intro h
        by_contra hcon
        have hmul := Nat.mul_le_mul_right (256 ^ bytes.length) (by omega : c.toNat + 1 ≤ 128)
        rw [Nat.add_mul] at hmul
        omega

theorem bytesValue_mod (c : UInt8) (bytes : List UInt8) :
    bytesValue (c :: bytes) % (16 * 256 ^ bytes.length) =
      c.toNat % 16 * 256 ^ bytes.length + bytesValue bytes := by
  have hlow := bytesValue_lt bytes
  have hmod := Nat.mod_lt c.toNat (by norm_num : 0 < 16)
  have hfit : c.toNat % 16 * 256 ^ bytes.length + bytesValue bytes < 16 * 256 ^ bytes.length := by
    have hmul := Nat.mul_le_mul_right (256 ^ bytes.length) (Nat.succ_le_of_lt hmod)
    rw [Nat.succ_mul] at hmul
    omega
  have hsplit : bytesValue (c :: bytes) = 16 * 256 ^ bytes.length * (c.toNat / 16) +
      (c.toNat % 16 * 256 ^ bytes.length + bytesValue bytes) := by
    rw [bytesValue_cons]
    conv_lhs => rw [← Nat.div_add_mod c.toNat 16]
    ring
  rw [hsplit, Nat.mul_add_mod, Nat.mod_eq_of_lt hfit]

theorem odd_sign_bit (c : UInt8) (bytes : List UInt8) :
    first (c :: bytes) &&& 0x08 ≠ 0 ↔
      16 * 256 ^ bytes.length ≤ 2 * (bytesValue (c :: bytes) % (16 * 256 ^ bytes.length)) := by
  have hlow := bytesValue_lt bytes
  rw [first, List.headD_cons, and_08_ne_zero, bytesValue_mod]
  constructor
  · intro h
    have hmul := Nat.mul_le_mul_right (256 ^ bytes.length) h
    omega
  · intro h
    by_contra hcon
    have hmul := Nat.mul_le_mul_right (256 ^ bytes.length) (by omega : c.toNat % 16 + 1 ≤ 8)
    rw [Nat.add_mul] at hmul
    omega

theorem bytesValue_clearHighNibble (c : UInt8) (bytes : List UInt8) :
    bytesValue (clearHighNibble (c :: bytes)) =
      bytesValue (c :: bytes) % (16 * 256 ^ bytes.length) := by
  rw [clearHighNibble, bytesValue_cons, toNat_and_0f, bytesValue_mod]

/-! ## What a window stands for -/

def windowValue (w : Window) : Int :=
  if w.negative then -bytesValue (windowBytes w) else bytesValue (windowBytes w)

/-- The number that a length leaves of `n`: its lowest digits, as a signed number. -/
def decimalValue (base : Nat) (length : Option Nat) (n : Nat) : Int :=
  match length with
  | none => n
  | some resultSize => Int.bmod n (base ^ resultSize)

theorem bmod_eq (n : Nat) {m : Nat} (hm : 0 < m) :
    Int.bmod n m = if m ≤ 2 * (n % m) then -((m - n % m : Nat) : Int) else (n % m : Nat) := by
  have hmod := Nat.mod_lt n hm
  rw [Int.bmod, ← Int.natCast_mod]
  split <;> split <;> omega

theorem complement_mod {n m k : Nat} (hn : n < m * k) (hpos : 0 < n % m) :
    (m * k - n) % m = m - n % m := by
  have hm : 0 < m := Nat.pos_of_mul_pos_right (Nat.zero_lt_of_lt hn)
  have hquot : n / m < k := Nat.div_lt_of_lt_mul hn
  obtain ⟨j, hj⟩ := Nat.exists_eq_add_of_lt hquot
  have hdiv := Nat.div_add_mod n m
  have hmod := Nat.mod_lt n hm
  have hsplit : m * k - n = m * j + (m - n % m) := by
    rw [hj]
    have hmul : m * (n / m + j + 1) = m * (n / m) + m * j + m := by ring
    omega
  rw [hsplit, Nat.mul_add_mod, Nat.mod_eq_of_lt (by omega)]

theorem windowValue_eq {w : Window} {n m : Nat} (hm : 0 < m)
    (hnegative : w.negative = true ↔ m ≤ 2 * (n % m))
    (hbytes : bytesValue (windowBytes w) = if w.negative then m - n % m else n % m) :
    windowValue w = Int.bmod n m ∧ (w.negative = true → 0 < bytesValue (windowBytes w)) := by
  have hmod := Nat.mod_lt n hm
  rw [windowValue, bmod_eq n hm, hbytes]
  cases hw : w.negative with
  | false =>
      have hle := fun h => Bool.false_ne_true (hw.symm.trans (hnegative.mpr h))
      rw [if_neg hle]
      simp
  | true =>
      rw [if_pos (hnegative.mp hw)]
      simpa using hmod

theorem evenWindow_value {bytes : List UInt8} (hne : bytes ≠ []) {negative : Bool}
    (hnegative : negative = true ↔ first bytes &&& 0x80 ≠ 0) :
    windowValue ⟨bytes, negative, false⟩ = Int.bmod (bytesValue bytes) (256 ^ bytes.length : Nat) ∧
      (negative = true → 0 < bytesValue (windowBytes ⟨bytes, negative, false⟩)) := by
  have hlt := bytesValue_lt bytes
  have hmod := Nat.mod_eq_of_lt hlt
  rw [sign_bit hne] at hnegative
  apply windowValue_eq (by positivity)
  · rw [hmod]
    exact hnegative
  · cases negative with
    | false => exact hmod.symm
    | true =>
        have hle := hnegative.mp rfl
        rw [hmod]
        exact (bytesValue_negate bytes).trans (Nat.mod_eq_of_lt (by omega))

@[simp] theorem length_increment (scan : List UInt8) : (increment scan).length = scan.length := by
  induction scan with
  | nil => rfl
  | cons c scan ih =>
      rw [increment]
      split
      · rfl
      · rw [List.length_cons, ih, List.length_cons]

@[simp] theorem length_negate (bytes : List UInt8) : (negate bytes).length = bytes.length := by
  simp [negate]

theorem oddWindow_value {c : UInt8} {bytes : List UInt8} {negative : Bool}
    (hnegative : negative = true ↔ first (c :: bytes) &&& 0x08 ≠ 0) :
    windowValue ⟨c :: bytes, negative, true⟩ =
        Int.bmod (bytesValue (c :: bytes)) (16 * 256 ^ bytes.length : Nat) ∧
      (negative = true → 0 < bytesValue (windowBytes ⟨c :: bytes, negative, true⟩)) := by
  rw [odd_sign_bit] at hnegative
  apply windowValue_eq (by positivity) hnegative
  cases negative with
  | false => exact bytesValue_clearHighNibble c bytes
  | true =>
      have hle := hnegative.mp rfl
      have hpow : 256 ^ (c :: bytes).length = 16 * 256 ^ bytes.length * 16 := by
        rw [List.length_cons, pow_succ]
        ring
      have hlt := bytesValue_lt (c :: bytes)
      have hpos : 0 < 16 * 256 ^ bytes.length := by positivity
      have hnegate := bytesValue_negate (c :: bytes)
      cases hscan : negate (c :: bytes) with
      | nil =>
          have hlen := length_negate (c :: bytes)
          rw [hscan] at hlen
          exact absurd hlen (by simp)
      | cons c' bytes' =>
          have hlen : bytes'.length = bytes.length := by
            have hlen := length_negate (c :: bytes)
            rw [hscan] at hlen
            simpa using hlen
          rw [hscan, hpow] at hnegate
          rw [hpow] at hlt
          have hclear := bytesValue_clearHighNibble c' bytes'
          rw [hlen, hnegate, Nat.mod_mul_right_mod, complement_mod hlt (by omega)] at hclear
          rw [← hclear, ← hscan]
          rfl

theorem windowValue_short {string : List UInt8} {m : Nat}
    (hm : 2 * 256 ^ string.length ≤ m) :
    windowValue ⟨string, false, false⟩ = Int.bmod (bytesValue string) m := by
  have hlt := bytesValue_lt string
  have hmod : bytesValue string % m = bytesValue string := Nat.mod_eq_of_lt (by omega)
  rw [bmod_eq _ (by omega), hmod, if_neg (by omega)]
  rfl

theorem drop_spec {string : List UInt8} {size : Nat} (hpos : 0 < size)
    (hle : size ≤ string.length) :
    (string.drop (string.length - size)).length = size ∧
      string.drop (string.length - size) ≠ [] := by
  have hlen : (string.drop (string.length - size)).length = size := by
    rw [List.length_drop]
    omega
  exact ⟨hlen, fun hnil => by rw [hnil, List.length_nil] at hlen; omega⟩

theorem c2dWindow_value (string : List UInt8) {length : Option Nat} (hlength : length ≠ some 0) :
    windowValue (c2dWindow string length) = decimalValue 256 length (bytesValue string) ∧
      ((c2dWindow string length).negative = true →
        0 < bytesValue (windowBytes (c2dWindow string length))) := by
  cases length with
  | none => exact ⟨rfl, fun h => absurd h Bool.false_ne_true⟩
  | some size =>
      have hsize : 0 < size := Nat.pos_of_ne_zero fun h => hlength (congrArg some h)
      rw [c2dWindow, decimalValue]
      dsimp only
      split
      · rename_i hlong
        have hpow : 2 * 256 ^ string.length ≤ 256 ^ size :=
          calc 2 * 256 ^ string.length ≤ 256 * 256 ^ string.length :=
                Nat.mul_le_mul_right _ (by norm_num)
            _ = 256 ^ (string.length + 1) := (pow_succ' ..).symm
            _ ≤ 256 ^ size := Nat.pow_le_pow_right (by norm_num) hlong
        exact ⟨windowValue_short hpow, fun h => absurd h Bool.false_ne_true⟩
      · rename_i hle
        rw [not_lt] at hle
        have hdrop := drop_spec hsize hle
        have hvalue := evenWindow_value hdrop.2
          (decide_eq_true_iff (p := first (string.drop (string.length - size)) &&& 0x80 ≠ 0))
        rw [hdrop.1, bytesValue_drop hle] at hvalue
        rw [hvalue.1, Int.natCast_mod, Int.emod_bmod]
        exact ⟨rfl, hvalue.2⟩

theorem pow_nibbles (size : Nat) :
    256 ^ (size / 2 + size % 2) = if size % 2 = 0 then 16 ^ size else 16 * 16 ^ size := by
  have hbase : (256 : Nat) = 16 ^ 2 := by norm_num
  rw [hbase, ← pow_mul]
  split
  · congr 1
    omega
  · rw [← pow_succ']
    congr 1
    omega

theorem sign_of_nibbles {k : Nat} {p q : Prop} [Decidable p] [Decidable q] :
    decide (k ≠ 0 ∧ p ∨ k = 0 ∧ q) = true ↔ if k = 0 then q else p := by
  rw [decide_eq_true_iff]
  split
  · rename_i hzero
    simp [hzero]
  · rename_i hpos
    simp [hpos]

theorem x2dWindow_value (string : List UInt8) {length : Option Nat} (hlength : length ≠ some 0) :
    windowValue (x2dWindow string length) = decimalValue 16 length (bytesValue string) ∧
      ((x2dWindow string length).negative = true →
        0 < bytesValue (windowBytes (x2dWindow string length))) := by
  cases length with
  | none => exact ⟨rfl, fun h => absurd h Bool.false_ne_true⟩
  | some nibbles =>
      have hnibbles : 0 < nibbles := Nat.pos_of_ne_zero fun h => hlength (congrArg some h)
      have hsize : 0 < nibbles / 2 + nibbles % 2 := by omega
      rw [x2dWindow, decimalValue]
      dsimp only
      split
      · rename_i hlong
        have hbase : (256 : Nat) = 16 ^ 2 := by norm_num
        have hpow : 2 * 256 ^ string.length ≤ 16 ^ nibbles :=
          calc 2 * 256 ^ string.length ≤ 16 * 256 ^ string.length :=
                Nat.mul_le_mul_right _ (by norm_num)
            _ = 16 ^ (2 * string.length + 1) := by rw [hbase, ← pow_mul, pow_succ']
            _ ≤ 16 ^ nibbles := Nat.pow_le_pow_right (by norm_num) (by omega)
        exact ⟨windowValue_short hpow, fun h => absurd h Bool.false_ne_true⟩
      · rename_i hle
        rw [not_lt] at hle
        have hdrop := drop_spec hsize hle
        have hvalue := bytesValue_drop hle
        have hpow := pow_nibbles nibbles
        have hsign := sign_of_nibbles (k := nibbles % 2)
          (p := first (string.drop (string.length - (nibbles / 2 + nibbles % 2))) &&& 0x08 ≠ 0)
          (q := first (string.drop (string.length - (nibbles / 2 + nibbles % 2))) &&& 0x80 ≠ 0)
        cases Nat.mod_two_eq_zero_or_one nibbles with
        | inl heven =>
            rw [if_pos heven] at hpow
            have hflag : decide (nibbles % 2 ≠ 0) = false := by simp [heven]
            rw [if_pos heven] at hsign
            have hwindow := evenWindow_value hdrop.2 hsign
            rw [hdrop.1, hvalue, hpow] at hwindow
            rw [hflag, hwindow.1, Int.natCast_mod, Int.emod_bmod]
            exact ⟨rfl, hwindow.2⟩
        | inr hodd =>
            rw [if_neg (by omega)] at hpow
            have hflag : decide (nibbles % 2 ≠ 0) = true := by simp [hodd]
            rw [if_neg (by omega)] at hsign
            cases hbytes : string.drop (string.length - (nibbles / 2 + nibbles % 2)) with
            | nil => exact absurd hbytes hdrop.2
            | cons c bytes =>
                have hlen := hdrop.1
                rw [hbytes] at hsign hvalue hlen
                have hwindow := oddWindow_value hsign
                have hmodulus : 16 * 256 ^ bytes.length = 16 ^ nibbles := by
                  rw [← hlen, List.length_cons, pow_succ] at hpow
                  omega
                rw [hmodulus, hvalue, hpow, bmod_eq _ (by positivity), Nat.mod_mul_left_mod,
                  ← bmod_eq _ (by positivity)] at hwindow
                rw [hflag, hwindow.1]
                exact ⟨rfl, hwindow.2⟩

/-! ## Accumulating -/

theorem checkLength_of {type : Bool} {D len m : Nat} (hD : 0 < D) :
    checkLength type D (.of 10 len m) =
      if m < 10 ^ D then .ok () else .error (tooBigError type D) := by
  have hwidth := Accumulator.width_le_iff (b := 10) (by norm_num) (n := m) hD
  rw [checkLength]
  split
  · rename_i hlong
    rw [if_neg fun h => absurd (hwidth.mpr h) (not_le.mpr hlong)]
  · rename_i hshort
    rw [if_pos (hwidth.mp (not_lt.mp hshort))]

/-- The number accumulated from `m` when `bytes` are left. -/
def accumulated (m : Nat) (bytes : List UInt8) : Nat :=
  m * 16 * 256 ^ (bytes.length - 1) + bytesValue bytes

theorem le_accumulated_cons (m : Nat) (ch : UInt8) (scan : List UInt8) :
    16 * m + ch.toNat ≤ accumulated m (ch :: scan) := by
  rw [accumulated, bytesValue_cons, List.length_cons, Nat.add_sub_cancel, ← Nat.add_assoc,
    ← Nat.add_mul, Nat.mul_comm 16 m]
  have hle := Nat.le_mul_of_pos_right (m * 16 + ch.toNat) (by positivity : 0 < 256 ^ scan.length)
  omega

theorem accumulateBytes_of {type : Bool} {D m : Nat} (hD : 0 < D) {bytes : List UInt8}
    (hne : bytes ≠ []) (hm : m < 10 ^ D) :
    accumulateBytes type D (.of 10 (D + overflowSpace + 1) m) bytes =
      if accumulated m bytes < 10 ^ D then
        .ok (.of 10 (D + overflowSpace + 1) (accumulated m bytes))
      else .error (tooBigError type D) := by
  induction bytes generalizing m with
  | nil => exact absurd rfl hne
  | cons ch scan ih =>
      have hch := UInt8.toNat_lt ch
      have hroom : 10 ^ (D + overflowSpace + 1) = 1000 * 10 ^ D := by
        rw [overflowSpace, pow_add, pow_add]
        ring
      have hpow : 10 ≤ 10 ^ D := Nat.le_self_pow (by omega) 10
      have hlow : ch.toNat &&& 0x0f = ch.toNat % 16 := Nat.and_two_pow_sub_one_eq_mod ch.toNat 4
      have hbyte : 16 * (m + ch.toNat / 16) + ch.toNat % 16 = 16 * m + ch.toNat := by omega
      rw [accumulateBytes, high_nibble, hlow, RadixNumber.addToBaseTen_of (by omega),
        RadixOutcome.ok_bind, RadixNumber.multiplyBaseTen_of (by omega) (by omega),
        RadixOutcome.ok_bind, checkLength_of hD]
      cases Nat.lt_or_ge (16 * (m + ch.toNat / 16)) (10 ^ D) with
      | inr hbig =>
          have htotal : 10 ^ D ≤ accumulated m (ch :: scan) := by
            have hle := le_accumulated_cons m ch scan
            omega
          rw [if_neg (not_lt.mpr hbig), if_neg (not_lt.mpr htotal)]
          rfl
      | inl hsmall =>
          rw [if_pos hsmall, RadixOutcome.ok_bind, RadixNumber.addToBaseTen_of (by omega),
            RadixOutcome.ok_bind, hbyte, multiplyUnlessLast]
          cases scan with
          | nil =>
              have htotal : accumulated m [ch] = 16 * m + ch.toNat := by
                simp [accumulated, bytesValue, Nat.mul_comm]
              rw [if_neg (by simp), RadixOutcome.ok_bind, checkLength_of hD, htotal]
              split <;> rfl
          | cons c scan =>
              have htotal : accumulated m (ch :: c :: scan) =
                  accumulated (16 * (16 * m + ch.toNat)) (c :: scan) := by
                simp only [accumulated, bytesValue_cons ch, List.length_cons, Nat.add_sub_cancel,
                  pow_succ]
                ring
              rw [if_pos (by simp), RadixNumber.multiplyBaseTen_of (by omega) (by omega),
                RadixOutcome.ok_bind, checkLength_of hD, htotal]
              cases Nat.lt_or_ge (16 * (16 * m + ch.toNat)) (10 ^ D) with
              | inl hfit =>
                  rw [if_pos hfit, RadixOutcome.ok_bind]
                  exact ih (List.cons_ne_nil c scan) hfit
              | inr hbig =>
                  have hover : 10 ^ D ≤ accumulated (16 * (16 * m + ch.toNat)) (c :: scan) := by
                    have hle := le_accumulated_cons (16 * (16 * m + ch.toNat)) c scan
                    omega
                  rw [if_neg (not_lt.mpr hbig), if_neg (not_lt.mpr hover)]
                  rfl

/-! ## What is returned -/

theorem decimalText_of {len m : Nat} (hlen : 0 < len) (hm : m < 10 ^ len) {negative : Bool}
    (hnegative : negative = true → 0 < m) :
    decimalText negative (.of 10 len m) = ltoa (if negative then -m else m) := by
  have hwidth := (Accumulator.width_le_iff (by norm_num) hlen).mpr hm
  have hdigits : ((RadixNumber.of 10 len m).cells.take (RadixNumber.of 10 len m).high).reverse =
      if m = 0 then [0] else numeral 10 m := by
    rw [RadixNumber.of, Accumulator.take_cells hwidth,
      Accumulator.reverse_cells_width (by norm_num)]
  rw [decimalText, hdigits, ltoa]
  cases negative with
  | false =>
      cases m with
      | zero => rfl
      | succ m => rfl
  | true =>
      cases m with
      | zero => exact absurd (hnegative rfl) (lt_irrefl 0)
      | succ m =>
          have hneg : -((m + 1 : Nat) : Int) < 0 := by omega
          rw [if_pos rfl, if_pos rfl, if_neg (Nat.succ_ne_zero m), if_neg hneg.ne, if_pos hneg,
            Int.natAbs_neg, Int.natAbs_natCast]

def decimalResult (type : Bool) (D : Nat) (v : Int) : RadixOutcome (List UInt8) :=
  if v.natAbs < 10 ^ D then .ok (ltoa v) else .error (tooBigError type D)

theorem convertWindow_eq {s : Settings} (hD : 0 < s.digits) (type : Bool) {w : Window}
    (hnegative : w.negative = true → 0 < bytesValue (windowBytes w)) :
    convertWindow s type w = decimalResult type s.digits (windowValue w) := by
  have habs : (windowValue w).natAbs = bytesValue (windowBytes w) := by
    rw [windowValue]
    split <;> simp
  have hroom : 10 ^ s.digits ≤ 10 ^ (s.digits + overflowSpace + 1) :=
    Nat.pow_le_pow_right (by norm_num) (by omega)
  have haccumulate : accumulateBytes type s.digits (.cleared (s.digits + overflowSpace + 1))
      (windowBytes w) = if bytesValue (windowBytes w) < 10 ^ s.digits then
        .ok (.of 10 (s.digits + overflowSpace + 1) (bytesValue (windowBytes w)))
      else .error (tooBigError type s.digits) := by
    rw [RadixNumber.cleared_eq_of (b := 10) (by norm_num)]
    cases hbytes : windowBytes w with
    | nil => exact (if_pos (by positivity)).symm
    | cons ch scan =>
        rw [accumulateBytes_of hD (List.cons_ne_nil ch scan) (by positivity)]
        simp only [accumulated, Nat.zero_mul, Nat.zero_add]
  rw [convertWindow, haccumulate, decimalResult, habs]
  split
  · rename_i hfit
    rw [RadixOutcome.ok_bind, decimalText_of (by omega) (lt_of_lt_of_le hfit hroom) hnegative]
    rfl
  · rfl

theorem decimalValue_zero (base n : Nat) : decimalValue base (some 0) n = 0 := by
  simp [decimalValue]

theorem decimalResult_zero (type : Bool) (D : Nat) : decimalResult type D 0 = .ok [chZero] :=
  if_pos (by simp)

theorem c2d_eq {s : Settings} (hD : 0 < s.digits) (string : List UInt8) (length : Option Nat) :
    x2dC2d s string length true =
      decimalResult true s.digits (decimalValue 256 length (bytesValue string)) := by
  rw [x2dC2d]
  split
  · rename_i hzero
    rw [hzero, decimalValue_zero, decimalResult_zero]
  · rename_i hlength
    have hwindow := c2dWindow_value string hlength
    rw [if_pos rfl, convertWindow_eq hD true hwindow.2, hwindow.1]

def hexValue (string : List UInt8) : Nat := value 16 ((digits string).map hexDigitToInt)

theorem packHex_eq_x2c (string : List UInt8) : packHex string = x2c string := by
  rw [x2c]
  split
  · rename_i hnil
    rw [hnil]
    rfl
  · rfl

theorem packByte2_value {group : List UInt8} (hlen : group.length = 2)
    (hgroup : ∀ c ∈ group, c ∈ hexSet) :
    (packByte2 group).toNat = value 16 (group.map hexDigitToInt) := by
  match group, hlen with
  | [a, b], _ =>
      have ha := hexDigitToInt_lt a (hgroup a (by simp))
      have hb := hexDigitToInt_lt b (hgroup b (by simp))
      rw [packByte2, UInt8.toNat_ofNat']
      simp only [List.getD_cons_zero, List.getD_cons_succ, List.map_cons, List.map_nil, value_cons,
        List.length_cons, List.length_nil, value_nil]
      rw [Bits.shiftLeft_or _ hb]
      omega

theorem packed_value {string : List UInt8} (h : WellGrouped hexSet 2 string) :
    ∃ bytes, packed string = .ok bytes ∧ bytesValue bytes = hexValue string := by
  have hhex : ∀ c ∈ digits string, c ∈ hexSet := by
    intro c hc
    have hmem := List.mem_filter.mp hc
    exact (h.chars c hmem.1).resolve_right (of_decide_eq_true hmem.2)
  refine ⟨Groups.packGroups 2 StringConversion.zero packByte2 (digits string), ?_, ?_⟩
  · rw [packed, packHex_eq_x2c, x2c_eq h]
    exact congrArg Except.ok (x2c_exact string).string_eq
  · exact Groups.value_packGroups (b := 16) (p := (· ∈ hexSet)) (by norm_num) (by decide)
      (by decide) (fun group hlen hgroup => packByte2_value hlen hgroup) hhex

theorem x2d_eq {s : Settings} (hD : 0 < s.digits) {string : List UInt8}
    (h : WellGrouped hexSet 2 string) (length : Option Nat) :
    x2dC2d s string length false =
      decimalResult false s.digits (decimalValue 16 length (hexValue string)) := by
  rw [x2dC2d]
  split
  · rename_i hzero
    rw [hzero, decimalValue_zero, decimalResult_zero]
  · rename_i hlength
    cases packed_value h with
    | intro bytes hbytes =>
        have hwindow := x2dWindow_value bytes hlength
        rw [if_neg Bool.false_ne_true, hbytes.1, RadixOutcome.ok_bind,
          convertWindow_eq hD false hwindow.2, hwindow.1, hbytes.2]

theorem x2d_invalid (s : Settings) {string : List UInt8} (h : ¬ WellGrouped hexSet 2 string)
    {length : Option Nat} (hlength : length ≠ some 0) :
    ∃ e, x2dC2d s string length false = .error (.invalid e) := by
  cases hpack : packHex string with
  | ok w => exact absurd (wellGrouped_of_x2c (packHex_eq_x2c string ▸ hpack)) h
  | error e =>
      refine ⟨e, ?_⟩
      rw [x2dC2d, if_neg hlength, if_neg Bool.false_ne_true, packed, hpack]
      rfl

/-! ## The strings that `d2xD2c` returns -/

theorem signedCells_lt {size : Nat} {v : Int} : ∀ d ∈ Accumulator.signedCells 16 size v, d < 16 :=
  Accumulator.isDigits_cells (by norm_num) _ _

theorem hexText_mem (size : Nat) (v : Int) : ∀ c ∈ hexText size v, c ∈ hexSet := by
  intro c hc
  obtain ⟨d, hd, rfl⟩ := List.mem_map.mp hc
  exact intToHexDigit_mem d (signedCells_lt d (List.mem_reverse.mp hd))

theorem hexValue_hexText (size : Nat) (v : Int) :
    (hexValue (hexText size v) : Int) = v % (16 ^ size : Nat) := by
  have hpos : (0 : Int) < (16 ^ size : Nat) := by positivity
  have hmap : (hexText size v).map hexDigitToInt =
      (Accumulator.signedCells 16 size v).reverse := by
    rw [hexText, List.map_map]
    conv_rhs => rw [← List.map_id (Accumulator.signedCells 16 size v).reverse]
    exact List.map_congr_left fun d hd =>
      hexDigitToInt_intToHexDigit d (signedCells_lt d (List.mem_reverse.mp hd))
  have hlt : (v % (16 ^ size : Nat)).toNat < 16 ^ size := by
    have hmod := Int.emod_lt_of_pos v hpos
    omega
  rw [hexValue, digits_eq_self hexSet_digitSet (hexText_mem size v), hmap,
    Accumulator.signedCells, Accumulator.value_reverse_cells, Nat.mod_eq_of_lt hlt,
    Int.toNat_of_nonneg (Int.emod_nonneg v hpos.ne')]

theorem wellGrouped_hexText (size : Nat) (v : Int) : WellGrouped hexSet 2 (hexText size v) :=
  wellGrouped_of_digits hexSet_digitSet (hexText_mem size v)

/-! ## The round trips -/

/-- `D2C` and `C2D` count bytes, `D2X` and `X2D` nibbles. -/
def unit (type : Bool) : Nat := if type then 256 else 16

theorem pow_unit (type : Bool) (size hexLength : Nat) :
    16 ^ hexResultSize type (some size) hexLength = unit type ^ size := by
  cases type with
  | false => rfl
  | true =>
      have hbase : unit true = 16 ^ 2 := rfl
      rw [hbase, ← pow_mul, Nat.two_mul]
      rfl

theorem x2dC2d_hexText {s : Settings} (hD : 0 < s.digits) (type : Bool) (size : Nat) (v : Int)
    (length : Option Nat) :
    ∃ text, (if type then packed (hexText size v) else .ok (hexText size v)) = .ok text ∧
      x2dC2d s text length type =
        decimalResult type s.digits
          (decimalValue (unit type) length (hexValue (hexText size v))) := by
  cases type with
  | false => exact ⟨_, rfl, x2d_eq hD (wellGrouped_hexText size v) length⟩
  | true =>
      cases packed_value (wellGrouped_hexText size v) with
      | intro bytes hbytes =>
          refine ⟨bytes, hbytes.1, ?_⟩
          rw [c2d_eq hD, hbytes.2]
          rfl

/-- A number that `len` nibbles or bytes hold as a signed value. -/
def Representable (type : Bool) (len : Nat) (v : Int) : Prop :=
  -(unit type ^ len : Nat) ≤ v * 2 ∧ v * 2 < (unit type ^ len : Nat)

instance (type : Bool) (len : Nat) (v : Int) : Decidable (Representable type len v) := by
  unfold Representable
  infer_instance

theorem decimalResult_ok {type : Bool} {D : Nat} {v : Int} (hfit : v.natAbs < 10 ^ D) :
    decimalResult type D v = .ok (ltoa v) := if_pos hfit

theorem decimalResult_error_iff {type : Bool} {D : Nat} {v : Int} :
    decimalResult type D v = .error (tooBigError type D) ↔ 10 ^ D ≤ v.natAbs := by
  rw [decimalResult]
  split
  · rename_i hfit
    simpa using hfit
  · rename_i hlarge
    simpa using hlarge

theorem roundTrip_length {s : Settings} (hD : 0 < s.digits) {n : NumberString}
    (h : n.Normalized) {v : Int} (hv : n.toRat = v) (hfit : v.natAbs < 10 ^ s.digits)
    {type : Bool} {len : Nat} (hlen : Representable type len v) :
    ∃ text, d2xD2c s n (some len) type = .ok text ∧
      x2dC2d s text (some len) type = .ok (ltoa v) := by
  have hpow := pow_unit type len (Accumulator.width 16 v.natAbs)
  cases x2dC2d_hexText hD type
    (hexResultSize type (some len) (Accumulator.width 16 v.natAbs)) v (some len) with
  | intro text htext =>
      refine ⟨text, ?_, ?_⟩
      · rw [d2xD2c_whole h hv hD hfit type (.inr (Option.some_ne_none len)) rfl, htext.1]
      · rw [htext.2, decimalValue, hexValue_hexText, hpow, Int.emod_bmod,
          Int.bmod_eq_of_le_mul_two hlen.1 hlen.2, decimalResult_ok hfit]

theorem roundTrip_noLength {s : Settings} (hD : 0 < s.digits) {n : NumberString}
    (h : n.Normalized) {v : Int} (hv : n.toRat = v) (hfit : v.natAbs < 10 ^ s.digits)
    (type : Bool) (hnonneg : 0 ≤ v) :
    ∃ text, d2xD2c s n none type = .ok text ∧
      x2dC2d s text none type = .ok (ltoa v) := by
  have hwidth := Accumulator.lt_pow_width (b := 16) (by norm_num) v.natAbs
  cases x2dC2d_hexText hD type (Accumulator.width 16 v.natAbs) v none with
  | intro text htext =>
      refine ⟨text, ?_, ?_⟩
      · rw [d2xD2c_whole h hv hD hfit type (.inl hnonneg) rfl, ← htext.1]
        rfl
      · rw [htext.2, decimalValue, hexValue_hexText,
          Int.emod_eq_of_lt hnonneg (by omega), decimalResult_ok hfit]

/-! ## Overflow -/

theorem x2d_overflow_iff {s : Settings} (hD : 0 < s.digits) (string : List UInt8)
    (length : Option Nat) :
    x2dC2d s string length false = .error (.x2dbig s.digits) ↔
      WellGrouped hexSet 2 string ∧
        10 ^ s.digits ≤ (decimalValue 16 length (hexValue string)).natAbs := by
  by_cases h : WellGrouped hexSet 2 string
  · rw [x2d_eq hD h]
    exact decimalResult_error_iff.trans ⟨fun hlarge => ⟨h, hlarge⟩, And.right⟩
  · constructor
    · intro herror
      cases eq_or_ne length (some 0) with
      | inl hzero =>
          rw [x2dC2d, if_pos hzero] at herror
          cases herror
      | inr hlength =>
          obtain ⟨e, he⟩ := x2d_invalid s h hlength
          rw [he] at herror
          cases herror
    · intro hboth
      exact absurd hboth.1 h

/-- `D2X` and `D2C` are undone by `X2D` and `C2D`: with a length for every whole number
that has as many nibbles or bytes as a signed value, and without one for every whole
number that is not negative.  The overflow conditions are raised for the values that
need more digits than the setting has. -/
theorem twosComplement_conversions {s : Settings} (hD : 0 < s.digits) :
    (∀ (n : NumberString) (v : Int) (type : Bool) (len : Nat), n.Normalized → n.toRat = v →
      v.natAbs < 10 ^ s.digits → Representable type len v →
        ∃ text, d2xD2c s n (some len) type = .ok text ∧
          x2dC2d s text (some len) type = .ok (ltoa v)) ∧
      (∀ (n : NumberString) (v : Int) (type : Bool), n.Normalized → n.toRat = v →
        v.natAbs < 10 ^ s.digits → 0 ≤ v →
          ∃ text, d2xD2c s n none type = .ok text ∧
            x2dC2d s text none type = .ok (ltoa v)) ∧
      (∀ (string : List UInt8) (length : Option Nat),
        x2dC2d s string length false = .error (.x2dbig s.digits) ↔
          WellGrouped hexSet 2 string ∧
            10 ^ s.digits ≤ (decimalValue 16 length (hexValue string)).natAbs) ∧
      (∀ (string : List UInt8) (length : Option Nat),
        x2dC2d s string length true = .error (.c2dbig s.digits) ↔
          10 ^ s.digits ≤ (decimalValue 256 length (bytesValue string)).natAbs) := by
  refine ⟨?_, ?_, x2d_overflow_iff hD, ?_⟩
  · intro n v type len h hv hfit hlen
    exact roundTrip_length hD h hv hfit hlen
  · intro n v type h hv hfit hnonneg
    exact roundTrip_noLength hD h hv hfit type hnonneg
  · intro string length
    rw [c2d_eq hD]
    exact decimalResult_error_iff

theorem twosComplement_conversions_minus127 :
    ∃ text, d2xD2c ⟨9, 0, .scientific⟩ ⟨-1, 0, [1, 2, 7], 9, true⟩ (some 2) false = .ok text ∧
      x2dC2d ⟨9, 0, .scientific⟩ text (some 2) false = .ok (ltoa (-127)) := by
  have hvalue : NumberString.toRat ⟨-1, 0, [1, 2, 7], 9, true⟩ = ((-127 : Int) : ℚ) := by
    simp [NumberString.toRat, decimal, DecimalRounding.Decimal.toRat, value_cons]
  exact (twosComplement_conversions (s := ⟨9, 0, .scientific⟩) (by decide)).1 _ (-127) false 2
    (by decide) hvalue (by decide) (by decide)

example : d2xD2c ⟨9, 0, .scientific⟩ ⟨-1, 0, [1, 2, 7], 9, true⟩ (some 2) false =
    .ok (bytes "81") := by decide

end LeooRexx.DecimalConversion
