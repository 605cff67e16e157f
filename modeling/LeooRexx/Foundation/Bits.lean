import Mathlib.Data.UInt

/-!
# Bits of a byte

Shifts and masks as arithmetic: the bits above a place are a quotient, those below it a
remainder, and two parts that do not overlap are joined by adding them.
-/

namespace Bits

theorem high_bits (n k m : Nat) : (n &&& ((2 ^ m - 1) <<< k)) >>> k = n / 2 ^ k % 2 ^ m := by
  rw [Nat.shiftRight_and_distrib, Nat.shiftLeft_shiftRight, Nat.and_two_pow_sub_one_eq_mod,
    Nat.shiftRight_eq_div_pow]

theorem shiftLeft_or (a : Nat) {b k : Nat} (hb : b < 2 ^ k) : a <<< k ||| b = a * 2 ^ k + b := by
  rw [← Nat.shiftLeft_add_eq_or_of_lt hb, Nat.shiftLeft_eq]

theorem toNat_ofNat_shiftLeft (a : Nat) {k m : Nat} (h : m + k = 8) :
    (UInt8.ofNat (a <<< k)).toNat = (a % 2 ^ m) <<< k := by
  have hpow : 2 ^ 8 = 2 ^ m * 2 ^ k := by rw [← h, Nat.pow_add]
  rw [UInt8.toNat_ofNat', Nat.shiftLeft_eq, Nat.shiftLeft_eq, hpow, Nat.mul_mod_mul_right]

theorem toNat_join (a : Nat) {b k m : Nat} (h : m + k = 8) (hb : b < 2 ^ k) :
    (UInt8.ofNat (a <<< k) ||| UInt8.ofNat b).toNat = a % 2 ^ m * 2 ^ k + b := by
  have hlt : b < 2 ^ 8 := Nat.lt_of_lt_of_le hb (Nat.pow_le_pow_right (by decide) (by omega))
  rw [UInt8.toNat_or, toNat_ofNat_shiftLeft a h, UInt8.toNat_ofNat', Nat.mod_eq_of_lt hlt,
    shiftLeft_or _ hb]

end Bits
