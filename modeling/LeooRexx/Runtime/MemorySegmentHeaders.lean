import Mathlib
import LeooRexx.Runtime.MemorySegment

/-!
# Sizes and marks of object headers

The size packed into a header is the size given to it, except that a block of 16 MB or more
loses what exceeds a multiple of 256.  The marks and the size do not touch each other.
-/

namespace LeooRexx

namespace MemorySegment

variable {header mark : HEADINFO} {s : ℕ}

def recordedSize (s : ℕ) : ℕ := if s < LargeObjectMinSize then s else s - s % 256

theorem recordedSize_pos (h : 0 < s) : 0 < recordedSize s := by
  rw [recordedSize]
  split
  · exact h
  · rename_i hlarge
    simp only [LargeObjectMinSize] at hlarge
    omega

theorem deadSize_le_recordedSize (h : DeadObjectSize ≤ s) : DeadObjectSize ≤ recordedSize s := by
  rw [recordedSize]
  split
  · exact h
  · rename_i hlarge
    simp only [LargeObjectMinSize] at hlarge
    simp only [DeadObjectSize]
    omega

theorem recordedSize_of_fits (h : s < LargeObjectMinSize ∨ s % 256 = 0) : recordedSize s = s := by
  rw [recordedSize]
  split
  · rfl
  · omega

theorem recordedSize_grained (h : s % 8 = 0) : recordedSize s % 8 = 0 := by
  rw [recordedSize]
  split
  · exact h
  · omega

theorem small_and_largeBit (s : ℕ) : SmallObjectSize s &&& LargeObjectBit = 0#32 := by
  rw [SmallObjectSize, ← BitVec.and_allOnes (x := BitVec.ofNat 32 s), BitVec.shiftLeft_and_distrib,
    BitVec.and_assoc]
  have h : BitVec.allOnes 32 <<< 8 &&& LargeObjectBit = 0#32 := by decide
  rw [h]
  exact BitVec.and_zero

theorem small_shift (h : s < LargeObjectMinSize) : (SmallObjectSize s >>> 8).toNat = s := by
  simp only [LargeObjectMinSize] at h
  rw [SmallObjectSize, BitVec.toNat_ushiftRight, BitVec.toNat_shiftLeft, BitVec.toNat_ofNat,
    Nat.shiftLeft_eq, Nat.shiftRight_eq_div_pow]
  omega

theorem large_and_largeBit (s : ℕ) : LargeObjectSize s &&& LargeObjectBit = LargeObjectBit := by
  rw [LargeObjectSize, BitVec.and_or_distrib_right, BitVec.and_assoc]
  have h : LargeObjectSizeMask &&& LargeObjectBit = 0#32 := by decide
  rw [h, BitVec.and_zero, BitVec.and_self, BitVec.zero_or]

theorem large_and_mask (h : s < 2 ^ 32) :
    (LargeObjectSize s &&& LargeObjectSizeMask).toNat = s - s % 256 := by
  have hmask : LargeObjectSize s &&& LargeObjectSizeMask = BitVec.ofNat 32 s >>> 8 <<< 8 := by
    rw [LargeObjectSize, BitVec.and_or_distrib_right, BitVec.and_assoc, BitVec.and_self]
    have h : LargeObjectBit &&& LargeObjectSizeMask = 0#32 := by decide
    rw [h, BitVec.or_zero, BitVec.shiftLeft_ushiftRight]
    rfl
  rw [hmask, BitVec.toNat_shiftLeft, BitVec.toNat_ushiftRight, BitVec.toNat_ofNat,
    Nat.shiftLeft_eq, Nat.shiftRight_eq_div_pow]
  omega

theorem objectSize_packedSize (h : s < 2 ^ 32) :
    ObjectSizeFunc (packedSize s) = recordedSize s := by
  rw [packedSize, recordedSize]
  split
  · rename_i hsmall
    rw [ObjectSizeFunc, small_and_largeBit, if_neg (by simp), small_shift hsmall]
  · rw [ObjectSizeFunc, large_and_largeBit, if_pos (by decide), large_and_mask h]

theorem objectSize_or {bits rest : HEADINFO} (hbit : bits &&& LargeObjectBit = 0#32)
    (hmask : bits &&& LargeObjectSizeMask = 0#32) (hshift : bits >>> 8 = 0#32) :
    ObjectSizeFunc (bits ||| rest) = ObjectSizeFunc rest := by
  rw [ObjectSizeFunc, ObjectSizeFunc, BitVec.and_or_distrib_right, BitVec.and_or_distrib_right,
    BitVec.ushiftRight_or_distrib, hbit, hmask, hshift, BitVec.zero_or, BitVec.zero_or,
    BitVec.zero_or]

theorem objectSize_and {mask : HEADINFO} (hbit : mask &&& LargeObjectBit = LargeObjectBit)
    (hmask : mask &&& LargeObjectSizeMask = LargeObjectSizeMask)
    (hshift : mask >>> 8 = BitVec.allOnes 32 >>> 8) :
    ObjectSizeFunc (header &&& mask) = ObjectSizeFunc header := by
  rw [ObjectSizeFunc, ObjectSizeFunc, BitVec.and_assoc, BitVec.and_assoc,
    BitVec.ushiftRight_and_distrib, hbit, hmask, hshift, ← BitVec.ushiftRight_and_distrib,
    BitVec.and_allOnes]

theorem and_shift_eq_zero {mask : HEADINFO} (h : mask >>> 8 = 0#32) :
    (header &&& mask) >>> 8 = 0#32 := by
  rw [BitVec.ushiftRight_and_distrib, h]
  exact BitVec.and_zero

theorem objectSize_setObjectSize (header : HEADINFO) (h : s < 2 ^ 32) :
    ObjectSizeFunc (SetObjectSizeFunc header s) = recordedSize s := by
  have hkept : ~~~(SizeMask ||| LargeObjectBit) = 0x000000DF#32 := by decide
  rw [SetObjectSizeFunc, hkept, objectSize_or, objectSize_packedSize h]
  · rw [BitVec.and_assoc, show 0x000000DF#32 &&& LargeObjectBit = 0#32 by decide]
    exact BitVec.and_zero
  · rw [BitVec.and_assoc, show 0x000000DF#32 &&& LargeObjectSizeMask = 0#32 by decide]
    exact BitVec.and_zero
  · exact and_shift_eq_zero (by decide)

def IsMark (mark : HEADINFO) : Prop := mark = 1#32 ∨ mark = 2#32

theorem IsMark.bump (h : IsMark mark) : IsMark (mark ^^^ MarkMask) := by
  rcases h with rfl | rfl
  · exact .inr (by decide)
  · exact .inl (by decide)

theorem objectSize_setObjectLive (h : IsMark mark) :
    ObjectSizeFunc (SetObjectLive header mark) = ObjectSizeFunc header := by
  rw [SetObjectLive, BitVec.or_comm, objectSize_or, objectSize_and]
  · decide
  · decide
  · decide
  all_goals rcases h with rfl | rfl <;> decide

theorem marks_setObjectLive (h : IsMark mark) :
    SetObjectLive header mark &&& MarkMask = mark := by
  rw [SetObjectLive, BitVec.and_or_distrib_right, BitVec.and_assoc,
    show LiveMask &&& MarkMask = 0#32 by decide, BitVec.and_zero, BitVec.zero_or]
  rcases h with rfl | rfl <;> decide

theorem marks_packedSize (s : ℕ) : packedSize s &&& MarkMask = 0#32 := by
  rw [packedSize]
  split
  · rw [SmallObjectSize, ← BitVec.and_allOnes (x := BitVec.ofNat 32 s),
      BitVec.shiftLeft_and_distrib, BitVec.and_assoc,
      show BitVec.allOnes 32 <<< 8 &&& MarkMask = 0#32 by decide]
    exact BitVec.and_zero
  · rw [LargeObjectSize, BitVec.and_or_distrib_right, BitVec.and_assoc,
      show LargeObjectSizeMask &&& MarkMask = 0#32 by decide, BitVec.and_zero, BitVec.zero_or]
    decide

theorem objectSize_large (h : LargeObjectMinSize ≤ ObjectSizeFunc header) :
    ObjectSizeFunc header % 256 = 0 := by
  rw [ObjectSizeFunc] at h ⊢
  split
  · have hmask : header &&& LargeObjectSizeMask = header >>> 8 <<< 8 := by
      rw [BitVec.shiftLeft_ushiftRight]
      rfl
    rw [hmask, BitVec.toNat_shiftLeft, Nat.shiftLeft_eq]
    omega
  · rename_i hbit
    rw [if_neg hbit, BitVec.toNat_ushiftRight, Nat.shiftRight_eq_div_pow] at h
    have := header.isLt
    simp only [LargeObjectMinSize] at h
    omega

theorem objectSize_lt (header : HEADINFO) : ObjectSizeFunc header < 2 ^ 32 := by
  rw [ObjectSizeFunc]
  split
  · exact (header &&& LargeObjectSizeMask).isLt
  · exact (header >>> 8).isLt

theorem recordedSize_objectSize (header : Headers) (o : ℕ) :
    recordedSize (ObjectSize header o) = ObjectSize header o := by
  apply recordedSize_of_fits
  rcases Nat.lt_or_ge (ObjectSize header o) LargeObjectMinSize with hlt | hge
  · exact .inl hlt
  · exact .inr (objectSize_large hge)

end MemorySegment

end LeooRexx
