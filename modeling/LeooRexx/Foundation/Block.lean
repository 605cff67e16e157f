import Mathlib.Data.List.Basic

/-!
# Blocks of memory

A block of bytes with its size and a record of whether all bytes written to it so
far were within it.  A write outside is not an error by itself, as in C; it only
leaves its mark in the record.
-/

namespace LeooRexx

structure Block where
  size : Nat
  cells : Nat → UInt8
  inside : Bool

namespace Block

def malloc (size : Nat) : Block := ⟨size, fun _ => 0, true⟩

def realloc (b : Block) (size : Nat) : Block := { b with size := size }

def renew (b : Block) (size : Nat) : Block := { malloc size with inside := b.inside }

def read (b : Block) (offset count : Nat) : List UInt8 :=
  (List.range count).map fun i => b.cells (offset + i)

/-- `memcpy`, `memmove` and `memset` of the given bytes. -/
def write (b : Block) (offset : Nat) (bytes : List UInt8) : Block :=
  { b with
    cells := fun i =>
      if offset ≤ i ∧ i < offset + bytes.length then bytes.getD (i - offset) 0 else b.cells i
    inside := b.inside && decide (bytes = [] ∨ offset + bytes.length ≤ b.size) }

@[simp] theorem size_malloc (size : Nat) : (malloc size).size = size := rfl

@[simp] theorem size_renew (b : Block) (size : Nat) : (b.renew size).size = size := rfl

@[simp] theorem inside_renew (b : Block) (size : Nat) : (b.renew size).inside = b.inside := rfl

@[simp] theorem size_realloc (b : Block) (size : Nat) : (b.realloc size).size = size := rfl

@[simp] theorem inside_realloc (b : Block) (size : Nat) : (b.realloc size).inside = b.inside := rfl

@[simp] theorem size_write (b : Block) (offset : Nat) (bytes : List UInt8) :
    (b.write offset bytes).size = b.size := rfl

@[simp] theorem length_read (b : Block) (offset count : Nat) :
    (b.read offset count).length = count := by
  simp [read]

/-! ## What is read back -/

theorem read_add (b : Block) (offset m n : Nat) :
    b.read offset (m + n) = b.read offset m ++ b.read (offset + m) n := by
  simp only [read, List.range_add, List.map_append, List.map_map, List.append_cancel_left_eq]
  exact List.map_congr_left fun i _ => by simp [Nat.add_assoc]

theorem read_realloc (b : Block) (size offset count : Nat) :
    (b.realloc size).read offset count = b.read offset count := rfl

theorem read_write_self (b : Block) (offset : Nat) (bytes : List UInt8) :
    (b.write offset bytes).read offset bytes.length = bytes := by
  apply List.ext_getElem
  · exact length_read _ _ _
  · intro i _ hi
    simp [read, write, hi]

theorem read_write_outside (b : Block) {offset at_ count : Nat} {bytes : List UInt8}
    (h : at_ + count ≤ offset ∨ offset + bytes.length ≤ at_) :
    (b.write offset bytes).read at_ count = b.read at_ count := by
  refine List.map_congr_left fun i hi => ?_
  have hlt := List.mem_range.mp hi
  exact if_neg (by omega)

theorem take_read (b : Block) (offset : Nat) {m n : Nat} (h : m ≤ n) :
    (b.read offset n).take m = b.read offset m := by
  obtain ⟨k, rfl⟩ := Nat.exists_eq_add_of_le h
  rw [read_add, List.take_append_of_le_length (by simp), List.take_of_length_le (by simp)]

theorem drop_read (b : Block) (offset : Nat) {m n : Nat} (h : m ≤ n) :
    (b.read offset n).drop m = b.read (offset + m) (n - m) := by
  obtain ⟨k, rfl⟩ := Nat.exists_eq_add_of_le h
  rw [read_add, List.drop_append_of_le_length (by simp), List.drop_of_length_le (by simp),
    Nat.add_sub_cancel_left, List.nil_append]

/-! ## The record -/

theorem inside_write_iff (b : Block) (offset : Nat) (bytes : List UInt8) :
    (b.write offset bytes).inside = true ↔
      b.inside = true ∧ (bytes = [] ∨ offset + bytes.length ≤ b.size) := by
  simp [write]

theorem inside_write {b : Block} (h : b.inside = true) {offset : Nat} {bytes : List UInt8}
    (hbytes : offset + bytes.length ≤ b.size) : (b.write offset bytes).inside = true := by
  simp [write, h, hbytes]

end Block

end LeooRexx
