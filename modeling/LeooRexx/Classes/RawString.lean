import Mathlib.Data.List.Basic

/-!
# Raw strings

A conversion allocates a raw string of a length it computes first and then writes
through a moving pointer, so a result is kept as the length that was allocated and
the bytes that were written, which need not be equally many.
-/

namespace LeooRexx

structure Written where
  allocated : Nat
  bytes : List UInt8
  deriving DecidableEq

namespace Written

def string (w : Written) : List UInt8 := w.bytes.take w.allocated

def Exact (w : Written) : Prop := w.bytes.length = w.allocated

instance (w : Written) : Decidable w.Exact := by unfold Exact; infer_instance

theorem Exact.string_eq {w : Written} (h : w.Exact) : w.string = w.bytes := by
  rw [string, ← h, List.take_length]

end Written

end LeooRexx
