import Mathlib.Data.Int.Notation
import Mathlib.Data.List.Basic

/-!
# Byte streams

A file open for reading: its bytes and the position.  A read takes what is left, and a
seek may move behind the end.  The lemmas are about a file that was cut off: what a
read of one piece of the whole file gives when only its first `k` bytes are there.
-/

structure ByteStream where
  bytes : List UInt8
  pos : ℕ
  deriving DecidableEq, Repr

structure ByteStream.Read where
  count : ℕ
  buffer : List UInt8
  stream : ByteStream

namespace ByteStream

/-- `fread (b, 1, l, f)`: what does not come leaves the buffer as it was. -/
def fread (f : ByteStream) (b : List UInt8) (l : ℕ) : Read :=
  let got := (f.bytes.drop f.pos).take l
  ⟨got.length, got ++ b.drop got.length, { f with pos := f.pos + got.length }⟩

/-- `fseek (f, offset, SEEK_CUR)`. -/
def fseek (f : ByteStream) (offset : ℤ) : Option ByteStream :=
  if f.pos + offset < 0 then none else some { f with pos := (f.pos + offset).toNat }

theorem fseek_ofNat (f : ByteStream) (n : ℕ) :
    f.fseek n = some { f with pos := f.pos + n } := by
  have h : ¬ ((f.pos : ℤ) + (n : ℤ) < 0) := by omega
  rw [fseek, if_neg h]
  have hn : ((f.pos : ℤ) + (n : ℤ)).toNat = f.pos + n := by omega
  rw [hn]

/-- The stream over the first `k` bytes of `whole`, at `p`. -/
def cut (whole : List UInt8) (k p : ℕ) : ByteStream := ⟨whole.take k, p⟩

@[simp] theorem cut_pos (whole : List UInt8) (k p : ℕ) : (cut whole k p).pos = p := rfl

@[simp] theorem cut_bytes (whole : List UInt8) (k p : ℕ) :
    (cut whole k p).bytes = whole.take k := rfl

variable {whole before piece after b : List UInt8} {k p l : ℕ}

theorem fread_end (f : ByteStream) (h : f.bytes.length ≤ f.pos) (b : List UInt8) (l : ℕ) :
    f.fread b l = ⟨0, b, f⟩ := by
  simp [fread, List.drop_eq_nil_of_le h]

theorem fread_cut_end (h : k ≤ p) (b : List UInt8) (l : ℕ) :
    (cut whole k p).fread b l = ⟨0, b, cut whole k p⟩ := by
  apply fread_end
  rw [cut_bytes, cut_pos, List.length_take]
  omega

theorem fread_cut_piece (hb : before.length = p) (hl : piece.length = l)
    (hbuf : b.length = l) (hk : p + l ≤ k) :
    (cut (before ++ piece ++ after) k p).fread b l =
      ⟨l, piece, cut (before ++ piece ++ after) k (p + l)⟩ := by
  have hgot : ((((before ++ piece ++ after).take k).drop p).take l) = piece := by
    rw [List.drop_take, List.take_take, Nat.min_eq_left (by omega), List.append_assoc,
      ← hb, List.drop_left, ← hl, List.take_left]
  have hdrop : b.drop l = [] := List.drop_eq_nil_of_le (by omega)
  simp only [fread, cut, hgot, hl, hdrop, List.append_nil]

theorem fread_cut_inside (hk : k ≤ whole.length) (hp : p < k) (hl : k < p + l)
    (b : List UInt8) :
    0 < ((cut whole k p).fread b l).count ∧ ((cut whole k p).fread b l).count < l := by
  have h : ((cut whole k p).fread b l).count = k - p := by
    simp only [fread, cut, List.length_take, List.length_drop]
    omega
  rw [h]
  omega

end ByteStream
