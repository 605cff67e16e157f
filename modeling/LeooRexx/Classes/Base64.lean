import LeooRexx.Classes.RawString
import LeooRexx.Foundation.Bits
import Mathlib.Data.Nat.Basic

/-!
# Base64

`RexxString::encodeBase64` and `RexxString::decodeBase64`: three bytes against
four characters of six bits each, the last group filled with pads.
-/

namespace LeooRexx

/-- `Error_Incorrect_method_invbase64`. -/
inductive Base64Error where
  | invbase64
  deriving DecidableEq

namespace Base64

def cb64 : List UInt8 :=
  "ABCDEFGHIJKLMNOPQRSTUVWXYZabcdefghijklmnopqrstuvwxyz0123456789+/".toList.map
    fun ch => UInt8.ofNat ch.toNat

/-- The character that fills the last group, `=`. -/
def pad : UInt8 := 61

/-- `cb64[ k ]`. -/
def digit (k : Nat) : UInt8 := cb64.getD k 0

/-! ## Encoding -/

def encodeGroup (inc₀ inc₁ inc₂ buflen : Nat) : List UInt8 :=
  [digit (inc₀ >>> 2),
   digit (((inc₀ &&& 0x03) <<< 4) ||| ((inc₁ &&& 0xf0) >>> 4)),
   if buflen > 1 then digit (((inc₁ &&& 0x0f) <<< 2) ||| ((inc₂ &&& 0xc0) >>> 6)) else pad,
   if buflen > 2 then digit (inc₂ &&& 0x3f) else pad]

def encodeLoop : List UInt8 → List UInt8
  | [] => []
  | [a] => encodeGroup a.toNat 0 0 1
  | [a, b] => encodeGroup a.toNat b.toNat 0 2
  | a :: b :: c :: source => encodeGroup a.toNat b.toNat c.toNat 3 ++ encodeLoop source

def encodeBase64 (source : List UInt8) : Written :=
  let inputLength := source.length
  if inputLength = 0 then ⟨0, []⟩
  else
    let outputLength := (inputLength / 3) * 4
    let outputLength := if inputLength % 3 > 0 then outputLength + 4 else outputLength
    ⟨outputLength, encodeLoop source⟩

/-! ## Decoding -/

structure Output where
  bytes : List UInt8
  destination : Nat

namespace Output

/-- `*destination = value`. -/
def store (o : Output) (value : UInt8) : Output :=
  { o with bytes := o.bytes.take o.destination ++ value :: o.bytes.drop (o.destination + 1) }

/-- `*destination |= value`. -/
def orStore (o : Output) (value : UInt8) : Output :=
  o.store (o.bytes.getD o.destination 0 ||| value)

/-- `destination++`. -/
def advance (o : Output) : Output := { o with destination := o.destination + 1 }

end Output

/-- The `switch` on the place of a character in its group, for its six bits `j`. -/
def decodeDigit (i j : Nat) (o : Output) : Output :=
  match i with
  | 0 => o.store (UInt8.ofNat (j <<< 2))
  | 1 => (o.orStore (UInt8.ofNat (j >>> 4))).advance.store (UInt8.ofNat (j <<< 4))
  | 2 => (o.orStore (UInt8.ofNat (j >>> 2))).advance.store (UInt8.ofNat (j <<< 6))
  | 3 => (o.orStore (UInt8.ofNat j)).advance
  | _ => o

def decodeGroup (inputLength : Nat) : Nat → List UInt8 → Output → Except Base64Error Output
  | _, [], o => .ok o
  | i, ch :: source, o =>
      let j := cb64.idxOf ch
      if j = 64 then
        -- a pad ends the output, but only where the last group is read
        if ch = pad ∧ inputLength ≤ 4 then .ok o else .error .invbase64
      else decodeGroup inputLength (i + 1) source (decodeDigit i j o)

def decodeLoop : List UInt8 → Output → Except Base64Error Output
  | a :: b :: c :: d :: source, o => do
      let o ← decodeGroup (source.length + 4) 0 [a, b, c, d] o
      decodeLoop source o
  | _, o => .ok o

def decodeBase64 (source : List UInt8) : Except Base64Error Written :=
  let inputLength := source.length
  if inputLength = 0 then .ok ⟨0, []⟩
  else if inputLength % 4 > 0 then .error .invbase64
  else do
    let outputLength := (inputLength / 4) * 3
    let outputLength :=
      if source.getD (inputLength - 1) 0 = pad then outputLength - 1 else outputLength
    let outputLength :=
      if source.getD (inputLength - 2) 0 = pad then outputLength - 1 else outputLength
    let o ← decodeLoop source ⟨[], 0⟩
    return ⟨outputLength, o.bytes⟩

/-! ## The six bits of a character -/

theorem digit_ne_pad {k : Nat} (h : k < 64) : digit k ≠ pad := by
  revert k
  decide

theorem idxOf_digit {k : Nat} (h : k < 64) : cb64.idxOf (digit k) = k := by
  revert k
  decide

theorem decodeGroup_digit (inputLength i : Nat) {k : Nat} (h : k < 64) (source : List UInt8)
    (o : Output) :
    decodeGroup inputLength i (digit k :: source) o
      = decodeGroup inputLength (i + 1) source (decodeDigit i k o) := by
  simp only [decodeGroup, idxOf_digit h]
  have hk : k ≠ 64 := by omega
  simp [hk]

theorem decodeGroup_pad {inputLength : Nat} (h : inputLength ≤ 4) (i : Nat)
    (source : List UInt8) (o : Output) :
    decodeGroup inputLength i (pad :: source) o = .ok o := by
  have hidx : cb64.idxOf pad = 64 := by decide
  simp [decodeGroup, hidx, h]

/-! ## Six bits and eight

A byte is cut in two halves which two neighbouring characters carry.
-/

theorem join_lt_four : ∀ p < 4, ∀ q < 16, p <<< 4 ||| q < 64 := by
  decide

theorem join_lt_sixteen : ∀ p < 16, ∀ q < 4, p <<< 2 ||| q < 64 := by
  decide

theorem split_four : ∀ p < 4, ∀ q < 16,
    UInt8.ofNat ((p <<< 4 ||| q) >>> 4) = UInt8.ofNat p ∧
      UInt8.ofNat ((p <<< 4 ||| q) <<< 4) = UInt8.ofNat (q <<< 4) := by
  decide

theorem split_sixteen : ∀ p < 16, ∀ q < 4,
    UInt8.ofNat ((p <<< 2 ||| q) >>> 2) = UInt8.ofNat p ∧
      UInt8.ofNat ((p <<< 2 ||| q) <<< 6) = UInt8.ofNat (q <<< 6) := by
  decide

structure Pieces (n : Nat) : Prop where
  high_six : n >>> 2 < 64
  low_two : n &&& 0x03 < 4
  high_four : (n &&& 0xf0) >>> 4 < 16
  low_four : n &&& 0x0f < 16
  high_two : (n &&& 0xc0) >>> 6 < 4
  low_six : n &&& 0x3f < 64
  six_two : UInt8.ofNat ((n >>> 2) <<< 2) ||| UInt8.ofNat (n &&& 0x03) = UInt8.ofNat n
  four_four :
    UInt8.ofNat (((n &&& 0xf0) >>> 4) <<< 4) ||| UInt8.ofNat (n &&& 0x0f) = UInt8.ofNat n
  two_six :
    UInt8.ofNat (((n &&& 0xc0) >>> 6) <<< 6) ||| UInt8.ofNat (n &&& 0x3f) = UInt8.ofNat n

theorem join_pieces {n a b k m : Nat} (hn : n < 256) (h : m + k = 8) (ha : a = n / 2 ^ k)
    (hb : b = n % 2 ^ k) : UInt8.ofNat (a <<< k) ||| UInt8.ofNat b = UInt8.ofNat n := by
  have hpow : 2 ^ 8 = 2 ^ m * 2 ^ k := by rw [← h, Nat.pow_add]
  have ha' : a < 2 ^ m := by
    rw [ha, Nat.div_lt_iff_lt_mul (Nat.two_pow_pos k), ← hpow]
    exact hn
  rw [← UInt8.toNat_inj, Bits.toNat_join a h (hb ▸ Nat.mod_lt n (Nat.two_pow_pos k)),
    Nat.mod_eq_of_lt ha', ha, hb, Nat.div_add_mod', UInt8.toNat_ofNat', Nat.mod_eq_of_lt hn]

theorem pieces (n : Nat) (hn : n < 256) : Pieces n := by
  have hsix : n >>> 2 = n / 2 ^ 2 := Nat.shiftRight_eq_div_pow n 2
  have htwo : n &&& 0x03 = n % 2 ^ 2 := Nat.and_two_pow_sub_one_eq_mod n 2
  have hfour : (n &&& 0xf0) >>> 4 = n / 2 ^ 4 % 2 ^ 4 := Bits.high_bits n 4 4
  have hfour' : n &&& 0x0f = n % 2 ^ 4 := Nat.and_two_pow_sub_one_eq_mod n 4
  have htwo' : (n &&& 0xc0) >>> 6 = n / 2 ^ 6 % 2 ^ 2 := Bits.high_bits n 6 2
  have hsix' : n &&& 0x3f = n % 2 ^ 6 := Nat.and_two_pow_sub_one_eq_mod n 6
  refine ⟨?_, ?_, ?_, ?_, ?_, ?_, join_pieces hn (m := 6) rfl hsix htwo,
    join_pieces hn (m := 4) rfl ?_ hfour', join_pieces hn (m := 2) rfl ?_ hsix'⟩
  all_goals omega

/-! ## One group read back -/

namespace Output

def closed (bytes : List UInt8) : Output := ⟨bytes, bytes.length⟩

def opened (bytes : List UInt8) (value : UInt8) : Output := ⟨bytes ++ [value], bytes.length⟩

theorem store_closed (bytes : List UInt8) (value : UInt8) :
    (closed bytes).store value = opened bytes value := by
  simp [closed, opened, store]

theorem orStore_opened (bytes : List UInt8) (high low : UInt8) :
    ((opened bytes high).orStore low).advance = closed (bytes ++ [high ||| low]) := by
  simp [closed, opened, orStore, store, advance, List.getD_eq_getElem?_getD]

end Output

theorem decodeDigit_zero (j : Nat) (bytes : List UInt8) :
    decodeDigit 0 j (.closed bytes) = .opened bytes (UInt8.ofNat (j <<< 2)) :=
  Output.store_closed bytes _

theorem decodeDigit_one (j : Nat) (bytes : List UInt8) (high : UInt8) :
    decodeDigit 1 j (.opened bytes high)
      = .opened (bytes ++ [high ||| UInt8.ofNat (j >>> 4)]) (UInt8.ofNat (j <<< 4)) := by
  simp only [decodeDigit, Output.orStore_opened, Output.store_closed]

theorem decodeDigit_two (j : Nat) (bytes : List UInt8) (high : UInt8) :
    decodeDigit 2 j (.opened bytes high)
      = .opened (bytes ++ [high ||| UInt8.ofNat (j >>> 2)]) (UInt8.ofNat (j <<< 6)) := by
  simp only [decodeDigit, Output.orStore_opened, Output.store_closed]

theorem decodeDigit_three (j : Nat) (bytes : List UInt8) (high : UInt8) :
    decodeDigit 3 j (.opened bytes high) = .closed (bytes ++ [high ||| UInt8.ofNat j]) :=
  Output.orStore_opened bytes high _

section Group

variable {a b c : Nat} (ha : a < 256) (hb : b < 256) (hc : c < 256) (bytes : List UInt8)
include ha

theorem decodeGroup_one :
    decodeGroup 4 0 (encodeGroup a 0 0 1) (.closed bytes)
      = .ok (.opened (bytes ++ [UInt8.ofNat a]) 0) := by
  have h := pieces a ha
  have hmid := join_lt_four _ h.low_two 0 (by decide)
  obtain ⟨hclose, hopen⟩ := split_four _ h.low_two 0 (by decide)
  simp only [encodeGroup, Nat.reduceAnd, Nat.zero_shiftRight, gt_iff_lt, lt_irrefl,
    Nat.reduceLT, if_false]
  rw [decodeGroup_digit 4 0 h.high_six, decodeGroup_digit 4 1 hmid,
    decodeGroup_pad (le_refl 4), decodeDigit_zero, decodeDigit_one, hclose, hopen, h.six_two]
  rfl

include hb

theorem decodeGroup_two :
    decodeGroup 4 0 (encodeGroup a b 0 2) (.closed bytes)
      = .ok (.opened (bytes ++ [UInt8.ofNat a, UInt8.ofNat b]) 0) := by
  have h := pieces a ha
  have h' := pieces b hb
  have hsecond := join_lt_four _ h.low_two _ h'.high_four
  have hthird := join_lt_sixteen _ h'.low_four 0 (by decide)
  obtain ⟨hclose, hopen⟩ := split_four _ h.low_two _ h'.high_four
  obtain ⟨hclose', hopen'⟩ := split_sixteen _ h'.low_four 0 (by decide)
  simp only [encodeGroup, Nat.reduceAnd, Nat.zero_shiftRight, gt_iff_lt, lt_irrefl,
    Nat.reduceLT, if_false, if_true]
  rw [decodeGroup_digit 4 0 h.high_six, decodeGroup_digit 4 1 hsecond,
    decodeGroup_digit 4 2 hthird, decodeGroup_pad (le_refl 4), decodeDigit_zero,
    decodeDigit_one, decodeDigit_two, hclose, hopen, hclose', hopen', h.six_two, h'.four_four]
  simp

include hc

theorem decodeGroup_three (inputLength : Nat) :
    decodeGroup inputLength 0 (encodeGroup a b c 3) (.closed bytes)
      = .ok (.closed (bytes ++ [UInt8.ofNat a, UInt8.ofNat b, UInt8.ofNat c])) := by
  have h := pieces a ha
  have h' := pieces b hb
  have h'' := pieces c hc
  have hsecond := join_lt_four _ h.low_two _ h'.high_four
  have hthird := join_lt_sixteen _ h'.low_four _ h''.high_two
  obtain ⟨hclose, hopen⟩ := split_four _ h.low_two _ h'.high_four
  obtain ⟨hclose', hopen'⟩ := split_sixteen _ h'.low_four _ h''.high_two
  simp only [encodeGroup, gt_iff_lt, Nat.reduceLT, if_true]
  rw [decodeGroup_digit _ 0 h.high_six, decodeGroup_digit _ 1 hsecond,
    decodeGroup_digit _ 2 hthird, decodeGroup_digit _ 3 h''.low_six, decodeDigit_zero,
    decodeDigit_one, decodeDigit_two, decodeDigit_three, hclose, hopen, hclose', hopen',
    h.six_two, h'.four_four, h''.two_six]
  simp [decodeGroup]

end Group

/-! ## The round trip -/

def residue (source : List UInt8) : List UInt8 := if source.length % 3 = 0 then [] else [0]

theorem decodeLoop_encodeGroup (inc₀ inc₁ inc₂ buflen : Nat) (source : List UInt8)
    (o : Output) :
    decodeLoop (encodeGroup inc₀ inc₁ inc₂ buflen ++ source) o
      = decodeGroup (source.length + 4) 0 (encodeGroup inc₀ inc₁ inc₂ buflen) o
          >>= decodeLoop source :=
  rfl

theorem decodeLoop_encodeLoop (source bytes : List UInt8) :
    decodeLoop (encodeLoop source) (.closed bytes)
      = .ok ⟨bytes ++ source ++ residue source, bytes.length + source.length⟩ := by
  fun_induction encodeLoop source generalizing bytes with
  | case1 => simp [decodeLoop, Output.closed, residue]
  | case2 a =>
      have hloop := decodeLoop_encodeGroup a.toNat 0 0 1 [] (.closed bytes)
      have hgroup := decodeGroup_one a.toNat_lt bytes
      rw [List.append_nil] at hloop
      simp only [hloop, List.length_nil, Nat.zero_add, hgroup]
      simp [bind, Except.bind, decodeLoop, Output.opened, residue]
  | case3 a b =>
      have hloop := decodeLoop_encodeGroup a.toNat b.toNat 0 2 [] (.closed bytes)
      have hgroup := decodeGroup_two a.toNat_lt b.toNat_lt bytes
      rw [List.append_nil] at hloop
      simp only [hloop, List.length_nil, Nat.zero_add, hgroup]
      simp [bind, Except.bind, decodeLoop, Output.opened, residue]
  | case4 a b c source ih =>
      have hgroup := decodeGroup_three a.toNat_lt b.toNat_lt c.toNat_lt bytes
      have hres : residue (a :: b :: c :: source) = residue source := by
        have hmod : (source.length + 3) % 3 = source.length % 3 := by omega
        simp only [residue, List.length_cons, hmod]
      simp only [decodeLoop_encodeGroup, hgroup, bind, Except.bind, ih, hres]
      simp only [UInt8.ofNat_toNat, List.length_append, List.length_cons, List.length_nil]
      simp
      omega

theorem length_encodeLoop (source : List UInt8) :
    (encodeLoop source).length = (source.length + 2) / 3 * 4 := by
  fun_induction encodeLoop source with
  | case1 => rfl
  | case2 a => simp [encodeGroup]
  | case3 a b => simp [encodeGroup]
  | case4 a b c source ih =>
      simp only [List.length_append, ih, encodeGroup, List.length_cons, List.length_nil]
      omega

theorem encodeBase64_exact (source : List UInt8) : (encodeBase64 source).Exact := by
  simp only [encodeBase64, Written.Exact]
  split
  · rfl
  · rw [length_encodeLoop]
    split <;> simp only <;> omega

theorem string_encodeBase64 (source : List UInt8) :
    (encodeBase64 source).string = encodeLoop source := by
  rw [(encodeBase64_exact source).string_eq]
  cases source with
  | nil => simp [encodeBase64, encodeLoop]
  | cons a source => simp [encodeBase64]

theorem getD_append_sub (xs ys : List UInt8) {k : Nat} (hk : k ≤ ys.length) :
    (xs ++ ys).getD ((xs ++ ys).length - k) 0 = ys.getD (ys.length - k) 0 := by
  have hplace : xs.length + ys.length - k - xs.length = ys.length - k := by omega
  simp only [List.getD_eq_getElem?_getD, List.length_append]
  rw [List.getElem?_append_right (by omega), hplace]

theorem encodeLoop_pads (source : List UInt8) (h : source ≠ []) :
    ((encodeLoop source).getD ((encodeLoop source).length - 1) 0 = pad
        ↔ source.length % 3 ≠ 0) ∧
      ((encodeLoop source).getD ((encodeLoop source).length - 2) 0 = pad
        ↔ source.length % 3 = 1) := by
  fun_induction encodeLoop source with
  | case1 => contradiction
  | case2 a => simp [encodeGroup]
  | case3 a b =>
      have hsix := join_lt_sixteen _ (pieces b.toNat b.toNat_lt).low_four 0 (by decide)
      have hdigit := digit_ne_pad hsix
      simp [encodeGroup] at hdigit ⊢
      exact hdigit
  | case4 a b c source ih =>
      cases source with
      | nil =>
          have hb := pieces b.toNat b.toNat_lt
          have hc := pieces c.toNat c.toNat_lt
          have hthird := digit_ne_pad (join_lt_sixteen _ hb.low_four _ hc.high_two)
          have hfourth := digit_ne_pad hc.low_six
          simp [encodeGroup, encodeLoop, hthird, hfourth]
      | cons d source =>
          have hlen : 4 ≤ (encodeLoop (d :: source)).length := by
            rw [length_encodeLoop, List.length_cons]
            omega
          have hmod : (a :: b :: c :: d :: source).length % 3 = (d :: source).length % 3 := by
            simp only [List.length_cons]
            omega
          rw [getD_append_sub _ _ (by omega), getD_append_sub _ _ (by omega), hmod]
          exact ih (List.cons_ne_nil d source)

theorem decodeBase64_encodeBase64 (source : List UInt8) :
    decodeBase64 (encodeBase64 source).string
      = .ok ⟨source.length, source ++ residue source⟩ := by
  rw [string_encodeBase64]
  cases source with
  | nil => rfl
  | cons a source =>
      have hpads := encodeLoop_pads (a :: source) (List.cons_ne_nil a source)
      have hlen := length_encodeLoop (a :: source)
      have hloop := decodeLoop_encodeLoop (a :: source) []
      have hpos : (encodeLoop (a :: source)).length ≠ 0 := by
        rw [hlen, List.length_cons]
        omega
      have hfour : ¬ (encodeLoop (a :: source)).length % 4 > 0 := by omega
      simp only [decodeBase64, hpos, hfour, if_false, hpads.1, hpads.2]
      rw [show (⟨[], 0⟩ : Output) = .closed [] from rfl, hloop]
      simp only [bind, Except.bind, pure, Except.pure, List.nil_append]
      congr 2
      rw [hlen]
      split <;> split <;> omega

/-- Encoding and decoding give `source` again, each writing exactly the bytes it
allocated. -/
def RoundTrips (source : List UInt8) : Prop :=
  (encodeBase64 source).Exact ∧
    ∃ w, decodeBase64 (encodeBase64 source).string = .ok w ∧ w.string = source ∧ w.Exact

/-- The string comes back always; the decoder keeps to the length it allocated
only when no pad stands at the end, since it stores the start of the next byte
before it sees the pad. -/
theorem roundTrips_iff (source : List UInt8) :
    ((encodeBase64 source).Exact ∧
      ∃ w, decodeBase64 (encodeBase64 source).string = .ok w ∧ w.string = source) ∧
    (RoundTrips source ↔ source.length % 3 = 0) := by
  have hdecode := decodeBase64_encodeBase64 source
  have hexact := encodeBase64_exact source
  have hstring : (Written.mk source.length (source ++ residue source)).string = source := by
    simp [Written.string]
  refine ⟨⟨hexact, _, hdecode, hstring⟩, ?_⟩
  constructor
  · rintro ⟨-, w, hw, -, hwexact⟩
    rw [hdecode] at hw
    cases hw
    simp only [Written.Exact, residue, List.length_append] at hwexact
    split at hwexact
    · assumption
    · simp at hwexact
  · intro hthree
    refine ⟨hexact, _, hdecode, hstring, ?_⟩
    simp [Written.Exact, residue, hthree]

/-- `"A"` is encoded as `"QQ=="`, which allocates one byte and writes two. -/
theorem not_roundTrips_A : ¬ RoundTrips [65] := by
  have hdecode : decodeBase64 (encodeBase64 [65]).string = .ok ⟨1, [65, 0]⟩ := rfl
  rintro ⟨-, w, hw, -, hexact⟩
  rw [hdecode] at hw
  cases hw
  revert hexact
  decide

end Base64

end LeooRexx
