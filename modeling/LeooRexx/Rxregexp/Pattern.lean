import LeooRexx.Rxregexp.Automaton
import Mathlib.Computability.Language

/-!
# Reading the items of a set

The items that the grammar of `automaton.cpp` gives a set.  A set denotes its characters,
the characters between the ends of its ranges and those of its symbolic names.
-/

namespace LeooRexx.Rxregexp

inductive SetItem where
  | char (c : UInt8)
  | range (b e : UInt8)
  | symbolic (name : Symbolic)
  deriving DecidableEq, Repr

def SetItem.Denotes : SetItem → UInt8 → Prop
  | char d, c => c = d
  | range b e, c => min b.toNat e.toNat ≤ c.toNat ∧ c.toNat ≤ max b.toNat e.toNat
  | symbolic .blank, c => c = ch ' ' ∨ c = 9
  | symbolic (.func f), c => f.test c = true

instance : (item : SetItem) → (c : UInt8) → Decidable (item.Denotes c)
  | .char d, c => inferInstanceAs (Decidable (c = d))
  | .range b e, c =>
      inferInstanceAs (Decidable (min b.toNat e.toNat ≤ c.toNat ∧ c.toNat ≤ max b.toNat e.toNat))
  | .symbolic .blank, c => inferInstanceAs (Decidable (c = ch ' ' ∨ c = 9))
  | .symbolic (.func f), c => inferInstanceAs (Decidable (f.test c = true))

/-! ## Reading a set -/

def rangeItem (b e : UInt8) : Parsed SetItem :=
  if b = 127 ∨ e = 127 then .error .endless else .ok (.range b e)

abbrev ReadItem := SetItem × List UInt8 × UInt8

/-- The end of a range from `b` on. -/
def readRange (b : UInt8) : List UInt8 → Parsed ReadItem
  | [] => .error (.thrown .illegalSet)
  | e :: text =>
      if e = 0 ∨ e = ch ']' then .error (.thrown .illegalSet)
      else do
        let item ← rangeItem b e
        return (item, text, e)

def readEscape : List UInt8 → Parsed ReadItem
  | [] => .error (.thrown .illegalSet)
  | d :: text => if d = 0 then .error (.thrown .illegalSet) else .ok (.char d, text, d)

def readSymbolic (text : List UInt8) : Parsed ReadItem :=
  let name := symbolicName text
  if (text.drop name.length).headD 0 ≠ ch ':' then .error (.thrown .illegalSymbolicName)
  else
    match keyword (name.map toupper) with
    | none => .error (.thrown .illegalSymbolicName)
    | some symbolic => .ok (.symbolic symbolic, text.drop (name.length + 1), ch ':')

/-- The next item of a set; `some last` is the character before, once there is one. -/
def readItem (last : Option UInt8) : List UInt8 → Option (Parsed ReadItem)
  | [] => none
  | c :: text =>
      if c = 0 ∨ c = ch ']' then none
      else if c = ch '-' ∧ last ≠ none then some (readRange (last.getD 0) text)
      else if c = ch '\\' then some (readEscape text)
      else if c = ch ':' then some (readSymbolic text)
      else some (.ok (.char c, text, c))

theorem length_readRange {b : UInt8} {text : List UInt8} {r : ReadItem}
    (h : readRange b text = .ok r) : r.2.1.length < text.length := by
  cases text with
  | nil => cases h
  | cons e text =>
      rw [readRange] at h
      split at h
      · cases h
      · cases hitem : rangeItem b e with
        | error fault =>
            rw [hitem] at h
            cases h
        | ok item =>
            rw [hitem] at h
            cases h
            exact Nat.lt_succ_self _

theorem length_readEscape {text : List UInt8} {r : ReadItem} (h : readEscape text = .ok r) :
    r.2.1.length < text.length := by
  cases text with
  | nil => cases h
  | cons d text =>
      rw [readEscape] at h
      split at h
      · cases h
      · cases h
        exact Nat.lt_succ_self _

theorem length_readSymbolic {text : List UInt8} {r : ReadItem} (h : readSymbolic text = .ok r) :
    r.2.1.length ≤ text.length := by
  simp only [readSymbolic] at h
  split at h
  · cases h
  · split at h
    · cases h
    · cases h
      rw [List.length_drop]
      exact Nat.sub_le _ _

theorem length_readItem {last : Option UInt8} {text : List UInt8} {r : ReadItem}
    (h : readItem last text = some (.ok r)) : r.2.1.length < text.length := by
  cases text with
  | nil => cases h
  | cons c text =>
      rw [readItem] at h
      split at h
      · cases h
      · split at h
        · exact Nat.lt_succ_of_lt (length_readRange (Option.some.inj h))
        · split at h
          · exact Nat.lt_succ_of_lt (length_readEscape (Option.some.inj h))
          · split at h
            · exact Nat.lt_succ_of_le (length_readSymbolic (Option.some.inj h))
            · cases h
              exact Nat.lt_succ_self _

def setItems (last : Option UInt8) (text : List UInt8) : Parsed (List SetItem × List UInt8) :=
  match _h : readItem last text with
  | none => .ok ([], text)
  | some (.error fault) => .error fault
  | some (.ok r) => do
      let (items, text) ← setItems (some r.2.2) r.2.1
      return (r.1 :: items, text)
termination_by text.length
decreasing_by exact length_readItem _h

end LeooRexx.Rxregexp
