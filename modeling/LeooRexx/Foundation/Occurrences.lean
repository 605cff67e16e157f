import Mathlib.Order.Bounds.Basic
import Mathlib.Data.List.Basic
import Mathlib.Data.Nat.Find

/-!
# Occurrences

Places where something is hit, taken one after the other: each is the least at or
behind the place where the one before it ends.  What lies between the places can be
kept while they are replaced.
-/

namespace LeooRexx

inductive Successive (hit : ℕ → Prop) (width : ℕ) : ℕ → List ℕ → Prop where
  | none {start : ℕ} (h : ∀ i, start ≤ i → ¬ hit i) : Successive hit width start []
  | next {start i : ℕ} {places : List ℕ} (hleast : IsLeast {j | start ≤ j ∧ hit j} i)
      (hplaces : Successive hit width (i + width) places) :
      Successive hit width start (i :: places)

namespace Successive

variable {hit : ℕ → Prop} {width start size : ℕ} {places : List ℕ}

theorem exists_of_fits (hfits : ∀ i, hit i → 0 < width ∧ i + width ≤ size) (start : ℕ) :
    ∃ places, Successive hit width start places := by
  induction hleft : size + 1 - start using Nat.strong_induction_on generalizing start with
  | _ left ih =>
      by_cases hsome : ∃ i, start ≤ i ∧ hit i
      · classical
        have hleast : IsLeast {j | start ≤ j ∧ hit j} (Nat.find hsome) :=
          ⟨Nat.find_spec hsome, fun j hj => Nat.find_min' hsome hj⟩
        have hroom := hfits _ hleast.1.2
        have hfrom : start ≤ Nat.find hsome := hleast.1.1
        obtain ⟨places, hplaces⟩ := ih (size + 1 - (Nat.find hsome + width)) (by omega) _ rfl
        exact ⟨_, .next hleast hplaces⟩
      · exact ⟨[], .none fun i hi hhit => hsome ⟨i, hi, hhit⟩⟩

theorem room (h : Successive hit width start places) (hfits : ∀ i, hit i → i + width ≤ size)
    (hstart : start ≤ size) : start + places.length * width ≤ size := by
  induction h with
  | none _ => simpa using hstart
  | next hleast _ ih =>
      have hrest := ih (hfits _ hleast.1.2)
      have hfrom := hleast.1.1
      rw [List.length_cons, Nat.add_one_mul]
      omega

end Successive

variable {α : Type*}

def FirstOf (places : Set ℕ) (position : ℕ) : Prop :=
  position = 0 ∧ places = ∅ ∨ ∃ i, position = i + 1 ∧ IsLeast places i

def LastOf (places : Set ℕ) (position : ℕ) : Prop :=
  position = 0 ∧ places = ∅ ∨ ∃ i, position = i + 1 ∧ IsGreatest places i

/-- The needle stands in the haystack from place `i` on. -/
def OccursAt (needle haystack : List α) (i : ℕ) : Prop :=
  i + needle.length ≤ haystack.length ∧ (haystack.drop i).take needle.length = needle

def replaceAt (width : ℕ) (replacement text : List α) : ℕ → List ℕ → List α
  | start, [] => text.drop start
  | start, i :: places =>
      (text.drop start).take (i - start) ++ replacement ++
        replaceAt width replacement text (i + width) places

theorem length_replaceAt {hit : ℕ → Prop} {width start : ℕ} {places : List ℕ}
    (h : Successive hit width start places) (replacement text : List α)
    (hfits : ∀ i, hit i → i + width ≤ text.length) (count : ℕ) (hcount : count ≤ places.length) :
    (replaceAt width replacement text start (places.take count)).length + count * width =
      text.length - start + count * replacement.length := by
  induction h generalizing count with
  | none _ =>
      obtain rfl : count = 0 := by simpa using hcount
      simp [replaceAt]
  | @next start i places hleast hplaces ih =>
      cases count with
      | zero => simp [replaceAt]
      | succ count =>
          have hrest := ih count (by simpa using hcount)
          have hfrom : start ≤ i := hleast.1.1
          have hfit := hfits i hleast.1.2
          simp only [List.take_succ_cons, replaceAt, List.length_append, List.length_take,
            List.length_drop, Nat.add_one_mul]
          omega

end LeooRexx
