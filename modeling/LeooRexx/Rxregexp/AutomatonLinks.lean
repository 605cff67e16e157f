import LeooRexx.Rxregexp.Automaton
import Mathlib.Tactic.NormNum

/-!
# The links of an automaton

What a construct appends links to states of its own, to states before it and to the first state
behind it.  A construct changes nothing before it but first links, and these it sets to states of
its own.  So every link of a finished automaton leads to one of its states.
-/

namespace LeooRexx.Rxregexp

namespace Automaton

def Target (a : Automaton) (n : Nat) : Prop := 1 ≤ n ∧ n ≤ a.freeState

def Linked (a : Automaton) (i : Nat) : Prop :=
  a.Target (a.states i).next1 ∧ a.Target (a.states i).next2

section Setting

variable (a : Automaton) (position transition state1 state2 n : Nat) {i : Nat}

@[simp] theorem target_setState :
    (a.setState position transition state1 state2).Target n ↔ a.Target n := Iff.rfl

@[simp] theorem states_setState : (a.setState position transition state1 state2).states position =
    ⟨transition, state1, state2⟩ := by
  simp [setState]

theorem states_setState_of_ne (h : i ≠ position) :
    (a.setState position transition state1 state2).states i = a.states i := by
  simp [setState, h]

@[simp] theorem target_setNext1 : (a.setNext1 position state1).Target n ↔ a.Target n := Iff.rfl

@[simp] theorem next2_setNext1 :
    ((a.setNext1 position state1).states i).next2 = (a.states i).next2 := by
  by_cases h : i = position
  · rw [h, setNext1, states_setState]
  · rw [setNext1, states_setState_of_ne _ _ _ _ _ h]

theorem next1_setNext1 : ((a.setNext1 position state1).states i).next1 =
    if i = position then state1 else (a.states i).next1 := by
  split_ifs with h
  · rw [h, setNext1, states_setState]
  · rw [setNext1, states_setState_of_ne _ _ _ _ _ h]

@[simp] theorem states_append : (a.append transition state1 state2).states a.freeState =
    ⟨transition, state1, state2⟩ := states_setState _ _ _ _ _

theorem states_append_of_lt (h : i < a.freeState) :
    (a.append transition state1 state2).states i = a.states i :=
  states_setState_of_ne _ _ _ _ _ h.ne

end Setting

/-- From `a` to `a'` while a pattern is read; the states in `holes` are not set yet. -/
structure Extends (holes : List Nat) (a a' : Automaton) : Prop where
  grows : a.freeState ≤ a'.freeState
  fresh : ∀ i, a.freeState ≤ i → i < a'.freeState → i ∉ holes → a'.Linked i
  next2 : ∀ i < a.freeState, (a'.states i).next2 = (a.states i).next2
  next1 : ∀ i < a.freeState,
    (a'.states i).next1 = (a.states i).next1 ∨ a'.Target (a'.states i).next1

section Extends

variable {a a' a'' : Automaton} {holes holes' : List Nat}

theorem Target.mono {n : Nat} (h : a.Target n) (hle : a.freeState ≤ a'.freeState) :
    a'.Target n := ⟨h.1, h.2.trans hle⟩

theorem Extends.refl (a : Automaton) : Extends [] a a where
  grows := le_rfl
  fresh := fun _ h h' => absurd h' (Nat.not_lt.mpr h)
  next2 := fun _ _ => rfl
  next1 := fun _ _ => .inl rfl

theorem Extends.linked {i : Nat} (h : Extends holes a a') (hi : i < a.freeState)
    (hlinked : a.Linked i) : a'.Linked i := by
  constructor
  · rcases h.next1 i hi with heq | htarget
    · rw [heq]
      exact hlinked.1.mono h.grows
    · exact htarget
  · rw [h.next2 i hi]
    exact hlinked.2.mono h.grows

theorem Extends.trans (h : Extends holes a a') (h' : Extends holes' a' a'') :
    Extends (holes ++ holes') a a'' where
  grows := h.grows.trans h'.grows
  fresh := fun i hlo hhi hout => by
    rw [List.mem_append, not_or] at hout
    rcases Nat.lt_or_ge i a'.freeState with hlt | hge
    · exact h'.linked hlt (h.fresh i hlo hlt hout.1)
    · exact h'.fresh i hge hhi hout.2
  next2 := fun i hi => (h'.next2 i (hi.trans_le h.grows)).trans (h.next2 i hi)
  next1 := fun i hi => by
    rcases h'.next1 i (hi.trans_le h.grows) with heq | htarget
    · rw [heq]
      exact (h.next1 i hi).imp_right fun htarget => htarget.mono h'.grows
    · exact .inr htarget

theorem extends_append {transition state1 state2 : Nat}
    (h1 : (a.append transition state1 state2).Target state1)
    (h2 : (a.append transition state1 state2).Target state2) :
    Extends [] a (a.append transition state1 state2) where
  grows := Nat.le_succ _
  fresh := fun i hlo hhi _ => by
    obtain rfl : i = a.freeState := Nat.le_antisymm (Nat.le_of_lt_succ hhi) hlo
    rw [Linked, states_append]
    exact ⟨h1, h2⟩
  next2 := fun i hi => by rw [states_append_of_lt _ _ _ _ hi]
  next1 := fun i hi => .inl (by rw [states_append_of_lt _ _ _ _ hi])

theorem extends_skip (a : Automaton) (count : Nat) :
    Extends ((List.range count).map (a.freeState + ·)) a
      { a with freeState := a.freeState + count } where
  grows := Nat.le_add_right _ _
  fresh := fun i hlo hhi hout => by
    refine absurd (List.mem_map.mpr ⟨i - a.freeState, ?_, ?_⟩) hout
    · exact List.mem_range.mpr (by simp only at hhi; omega)
    · exact Nat.add_sub_cancel' hlo
  next2 := fun _ _ => rfl
  next1 := fun _ _ => .inl rfl

theorem Extends.fill (h : Extends holes a a') (left : List Nat) (position transition : Nat)
    {state1 state2 : Nat} (hholes : ∀ i ∈ holes, i = position ∨ i ∈ left)
    (hposition : a.freeState ≤ position) (h1 : a'.Target state1) (h2 : a'.Target state2) :
    Extends left a (a'.setState position transition state1 state2) where
  grows := h.grows
  fresh := fun i hlo hhi hout => by
    rw [Linked]
    by_cases hi : i = position
    · rw [hi, states_setState]
      exact ⟨h1, h2⟩
    · rw [states_setState_of_ne _ _ _ _ _ hi]
      exact h.fresh i hlo hhi fun hmem => (hholes i hmem).elim hi hout
  next2 := fun i hi => by
    rw [states_setState_of_ne _ _ _ _ _ (hi.trans_le hposition).ne, h.next2 i hi]
  next1 := fun i hi => by
    rw [states_setState_of_ne _ _ _ _ _ (hi.trans_le hposition).ne]
    exact h.next1 i hi

theorem Extends.setNext1 (h : Extends holes a a') (position : Nat) {state : Nat}
    (hstate : a'.Target state) : Extends holes a (a'.setNext1 position state) where
  grows := h.grows
  fresh := fun i hlo hhi hout => by
    have hlinked := h.fresh i hlo hhi hout
    rw [Linked, next1_setNext1, next2_setNext1]
    split_ifs
    · exact ⟨hstate, hlinked.2⟩
    · exact hlinked
  next2 := fun i hi => by rw [next2_setNext1, h.next2 i hi]
  next1 := fun i hi => by
    rw [next1_setNext1]
    split_ifs
    · exact .inr hstate
    · exact h.next1 i hi

end Extends

end Automaton

open Automaton

/-! ## Repetition -/

section Repetition

variable {a : Automaton} {size t1 t2 : Nat}

structure Copied (size count j : Nat) (a a' : Automaton) : Prop where
  free : a'.freeState = a.freeState + count
  kept : ∀ i < a.freeState, a'.states i = a.states i
  copied : ∀ i < count, a'.states (a.freeState + i) =
    ⟨(a.states (j + i)).ch, (a.states (j + i)).next1 + size, (a.states (j + i)).next2 + size⟩

theorem copied_copyStates (size count j : Nat) (h : j + count ≤ a.freeState) :
    Copied size count j a (copyStates size count j a) := by
  induction count generalizing j a with
  | zero => exact ⟨rfl, fun _ _ => rfl, fun i hi => absurd hi (Nat.not_lt_zero i)⟩
  | succ count ih =>
      obtain ⟨b, hb⟩ : ∃ b, b = a.append (a.states j).ch ((a.states j).next1 + size)
        ((a.states j).next2 + size) := ⟨_, rfl⟩
      have hfree : b.freeState = a.freeState + 1 := hb ▸ rfl
      have hkept : ∀ i < a.freeState, b.states i = a.states i := fun i hi => by
        rw [hb, states_append_of_lt _ _ _ _ hi]
      have hnew : b.states a.freeState =
          ⟨(a.states j).ch, (a.states j).next1 + size, (a.states j).next2 + size⟩ := by
        rw [hb, states_append]
      have hcopy := ih (j + 1) (a := b) (by omega)
      rw [copyStates, ← hb]
      refine ⟨by rw [hcopy.free, hfree]; omega, fun i hi => ?_, fun i hi => ?_⟩
      · rw [hcopy.kept i (by omega), hkept i hi]
      · cases i with
        | zero => simpa only [Nat.add_zero, hnew] using hcopy.kept a.freeState (by omega)
        | succ i =>
            have hread := hcopy.copied i (by omega)
            rw [show j + 1 + i = j + (i + 1) by omega, hkept _ (by omega), hfree,
              show a.freeState + 1 + i = a.freeState + (i + 1) by omega] at hread
            exact hread

theorem extends_copyStates {b : Automaton} (hle : t1 ≤ a.freeState)
    (hlinked : ∀ i, t1 ≤ i → i < a.freeState → a.Linked i) (hb : a.freeState ≤ b.freeState)
    (hkept : ∀ i < a.freeState, b.states i = a.states i) (hsize : size = b.freeState - t1)
    (hnew : ∀ i, a.freeState ≤ i → i < b.freeState →
      (1 ≤ (b.states i).next1 ∧ (b.states i).next1 ≤ a.freeState + size) ∧
        1 ≤ (b.states i).next2 ∧ (b.states i).next2 ≤ a.freeState + size) :
    (copyStates size (a.freeState - t1) t1 b).freeState = a.freeState + size ∧
      Extends [] a (copyStates size (a.freeState - t1) t1 b) := by
  have hcopy := copied_copyStates (a := b) size (a.freeState - t1) t1 (by omega)
  have hfree : (copyStates size (a.freeState - t1) t1 b).freeState = a.freeState + size := by
    rw [hcopy.free]
    omega
  have hold : ∀ i < a.freeState,
      (copyStates size (a.freeState - t1) t1 b).states i = a.states i := fun i hi => by
    rw [hcopy.kept i (by omega), hkept i hi]
  refine ⟨hfree, by rw [hfree]; omega, fun i hi hi' _ => ?_, fun i hi => by rw [hold i hi],
    fun i hi => .inl (by rw [hold i hi])⟩
  rw [Linked, Target, Target, hfree]
  rw [hfree] at hi'
  rcases Nat.lt_or_ge i b.freeState with hlt | hge
  · rw [hcopy.kept i hlt]
    exact hnew i hi hlt
  · obtain ⟨k, rfl⟩ := Nat.exists_eq_add_of_le hge
    have hk : k < a.freeState - t1 := by omega
    have hsource := hlinked (t1 + k) (by omega) (by omega)
    simp only [Linked, Target] at hsource
    rw [hcopy.copied k hk, hkept (t1 + k) (by omega)]
    dsimp only
    omega

theorem extends_repeatStates (size : Nat) (orExpression : Bool) (i t1 t2 : Nat) (h1 : 1 ≤ t1)
    (hle : t1 ≤ a.freeState) (h2 : a.Target t2)
    (hsize : size = a.freeState - t1 + if orExpression then 1 else 0)
    (hlinked : ∀ i, t1 ≤ i → i < a.freeState → a.Linked i) :
    Extends [] a (repeatStates size orExpression i t1 t2 a) := by
  induction i generalizing a t1 t2 with
  | zero => exact .refl a
  | succ i ih =>
      cases orExpression with
      | false =>
          obtain rfl : size = a.freeState - t1 := hsize
          obtain ⟨hfree, hcopy⟩ := extends_copyStates hle hlinked le_rfl (fun _ _ => rfl) rfl
            (fun _ hi hi' => absurd hi' (Nat.not_lt.mpr hi))
          obtain ⟨b, hb⟩ : ∃ b, b = copyStates (a.freeState - t1) (a.freeState - t1) t1 a :=
            ⟨_, rfl⟩
          rw [← hb] at hfree hcopy
          simp only [repeatStates, Bool.false_eq_true, if_false, ← hb]
          have hrest := ih (t1 + (a.freeState - t1)) t2 (a := b) (by omega) (by omega)
            (h2.mono hcopy.grows) (by simp only [Bool.false_eq_true, if_false]; omega)
            (fun i hi hi' => hcopy.fresh i (by omega) hi' List.not_mem_nil)
          exact hcopy.trans hrest
      | true =>
          obtain rfl : size = a.freeState - t1 + 1 := hsize
          obtain ⟨hpos2, hle2⟩ := h2
          obtain ⟨c, hc⟩ : ∃ c, c = a.append EPSILON (t2 + (a.freeState - t1 + 1))
            (t2 + (a.freeState - t1 + 1)) := ⟨_, rfl⟩
          have hcfree : c.freeState = a.freeState + 1 := hc ▸ rfl
          have hnew : ∀ i, a.freeState ≤ i → i < c.freeState →
              (1 ≤ (c.states i).next1 ∧
                (c.states i).next1 ≤ a.freeState + (a.freeState - t1 + 1)) ∧
              1 ≤ (c.states i).next2 ∧
                (c.states i).next2 ≤ a.freeState + (a.freeState - t1 + 1) := by
            intro i hi hi'
            obtain rfl : i = a.freeState := by omega
            rw [hc, states_append]
            dsimp only
            omega
          obtain ⟨hfree, hcopy⟩ := extends_copyStates (b := c) hle hlinked
            (by omega) (fun i hi => by rw [hc, states_append_of_lt _ _ _ _ hi]) (by omega) hnew
          obtain ⟨b, hb⟩ : ∃ b, b = copyStates (a.freeState - t1 + 1) (a.freeState - t1) t1 c :=
            ⟨_, rfl⟩
          rw [← hb] at hfree hcopy
          simp only [repeatStates, if_true, ← hc, ← hb]
          have hrest := ih (t1 + (a.freeState - t1 + 1)) (t2 + (a.freeState - t1 + 1)) (a := b)
            (by omega) (by omega) (by rw [Target]; omega)
            (by simp only [if_true]; omega)
            (fun i hi hi' => hcopy.fresh i (by omega) hi' List.not_mem_nil)
          exact hcopy.trans hrest

end Repetition

/-! ## Parsing -/

theorem Parsed.bind_eq_ok {α β : Type} {x : Parsed α} {f : α → Parsed β} {y : β}
    (h : x >>= f = .ok y) : ∃ z, x = .ok z ∧ f z = .ok y := by
  cases x with
  | error fault => cases h
  | ok z => exact ⟨z, rfl, h⟩

structure Built (a : Automaton) (r : Nat × Parser) : Prop where
  extend : Extends [] a r.2.automaton
  entry : r.2.automaton.Target r.1

theorem built_single {p : Parser} (transition : Nat) (h : 1 ≤ p.automaton.freeState) :
    Built p.automaton (single transition p) :=
  ⟨extends_append ⟨Nat.le_add_left _ _, le_rfl⟩ ⟨Nat.le_add_left _ _, le_rfl⟩,
    h, Nat.le_succ _⟩

theorem built_set {p : Parser} (h : 1 ≤ p.automaton.freeState) {r : Nat × Parser}
    (hset : set p = .ok r) : Built p.automaton r := by
  obtain ⟨⟨range, text⟩, -, hrest⟩ := Parsed.bind_eq_ok hset
  dsimp only at hrest
  split at hrest
  · cases hrest
  · obtain rfl := Except.ok.inj hrest
    have hskip : (if p.current = ch '^' then p.next else p).automaton = p.automaton := by
      split <;> rfl
    obtain ⟨a, ha⟩ : ∃ a, a =
        (insertSet (if p.current = ch '^' then p.next else p).automaton range).1 := ⟨_, rfl⟩
    have hsame : Extends [] p.automaton a := by
      rw [ha, hskip]
      exact ⟨le_rfl, (Extends.refl p.automaton).fresh, fun _ _ => rfl, fun _ _ => .inl rfl⟩
    have hfree : a.freeState = p.automaton.freeState := by
      rw [ha, hskip]
      rfl
    refine ⟨?_, ?_⟩
    · change Extends [] p.automaton (Automaton.append _ _ _ _)
      rw [← ha]
      exact hsame.trans
        (extends_append ⟨Nat.le_add_left _ _, le_rfl⟩ ⟨Nat.le_add_left _ _, le_rfl⟩)
    · change Target (Automaton.append _ _ _ _) _
      rw [← ha]
      exact ⟨hfree ▸ h, Nat.le_succ _⟩

/-! ### Postfix operators -/

section Postfix

variable {a : Automaton} {p : Parser} {t2 : Nat}

theorem Built.star (hoperand : Built a (t2, p)) (h : 1 ≤ a.freeState) (text : List UInt8) :
    Built a (p.automaton.freeState,
      ⟨(p.automaton.append EPSILON (p.automaton.freeState + 1) t2).setNext1 (a.freeState - 1)
        p.automaton.freeState, text⟩) := by
  obtain ⟨hextend, hpos, hle⟩ := hoperand
  have hstate : 1 ≤ p.automaton.freeState := h.trans hextend.grows
  have happend : Extends [] a (p.automaton.append EPSILON (p.automaton.freeState + 1) t2) :=
    hextend.trans (extends_append ⟨Nat.le_add_left _ _, le_rfl⟩ ⟨hpos, Nat.le_succ_of_le hle⟩)
  exact ⟨happend.setNext1 _ ⟨hstate, Nat.le_succ _⟩, hstate, Nat.le_succ _⟩

theorem Built.plus (hoperand : Built a (t2, p)) (h : 1 ≤ a.freeState) (text : List UInt8) :
    Built a (a.freeState,
      ⟨p.automaton.append EPSILON a.freeState (p.automaton.freeState + 1), text⟩) := by
  have hgrows : a.freeState ≤ p.automaton.freeState := hoperand.extend.grows
  exact ⟨hoperand.extend.trans (extends_append ⟨h, Nat.le_succ_of_le hgrows⟩
    ⟨Nat.le_add_left _ _, le_rfl⟩), h, Nat.le_succ_of_le hgrows⟩

theorem Built.repeat (hoperand : Built a (t2, p)) (h : 1 ≤ a.freeState) (i : Nat)
    (text : List UInt8) :
    Built a (t2, ⟨repeatStates (if a.freeState ≠ t2 then p.automaton.freeState - a.freeState + 1
      else p.automaton.freeState - a.freeState) (decide (a.freeState ≠ t2)) i a.freeState t2
        p.automaton, text⟩) := by
  obtain ⟨hextend, hentry⟩ := hoperand
  have hrepeat := extends_repeatStates (if a.freeState ≠ t2 then
      p.automaton.freeState - a.freeState + 1 else p.automaton.freeState - a.freeState)
    (decide (a.freeState ≠ t2)) i a.freeState t2 h hextend.grows hentry
    (by by_cases heq : a.freeState = t2 <;> simp [heq])
    (fun i hi hi' => hextend.fresh i hi hi' List.not_mem_nil)
  exact ⟨hextend.trans hrepeat, hentry.mono hrepeat.grows⟩

end Postfix

theorem built_postfixOperators {a : Automaton} {p : Parser} {t2 : Nat} (h : 1 ≤ a.freeState)
    (hoperand : Built a (t2, p)) {r : Nat × Parser}
    (hoperators : postfixOperators a.freeState t2 p = .ok r) : Built a r := by
  rw [postfixOperators] at hoperators
  dsimp only at hoperators
  by_cases hstar : p.current = ch '*'
  · rw [if_pos hstar] at hoperators
    obtain rfl := Except.ok.inj hoperators
    exact hoperand.star h _
  · rw [if_neg hstar] at hoperators
    by_cases hplus : p.current = ch '+'
    · rw [if_pos hplus] at hoperators
      obtain rfl := Except.ok.inj hoperators
      exact hoperand.plus h _
    · rw [if_neg hplus] at hoperators
      split at hoperators
      · split at hoperators
        · cases hoperators
        · split at hoperators
          · cases hoperators
          · obtain rfl := Except.ok.inj hoperators
            simpa only [decide_eq_true_eq] using hoperand.repeat h _ _
      · obtain rfl := Except.ok.inj hoperators
        exact hoperand

/-! ### The recursion -/

theorem Built.trans {a : Automaton} {r r' : Nat × Parser} (h : Built a r)
    (h' : Built r.2.automaton r') : Built a (r.1, r'.2) :=
  ⟨h.extend.trans h'.extend, h.entry.mono h'.extend.grows⟩

theorem Built.behind {a : Automaton} {r r' : Nat × Parser} (h : Built a r)
    (h' : Built { r.2.automaton with freeState := r.2.automaton.freeState + 1 } r') :
    Built a (r.1, ⟨r'.2.automaton.setState r.2.automaton.freeState EPSILON r'.1 r'.1,
      r'.2.text⟩) := by
  have hall := (h.extend.trans (extends_skip r.2.automaton 1)).trans h'.extend
  have hfill := hall.fill [] r.2.automaton.freeState EPSILON (by simp) h.extend.grows h'.entry
    h'.entry
  exact ⟨hfill, h.entry.mono ((Nat.le_succ _).trans h'.extend.grows)⟩

theorem Built.alternation {a : Automaton} {r r' : Nat × Parser} (h : Built a r)
    (h' : Built { r.2.automaton with freeState := r.2.automaton.freeState + 2 } r') :
    Built a (r.2.automaton.freeState + 1,
      ⟨((r'.2.automaton.setState (r.2.automaton.freeState + 1) EPSILON r'.1 r.1).setState
        r.2.automaton.freeState EPSILON r'.2.automaton.freeState
          r'.2.automaton.freeState).setNext1 (r.1 - 1) (r.2.automaton.freeState + 1),
        r'.2.text⟩) := by
  have hgrows : r.2.automaton.freeState + 2 ≤ r'.2.automaton.freeState := h'.extend.grows
  have hall := (h.extend.trans (extends_skip r.2.automaton 2)).trans h'.extend
  have hentry := hall.fill [r.2.automaton.freeState] (r.2.automaton.freeState + 1) EPSILON
    (by simp [List.range_succ]) (h.extend.grows.trans (Nat.le_succ _)) h'.entry
    (h.entry.mono (by omega))
  have hfree : r'.2.automaton.Target r'.2.automaton.freeState := ⟨by omega, le_rfl⟩
  have hleave := hentry.fill [] r.2.automaton.freeState EPSILON (by simp) h.extend.grows hfree
    hfree
  have htarget : r'.2.automaton.Target (r.2.automaton.freeState + 1) :=
    ⟨Nat.le_add_left _ _, by omega⟩
  exact ⟨hleave.setNext1 _ htarget, htarget⟩

theorem built_grammar (fuel : Nat) {p : Parser} (h : 1 ≤ p.automaton.freeState) {r : Nat × Parser} :
    (expression fuel p = .ok r → Built p.automaton r) ∧
      (term fuel p = .ok r → Built p.automaton r) ∧
        (factor fuel p = .ok r → Built p.automaton r) := by
  induction fuel generalizing p r with
  | zero => exact ⟨fun h => (nomatch h), fun h => (nomatch h), fun h => (nomatch h)⟩
  | succ fuel ih =>
      refine ⟨fun hparse => ?_, fun hparse => ?_, fun hparse => ?_⟩
      · obtain ⟨⟨t1, q⟩, hterm, hrest⟩ := Parsed.bind_eq_ok hparse
        have hbuilt := (ih h).2.1 hterm
        dsimp only at hrest
        split at hrest
        · obtain ⟨⟨e, q'⟩, hexpression, hfinal⟩ := Parsed.bind_eq_ok hrest
          obtain rfl := Except.ok.inj hfinal
          exact hbuilt.alternation ((ih (p := ⟨_, _⟩) (by simp)).1 hexpression)
        · obtain rfl := Except.ok.inj hrest
          exact hbuilt
      · obtain ⟨⟨t, q⟩, hfactor, hrest⟩ := Parsed.bind_eq_ok hparse
        have hbuilt := (ih h).2.2 hfactor
        dsimp only at hrest
        split at hrest
        · obtain ⟨⟨t2, q'⟩, hterm, hfinal⟩ := Parsed.bind_eq_ok hrest
          obtain rfl := Except.ok.inj hfinal
          exact hbuilt.behind ((ih (p := ⟨_, _⟩) (by simp)).2.1 hterm)
        · split at hrest
          · obtain ⟨⟨t2, q'⟩, hterm, hfinal⟩ := Parsed.bind_eq_ok hrest
            obtain rfl := Except.ok.inj hfinal
            exact hbuilt.trans ((ih (h.trans hbuilt.extend.grows)).2.1 hterm)
          · obtain rfl := Except.ok.inj hrest
            exact hbuilt
      · rw [factor] at hparse
        dsimp only at hparse
        split at hparse
        · exact built_postfixOperators h (built_single _ h) hparse
        · split at hparse
          · split at hparse
            · cases hparse
            · exact built_postfixOperators h (built_single (p := p.next) _ h) hparse
          · split at hparse
            · obtain ⟨⟨t2, q⟩, hset, hrest⟩ := Parsed.bind_eq_ok hparse
              have hbuilt := built_set (p := p.next) h hset
              dsimp only at hrest
              split at hrest
              · exact built_postfixOperators h (p := q.next) ⟨hbuilt.extend, hbuilt.entry⟩ hrest
              · cases hrest
            · split at hparse
              · obtain ⟨⟨t2, q⟩, hexpression, hrest⟩ := Parsed.bind_eq_ok hparse
                have hbuilt := (ih (p := p.next) h).1 hexpression
                dsimp only at hrest
                split at hrest
                · exact built_postfixOperators h (p := q.next) ⟨hbuilt.extend, hbuilt.entry⟩ hrest
                · cases hrest
              · split at hparse
                · exact built_postfixOperators h (built_single _ h) hparse
                · cases hparse

/-! ## Finished automata -/

/-- The final state is the last but one, and every state before it links to states up to it. -/
structure Finished (minimal : Bool) (a : Automaton) (final : Nat) : Prop where
  start : (a.states 0).ch = EPSILON ∧ (a.states 0).next1 = (a.states 0).next2 ∧
    1 ≤ (a.states 0).next1 ∧ (a.states 0).next1 ≤ final
  linked : ∀ i, 1 ≤ i → i < final →
    (1 ≤ (a.states i).next1 ∧ (a.states i).next1 ≤ final) ∧
      1 ≤ (a.states i).next2 ∧ (a.states i).next2 ≤ final
  accept : a.states final = if minimal then ⟨EPSILON, EOP, EOP⟩ else ⟨0, final + 1, final + 1⟩
  last : a.states (final + 1) = ⟨EPSILON, EOP, EOP⟩

theorem finished_finish {minimal : Bool} {start : Nat} {a : Automaton} (hpos : 1 ≤ a.freeState)
    (hstart : a.Target start) (hlinked : ∀ i, 1 ≤ i → i < a.freeState → a.Linked i) :
    Finished minimal (finish minimal start a) a.freeState := by
  obtain ⟨transition, state, hfinish⟩ : ∃ transition state,
      finish minimal start a = ((a.setState 0 EPSILON start start).append transition state
        state).setState (a.freeState + 1) EPSILON EOP EOP ∧
      (⟨transition, state, state⟩ : State) =
        if minimal then ⟨EPSILON, EOP, EOP⟩ else ⟨0, a.freeState + 1, a.freeState + 1⟩ := by
    cases minimal
    · exact ⟨0, a.freeState + 1, rfl, rfl⟩
    · exact ⟨EPSILON, EOP, rfl, rfl⟩
  obtain ⟨hfinish, haccept⟩ := hfinish
  have hbefore : ∀ i < a.freeState, (finish minimal start a).states i =
      (a.setState 0 EPSILON start start).states i := fun i hi => by
    rw [hfinish, states_setState_of_ne _ _ _ _ _ (by omega)]
    exact states_append_of_lt (a.setState 0 EPSILON start start) _ _ _ hi
  refine ⟨?_, fun i hi hi' => ?_, ?_, ?_⟩
  · rw [hbefore 0 hpos, states_setState]
    exact ⟨rfl, rfl, hstart.1, hstart.2⟩
  · rw [hbefore i hi', states_setState_of_ne _ _ _ _ _ (by omega)]
    exact hlinked i hi hi'
  · rw [hfinish, states_setState_of_ne _ _ _ _ _ (by omega), ← haccept]
    exact states_append (a.setState 0 EPSILON start start) _ _ _
  · rw [hfinish, states_setState]

theorem freeState_finish (minimal : Bool) (start : Nat) (a : Automaton) :
    (finish minimal start a).freeState = a.freeState + 1 := by
  cases minimal <;> rfl

theorem finished_parse {minimal : Bool} {memory : Nat → State} {regexp : List UInt8}
    {a : Automaton} (h : parse minimal memory regexp = .ok a) :
    ∃ final, 1 ≤ final ∧ a.freeState = final + 1 ∧ Finished minimal a final := by
  obtain ⟨⟨start, p⟩, hexpression, hfinish⟩ := Parsed.bind_eq_ok h
  obtain rfl := Except.ok.inj hfinish
  have hbuilt := (built_grammar _ (p := ⟨_, _⟩) le_rfl).1 hexpression
  have hfinal : 1 ≤ p.automaton.freeState := hbuilt.extend.grows
  exact ⟨p.automaton.freeState, hfinal, freeState_finish _ _ _, finished_finish hfinal
    hbuilt.entry fun i hi hi' => hbuilt.extend.fresh i hi hi' List.not_mem_nil⟩

end LeooRexx.Rxregexp
