import LeooRexx.Rxregexp.AutomatonLinks
import Mathlib.Logic.Relation
import Mathlib.Data.Fintype.Card
import Mathlib.Data.Fintype.Fin

/-!
# Runs of the matcher

What the loop takes from the queue for one character it explores along the epsilon transitions,
and it keeps no record of where it has been.  On a cycle of them the exploration never comes to
an end.  Where the loop takes no state of a cycle, the exploration of a state ends, then that of
a character, and the loop ends with the string.
-/

namespace LeooRexx.Rxregexp

open Automaton Relation

namespace Automaton

def Epsilon (a : Automaton) (q q' : Nat) : Prop :=
  q ≠ EOP ∧ (a.states q).ch &&& SCAN = EPSILON ∧
    (q' = (a.states q).next1 ∨ q' = (a.states q).next2)

def OnCycle (a : Automaton) (q : Nat) : Prop := TransGen a.Epsilon q q

end Automaton

section Runs

variable (a : Automaton) (minimal : Bool) (string : List UInt8) (beyond : Nat → UInt8)

/-! ## One iteration -/

def pop (dq : List Entry) (j : Nat) : MatchResult ⊕ Entry × List Entry × Nat :=
  if dq = [Entry.scan] ∨ j > string.length + 1 then .inl ⟨false, min j string.length⟩
  else
    match dq with
    | [] => .inl ⟨true, min j string.length⟩
    | entry :: dq => .inr (entry, dq, j)

def iteration (entry : Entry) (dq : List Entry) (j : Nat) :
    MatchResult ⊕ Entry × List Entry × Nat :=
  match entry with
  | .scan =>
      if minimal ∧ j = string.length then .inl ⟨false, min j string.length⟩
      else pop string (dq ++ [Entry.scan]) (j + 1)
  | .state n =>
      if n = EOP then .inl ⟨true, min j string.length⟩
      else pop string (transitions a string.length (string.getD j (beyond j)) n j dq) j

theorem matchLoop_succ (fuel : Nat) (entry : Entry) (dq : List Entry) (j : Nat) :
    matchLoop a minimal string beyond (fuel + 1) entry dq j =
      (iteration a minimal string beyond entry dq j).elim some fun c =>
        matchLoop a minimal string beyond fuel c.1 c.2.1 c.2.2 := by
  have hpop : ∀ dq j, (pop string dq j).elim some (fun c =>
      matchLoop a minimal string beyond fuel c.1 c.2.1 c.2.2) =
        if dq = [Entry.scan] ∨ j > string.length + 1 then some ⟨false, min j string.length⟩
        else match dq with
          | [] => some ⟨true, min j string.length⟩
          | entry :: dq => matchLoop a minimal string beyond fuel entry dq j := by
    intro dq j
    rw [pop.eq_def]
    split_ifs
    · rfl
    · cases dq <;> rfl
  cases entry with
  | scan =>
      rw [matchLoop.eq_def, iteration]
      simp only [reduceCtorEq, if_false, true_and]
      by_cases hend : minimal ∧ j = string.length
      · rw [if_pos hend, if_pos hend]
        rfl
      · rw [if_neg hend, if_neg hend]
        exact (hpop _ _).symm
  | state n =>
      rw [matchLoop.eq_def, iteration]
      simp only [Entry.state.injEq, reduceCtorEq, false_and, if_false]
      by_cases hend : n = EOP
      · rw [if_pos hend, if_pos hend]
        rfl
      · rw [if_neg hend, if_neg hend]
        exact (hpop _ _).symm

/-- What the loop takes from the queue, with what is left of it, at a place of the string. -/
inductive Popped : Entry → List Entry → Nat → Prop
  | start : Popped (.state (a.states 0).next1) [.scan] 0
  | step {entry entry' : Entry} {dq dq' : List Entry} {j j' : Nat} : Popped entry dq j →
      iteration a minimal string beyond entry dq j = .inr (entry', dq', j') →
        Popped entry' dq' j'

def Takes (n : Nat) : Prop := ∃ dq j, Popped a minimal string beyond (.state n) dq j

def Ends (entry : Entry) (dq : List Entry) (j : Nat) : Prop :=
  ∃ fuel r, matchLoop a minimal string beyond fuel entry dq j = some r

def EndsFrom (dq : List Entry) (j : Nat) : Prop :=
  ∀ entry rest, dq = entry :: rest → Popped a minimal string beyond entry rest j →
    Ends a minimal string beyond entry rest j

variable {a minimal string beyond}

theorem Popped.ends {entry : Entry} {dq : List Entry} {j : Nat}
    (h : Popped a minimal string beyond entry dq j)
    (hnext : ∀ entry' dq' j',
      iteration a minimal string beyond entry dq j = .inr (entry', dq', j') →
        EndsFrom a minimal string beyond (entry' :: dq') j') :
    Ends a minimal string beyond entry dq j := by
  cases hiteration : iteration a minimal string beyond entry dq j with
  | inl r =>
      refine ⟨1, r, ?_⟩
      rw [matchLoop_succ, hiteration]
      rfl
  | inr c =>
      obtain ⟨entry', dq', j'⟩ := c
      obtain ⟨fuel, r, hrun⟩ := hnext _ _ _ hiteration entry' dq' rfl (h.step hiteration)
      refine ⟨fuel + 1, r, ?_⟩
      rw [matchLoop_succ, hiteration]
      exact hrun

theorem pop_eq_inr {dq dq' : List Entry} {j j' : Nat} {entry : Entry}
    (h : pop string dq j = .inr (entry, dq', j')) :
    dq = entry :: dq' ∧ j' = j ∧ j ≤ string.length + 1 := by
  rw [pop.eq_def] at h
  split at h
  · cases h
  · rename_i hnot
    cases dq with
    | nil => cases h
    | cons entry'' dq'' =>
        cases h
        exact ⟨rfl, rfl, Nat.not_lt.mp (not_or.mp hnot).2⟩

theorem pop_state {j : Nat} (hj : j ≤ string.length + 1) (n : Nat) (dq : List Entry) :
    pop string (.state n :: dq) j = .inr (.state n, dq, j) := by
  rw [pop.eq_def, if_neg]
  rintro (h | h)
  · cases h
  · omega

theorem iteration_state {n : Nat} {dq dq' : List Entry} {j j' : Nat} {entry : Entry}
    (h : iteration a minimal string beyond (.state n) dq j = .inr (entry, dq', j')) :
    n ≠ EOP ∧ transitions a string.length (string.getD j (beyond j)) n j dq = entry :: dq' ∧
      j' = j ∧ j ≤ string.length + 1 := by
  rw [iteration] at h
  split at h
  · cases h
  · exact ⟨‹_›, pop_eq_inr h⟩

theorem iteration_scan {dq dq' : List Entry} {j j' : Nat} {entry : Entry}
    (h : iteration a minimal string beyond .scan dq j = .inr (entry, dq', j')) :
    dq ++ [Entry.scan] = entry :: dq' ∧ j' = j + 1 ∧ j ≤ string.length := by
  rw [iteration] at h
  split at h
  · cases h
  · obtain ⟨hdq, hj, hle⟩ := pop_eq_inr h
    exact ⟨hdq, hj, by omega⟩

theorem transitions_epsilon {size n j : Nat} {c : UInt8} {dq : List Entry}
    (h : (a.states n).ch &&& SCAN = EPSILON) :
    transitions a size c n j dq = if (a.states n).next1 ≠ (a.states n).next2 then
      .state (a.states n).next2 :: .state (a.states n).next1 :: dq
    else .state (a.states n).next1 :: dq := by
  rw [transitions]
  exact if_pos h

theorem putIf_eq (dq : List Entry) (found : Bool) (next : Nat) :
    ∃ tail : List Nat, (∀ n ∈ tail, n = next) ∧
      putIf dq found next = dq ++ tail.map Entry.state := by
  cases found with
  | false => exact ⟨[], by simp, by simp [putIf]⟩
  | true => exact ⟨[next], by simp, by simp [putIf]⟩

theorem transitions_consuming {n : Nat} (h : (a.states n).ch &&& SCAN ≠ EPSILON)
    (size : Nat) (c : UInt8) (j : Nat) (dq : List Entry) :
    ∃ tail : List Nat, (∀ m ∈ tail, m = (a.states n).next1) ∧
      transitions a size c n j dq = dq ++ tail.map Entry.state := by
  rw [transitions]
  dsimp only
  rw [if_neg h]
  split_ifs
  · exact putIf_eq _ _ _
  · exact putIf_eq _ _ _
  · exact putIf_eq _ _ _
  · exact putIf_eq _ _ _
  · exact ⟨[], by simp, by simp⟩

/-! ## Exploring -/

/-- No state of the automaton links to one behind `last`. -/
def Closed (a : Automaton) (last : Nat) : Prop :=
  ∀ q ≤ last, (a.states q).next1 ≤ last ∧ (a.states q).next2 ≤ last

theorem Closed.epsilon {last : Nat} (h : Closed a last) {q q' : Nat} (hq : q ≤ last)
    (hepsilon : a.Epsilon q q') : q' ≤ last := by
  rcases hepsilon.2.2 with rfl | rfl
  · exact (h q hq).1
  · exact (h q hq).2

theorem wellFounded_epsilon (a : Automaton) (last : Nat) :
    WellFounded fun q' q : Fin (last + 1) => a.Epsilon q q' ∧ ¬ a.OnCycle q := by
  obtain ⟨forward, hforward⟩ : ∃ r : Fin (last + 1) → Fin (last + 1) → Prop,
      ∀ q q', r q q' ↔ a.Epsilon q q' ∧ ¬ a.OnCycle q := ⟨_, fun _ _ => Iff.rfl⟩
  have htrans : IsTrans (Fin (last + 1)) fun q' q => TransGen forward q q' :=
    ⟨fun _ _ _ h h' => h'.trans h⟩
  have hlift : ∀ q q' : Fin (last + 1), TransGen forward q q' → TransGen a.Epsilon q q' :=
    fun q q' h => TransGen.lift Fin.val (fun q q' h => ((hforward q q').mp h).1) q q' h
  have hirrefl : Std.Irrefl fun q' q => TransGen forward q q' := by
    refine ⟨fun q hcycle => ?_⟩
    obtain ⟨q', hfirst, -⟩ := TransGen.head'_iff.mp hcycle
    exact ((hforward q q').mp hfirst).2 (hlift _ _ hcycle)
  have hclosure := Finite.wellFounded_of_trans_of_irrefl fun q' q => TransGen forward q q'
  exact Subrelation.wf (fun h => TransGen.single ((hforward _ _).mpr h)) hclosure

section Exploring

variable {last : Nat} (hclosed : Closed a last)
  (hcycle : ∀ n, Takes a minimal string beyond n → ¬ a.OnCycle n)

include hclosed hcycle

theorem endsFrom_state (q : Fin (last + 1)) (cur : List Entry) (j : Nat)
    (hrest : ∀ next : List Nat, (∀ n ∈ next, n ≤ last) →
      EndsFrom a minimal string beyond (cur ++ .scan :: next.map Entry.state) j)
    (next : List Nat) (hnext : ∀ n ∈ next, n ≤ last) :
    EndsFrom a minimal string beyond (.state q :: (cur ++ .scan :: next.map Entry.state)) j := by
  induction q using (wellFounded_epsilon a last).induction generalizing cur next with
  | _ q ih =>
      rintro entry rest heq hpopped
      obtain ⟨rfl, rfl⟩ := List.cons.inj heq
      refine hpopped.ends fun entry' dq' j' hiteration => ?_
      obtain ⟨hq, htransitions, rfl, -⟩ := iteration_state hiteration
      rw [← htransitions]
      by_cases hkind : (a.states q).ch &&& SCAN = EPSILON
      · have hoff := hcycle q ⟨_, _, hpopped⟩
        obtain ⟨h1, h2⟩ := hclosed q (Nat.le_of_lt_succ q.isLt)
        have hfirst : ∀ next : List Nat, (∀ n ∈ next, n ≤ last) →
            EndsFrom a minimal string beyond
              (.state (a.states q).next1 :: (cur ++ .scan :: next.map Entry.state)) j' :=
          fun next hnext => ih ⟨(a.states q).next1, Nat.lt_succ_of_le h1⟩
            ⟨⟨hq, hkind, .inl rfl⟩, hoff⟩ cur hrest next hnext
        rw [transitions_epsilon hkind]
        split
        · exact ih ⟨(a.states q).next2, Nat.lt_succ_of_le h2⟩ ⟨⟨hq, hkind, .inr rfl⟩, hoff⟩
            (.state (a.states q).next1 :: cur) hfirst next hnext
        · exact hfirst next hnext
      · obtain ⟨tail, htail, hput⟩ := transitions_consuming hkind string.length
          (string.getD j' (beyond j')) j' (cur ++ .scan :: next.map Entry.state)
        have hbound : ∀ n ∈ next ++ tail, n ≤ last := by
          intro n hn
          rcases List.mem_append.mp hn with hn | hn
          · exact hnext n hn
          · rw [htail n hn]
            exact (hclosed q (Nat.le_of_lt_succ q.isLt)).1
        have happend : cur ++ .scan :: next.map Entry.state ++ tail.map Entry.state =
            cur ++ .scan :: (next ++ tail).map Entry.state := by simp
        rw [hput, happend]
        exact hrest (next ++ tail) hbound

theorem endsFrom_states (cur : List Nat) (hcur : ∀ n ∈ cur, n ≤ last) (j : Nat)
    (hscan : ∀ next : List Nat, (∀ n ∈ next, n ≤ last) →
      EndsFrom a minimal string beyond (.scan :: next.map Entry.state) j)
    (next : List Nat) (hnext : ∀ n ∈ next, n ≤ last) :
    EndsFrom a minimal string beyond
      (cur.map Entry.state ++ .scan :: next.map Entry.state) j := by
  induction cur generalizing next with
  | nil => exact hscan next hnext
  | cons q cur ih =>
      rw [List.forall_mem_cons] at hcur
      exact endsFrom_state hclosed hcycle ⟨q, Nat.lt_succ_of_le hcur.1⟩ (cur.map Entry.state) j
        (ih hcur.2) next hnext

theorem endsFrom_scan (left : Nat) {j : Nat} (hj : string.length + 1 ≤ j + left)
    (next : List Nat) (hnext : ∀ n ∈ next, n ≤ last) :
    EndsFrom a minimal string beyond (.scan :: next.map Entry.state) j := by
  induction left generalizing j next with
  | zero =>
      rintro entry rest heq hpopped
      obtain ⟨rfl, rfl⟩ := List.cons.inj heq
      refine hpopped.ends fun entry' dq' j' hiteration => ?_
      have hle := (iteration_scan hiteration).2.2
      omega
  | succ left ih =>
      rintro entry rest heq hpopped
      obtain ⟨rfl, rfl⟩ := List.cons.inj heq
      refine hpopped.ends fun entry' dq' j' hiteration => ?_
      obtain ⟨hdq, rfl, -⟩ := iteration_scan hiteration
      rw [← hdq]
      exact endsFrom_states hclosed hcycle next hnext (j + 1)
        (fun next' hnext' => ih (by omega) next' hnext') [] (by simp)

theorem automatonMatch_ends (hstart : (a.states 0).next1 ≤ last) :
    ∃ fuel r, automatonMatch a minimal string beyond fuel = some r :=
  endsFrom_states hclosed hcycle [(a.states 0).next1] (by simpa using hstart) 0
    (fun next hnext => endsFrom_scan hclosed hcycle (string.length + 1) (by omega) next hnext)
    [] (by simp) _ _ rfl .start

end Exploring

/-! ## Cycles -/

def Doomed (a : Automaton) (q : Nat) : Prop := ∃ q', ReflTransGen a.Epsilon q q' ∧ a.OnCycle q'

theorem Doomed.exists_epsilon {q : Nat} (h : Doomed a q) : ∃ q', a.Epsilon q q' ∧ Doomed a q' := by
  obtain ⟨c, hpath, hcycle⟩ := h
  rcases ReflTransGen.cases_head hpath with rfl | ⟨q', hfirst, hpath⟩
  · obtain ⟨q', hfirst, hback⟩ := TransGen.head'_iff.mp hcycle
    exact ⟨q', hfirst, q, hback, hcycle⟩
  · exact ⟨q', hfirst, c, hpath, hcycle⟩

/-- What is explored never comes to what is behind it: a state that leads to a cycle is among it,
and the end state is not within reach. -/
theorem matchLoop_doomed (fuel : Nat) (front : List Nat) {q : Nat} (rest : List Entry) {j : Nat}
    (hj : j ≤ string.length + 1) (hdoomed : ∃ n ∈ q :: front, Doomed a n)
    (hend : ∀ n ∈ q :: front, ¬ ReflTransGen a.Epsilon n EOP) :
    matchLoop a minimal string beyond fuel (.state q) (front.map Entry.state ++ rest) j = none := by
  induction fuel generalizing q front rest with
  | zero => rfl
  | succ fuel ih =>
      obtain ⟨hend, hends⟩ := List.forall_mem_cons.mp hend
      have hq : q ≠ EOP := fun h => hend (h ▸ .refl)
      rw [matchLoop_succ, iteration, if_neg hq]
      by_cases hkind : (a.states q).ch &&& SCAN = EPSILON
      · have h1 : a.Epsilon q (a.states q).next1 := ⟨hq, hkind, .inl rfl⟩
        have h2 : a.Epsilon q (a.states q).next2 := ⟨hq, hkind, .inr rfl⟩
        have hend1 : ¬ ReflTransGen a.Epsilon (a.states q).next1 EOP := fun h => hend (.head h1 h)
        have hend2 : ¬ ReflTransGen a.Epsilon (a.states q).next2 EOP := fun h => hend (.head h2 h)
        -- the successors take the place of the state
        have hsuccessors : Doomed a (a.states q).next2 ∨ Doomed a (a.states q).next1 ∨
            ∃ n ∈ front, Doomed a n := by
          obtain ⟨n, hn, hdoomed⟩ := hdoomed
          rcases List.mem_cons.mp hn with rfl | hn
          · obtain ⟨q', hepsilon, hdoomed⟩ := hdoomed.exists_epsilon
            rcases hepsilon.2.2 with rfl | rfl
            · exact .inr (.inl hdoomed)
            · exact .inl hdoomed
          · exact .inr (.inr ⟨n, hn, hdoomed⟩)
        rw [transitions_epsilon hkind]
        split
        · rw [pop_state hj]
          exact ih ((a.states q).next1 :: front) rest (by simpa using hsuccessors)
            (by simpa using ⟨hend2, hend1, hends⟩)
        · rename_i hsame
          rw [not_not] at hsame
          rw [pop_state hj]
          exact ih front rest (by simpa [hsame] using hsuccessors) (by simpa using ⟨hend1, hends⟩)
      · obtain ⟨tail, -, hput⟩ := transitions_consuming hkind string.length
          (string.getD j (beyond j)) j (front.map Entry.state ++ rest)
        have hfront : ∃ n ∈ front, Doomed a n := by
          obtain ⟨n, hn, hdoomed⟩ := hdoomed
          rcases List.mem_cons.mp hn with rfl | hn
          · obtain ⟨q', hepsilon, -⟩ := hdoomed.exists_epsilon
            exact absurd hepsilon.2.1 hkind
          · exact ⟨n, hn, hdoomed⟩
        rw [hput]
        cases front with
        | nil => simp at hfront
        | cons q' front =>
            rw [List.map_cons, List.cons_append, List.cons_append, pop_state hj, List.append_assoc]
            exact ih front (rest ++ tail.map Entry.state) hfront hends

theorem Popped.result {entry : Entry} {dq : List Entry} {j fuel : Nat} {r : MatchResult}
    (h : Popped a minimal string beyond entry dq j)
    (hrun : automatonMatch a minimal string beyond fuel = some r) :
    ∃ fuel', matchLoop a minimal string beyond fuel' entry dq j = some r := by
  induction h with
  | start => exact ⟨fuel, hrun⟩
  | step _ hiteration ih =>
      obtain ⟨fuel', hrun'⟩ := ih
      cases fuel' with
      | zero => cases hrun'
      | succ fuel' =>
          rw [matchLoop_succ, hiteration] at hrun'
          exact ⟨fuel', hrun'⟩

theorem Popped.le_length {entry : Entry} {dq : List Entry} {j : Nat}
    (h : Popped a minimal string beyond entry dq j) : j ≤ string.length + 1 := by
  induction h with
  | start => exact Nat.zero_le _
  | @step entry entry' dq dq' j j' _ hiteration ih =>
      cases entry with
      | scan =>
          obtain ⟨-, rfl, hle⟩ := iteration_scan hiteration
          omega
      | state n =>
          obtain ⟨-, -, rfl, hle⟩ := iteration_state hiteration
          exact hle

theorem Popped.le_last {last : Nat} (hclosed : Closed a last) {entry : Entry} {dq : List Entry}
    {j : Nat} (h : Popped a minimal string beyond entry dq j)
    (hstart : (a.states 0).next1 ≤ last) : ∀ n, .state n ∈ entry :: dq → n ≤ last := by
  induction h with
  | start =>
      intro n hn
      obtain rfl : n = (a.states 0).next1 := by simpa using hn
      exact hstart
  | @step entry entry' dq dq' j j' _ hiteration ih =>
      intro n hn
      have hold : ∀ n, .state n ∈ dq → n ≤ last := fun n hn => ih n (List.mem_cons_of_mem _ hn)
      cases entry with
      | scan =>
          rw [← (iteration_scan hiteration).1] at hn
          exact hold n (by simpa using hn)
      | state q =>
          have hq := hclosed q (ih q List.mem_cons_self)
          rw [← (iteration_state hiteration).2.1] at hn
          by_cases hkind : (a.states q).ch &&& SCAN = EPSILON
          · rw [transitions_epsilon hkind] at hn
            split at hn
            · rw [List.mem_cons, List.mem_cons, Entry.state.injEq, Entry.state.injEq] at hn
              rcases hn with rfl | rfl | hn
              · exact hq.2
              · exact hq.1
              · exact hold n hn
            · rw [List.mem_cons, Entry.state.injEq] at hn
              rcases hn with rfl | hn
              · exact hq.1
              · exact hold n hn
          · obtain ⟨tail, htail, hput⟩ := transitions_consuming hkind string.length
              (string.getD j (beyond j)) j dq
            rw [hput, List.mem_append, List.mem_map] at hn
            rcases hn with hn | ⟨m, hm, heq⟩
            · exact hold n hn
            · obtain rfl := Entry.state.inj heq
              rw [htail m hm]
              exact hq.1

end Runs

/-! ## Patterns -/

theorem Finished.closed {minimal : Bool} {a : Automaton} {final : Nat}
    (h : Finished minimal a final) : Closed a (final + 1) := by
  intro q hq
  rcases Nat.eq_zero_or_pos q with rfl | hpos
  · obtain ⟨-, heq, -, hle⟩ := h.start
    omega
  · rcases Nat.lt_trichotomy q final with hlt | rfl | hgt
    · have hlinked := h.linked q hpos hlt
      omega
    · rw [h.accept]
      cases minimal <;> simp [EOP]
    · obtain rfl : q = final + 1 := by omega
      rw [h.last]
      simp [EOP]

theorem Finished.epsilon {a : Automaton} {final : Nat} (h : Finished false a final) {q q' : Nat}
    (hq : 1 ≤ q ∧ q ≤ final) (hpath : ReflTransGen a.Epsilon q q') : 1 ≤ q' ∧ q' ≤ final := by
  induction hpath with
  | refl => exact hq
  | @tail q q' _ hepsilon ih =>
      rcases Nat.lt_or_ge q final with hlt | hge
      · have hlinked := h.linked q ih.1 hlt
        rcases hepsilon.2.2 with rfl | rfl
        · exact hlinked.1
        · exact hlinked.2
      · obtain rfl : q = final := by omega
        have hkind := hepsilon.2.1
        rw [h.accept] at hkind
        exact absurd hkind (show ¬ 0 &&& SCAN = EPSILON by decide)

theorem Finished.le_final {a : Automaton} {final : Nat} (h : Finished false a final) {q : Nat}
    (hq : q ≤ final + 1) (hcycle : a.OnCycle q) : 1 ≤ q ∧ q ≤ final := by
  obtain ⟨q', hepsilon, hback⟩ := TransGen.head'_iff.mp hcycle
  have hpos : 1 ≤ q := Nat.one_le_iff_ne_zero.mpr hepsilon.1
  rcases Nat.lt_or_ge final q with hlt | hle
  · obtain rfl : q = final + 1 := by omega
    have hend : q' = EOP := by
      have hnext := hepsilon.2.2
      rw [h.last] at hnext
      exact hnext.elim id id
    rcases ReflTransGen.cases_head hback with heq | ⟨q'', hepsilon', -⟩
    · rw [hend] at heq
      cases heq
    · exact absurd hend hepsilon'.1
  · exact ⟨hpos, hle⟩

end LeooRexx.Rxregexp
