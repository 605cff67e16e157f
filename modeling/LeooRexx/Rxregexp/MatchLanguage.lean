import LeooRexx.Rxregexp.MatchRuns

/-!
# What the matcher accepts

A compiled pattern stands for the strings that lead from its start state to the final one.  The
loop takes exactly the states from the queue to which the string leads up to the current
character, as long as it has not ended with a match.  In minimal mode it ends with the shortest
beginning of the string that is accepted, in maximal mode it accepts the whole string or none.
-/

namespace LeooRexx.Rxregexp

open Automaton Relation

/-! ## Strings and states -/

/-- Whether a state that consumes does so at `j`; `c` is `a[j]`. -/
def consumes (a : Automaton) (size : Nat) (c : UInt8) (state j : Nat) : Bool :=
  let s := a.states state
  let kind := s.ch &&& SCAN
  if kind = SET ∨ kind = SET ||| NOT then
    xor (s.ch &&& NOT ≠ 0) (c ∈ a.setArray.getD ((s.ch &&& 0x0fff0000) >>> 16) [])
  else if kind = ANY then true
  else if j < size then s.ch = charInt c
  else if j = size then s.ch = 0
  else false

theorem transitions_eq_putIf {a : Automaton} {n : Nat} (h : (a.states n).ch &&& SCAN ≠ EPSILON)
    (size : Nat) (c : UInt8) (j : Nat) (dq : List Entry) :
    transitions a size c n j dq = putIf dq (consumes a size c n j) (a.states n).next1 := by
  rw [transitions, consumes]
  dsimp only
  rw [if_neg h]
  split_ifs <;> rfl

theorem consumes_of_lt {a : Automaton} {size j : Nat} (h : j < size) (c : UInt8) (state : Nat) :
    consumes a size c state j = consumes a 1 c state 0 := by
  rw [consumes, consumes, if_pos h, if_pos Nat.one_pos]

namespace Automaton

def Consumes (a : Automaton) (q : Nat) (c : UInt8) : Prop :=
  (a.states q).ch &&& SCAN ≠ EPSILON ∧ consumes a 1 c q 0 = true

inductive Reached (a : Automaton) (final : Nat) : List UInt8 → Nat → Prop
  | start : Reached a final [] (a.states 0).next1
  | epsilon {w : List UInt8} {q q' : Nat} : Reached a final w q → q ≠ final → a.Epsilon q q' →
      Reached a final w q'
  | consume {w : List UInt8} {q : Nat} {c : UInt8} : Reached a final w q → q ≠ final →
      a.Consumes q c → Reached a final (w ++ [c]) (a.states q).next1

def Accepts (a : Automaton) (final : Nat) (w : List UInt8) : Prop := Reached a final w final

end Automaton

theorem Finished.reached_le {minimal : Bool} {a : Automaton} {final : Nat}
    (h : Finished minimal a final) {w : List UInt8} {q : Nat} (hq : Reached a final w q) :
    1 ≤ q ∧ q ≤ final := by
  induction hq with
  | start => exact ⟨h.start.2.2.1, h.start.2.2.2⟩
  | @epsilon w q q' _ hne hepsilon ih =>
      have hlinked := h.linked q ih.1 (lt_of_le_of_ne ih.2 hne)
      rcases hepsilon.2.2 with rfl | rfl
      · exact hlinked.1
      · exact hlinked.2
  | @consume w q c _ hne _ ih => exact (h.linked q ih.1 (lt_of_le_of_ne ih.2 hne)).1

section Queue

variable {a : Automaton} {minimal : Bool} {string : List UInt8} {beyond : Nat → UInt8}

/-! ## The queue -/

def queue (cur next : List Nat) : List Entry :=
  cur.map Entry.state ++ .scan :: next.map Entry.state

structure Explored (a : Automaton) (consumed : Bool) (q : Nat) (cur next cur' next' : List Nat) :
    Prop where
  cur : ∀ n, n ∈ cur' ↔ n ∈ cur ∨ (a.states q).ch &&& SCAN = EPSILON ∧
    (n = (a.states q).next1 ∨ n = (a.states q).next2)
  next : ∀ n, n ∈ next' ↔ n ∈ next ∨ (a.states q).ch &&& SCAN ≠ EPSILON ∧
    consumed = true ∧ n = (a.states q).next1

theorem exists_explored (a : Automaton) (size : Nat) (c : UInt8) (q j : Nat)
    (cur next : List Nat) :
    ∃ cur' next', transitions a size c q j (queue cur next) = queue cur' next' ∧
      Explored a (consumes a size c q j) q cur next cur' next' := by
  by_cases hkind : (a.states q).ch &&& SCAN = EPSILON
  · rw [transitions_epsilon hkind]
    split
    · refine ⟨(a.states q).next2 :: (a.states q).next1 :: cur, next, rfl, fun n => ?_, fun n => ?_⟩
      · simp only [List.mem_cons, hkind, true_and]
        tauto
      · simp [hkind]
    · rename_i hsame
      rw [not_not] at hsame
      refine ⟨(a.states q).next1 :: cur, next, rfl, fun n => ?_, fun n => ?_⟩
      · simp only [List.mem_cons, hkind, true_and, hsame, or_self]
        tauto
      · simp [hkind]
  · rw [transitions_eq_putIf hkind]
    cases consumes a size c q j with
    | false => exact ⟨cur, next, rfl, fun n => by simp [hkind], fun n => by simp⟩
    | true =>
        refine ⟨cur, next ++ [(a.states q).next1], by simp [putIf, queue], fun n => ?_, fun n => ?_⟩
        · simp [hkind]
        · simp [hkind]

theorem queue_nil_eq {cur next : List Nat} (h : queue cur next = [.scan]) :
    cur = [] ∧ next = [] := by
  cases cur with
  | nil => simpa [queue] using h
  | cons q cur => simp [queue] at h

theorem Popped.exists_queue (good : Nat → Nat → Prop) (hstart : good 0 (a.states 0).next1)
    (hepsilon : ∀ j q q', good j q → a.Epsilon q q' → good j q')
    (hconsume : ∀ j q, good j q → (a.states q).ch &&& SCAN ≠ EPSILON →
      consumes a string.length (string.getD j (beyond j)) q j = true →
        good (j + 1) (a.states q).next1)
    {entry : Entry} {dq : List Entry} {j : Nat} (h : Popped a minimal string beyond entry dq j) :
    ∃ cur next, entry :: dq = queue cur next ∧ (∀ n ∈ cur, good j n) ∧
      ∀ n ∈ next, good (j + 1) n := by
  induction h with
  | start => exact ⟨[(a.states 0).next1], [], rfl, by simpa using hstart, by simp⟩
  | @step entry entry' dq dq' j j' _ hiteration ih =>
      obtain ⟨cur, next, hqueue, hcur, hnext⟩ := ih
      cases cur with
      | nil =>
          obtain ⟨rfl, rfl⟩ := List.cons.inj hqueue
          obtain ⟨hdq, rfl, -⟩ := iteration_scan hiteration
          exact ⟨next, [], hdq.symm, hnext, by simp⟩
      | cons q cur =>
          obtain ⟨rfl, rfl⟩ := List.cons.inj hqueue
          obtain ⟨hq, hdq, rfl, -⟩ := iteration_state hiteration
          obtain ⟨cur', next', htransitions, hexplored⟩ := exists_explored a string.length
            (string.getD j' (beyond j')) q j' cur next
          rw [List.forall_mem_cons] at hcur
          refine ⟨cur', next', hdq.symm.trans htransitions, fun n hn => ?_, fun n hn => ?_⟩
          · rcases (hexplored.cur n).mp hn with hn | ⟨hkind, hn⟩
            · exact hcur.2 n hn
            · exact hepsilon j' q n hcur.1 ⟨hq, hkind, hn⟩
          · rcases (hexplored.next n).mp hn with hn | ⟨hkind, hconsumed, rfl⟩
            · exact hnext n hn
            · exact hconsume j' q hcur.1 hkind hconsumed

theorem Popped.good (good : Nat → Nat → Prop) (hstart : good 0 (a.states 0).next1)
    (hepsilon : ∀ j q q', good j q → a.Epsilon q q' → good j q')
    (hconsume : ∀ j q, good j q → (a.states q).ch &&& SCAN ≠ EPSILON →
      consumes a string.length (string.getD j (beyond j)) q j = true →
        good (j + 1) (a.states q).next1)
    {q : Nat} {dq : List Entry} {j : Nat} (h : Popped a minimal string beyond (.state q) dq j) :
    good j q := by
  obtain ⟨cur, next, hqueue, hcur, -⟩ := h.exists_queue good hstart hepsilon hconsume
  cases cur with
  | nil => simp [queue] at hqueue
  | cons q' cur =>
      obtain ⟨heq, -⟩ := List.cons.inj hqueue
      obtain rfl := Entry.state.inj heq
      exact hcur q List.mem_cons_self

theorem Popped.eq_queue {entry : Entry} {dq : List Entry} {j : Nat}
    (h : Popped a minimal string beyond entry dq j) : ∃ cur next, entry :: dq = queue cur next := by
  obtain ⟨cur, next, hqueue, -⟩ := h.exists_queue (fun _ _ => True) trivial
    (fun _ _ _ _ _ => trivial) (fun _ _ _ _ _ => trivial)
  exact ⟨cur, next, hqueue⟩

/-! ## Whole characters -/

section Explore

variable (a minimal string beyond)

def PoppedAt (n j : Nat) : Prop := ∃ dq, Popped a minimal string beyond (.state n) dq j

def lastCharacter : Nat := if minimal then string.length else string.length + 1

def Live (r : MatchResult) (j : Nat) : Prop :=
  r.matched = true → r.currentPos ≠ min j string.length

def TakesAll (r : MatchResult) (cur next : List Nat) (j : Nat) : Prop :=
  (∀ n ∈ cur, PoppedAt a minimal string beyond n j) ∧
    (j < lastCharacter minimal string → Live string r (j + 1) →
      ∀ n ∈ next, PoppedAt a minimal string beyond n (j + 1))

variable {a minimal string beyond}

theorem pop_queue {cur next : List Nat} {j : Nat} (hj : j ≤ string.length + 1) {r : MatchResult}
    (hall : ∀ entry rest, queue cur next = entry :: rest →
      pop string (queue cur next) j = .inr (entry, rest, j) →
        TakesAll a minimal string beyond r cur next j) :
    TakesAll a minimal string beyond r cur next j := by
  by_cases hempty : queue cur next = [.scan]
  · obtain ⟨rfl, rfl⟩ := queue_nil_eq hempty
    exact ⟨by simp, fun _ _ => by simp⟩
  · obtain ⟨entry, rest, hqueue⟩ : ∃ entry rest, queue cur next = entry :: rest := by
      cases cur with
      | nil => exact ⟨_, _, rfl⟩
      | cons q cur => exact ⟨_, _, rfl⟩
    refine hall entry rest hqueue ?_
    rw [pop.eq_def, if_neg (not_or.mpr ⟨hempty, Nat.not_lt.mpr hj⟩), hqueue]

theorem takesAll_explored {fuel : Nat} {r : MatchResult}
    (hrun : ∀ {entry : Entry} {rest : List Entry} {j : Nat} {cur next : List Nat},
      Popped a minimal string beyond entry rest j →
      matchLoop a minimal string beyond fuel entry rest j = some r →
      entry :: rest = queue cur next → (cur ≠ [] → Live string r j) →
        TakesAll a minimal string beyond r cur next j)
    {q : Nat} {cur next cur' next' : List Nat} {j : Nat}
    (hpopped : Popped a minimal string beyond (.state q) (queue cur next) j)
    (hresult : matchLoop a minimal string beyond (fuel + 1) (.state q) (queue cur next) j = some r)
    (hlive : Live string r j)
    (htransitions : transitions a string.length (string.getD j (beyond j)) q j (queue cur next) =
      queue cur' next') :
    q ≠ EOP ∧ TakesAll a minimal string beyond r cur' next' j := by
  rw [matchLoop_succ, iteration] at hresult
  have hq : q ≠ EOP := by
    rintro rfl
    rw [if_pos rfl] at hresult
    obtain rfl := Option.some.inj hresult
    exact hlive rfl rfl
  refine ⟨hq, pop_queue hpopped.le_length fun entry rest hqueue hpop => ?_⟩
  rw [if_neg hq, htransitions, hpop] at hresult
  have hnext : iteration a minimal string beyond (.state q) (queue cur next) j =
      .inr (entry, rest, j) := by
    rw [iteration, if_neg hq, htransitions, hpop]
  exact hrun (hpopped.step hnext) hresult hqueue.symm fun _ => hlive

theorem Popped.takesAll (fuel : Nat) {r : MatchResult} {entry : Entry} {rest : List Entry}
    {j : Nat} {cur next : List Nat} (hpopped : Popped a minimal string beyond entry rest j)
    (hresult : matchLoop a minimal string beyond fuel entry rest j = some r)
    (hqueue : entry :: rest = queue cur next) (hlive : cur ≠ [] → Live string r j) :
    TakesAll a minimal string beyond r cur next j := by
  induction fuel generalizing entry rest j cur next with
  | zero => cases hresult
  | succ fuel ih =>
      cases cur with
      | nil =>
          obtain ⟨rfl, rfl⟩ := List.cons.inj hqueue
          refine ⟨by simp, fun hj hlive' => ?_⟩
          have hstep : iteration a minimal string beyond .scan (next.map Entry.state) j =
              pop string (queue next []) (j + 1) := by
            rw [iteration, if_neg]
            · rfl
            · rintro ⟨rfl, rfl⟩
              exact absurd hj (lt_irrefl _)
          have hle : j + 1 ≤ string.length + 1 := by
            rw [lastCharacter] at hj
            split at hj <;> omega
          rw [matchLoop_succ, hstep] at hresult
          have hall : TakesAll a minimal string beyond r next [] (j + 1) := by
            refine pop_queue hle fun entry rest hqueue hpop => ?_
            rw [hpop] at hresult
            exact ih (hpopped.step (hstep.trans hpop)) hresult hqueue.symm fun _ => hlive'
          exact hall.1
      | cons q cur =>
          obtain ⟨rfl, rfl⟩ := List.cons.inj hqueue
          obtain ⟨cur', next', htransitions, hexplored⟩ := exists_explored a string.length
            (string.getD j (beyond j)) q j cur next
          obtain ⟨-, hcur, hnext⟩ := takesAll_explored ih hpopped hresult
            (hlive (List.cons_ne_nil q cur)) htransitions
          refine ⟨fun n hn => ?_, fun hj hlive' n hn => ?_⟩
          · rcases List.mem_cons.mp hn with rfl | hn
            · exact ⟨_, hpopped⟩
            · exact hcur n ((hexplored.cur n).mpr (.inl hn))
          · exact hnext hj hlive' n ((hexplored.next n).mpr (.inl hn))

theorem PoppedAt.successors {fuel : Nat} {r : MatchResult}
    (hrun : automatonMatch a minimal string beyond fuel = some r) {q j : Nat}
    (h : PoppedAt a minimal string beyond q j) (hlive : Live string r j) :
    q ≠ EOP ∧ (∀ q', a.Epsilon q q' → PoppedAt a minimal string beyond q' j) ∧
      (j < lastCharacter minimal string → Live string r (j + 1) →
        (a.states q).ch &&& SCAN ≠ EPSILON →
        consumes a string.length (string.getD j (beyond j)) q j = true →
          PoppedAt a minimal string beyond (a.states q).next1 (j + 1)) := by
  obtain ⟨dq, hpopped⟩ := h
  obtain ⟨fuel', hresult⟩ := hpopped.result hrun
  obtain ⟨cur, next, hqueue⟩ := hpopped.eq_queue
  cases cur with
  | nil => simp [queue] at hqueue
  | cons q' cur =>
      obtain ⟨heq, rfl⟩ := List.cons.inj hqueue
      obtain rfl := Entry.state.inj heq
      cases fuel' with
      | zero => cases hresult
      | succ fuel' =>
          obtain ⟨cur', next', htransitions, hexplored⟩ := exists_explored a string.length
            (string.getD j (beyond j)) q j cur next
          obtain ⟨hq, hcur, hnext⟩ := takesAll_explored (Popped.takesAll fuel') hpopped hresult
            hlive htransitions
          refine ⟨hq, fun q' hepsilon => ?_, fun hj hlive' hkind hconsumed => ?_⟩
          · exact hcur q' ((hexplored.cur q').mpr (.inr hepsilon.2))
          · exact hnext hj hlive' _ ((hexplored.next _).mpr (.inr ⟨hkind, hconsumed, rfl⟩))

theorem poppedAt_of_reached {fuel : Nat} {r : MatchResult} {final : Nat}
    (hrun : automatonMatch a minimal string beyond fuel = some r) {w : List UInt8} {q : Nat}
    (h : Reached a final w q) (hw : w <+: string) (hlive : ∀ j ≤ w.length, Live string r j) :
    PoppedAt a minimal string beyond q w.length := by
  induction h with
  | start => exact ⟨_, .start⟩
  | epsilon _ _ hepsilon ih =>
      exact ((ih hw hlive).successors hrun (hlive _ le_rfl)).2.1 _ hepsilon
  | @consume w q c _ _ hconsumes ih =>
      have hprefix : w <+: string := (List.prefix_append w [c]).trans hw
      have hlength : w.length < string.length := by
        have hle := hw.length_le
        rw [List.length_append, List.length_singleton] at hle
        exact hle
      have hchar : string.getD w.length (beyond w.length) = c := by
        obtain ⟨rest, rfl⟩ := hw
        simp [List.getD_eq_getElem?_getD]
      rw [List.length_append, List.length_singleton]
      have hlast : w.length < lastCharacter minimal string := by
        rw [lastCharacter]
        split <;> omega
      have hlive' : ∀ j ≤ w.length + 1, Live string r j := by
        simpa using hlive
      refine ((ih hprefix fun j hj => hlive' j (by omega)).successors hrun
        (hlive' _ (by omega))).2.2 hlast (hlive' _ le_rfl) hconsumes.1 ?_
      rw [hchar, consumes_of_lt hlength]
      exact hconsumes.2

theorem matched_of_pop {dq : List Entry} {j : Nat} {r : MatchResult}
    (h : pop string dq j = .inl r) (hne : dq ≠ []) : r.matched = false := by
  rw [pop.eq_def] at h
  split at h
  · obtain rfl := Sum.inl.inj h
    rfl
  · cases dq with
    | nil => exact absurd rfl hne
    | cons entry dq => cases h

theorem exists_poppedAt_end (fuel : Nat) {r : MatchResult} {entry : Entry} {dq : List Entry}
    {j : Nat} (hpopped : Popped a minimal string beyond entry dq j)
    (hresult : matchLoop a minimal string beyond fuel entry dq j = some r) (hr : r.matched = true) :
    ∃ j, PoppedAt a minimal string beyond EOP j ∧ r.currentPos = min j string.length := by
  induction fuel generalizing entry dq j with
  | zero => cases hresult
  | succ fuel ih =>
      rw [matchLoop_succ] at hresult
      cases hiteration : iteration a minimal string beyond entry dq j with
      | inr c =>
          rw [hiteration] at hresult
          exact ih (hpopped.step hiteration) hresult
      | inl r' =>
          rw [hiteration] at hresult
          obtain rfl := Option.some.inj hresult
          have hunmatched : r'.matched ≠ false := by simp [hr]
          cases entry with
          | scan =>
              rw [iteration] at hiteration
              split at hiteration
              · obtain rfl := Sum.inl.inj hiteration
                exact absurd rfl hunmatched
              · exact absurd (matched_of_pop hiteration (by simp)) hunmatched
          | state q =>
              rw [iteration] at hiteration
              split at hiteration
              · rename_i hq
                obtain rfl := Sum.inl.inj hiteration
                exact ⟨j, ⟨dq, hq ▸ hpopped⟩, rfl⟩
              · obtain ⟨cur, next, hqueue⟩ := hpopped.eq_queue
                cases cur with
                | nil => simp [queue] at hqueue
                | cons q' cur =>
                    obtain ⟨heq, rfl⟩ := List.cons.inj hqueue
                    obtain ⟨cur', next', htransitions, -⟩ := exists_explored a string.length
                      (string.getD j (beyond j)) q j cur next
                    change pop string (transitions a string.length _ q j (queue cur next)) j = _
                      at hiteration
                    rw [htransitions] at hiteration
                    exact absurd (matched_of_pop hiteration (by simp [queue])) hunmatched

end Explore

/-! ## The two modes -/

def Acyclic (a : Automaton) : Prop := ∀ n, ¬ a.OnCycle n

theorem Finished.exists_result {final : Nat} (h : Finished minimal a final) (hacyclic : Acyclic a)
    (string : List UInt8) (beyond : Nat → UInt8) :
    ∃ fuel r, automatonMatch a minimal string beyond fuel = some r :=
  automatonMatch_ends h.closed (fun n _ => hacyclic n) (h.closed 0 (Nat.zero_le _)).1

theorem Popped.le_length_minimal {entry : Entry} {dq : List Entry} {j : Nat}
    (h : Popped a true string beyond entry dq j) : j ≤ string.length := by
  induction h with
  | start => exact Nat.zero_le _
  | @step entry entry' dq dq' j j' _ hiteration ih =>
      cases entry with
      | scan =>
          have hne : j ≠ string.length := by
            rintro rfl
            rw [iteration, if_pos ⟨rfl, rfl⟩] at hiteration
            cases hiteration
          obtain ⟨-, rfl, -⟩ := iteration_scan hiteration
          omega
      | state n =>
          obtain ⟨-, -, rfl, -⟩ := iteration_state hiteration
          exact ih

theorem not_accepts_of_live {final : Nat} (h : Finished true a final) {fuel : Nat}
    {r : MatchResult} (hrun : automatonMatch a true string beyond fuel = some r) {w : List UInt8}
    (hw : w <+: string) (hlive : ∀ j ≤ w.length, Live string r j) : ¬ Accepts a final w := by
  intro haccepts
  have hfinal := poppedAt_of_reached hrun haccepts hw hlive
  have hsuccessors := hfinal.successors hrun (hlive _ le_rfl)
  have hepsilon : a.Epsilon final EOP := by
    refine ⟨hsuccessors.1, ?_, .inl ?_⟩
    · rw [h.accept]
      exact show EPSILON &&& SCAN = EPSILON by decide
    · rw [h.accept]
      rfl
  exact ((hsuccessors.2.1 EOP hepsilon).successors hrun (hlive _ le_rfl)).1 rfl

theorem match_minimal {final : Nat} (h : Finished true a final) {fuel : Nat} {r : MatchResult}
    (hrun : automatonMatch a true string beyond fuel = some r) :
    (r.matched = true → r.currentPos ≤ string.length ∧
      Accepts a final (string.take r.currentPos) ∧
      ∀ k < r.currentPos, ¬ Accepts a final (string.take k)) ∧
    (r.matched = false → ∀ k, ¬ Accepts a final (string.take k)) := by
  constructor
  · intro hr
    obtain ⟨j, ⟨dq, hpopped⟩, hpos⟩ := exists_poppedAt_end fuel .start hrun hr
    have hj := hpopped.le_length_minimal
    rw [Nat.min_eq_left hj] at hpos
    have hgood := hpopped.good (fun j q => j ≤ string.length →
      Reached a final (string.take j) q ∨ q = EOP ∧ Accepts a final (string.take j))
      (fun _ => .inl .start) ?_ ?_ hj
    · rw [hpos]
      refine ⟨hj, ?_, fun k hk haccepts => ?_⟩
      · rcases hgood with hreached | ⟨-, haccepts⟩
        · exact absurd (h.reached_le hreached).1 (by simp [EOP])
        · exact haccepts
      · refine not_accepts_of_live h hrun (string.take_prefix k) (fun i hi => ?_) haccepts
        rw [List.length_take, Nat.min_eq_left (by omega)] at hi
        intro _
        omega
    · intro j q q' hgood hepsilon hj
      rcases hgood hj with hreached | ⟨rfl, -⟩
      · by_cases hq : q = final
        · subst hq
          refine .inr ⟨?_, hreached⟩
          have hnext := hepsilon.2.2
          rw [h.accept] at hnext
          exact hnext.elim id id
        · exact .inl (.epsilon hreached hq hepsilon)
      · exact absurd rfl hepsilon.1
    · intro j q hgood hkind hconsumed hj
      have hlt : j < string.length := hj
      rcases hgood hlt.le with hreached | ⟨rfl, -⟩
      · have hq : q ≠ final := by
          rintro rfl
          rw [h.accept] at hkind
          exact hkind (show EPSILON &&& SCAN = EPSILON by decide)
        rw [consumes_of_lt hlt, List.getD_eq_getElem?_getD, List.getElem?_eq_getElem hlt,
          Option.getD_some] at hconsumed
        rw [← List.take_concat_get' _ _ hlt]
        exact .inl (.consume hreached hq ⟨hkind, hconsumed⟩)
      · rw [EOP, h.start.1] at hkind
        exact absurd rfl hkind
  · intro hr k
    exact not_accepts_of_live h hrun (string.take_prefix k) fun j _ hmatched => by
      rw [hr] at hmatched
      cases hmatched

theorem charInt_eq_zero {c : UInt8} (h : charInt c = 0) : c = 0 := by
  have hc := UInt8.toNat_lt c
  rw [charInt] at h
  apply UInt8.toNat_inj.mp
  split at h
  · exact h
  · omega

theorem Finished.consumes_final {final : Nat} (h : Finished false a final) (size j : Nat)
    (c : UInt8) :
    consumes a size c final j = if j < size then decide (0 = charInt c) else decide (j = size) := by
  have hset : ¬ (0 &&& SCAN = SET ∨ 0 &&& SCAN = SET ||| NOT) := by decide
  have hany : ¬ 0 &&& SCAN = ANY := by decide
  have hch : (a.states final).ch = 0 := by rw [h.accept]; rfl
  rw [consumes, hch, if_neg hset, if_neg hany]
  by_cases hlt : j < size
  · rw [if_pos hlt, if_pos hlt]
  · rw [if_neg hlt, if_neg hlt]
    by_cases heq : j = size <;> simp [heq]

theorem Finished.good_maximal {final : Nat} (h : Finished false a final) (h0 : 0 ∉ string)
    {q : Nat} {dq : List Entry} {j : Nat} (hpopped : Popped a false string beyond (.state q) dq j) :
    (j ≤ string.length → Reached a final (string.take j) q) ∧
      (j = string.length + 1 → 1 ≤ q ∧ q ≤ final ∨ Accepts a final string) := by
  refine hpopped.good (fun j q => (j ≤ string.length → Reached a final (string.take j) q) ∧
    (j = string.length + 1 → 1 ≤ q ∧ q ≤ final ∨ Accepts a final string))
    ⟨fun _ => .start, fun hj => by omega⟩ ?_ ?_
  · rintro j q q' ⟨hreached, hend⟩ hepsilon
    have hq : q ≠ final := by
      rintro rfl
      have hkind := hepsilon.2.1
      rw [h.accept] at hkind
      exact absurd hkind (show ¬ 0 &&& SCAN = EPSILON by decide)
    refine ⟨fun hj => .epsilon (hreached hj) hq hepsilon, fun hj => ?_⟩
    refine (hend hj).imp_left fun hrange => ?_
    exact h.epsilon hrange (.single hepsilon)
  · rintro j q ⟨hreached, -⟩ hkind hconsumed
    refine ⟨fun hj => ?_, fun hj => ?_⟩
    · have hlt : j < string.length := hj
      have hchar : string.getD j (beyond j) = string[j] := by
        rw [List.getD_eq_getElem?_getD, List.getElem?_eq_getElem hlt, Option.getD_some]
      rw [hchar] at hconsumed
      have hq : q ≠ final := by
        rintro rfl
        rw [h.consumes_final, if_pos hlt, decide_eq_true_iff] at hconsumed
        exact h0 (charInt_eq_zero hconsumed.symm ▸ List.getElem_mem hlt)
      rw [consumes_of_lt hlt] at hconsumed
      rw [← List.take_concat_get' _ _ hlt]
      exact .consume (hreached hlt.le) hq ⟨hkind, hconsumed⟩
    · obtain rfl : j = string.length := by omega
      have hall := hreached le_rfl
      rw [List.take_length] at hall
      by_cases hq : q = final
      · subst hq
        exact .inr hall
      · have hrange := h.reached_le hall
        exact .inl (h.linked q hrange.1 (lt_of_le_of_ne hrange.2 hq)).1

theorem match_maximal {final : Nat} (h : Finished false a final) (h0 : 0 ∉ string) {fuel : Nat}
    {r : MatchResult} (hrun : automatonMatch a false string beyond fuel = some r) :
    (r.matched = true ↔ Accepts a final string) ∧
      (r.matched = true → r.currentPos = string.length) := by
  have hmatched : r.matched = true → Accepts a final string ∧ r.currentPos = string.length := by
    intro hr
    obtain ⟨j, ⟨dq, hpopped⟩, hpos⟩ := exists_poppedAt_end fuel .start hrun hr
    have hle := hpopped.le_length
    obtain ⟨hreached, hend⟩ := h.good_maximal h0 hpopped
    rcases Nat.lt_or_ge string.length j with hlt | hge
    · obtain rfl : j = string.length + 1 := by omega
      refine ⟨(hend rfl).resolve_left fun hrange => absurd hrange.1 (by simp [EOP]), ?_⟩
      rw [hpos]
      omega
    · exact absurd (h.reached_le (hreached hge)).1 (by simp [EOP])
  refine ⟨⟨fun hr => (hmatched hr).1, fun haccepts => ?_⟩, fun hr => (hmatched hr).2⟩
  by_contra hr
  have hlive : ∀ j, Live string r j := fun j hmatched => absurd hmatched hr
  have hfinal := (poppedAt_of_reached hrun haccepts (List.prefix_refl string)
    fun j _ => hlive j).successors hrun (hlive _)
  have hkind : (a.states final).ch &&& SCAN ≠ EPSILON := by
    rw [h.accept]
    exact show ¬ 0 &&& SCAN = EPSILON by decide
  have hlast : PoppedAt a false string beyond (a.states final).next1 (string.length + 1) := by
    refine hfinal.2.2 (Nat.lt_succ_self _) (hlive _) hkind ?_
    rw [h.consumes_final, if_neg (lt_irrefl _)]
    exact decide_eq_true rfl
  have hnext : (a.states final).next1 = final + 1 := by rw [h.accept]; rfl
  rw [hnext] at hlast
  have hepsilon : a.Epsilon (final + 1) EOP := by
    refine ⟨Nat.succ_ne_zero final, ?_, .inl ?_⟩
    · rw [h.last]
      decide
    · rw [h.last]
  exact (((hlast.successors hrun (hlive _)).2.1 EOP hepsilon).successors hrun (hlive _)).1 rfl

end Queue

end LeooRexx.Rxregexp
