import LeooRexx.Rxregexp.MatchLanguage
import Mathlib.Order.Bounds.Basic
import Mathlib.Data.Finset.Lattice.Fold
import Mathlib.Data.Finset.Prod

/-!
# Searching

`RegExp_Pos` runs the automaton in minimal mode from one place of the haystack after the other,
and in maximal mode on shorter and shorter texts from the place that it has found.  Both modes
accept the same strings: they differ in the final state only.
-/

namespace LeooRexx.Rxregexp

open Automaton Relation

structure RegExp where
  automaton : Automaton
  final : Nat
  minimal : Bool

def compiled (minimal : Bool) (a : Automaton) : RegExp := ⟨a, a.freeState - 1, minimal⟩

namespace RegExp

def setMinimal (r : RegExp) (f : Bool) : RegExp :=
  if f ≠ r.minimal then
    { r with
      automaton :=
        if f = false then r.automaton.setState r.final 0 (r.final + 1) (r.final + 1)
        else r.automaton.setState r.final EPSILON EOP EOP
      minimal := f }
  else r

section Pos

variable (r : RegExp) (haystack : List UInt8) (beyond : Nat → UInt8) (fuel : Nat)

/-- `match(pszString, strlength)`, with `pszString` at `start` of the haystack. -/
def matchAt (start strlength : Nat) : Option MatchResult :=
  automatonMatch r.automaton r.minimal ((haystack.drop start).take strlength)
    (fun j => haystack.getD (start + j) (beyond (start + j))) fuel

def findStart : Nat → Nat → Option (MatchResult × Nat × Nat)
  | 0, _ => none
  | strlength + 1, start => do
      let m ← r.matchAt haystack beyond fuel start (strlength + 1)
      if m.matched = false ∧ strlength ≠ 0 then findStart strlength (start + 1)
      else some (m, start + 1, strlength)

def findLongest (start : Nat) : Nat → MatchResult → Option MatchResult
  | 0, m => some m
  | strlength + 1, _ => do
      let m ← r.matchAt haystack beyond fuel start (strlength + 1)
      if m.matched then some m else findLongest start strlength m

/-- The position that is returned, what `!POS` is set to and the object afterwards. -/
structure PosResult where
  value : Nat
  pos : Option Nat
  regexp : RegExp

/-- `RegExp_Pos`. -/
def pos : Option PosResult :=
  if haystack.length > 0 then do
    let fOldState := r.minimal
    let r := r.setMinimal true
    let (m, i, strlength) ← r.findStart haystack beyond fuel haystack.length 0
    if m.matched then
      if fOldState = false then
        let r := r.setMinimal false
        let m ← r.findLongest haystack beyond fuel (i - 1) (strlength + 1) m
        some ⟨i, some (i + m.currentPos - 1), r.setMinimal fOldState⟩
      else some ⟨i, some (i + m.currentPos - 1), r.setMinimal fOldState⟩
    else some ⟨0, some 0, r.setMinimal fOldState⟩
  else some ⟨0, none, r⟩

end Pos

/-! ## Changing the mode -/

def Compiled (r : RegExp) : Prop := 1 ≤ r.final ∧ Finished r.minimal r.automaton r.final

section Mode

variable {r : RegExp} (f : Bool)

@[simp] theorem minimal_setMinimal : (r.setMinimal f).minimal = f := by
  rw [setMinimal]
  split
  · rfl
  · rename_i h
    exact (not_not.mp h).symm

@[simp] theorem final_setMinimal : (r.setMinimal f).final = r.final := by
  rw [setMinimal]
  split <;> rfl

theorem setArray_setMinimal : (r.setMinimal f).automaton.setArray = r.automaton.setArray := by
  rw [setMinimal]
  split
  · cases f <;> rfl
  · rfl

theorem states_setMinimal {i : Nat} (h : i ≠ r.final) :
    (r.setMinimal f).automaton.states i = r.automaton.states i := by
  rw [setMinimal]
  split
  · cases f <;> exact states_setState_of_ne _ _ _ _ _ h
  · rfl

theorem final_state_setMinimal (h : r.Compiled) :
    (r.setMinimal f).automaton.states r.final =
      if f then ⟨EPSILON, EOP, EOP⟩ else ⟨0, r.final + 1, r.final + 1⟩ := by
  rw [setMinimal]
  split
  · cases f <;> exact states_setState _ _ _ _ _
  · rename_i hsame
    rw [not_not.mp hsame]
    exact h.2.accept

theorem Compiled.setMinimal (h : r.Compiled) : (r.setMinimal f).Compiled := by
  have hfinal := h.1
  refine ⟨by rwa [final_setMinimal], ?_⟩
  rw [minimal_setMinimal, final_setMinimal]
  refine ⟨?_, fun i hi hi' => ?_, final_state_setMinimal f h, ?_⟩
  · rw [states_setMinimal f (by omega)]
    exact h.2.start
  · rw [states_setMinimal f (by omega)]
    exact h.2.linked i hi hi'
  · rw [states_setMinimal f (by omega)]
    exact h.2.last

theorem setMinimal_setMinimal (h : r.Compiled) : (r.setMinimal f).setMinimal r.minimal = r := by
  by_cases hsame : f = r.minimal
  · rw [show r.setMinimal f = r from if_neg (not_not.mpr hsame)]
    exact if_neg (not_not.mpr rfl)
  · have hstates : ((r.setMinimal f).setMinimal r.minimal).automaton.states =
        r.automaton.states := by
      funext i
      by_cases hi : i = r.final
      · have hfinal := final_state_setMinimal r.minimal (h.setMinimal f)
        rw [final_setMinimal] at hfinal
        rw [hi, hfinal, h.2.accept]
      · rw [states_setMinimal _ (by rwa [final_setMinimal]), states_setMinimal _ hi]
    have hfree : ∀ (s : RegExp) (g : Bool),
        (s.setMinimal g).automaton.freeState = s.automaton.freeState := fun s g => by
      rw [RegExp.setMinimal]
      split
      · cases g <;> rfl
      · rfl
    have hset := (setArray_setMinimal (r := r.setMinimal f) r.minimal).trans (setArray_setMinimal f)
    have hfree' := (hfree (r.setMinimal f) r.minimal).trans (hfree r f)
    have hfinal : ((r.setMinimal f).setMinimal r.minimal).final = r.final := by simp
    have hminimal : ((r.setMinimal f).setMinimal r.minimal).minimal = r.minimal := by simp
    obtain ⟨s, hs⟩ : ∃ s, s = (r.setMinimal f).setMinimal r.minimal := ⟨_, rfl⟩
    rw [← hs] at hstates hset hfree' hfinal hminimal ⊢
    clear hs
    obtain ⟨⟨_, _, _⟩, _, _⟩ := s
    obtain ⟨⟨_, _, _⟩, _, _⟩ := r
    simp_all

theorem epsilon_setMinimal {q q' : Nat} (h : q ≠ r.final) :
    (r.setMinimal f).automaton.Epsilon q q' ↔ r.automaton.Epsilon q q' := by
  rw [Epsilon, Epsilon, states_setMinimal f h]

theorem consumes_setMinimal {q : Nat} {c : UInt8} (h : q ≠ r.final) :
    (r.setMinimal f).automaton.Consumes q c ↔ r.automaton.Consumes q c := by
  rw [Consumes, Consumes, consumes, consumes, states_setMinimal f h, setArray_setMinimal]

theorem reached_setMinimal (h : r.Compiled) {w : List UInt8} {q : Nat} :
    Reached (r.setMinimal f).automaton r.final w q ↔ Reached r.automaton r.final w q := by
  have h0 : 0 ≠ r.final := by
    have hfinal := h.1
    omega
  constructor
  · intro hreached
    induction hreached with
    | start =>
        rw [states_setMinimal f h0]
        exact .start
    | epsilon _ hq hepsilon ih => exact .epsilon ih hq ((epsilon_setMinimal f hq).mp hepsilon)
    | consume _ hq hconsumes ih =>
        rw [states_setMinimal f hq]
        exact .consume ih hq ((consumes_setMinimal f hq).mp hconsumes)
  · intro hreached
    induction hreached with
    | start =>
        rw [← states_setMinimal f h0]
        exact .start
    | epsilon _ hq hepsilon ih => exact .epsilon ih hq ((epsilon_setMinimal f hq).mpr hepsilon)
    | consume _ hq hconsumes ih =>
        rw [← states_setMinimal f hq]
        exact .consume ih hq ((consumes_setMinimal f hq).mpr hconsumes)

theorem onCycle_iff {minimal : Bool} {a : Automaton} {final : Nat} (h : Finished minimal a final)
    (n : Nat) : a.OnCycle n ↔ TransGen (fun q q' => q ≠ final ∧ a.Epsilon q q') n n := by
  have hend : ∀ q q', a.Epsilon q q' → q' = EOP ∨ q ≠ final ∧ a.Epsilon q q' := by
    intro q q' hepsilon
    by_cases hq : q = final
    · subst hq
      have hkind := hepsilon.2.1
      have hnext := hepsilon.2.2
      rw [h.accept] at hkind hnext
      cases minimal with
      | false => exact absurd hkind (show ¬ 0 &&& SCAN = EPSILON by decide)
      | true => exact .inl (hnext.elim id id)
    · exact .inr ⟨hq, hepsilon⟩
  constructor
  · intro hcycle
    have hpath : ∀ q, TransGen a.Epsilon n q → q = EOP ∨
        TransGen (fun q q' => q ≠ final ∧ a.Epsilon q q') n q := by
      intro q hpath
      induction hpath with
      | single hepsilon => exact (hend _ _ hepsilon).imp_right .single
      | @tail q q' _ hepsilon ih =>
          rcases ih with rfl | ih
          · exact absurd rfl hepsilon.1
          · exact (hend _ _ hepsilon).imp_right ih.tail
    obtain ⟨q, hfirst, -⟩ := TransGen.head'_iff.mp hcycle
    exact (hpath n hcycle).resolve_left hfirst.1
  · intro hcycle
    exact TransGen.mono (p := a.Epsilon) (fun _ _ hstep => And.right hstep) n n hcycle

theorem acyclic_setMinimal (h : r.Compiled) (hacyclic : Acyclic r.automaton) :
    Acyclic (r.setMinimal f).automaton := by
  intro n hcycle
  have hfinished := (h.setMinimal f).2
  rw [minimal_setMinimal, final_setMinimal] at hfinished
  rw [onCycle_iff hfinished] at hcycle
  have hstep : ∀ q q', q ≠ r.final ∧ (r.setMinimal f).automaton.Epsilon q q' →
      q ≠ r.final ∧ r.automaton.Epsilon q q' := fun q q' hstep =>
    ⟨hstep.1, (epsilon_setMinimal f hstep.1).mp hstep.2⟩
  exact hacyclic n ((onCycle_iff h.2 n).mpr (TransGen.mono hstep n n hcycle))

end Mode

/-! ## The loops -/

section Loops

variable {r : RegExp} {haystack : List UInt8} {beyond : Nat → UInt8} {fuel : Nat}

def MatchesAt (r : RegExp) (haystack : List UInt8) (start k : Nat) : Prop :=
  start + k ≤ haystack.length ∧ Accepts r.automaton r.final ((haystack.drop start).take k)

theorem matchesAt_setMinimal (h : r.Compiled) (f : Bool) (start k : Nat) :
    (r.setMinimal f).MatchesAt haystack start k ↔ r.MatchesAt haystack start k := by
  rw [MatchesAt, MatchesAt, Accepts, Accepts, final_setMinimal, reached_setMinimal f h]

theorem matchLoop_mono {a : Automaton} {minimal : Bool} {string : List UInt8} {fuel fuel' : Nat}
    (hle : fuel ≤ fuel') {entry : Entry} {dq : List Entry} {j : Nat} {m : MatchResult}
    (h : matchLoop a minimal string beyond fuel entry dq j = some m) :
    matchLoop a minimal string beyond fuel' entry dq j = some m := by
  induction fuel generalizing fuel' entry dq j with
  | zero => cases h
  | succ fuel ih =>
      obtain ⟨k, rfl⟩ : ∃ k, fuel' = k + 1 := ⟨fuel' - 1, by omega⟩
      rw [matchLoop_succ] at h ⊢
      cases hiteration : iteration a minimal string beyond entry dq j with
      | inl m' =>
          rw [hiteration] at h
          exact h
      | inr c =>
          rw [hiteration] at h
          exact ih (by omega) h

def Runs (r : RegExp) (haystack : List UInt8) (beyond : Nat → UInt8) (fuel : Nat) : Prop :=
  ∀ start ≤ haystack.length, ∀ strlength ≤ haystack.length,
    ∃ m, r.matchAt haystack beyond fuel start strlength = some m

theorem Runs.mono {fuel' : Nat} (h : r.Runs haystack beyond fuel) (hle : fuel ≤ fuel') :
    r.Runs haystack beyond fuel' := fun start hstart strlength hlength => by
  obtain ⟨m, hm⟩ := h start hstart strlength hlength
  exact ⟨m, matchLoop_mono hle hm⟩

theorem exists_runs (h : r.Compiled) (hacyclic : Acyclic r.automaton) (haystack : List UInt8)
    (beyond : Nat → UInt8) : ∃ fuel, r.Runs haystack beyond fuel := by
  have hends : ∀ p : Nat × Nat, ∃ fuel, ∃ m, r.matchAt haystack beyond fuel p.1 p.2 = some m :=
    fun p => h.2.exists_result hacyclic _ _
  choose fuel hfuel using hends
  refine ⟨(Finset.range (haystack.length + 1) ×ˢ Finset.range (haystack.length + 1)).sup fuel,
    fun start hstart strlength hlength => ?_⟩
  obtain ⟨m, hm⟩ := hfuel (start, strlength)
  refine ⟨m, matchLoop_mono (Finset.le_sup (f := fuel) (b := (start, strlength)) ?_) hm⟩
  simp only [Finset.mem_product, Finset.mem_range]
  omega

theorem matchAt_minimal (h : r.Compiled) (hminimal : r.minimal = true) {start strlength : Nat}
    (hlength : start + strlength = haystack.length) {m : MatchResult}
    (hm : r.matchAt haystack beyond fuel start strlength = some m) :
    (m.matched = true → r.MatchesAt haystack start m.currentPos ∧
      ∀ k < m.currentPos, ¬ r.MatchesAt haystack start k) ∧
    (m.matched = false → ∀ k, ¬ r.MatchesAt haystack start k) := by
  have hstring : (haystack.drop start).take strlength = haystack.drop start :=
    List.take_of_length_le (by rw [List.length_drop]; omega)
  rw [matchAt, hstring, hminimal] at hm
  have hfinished := h.2
  rw [hminimal] at hfinished
  obtain ⟨hmatched, hunmatched⟩ := match_minimal hfinished hm
  constructor
  · intro hr
    obtain ⟨hle, haccepts, hleast⟩ := hmatched hr
    rw [List.length_drop] at hle
    exact ⟨⟨by omega, haccepts⟩, fun k hk hk' => hleast k hk hk'.2⟩
  · exact fun hr k hk => hunmatched hr k hk.2

theorem findStart_spec (h : r.Compiled) (hminimal : r.minimal = true)
    (hruns : r.Runs haystack beyond fuel) {strlength start : Nat}
    (hlength : start + strlength = haystack.length) (hpos : 0 < strlength) :
    ∃ m i left, r.findStart haystack beyond fuel strlength start = some (m, i, left) ∧
      (m.matched = true ∧ (∃ s, start ≤ s ∧ i = s + 1 ∧ s + (left + 1) = haystack.length ∧
          r.MatchesAt haystack s m.currentPos ∧
          (∀ k < m.currentPos, ¬ r.MatchesAt haystack s k) ∧
          ∀ s', start ≤ s' → s' < s → ∀ k, ¬ r.MatchesAt haystack s' k) ∨
        m.matched = false ∧ ∀ s, start ≤ s → s < haystack.length →
          ∀ k, ¬ r.MatchesAt haystack s k) := by
  induction strlength generalizing start with
  | zero => exact absurd hpos (lt_irrefl 0)
  | succ strlength ih =>
      obtain ⟨m, hm⟩ := hruns start (by omega) (strlength + 1) (by omega)
      obtain ⟨hmatched, hunmatched⟩ := matchAt_minimal h hminimal hlength hm
      rw [findStart, hm]
      change ∃ m' i left, (if m.matched = false ∧ strlength ≠ 0 then
        r.findStart haystack beyond fuel strlength (start + 1) else some (m, start + 1, strlength))
          = some (m', i, left) ∧ _
      cases hr : m.matched with
      | true =>
          obtain ⟨hmatches, hleast⟩ := hmatched hr
          refine ⟨m, start + 1, strlength, if_neg (by simp), .inl ⟨hr, start, le_rfl, rfl, by omega,
            hmatches, hleast, fun s' hs hs' => ?_⟩⟩
          omega
      | false =>
          have hnone := hunmatched hr
          rcases Nat.eq_zero_or_pos strlength with rfl | hleft
          · refine ⟨m, start + 1, 0, if_neg (by simp), .inr ⟨hr, fun s hs hs' => ?_⟩⟩
            obtain rfl : s = start := by omega
            exact hnone
          · obtain ⟨m', i, left, hfind, hresult⟩ :=
              @ih (start + 1) (by omega) hleft
            refine ⟨m', i, left, (if_pos ⟨rfl, hleft.ne'⟩).trans hfind, ?_⟩
            have hhere : ∀ s, start ≤ s → start + 1 ≤ s ∨ s = start := fun s hs => by omega
            rcases hresult with ⟨hr', s, hs, hi, hleft', hmatches, hleast, hbefore⟩ | ⟨hr', hafter⟩
            · refine .inl ⟨hr', s, by omega, hi, hleft', hmatches, hleast, fun s' hs' hlt => ?_⟩
              rcases hhere s' hs' with hs' | rfl
              · exact hbefore s' hs' hlt
              · exact hnone
            · refine .inr ⟨hr', fun s hs hlt => ?_⟩
              rcases hhere s hs with hs | rfl
              · exact hafter s hs hlt
              · exact hnone

theorem findLongest_spec (h : r.Compiled) (hminimal : r.minimal = false)
    (hruns : r.Runs haystack beyond fuel) (h0 : 0 ∉ haystack) {strlength start : Nat}
    (hlength : start + strlength ≤ haystack.length) (last : MatchResult) :
    ∃ m, r.findLongest haystack beyond fuel start strlength last = some m ∧
      ((∃ k, 1 ≤ k ∧ k ≤ strlength ∧ r.MatchesAt haystack start k) →
        r.MatchesAt haystack start m.currentPos ∧
          ∀ k, m.currentPos < k → k ≤ strlength → ¬ r.MatchesAt haystack start k) := by
  induction strlength generalizing last with
  | zero =>
      refine ⟨last, rfl, ?_⟩
      rintro ⟨k, hk, hk', -⟩
      omega
  | succ strlength ih =>
      obtain ⟨m, hm⟩ := hruns start (by omega) (strlength + 1) (by omega)
      have hsize : ((haystack.drop start).take (strlength + 1)).length = strlength + 1 := by
        rw [List.length_take, List.length_drop]
        omega
      have hnul : 0 ∉ (haystack.drop start).take (strlength + 1) := fun hmem =>
        h0 (List.mem_of_mem_drop (List.mem_of_mem_take hmem))
      have hfinished := h.2
      have hrun := hm
      rw [matchAt, hminimal] at hrun
      rw [hminimal] at hfinished
      obtain ⟨haccepts, hcurrent⟩ := match_maximal hfinished hnul hrun
      rw [hsize] at hcurrent
      rw [findLongest, hm]
      change ∃ m', (if m.matched = true then some m else
        r.findLongest haystack beyond fuel start strlength m) = some m' ∧ _
      cases hr : m.matched with
      | true =>
          refine ⟨m, if_pos rfl, fun _ => ?_⟩
          rw [hcurrent hr]
          exact ⟨⟨hlength, haccepts.mp hr⟩, fun k hk hk' => by omega⟩
      | false =>
          have hnone : ¬ r.MatchesAt haystack start (strlength + 1) := fun hmatches => by
            have htrue := haccepts.mpr hmatches.2
            rw [hr] at htrue
            cases htrue
          obtain ⟨m', hfind, hlongest⟩ := ih (by omega) m
          refine ⟨m', (if_neg (by simp)).trans hfind, ?_⟩
          have hshorter : ∀ k, k ≤ strlength + 1 → r.MatchesAt haystack start k →
              k ≤ strlength := by
            intro k hk hmatches
            rcases Nat.lt_or_ge strlength k with hlt | hge
            · obtain rfl : k = strlength + 1 := by omega
              exact absurd hmatches hnone
            · exact hge
          rintro ⟨k, hk, hk', hmatches⟩
          obtain ⟨hmatches', hmax⟩ := hlongest ⟨k, hk, hshorter k hk' hmatches, hmatches⟩
          exact ⟨hmatches', fun k' hlt hle hmatches'' =>
            hmax k' hlt (hshorter k' hle hmatches'') hmatches''⟩

end Loops

/-! ## The search -/

theorem compiled_parse {minimal : Bool} {memory : Nat → State} {regexp : List UInt8}
    {a : Automaton} (h : parse minimal memory regexp = .ok a) :
    (Rxregexp.compiled minimal a).Compiled := by
  obtain ⟨final, hpos, hfree, hfinished⟩ := finished_parse h
  obtain rfl : final = a.freeState - 1 := by omega
  exact ⟨hpos, hfinished⟩

structure Found (r : RegExp) (haystack : List UInt8) (out : PosResult) : Prop where
  regexp : out.regexp = r
  none : out.value = 0 ↔ ∀ s k, ¬ r.MatchesAt haystack s k
  first : ∀ s, out.value = s + 1 →
    (∃ k, r.MatchesAt haystack s k) ∧ ∀ s' < s, ∀ k, ¬ r.MatchesAt haystack s' k
  shortest : r.minimal = true → ∀ s, out.value = s + 1 →
    ∃ k, out.pos = some (s + k) ∧ IsLeast {k | r.MatchesAt haystack s k} k
  longest : r.minimal = false → ∀ s, out.value = s + 1 →
    (∃ k, 1 ≤ k ∧ r.MatchesAt haystack s k) →
      ∃ k, out.pos = some (s + k) ∧ IsGreatest {k | r.MatchesAt haystack s k} k

theorem not_matchesAt {r : RegExp} {haystack : List UInt8} (hne : haystack ≠ [])
    (h : ∀ s < haystack.length, ∀ k, ¬ r.MatchesAt haystack s k) (s k : Nat) :
    ¬ r.MatchesAt haystack s k := by
  rintro ⟨hle, haccepts⟩
  have hpos := List.length_pos_iff.mpr hne
  rcases Nat.lt_or_ge s haystack.length with hlt | hge
  · exact h s hlt k ⟨hle, haccepts⟩
  · obtain rfl : k = 0 := by omega
    refine h 0 hpos 0 ⟨Nat.zero_le _, ?_⟩
    rwa [List.take_zero] at haccepts ⊢

theorem exists_found {r : RegExp} (h : r.Compiled) (hacyclic : Acyclic r.automaton)
    {haystack : List UInt8} (hne : haystack ≠ []) (h0 : r.minimal = false → 0 ∉ haystack)
    (beyond : Nat → UInt8) :
    ∃ fuel out, r.pos haystack beyond fuel = some out ∧ r.Found haystack out := by
  have hpos := List.length_pos_iff.mpr hne
  have hminimal := h.setMinimal true
  have hmaximal := hminimal.setMinimal false
  have hacyclic1 := acyclic_setMinimal true h hacyclic
  have hacyclic2 := acyclic_setMinimal false hminimal hacyclic1
  obtain ⟨fuel1, hruns1⟩ := exists_runs hminimal hacyclic1 haystack beyond
  obtain ⟨fuel2, hruns2⟩ := exists_runs hmaximal hacyclic2 haystack beyond
  have hruns1 := hruns1.mono (Nat.le_max_left fuel1 fuel2)
  have hruns2 := hruns2.mono (Nat.le_max_right fuel1 fuel2)
  obtain ⟨m, i, left, hfind, hresult⟩ := findStart_spec hminimal (minimal_setMinimal true) hruns1
    (Nat.zero_add haystack.length) hpos
  simp only [matchesAt_setMinimal h] at hresult
  refine ⟨max fuel1 fuel2, ?_⟩
  rw [pos, if_pos hpos]
  dsimp only
  rw [hfind]
  change ∃ out, (if m.matched = true then _ else _) = some out ∧ _
  rcases hresult with ⟨hr, s, -, rfl, hleft, hmatches, hleast, hbefore⟩ | ⟨hr, hnone⟩
  · rw [if_pos hr]
    have hfirst : ∀ s', s + 1 = s' + 1 → (∃ k, r.MatchesAt haystack s' k) ∧
        ∀ s'' < s', ∀ k, ¬ r.MatchesAt haystack s'' k := by
      intro s' hs'
      obtain rfl : s = s' := by omega
      exact ⟨⟨_, hmatches⟩, fun s'' hlt => hbefore s'' (Nat.zero_le _) hlt⟩
    have hsome : s + 1 = 0 ↔ ∀ s k, ¬ r.MatchesAt haystack s k :=
      ⟨fun hzero => absurd hzero (Nat.succ_ne_zero s), fun hall => absurd hmatches (hall s _)⟩
    cases hmode : r.minimal with
    | true =>
        rw [if_neg (by simp)]
        refine ⟨_, rfl, ?_, hsome, hfirst, fun _ s' hs' => ?_, fun hmax => ?_⟩
        · have hback := setMinimal_setMinimal true h
          rw [hmode] at hback
          exact hback
        · obtain rfl : s = s' := Nat.succ.inj hs'
          have hend : s + 1 + m.currentPos - 1 = s + m.currentPos := by omega
          refine ⟨m.currentPos, congrArg some hend, hmatches, fun k hk => ?_⟩
          exact Nat.not_lt.mp fun hlt => hleast k hlt hk
        · rw [hmode] at hmax
          cases hmax
    | false =>
        rw [if_pos rfl]
        obtain ⟨m', hlongest, hspec⟩ := findLongest_spec hmaximal (minimal_setMinimal false) hruns2
          (h0 hmode) (show s + 1 - 1 + (left + 1) ≤ haystack.length by omega) m
        rw [hlongest]
        simp only [matchesAt_setMinimal hminimal, matchesAt_setMinimal h] at hspec
        refine ⟨_, rfl, ?_, hsome, hfirst, fun hmin => ?_, fun _ s' hs' hexists => ?_⟩
        · have hsame : ((r.setMinimal true).setMinimal false).setMinimal false =
              (r.setMinimal true).setMinimal false := if_neg (by simp)
          change ((r.setMinimal true).setMinimal false).setMinimal false = r
          have hback := setMinimal_setMinimal true h
          rw [hmode] at hback
          rw [hsame]
          exact hback
        · rw [hmode] at hmin
          cases hmin
        · obtain rfl : s = s' := Nat.succ.inj hs'
          obtain ⟨k, hk, hmatches'⟩ := hexists
          have hend : s + 1 + m'.currentPos - 1 = s + m'.currentPos := by omega
          have hbound : ∀ k, r.MatchesAt haystack s k → k ≤ left + 1 := fun k hk => by
            have hle := hk.1
            omega
          obtain ⟨hmatches'', hmax⟩ := hspec ⟨k, hk, hbound k hmatches', hmatches'⟩
          refine ⟨m'.currentPos, congrArg some hend, hmatches'', fun k hk => ?_⟩
          exact Nat.not_lt.mp fun hlt => hmax k hlt (hbound k hk) hk
  · rw [if_neg (by rw [hr]; decide)]
    have hall := not_matchesAt hne fun s hlt => hnone s (Nat.zero_le _) hlt
    refine ⟨_, rfl, setMinimal_setMinimal true h, ⟨fun _ => hall, fun _ => rfl⟩,
      fun s hs => ?_, fun _ s hs => ?_, fun _ s hs => ?_⟩
    · exact absurd hs.symm (Nat.succ_ne_zero s)
    · exact absurd hs.symm (Nat.succ_ne_zero s)
    · exact absurd hs.symm (Nat.succ_ne_zero s)

theorem acyclic_letter {a : Automaton}
    (h : parse false (fun _ => ⟨0, 0, 0⟩) (bytes "a") = .ok a) : Acyclic a := by
  obtain rfl : _ = a := Except.ok.inj h
  intro n hcycle
  obtain ⟨q, hfirst, hback⟩ := TransGen.head'_iff.mp hcycle
  have hstate : ∀ n, n ≠ 0 → n ≠ 3 → ¬ ((if n = 3 then (⟨EPSILON, 0, 0⟩ : State)
      else if n = 2 then ⟨0, 3, 3⟩ else if n = 0 then ⟨EPSILON, 1, 1⟩
      else if n = 1 then ⟨97, 2, 2⟩ else ⟨0, 0, 0⟩).ch &&& SCAN = EPSILON) := by
    intro n h0 h3
    rw [if_neg h3, if_neg h0]
    split_ifs <;> decide
  by_cases hn : n = 3
  · subst hn
    have hq : q = 0 := hfirst.2.2.elim id id
    rcases ReflTransGen.cases_head hback with heq | ⟨q', hstep, -⟩
    · rw [hq] at heq
      cases heq
    · exact hstep.1 hq
  · exact hstate n hfirst.1 hn hfirst.2.1

end RegExp

end LeooRexx.Rxregexp
