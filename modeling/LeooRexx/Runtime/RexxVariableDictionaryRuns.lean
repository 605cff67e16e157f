import Mathlib
import LeooRexx.Runtime.RexxVariableDictionary

/-!
# Runs of object locks

The invariant of all runs: the count of a lock is the nesting of its owner, the waiting
list has the activities that wait, in the order in which they began, and every chain of
waiting ends.
-/

namespace LeooRexx

open Relation

variable {α ι : Type}

namespace ObjectLocks

def owner (s : ObjectLocks α ι) (d : ι) : Option α := (s.dictionaries d).reservingActivity

def count (s : ObjectLocks α ι) (d : ι) : Nat := (s.dictionaries d).reserveCount

def queue (s : ObjectLocks α ι) (d : ι) : List α := (s.dictionaries d).waitingActivities.getD []

def waitsFor (s : ObjectLocks α ι) (a : α) : Option α := (s.waitingObject a).bind s.owner

variable (s : ObjectLocks α ι) (a b : α) (d d' : ι) (v : RexxVariableDictionary α)

section Dictionaries

variable [DecidableEq ι]

@[simp]
theorem owner_setDictionary : (s.setDictionary d v).owner d' =
    if d' = d then v.reservingActivity else s.owner d' := by
  simp only [owner, setDictionary, Function.update_apply]
  split <;> rfl

@[simp]
theorem count_setDictionary : (s.setDictionary d v).count d' =
    if d' = d then v.reserveCount else s.count d' := by
  simp only [count, setDictionary, Function.update_apply]
  split <;> rfl

@[simp]
theorem queue_setDictionary : (s.setDictionary d v).queue d' =
    if d' = d then v.waitingActivities.getD [] else s.queue d' := by
  simp only [queue, setDictionary, Function.update_apply]
  split <;> rfl

@[simp]
theorem waitingObject_setDictionary :
    (s.setDictionary d v).waitingObject = s.waitingObject := rfl

end Dictionaries

variable [DecidableEq α]

@[simp]
theorem owner_waitReserve : (s.waitReserve a d).owner = s.owner := rfl

@[simp]
theorem count_waitReserve : (s.waitReserve a d).count = s.count := rfl

@[simp]
theorem queue_waitReserve : (s.waitReserve a d).queue = s.queue := rfl

@[simp]
theorem waitingObject_waitReserve : (s.waitReserve a d).waitingObject b =
    if b = a then some d else s.waitingObject b :=
  Function.update_apply ..

@[simp]
theorem owner_postRelease : (s.postRelease a).owner = s.owner := rfl

@[simp]
theorem count_postRelease : (s.postRelease a).count = s.count := rfl

@[simp]
theorem queue_postRelease : (s.postRelease a).queue = s.queue := rfl

@[simp]
theorem waitingObject_postRelease : (s.postRelease a).waitingObject b =
    if b = a then none else s.waitingObject b :=
  Function.update_apply ..

theorem checkDeadLock_eq (fuel : Nat) :
    s.checkDeadLock fuel a b = WaitsFor.reaches s.waitsFor fuel a b := by
  induction fuel generalizing a with
  | zero => rfl
  | succ fuel ih =>
      rw [checkDeadLock, WaitsFor.reaches, waitsFor]
      cases s.waitingObject a with
      | none => rfl
      | some d =>
          rw [Option.bind_some, owner]
          cases hd : (s.dictionaries d).reservingActivity with
          | none => simp only [hd]
          | some c => simp only [hd, ih]

def ClosesCycle (s : ObjectLocks α ι) (a : α) (d : ι) : Prop :=
  TransGen (WaitsFor.Follows (s.waitReserve a d).waitsFor) a a

/-- What `reserve` does, with the dictionary before it. -/
inductive ReserveSpec [DecidableEq ι] (s : ObjectLocks α ι) (a : α) (d : ι) :
    Reserve → ObjectLocks α ι → Prop where
  | first (h : s.owner d = none) : ReserveSpec s a d .reserved
      (s.setDictionary d ⟨some a, 1, (s.dictionaries d).waitingActivities⟩)
  | again (h : s.owner d = some a) : ReserveSpec s a d .reserved
      (s.setDictionary d ⟨some a, ushort (s.count d + 1), (s.dictionaries d).waitingActivities⟩)
  | deadlock {b : α} (h : s.owner d = some b) (hne : b ≠ a) (hcycle : s.ClosesCycle a d) :
      ReserveSpec s a d .deadlock s
  | waits {b : α} (h : s.owner d = some b) (hne : b ≠ a) (hcycle : ¬ s.ClosesCycle a d) :
      ReserveSpec s a d .waits
        ((s.setDictionary d ⟨some b, s.count d, some (s.queue d ++ [a])⟩).waitReserve a d)

theorem waitsFor_waitReserve {s : ObjectLocks α ι} {a b : α} {d : ι} (h : s.owner d = some b) :
    (s.waitReserve a d).waitsFor a = some b ∧
      ∀ c, c ≠ a → (s.waitReserve a d).waitsFor c = s.waitsFor c := by
  constructor
  · simp [waitsFor, h]
  · intro c hc
    simp [waitsFor, hc]

theorem closesCycle_iff {s : ObjectLocks α ι} {a b : α} {d : ι} (ha : s.waitingObject a = none)
    (h : s.owner d = some b) (hne : b ≠ a) :
    s.ClosesCycle a d ↔ TransGen (WaitsFor.Follows s.waitsFor) b a := by
  obtain ⟨hlink, hsame⟩ := waitsFor_waitReserve (a := a) h
  have hnone : s.waitsFor a = none := by rw [waitsFor, ha, Option.bind_none]
  rw [ClosesCycle, WaitsFor.cycle_iff hnone hlink hsame, reflTransGen_iff_eq_or_transGen]
  simp [Ne.symm hne]

theorem reserve_spec [DecidableEq ι] [Fintype α] {s : ObjectLocks α ι} {a : α} {d : ι}
    (ha : s.waitingObject a = none) (hends : ∀ x, WaitsFor.Ends s.waitsFor x) :
    ∃ outcome s', s.reserve d a = some (outcome, s') ∧ ReserveSpec s a d outcome s' := by
  cases howner : s.owner d with
  | none =>
      refine ⟨_, _, ?_, .first howner⟩
      rw [owner] at howner
      simp only [reserve, howner]
  | some b =>
      have hb : (s.dictionaries d).reservingActivity = some b := howner
      by_cases hne : b = a
      · subst hne
        refine ⟨_, _, ?_, .again howner⟩
        simp only [reserve, hb, if_pos]
        rfl
      · obtain ⟨r, hcheck, hiff⟩ := (hends b).reaches a
        rw [← checkDeadLock_eq] at hcheck
        rw [← closesCycle_iff ha howner hne] at hiff
        cases r with
        | true =>
            refine ⟨_, _, ?_, .deadlock howner hne (hiff.mp rfl)⟩
            simp [reserve, hb, hne, hcheck]
        | false =>
            refine ⟨_, _, ?_, .waits howner hne fun hcycle => by simpa using hiff.mpr hcycle⟩
            simp [reserve, hb, hne, hcheck, count, queue]

/-- What `release` does to a lock that is held, with the activity that is woken. -/
inductive ReleaseSpec [DecidableEq ι] (s : ObjectLocks α ι) (d : ι) :
    Option α → ObjectLocks α ι → Prop where
  | nested (h : 1 < s.count d) : ReleaseSpec s d none (s.setDictionary d
      ⟨s.owner d, s.count d - 1, (s.dictionaries d).waitingActivities⟩)
  | free (h : s.count d = 1) (hqueue : s.queue d = []) : ReleaseSpec s d none
      (s.setDictionary d ⟨none, 0, (s.dictionaries d).waitingActivities⟩)
  | handOff (h : s.count d = 1) {b : α} {waiting : List α} (hqueue : s.queue d = b :: waiting) :
      ReleaseSpec s d (some b)
        ((s.setDictionary d ⟨some b, 1, some waiting⟩).postRelease b)

theorem ushort_pred {n : Nat} (h : 0 < n) (hn : n < 2 ^ 16) : ushort (n + (2 ^ 16 - 1)) = n - 1 := by
  rw [ushort]
  omega

theorem release_spec [DecidableEq ι] {s : ObjectLocks α ι} {d : ι} (h : 0 < s.count d)
    (hn : s.count d < 2 ^ 16) : ReleaseSpec s d (s.release d).1 (s.release d).2 := by
  have hcount := ushort_pred h hn
  rw [count] at hcount
  rw [release]
  simp only [hcount]
  rw [← count]
  by_cases hone : s.count d = 1
  · rw [if_pos (by omega)]
    cases hwaiting : (s.dictionaries d).waitingActivities with
    | none =>
        have hqueue : s.queue d = [] := by rw [queue, hwaiting, Option.getD_none]
        have hfree := ReleaseSpec.free hone hqueue
        rwa [hwaiting] at hfree
    | some waiting =>
        cases waiting with
        | nil =>
            have hqueue : s.queue d = [] := by rw [queue, hwaiting, Option.getD_some]
            have hfree := ReleaseSpec.free hone hqueue
            rwa [hwaiting] at hfree
        | cons b waiting =>
            have hqueue : s.queue d = b :: waiting := by rw [queue, hwaiting, Option.getD_some]
            exact .handOff hone hqueue
  · rw [if_neg (by omega)]
    exact .nested (by omega)

theorem transfer_once [DecidableEq ι] {s : ObjectLocks α ι} {d : ι} (h : s.count d = 1) :
    s.transfer d a = (true, none, s.setDictionary d
      ⟨some a, s.count d, (s.dictionaries d).waitingActivities⟩) :=
  if_pos h

theorem transfer_nested [DecidableEq ι] {s : ObjectLocks α ι} {d : ι} (h : s.count d ≠ 1) :
    s.transfer d a = (false, s.release d) :=
  if_neg h

end ObjectLocks

namespace LockRun

open ObjectLocks

variable [DecidableEq α] [DecidableEq ι]

structure Safe (r : LockRun α ι) : Prop where
  nesting : ∀ a d, r.history.nesting a d =
    if r.locks.owner d = some a then r.locks.count d else 0
  count : ∀ a d, r.locks.owner d = some a → 0 < r.locks.count d ∧ r.locks.count d < 2 ^ 16
  waiting : ∀ a d, a ∈ r.locks.queue d ↔ r.locks.waitingObject a = some d
  owned : ∀ a d, r.locks.waitingObject a = some d → ∃ b, r.locks.owner d = some b
  order : ∀ d, (r.locks.queue d).Pairwise fun a b => r.history.since a < r.history.since b
  since : ∀ a, r.locks.waitingObject a ≠ none → r.history.since a < r.history.clock
  posts : ∀ a, r.history.waits a =
    r.history.posts a + if r.locks.waitingObject a = none then 0 else 1
  ends : ∀ a, WaitsFor.Ends r.locks.waitsFor a

variable {r : LockRun α ι} {a b : α} {d : ι}

omit [DecidableEq ι] in
theorem init_safe : (init : LockRun α ι).Safe where
  nesting _ _ := rfl
  count _ _ h := by cases h
  waiting a d := by simp [init, ObjectLocks.init, queue]
  owned _ _ h := by cases h
  order _ := List.Pairwise.nil
  since _ h := absurd rfl h
  posts _ := rfl
  ends _ := .stop rfl

theorem Safe.change (h : r.Safe) {o : Option α} {n : Nat} {nesting : α → ι → Nat}
    (hcount : ∀ b, o = some b → 0 < n ∧ n < 2 ^ 16)
    (hnesting : ∀ a' d', nesting a' d' =
      if d' = d then (if o = some a' then n else 0) else r.history.nesting a' d')
    (howned : o = none → r.locks.queue d = [])
    (hfree : ∀ b, o = some b → r.locks.owner d = some b ∨ r.locks.waitingObject b = none) :
    Safe ⟨r.locks.setDictionary d ⟨o, n, (r.locks.dictionaries d).waitingActivities⟩,
      { r.history with nesting := nesting }⟩ where
  nesting a' d' := by
    simp only [hnesting, owner_setDictionary, count_setDictionary]
    split
    · rfl
    · exact h.nesting a' d'
  count a' d' hd' := by
    simp only [owner_setDictionary, count_setDictionary] at hd' ⊢
    split at hd'
    · rw [if_pos ‹_›]
      exact hcount a' hd'
    · rw [if_neg ‹_›]
      exact h.count a' d' hd'
  waiting a' d' := by
    simp only [queue_setDictionary, waitingObject_setDictionary]
    split
    · subst d'
      exact h.waiting a' d
    · exact h.waiting a' d'
  owned a' d' ha' := by
    simp only [owner_setDictionary]
    split
    · subst d'
      cases o with
      | some b => exact ⟨b, rfl⟩
      | none =>
          have hmem := (h.waiting a' d).mpr ha'
          rw [howned rfl] at hmem
          exact absurd hmem List.not_mem_nil
    · exact h.owned a' d' ha'
  order d' := by
    simp only [queue_setDictionary]
    split
    · subst d'
      exact h.order d
    · exact h.order d'
  since := h.since
  posts := h.posts
  ends := by
    have hwaitsFor (x : α) (hx : r.locks.waitingObject x ≠ some d) : (r.locks.setDictionary d
        ⟨o, n, (r.locks.dictionaries d).waitingActivities⟩).waitsFor x = r.locks.waitsFor x := by
      rw [waitsFor, waitsFor, waitingObject_setDictionary]
      cases hd : r.locks.waitingObject x with
      | none => rfl
      | some d' =>
          have hne : d' ≠ d := fun heq => hx (heq ▸ hd)
          simp [hne]
    have hwaitsFor' (x : α) (hx : r.locks.waitingObject x = some d) : (r.locks.setDictionary d
        ⟨o, n, (r.locks.dictionaries d).waitingActivities⟩).waitsFor x = o := by
      simp [waitsFor, hx]
    intro x
    apply (h.ends x).update
    intro y
    by_cases hy : r.locks.waitingObject y = some d
    · rw [hwaitsFor' y hy]
      cases o with
      | none => exact .inr (.inl rfl)
      | some b =>
          rcases hfree b rfl with howner | hb
          · left
            rw [waitsFor, hy, Option.bind_some, howner]
          · refine .inr (.inr ⟨b, rfl, .stop ?_⟩)
            rw [hwaitsFor b (by rw [hb]; exact (Option.some_ne_none d).symm), waitsFor, hb]
            rfl
    · exact .inl (hwaitsFor y hy)

theorem Safe.reserved (h : r.Safe) {n : Nat} (ha : r.locks.waitingObject a = none)
    (howner : r.locks.owner d = none ∧ n = 1 ∨
      r.locks.owner d = some a ∧ n = r.locks.count d + 1) (hn : n < 2 ^ 16) :
    Safe ⟨r.locks.setDictionary d ⟨some a, n, (r.locks.dictionaries d).waitingActivities⟩,
      r.history.addNesting a d⟩ := by
  apply h.change
  · rintro b -
    rcases howner with ⟨-, rfl⟩ | ⟨-, rfl⟩ <;> omega
  · intro a' d'
    by_cases hd : d' = d
    · subst hd
      by_cases ha' : a' = a
      · subst ha'
        rcases howner with ⟨howner, rfl⟩ | ⟨howner, rfl⟩ <;> simp [h.nesting, howner]
      · rcases howner with ⟨howner, -⟩ | ⟨howner, -⟩ <;>
          simp [h.nesting, howner, ha', Ne.symm ha']
    · simp [hd]
  · rintro ⟨⟩
  · rintro b ⟨⟩
    exact .inr ha

theorem Safe.released (h : r.Safe) (howner : r.locks.owner d = some a)
    (hqueue : r.locks.count d = 1 → r.locks.queue d = []) :
    Safe ⟨r.locks.setDictionary d
      ⟨if r.locks.count d = 1 then none else some a, r.locks.count d - 1,
        (r.locks.dictionaries d).waitingActivities⟩, r.history.dropNesting a d⟩ := by
  obtain ⟨hpos, hlt⟩ := h.count a d howner
  apply h.change
  · intro b hb
    split at hb
    · cases hb
    · omega
  · intro a' d'
    by_cases hd : d' = d
    · subst hd
      by_cases ha' : a' = a
      · subst ha'
        by_cases hone : r.locks.count d' = 1 <;> simp [h.nesting, howner, hone]
      · by_cases hone : r.locks.count d' = 1 <;>
          simp [h.nesting, howner, hone, ha', Ne.symm ha']
    · simp [hd]
  · intro hnone
    split at hnone
    · exact hqueue ‹_›
    · cases hnone
  · intro b hb
    split at hb
    · cases hb
    · exact .inl (howner.trans hb)

theorem Safe.transferred (h : r.Safe) (howner : r.locks.owner d = some a)
    (hone : r.locks.count d = 1) (hb : r.locks.waitingObject b = none) :
    Safe ⟨r.locks.setDictionary d ⟨some b, r.locks.count d,
      (r.locks.dictionaries d).waitingActivities⟩,
        (r.history.dropNesting a d).addNesting b d⟩ := by
  apply h.change
  · rintro c -
    omega
  · intro a' d'
    by_cases hd : d' = d
    · subst hd
      by_cases hb' : a' = b
      · subst hb'
        by_cases ha' : a' = a
        · simp [h.nesting, howner, hone, ha']
        · simp [h.nesting, howner, hone, ha', Ne.symm ha']
      · by_cases ha' : a' = a
        · have hab : a ≠ b := fun heq => hb' (ha'.trans heq)
          simp [h.nesting, howner, hone, ha', hab, Ne.symm hab]
        · simp [h.nesting, howner, ha', hb', Ne.symm ha', Ne.symm hb']
    · simp [hd]
  · rintro ⟨⟩
  · rintro c ⟨⟩
    exact .inr hb

theorem Safe.waits (h : r.Safe) (ha : r.locks.waitingObject a = none)
    (howner : r.locks.owner d = some b) (hne : b ≠ a) (hcycle : ¬ r.locks.ClosesCycle a d) :
    Safe ⟨(r.locks.setDictionary d
      ⟨some b, r.locks.count d, some (r.locks.queue d ++ [a])⟩).waitReserve a d,
        r.history.wait a⟩ := by
  have howner' (d' : ι) : ((r.locks.setDictionary d ⟨some b, r.locks.count d,
      some (r.locks.queue d ++ [a])⟩).waitReserve a d).owner d' = r.locks.owner d' := by
    simp only [owner_waitReserve, owner_setDictionary]
    split
    · subst d'
      exact howner.symm
    · rfl
  have hcount (d' : ι) : ((r.locks.setDictionary d ⟨some b, r.locks.count d,
      some (r.locks.queue d ++ [a])⟩).waitReserve a d).count d' = r.locks.count d' := by
    simp only [count_waitReserve, count_setDictionary]
    split
    · subst d'
      rfl
    · rfl
  have hnot (d' : ι) : a ∉ r.locks.queue d' := fun hmem => by
    rw [h.waiting, ha] at hmem
    cases hmem
  have hsince {x : α} {d' : ι} (hx : x ∈ r.locks.queue d') :
      (r.history.wait a).since x = r.history.since x := by
    have hne : x ≠ a := by
      rintro rfl
      exact hnot d' hx
    exact Function.update_of_ne hne _ _
  have hsince_a : (r.history.wait a).since a = r.history.clock := Function.update_self ..
  constructor
  case nesting =>
    intro a' d'
    simp only [howner', hcount]
    exact h.nesting a' d'
  case count =>
    intro a' d'
    simp only [howner', hcount]
    exact h.count a' d'
  case waiting =>
    intro a' d'
    simp only [queue_waitReserve, queue_setDictionary, waitingObject_waitReserve,
      waitingObject_setDictionary]
    by_cases ha' : a' = a
    · subst ha'
      by_cases hd : d' = d
      · simp [hd]
      · simp [hd, Ne.symm hd, hnot d']
    · by_cases hd : d' = d
      · subst hd
        simp [ha', h.waiting]
      · simp [ha', hd, h.waiting]
  case owned =>
    intro a' d'
    simp only [howner', waitingObject_waitReserve, waitingObject_setDictionary]
    split
    · rintro ⟨⟩
      exact ⟨b, howner⟩
    · exact h.owned a' d'
  case order =>
    intro d'
    have hold : (r.locks.queue d').Pairwise fun x y =>
        (r.history.wait a).since x < (r.history.wait a).since y := by
      apply (h.order d').imp_of_mem
      intro x y hx hy hlt
      rwa [hsince hx, hsince hy]
    simp only [queue_waitReserve, queue_setDictionary]
    split
    · subst d'
      rw [Option.getD_some, List.pairwise_append]
      refine ⟨hold, List.pairwise_singleton _ _, fun x hx y hy => ?_⟩
      rw [List.mem_singleton.mp hy, hsince hx, hsince_a]
      apply h.since
      rw [(h.waiting x d).mp hx]
      exact Option.some_ne_none d
    · exact hold
  case since =>
    intro a' ha'
    by_cases heq : a' = a
    · subst heq
      rw [hsince_a]
      exact Nat.lt_succ_self _
    · have hlt := h.since a' (by simpa [heq] using ha')
      have hsame : (r.history.wait a).since a' = r.history.since a' :=
        Function.update_of_ne heq _ _
      rw [hsame]
      exact Nat.lt_succ_of_lt hlt
  case posts =>
    intro a'
    have hposts := h.posts a'
    simp only [waitingObject_waitReserve, waitingObject_setDictionary]
    by_cases heq : a' = a
    · subst heq
      simp [LockHistory.wait, hposts, ha]
    · simp [LockHistory.wait, heq, hposts]
  case ends =>
    obtain ⟨hlink, hsame⟩ := waitsFor_waitReserve (a := a) howner
    have hlocks : ((r.locks.setDictionary d ⟨some b, r.locks.count d,
        some (r.locks.queue d ++ [a])⟩).waitReserve a d).waitsFor =
          (r.locks.waitReserve a d).waitsFor := by
      funext x
      simp only [waitsFor, funext howner']
      rfl
    rw [hlocks]
    have hnone : r.locks.waitsFor a = none := by rw [waitsFor, ha, Option.bind_none]
    apply WaitsFor.ends_of_link h.ends hlink hsame
    rwa [← WaitsFor.cycle_iff hnone hlink hsame]

theorem Safe.handedOff (h : r.Safe) (howner : r.locks.owner d = some a)
    (hone : r.locks.count d = 1) {waiting : List α} (hqueue : r.locks.queue d = b :: waiting) :
    Safe ⟨(r.locks.setDictionary d ⟨some b, 1, some waiting⟩).postRelease b,
      (r.history.dropNesting a d).post (some b) d⟩ := by
  have hb : r.locks.waitingObject b = some d := by
    rw [← h.waiting, hqueue]
    exact List.mem_cons_self
  have hab : a ≠ b := fun heq => by
    have hcycle : r.locks.waitsFor b = some b := by rw [waitsFor, hb, Option.bind_some, howner, heq]
    exact (h.ends b).acyclic (.single hcycle)
  have hnot : b ∉ waiting := by
    intro hmem
    have horder := h.order d
    rw [hqueue, List.pairwise_cons] at horder
    exact absurd (horder.1 b hmem) (lt_irrefl _)
  constructor
  case nesting =>
    intro a' d'
    by_cases hd : d' = d
    · subst hd
      by_cases hb' : a' = b
      · subst hb'
        simp [h.nesting, howner, Ne.symm hab, hab]
      · by_cases ha' : a' = a
        · simp [h.nesting, howner, hone, ha', hab, Ne.symm hab]
        · simp [h.nesting, howner, ha', hb', Ne.symm ha', Ne.symm hb']
    · simp [hd, h.nesting]
  case count =>
    intro a' d' hd'
    simp only [owner_postRelease, owner_setDictionary, count_postRelease,
      count_setDictionary] at hd' ⊢
    split at hd'
    · rw [if_pos ‹_›]
      omega
    · rw [if_neg ‹_›]
      exact h.count a' d' hd'
  case waiting =>
    intro a' d'
    have hwaiting := h.waiting a' d'
    simp only [queue_postRelease, queue_setDictionary, waitingObject_postRelease,
      waitingObject_setDictionary]
    by_cases hd : d' = d
    · subst hd
      rw [hqueue, List.mem_cons] at hwaiting
      by_cases ha' : a' = b
      · simp [ha', hnot]
      · simpa [ha'] using hwaiting
    · by_cases ha' : a' = b
      · subst ha'
        rw [hb, Option.some.injEq] at hwaiting
        simp [hd, hwaiting, Ne.symm hd]
      · simpa [hd, ha'] using hwaiting
  case owned =>
    intro a' d' ha'
    simp only [owner_postRelease, owner_setDictionary, waitingObject_postRelease,
      waitingObject_setDictionary] at ha' ⊢
    split at ha'
    · cases ha'
    · split
      · exact ⟨b, rfl⟩
      · exact h.owned a' d' ha'
  case order =>
    intro d'
    simp only [queue_postRelease, queue_setDictionary]
    split
    · have horder := h.order d
      rw [hqueue, List.pairwise_cons] at horder
      exact horder.2
    · exact h.order d'
  case since =>
    intro a' ha'
    simp only [waitingObject_postRelease, waitingObject_setDictionary] at ha'
    split at ha'
    · exact absurd rfl ha'
    · exact h.since a' ha'
  case posts =>
    intro a'
    have hposts := h.posts a'
    simp only [waitingObject_postRelease, waitingObject_setDictionary]
    by_cases ha' : a' = b
    · subst ha'
      simp [LockHistory.post, LockHistory.addNesting, LockHistory.dropNesting, hposts, hb]
    · simp [LockHistory.post, LockHistory.addNesting, LockHistory.dropNesting, hposts, ha']
  case ends =>
    intro x
    apply (h.ends x).update
    intro y
    by_cases hy : y = b
    · refine .inr (.inl ?_)
      simp [waitsFor, hy]
    · cases hwaiting : r.locks.waitingObject y with
      | none => simp [waitsFor, hwaiting, hy]
      | some d' =>
          by_cases hd : d' = d
          · refine .inr (.inr ⟨b, ?_, .stop ?_⟩) <;> simp [waitsFor, hwaiting, hy, hd]
          · simp [waitsFor, hwaiting, hy, hd]

variable [Fintype α]

theorem Safe.reserve (h : r.Safe) (ha : r.locks.waitingObject a = none)
    (hn : r.history.nesting a d + 1 < 2 ^ 16) :
    ∃ r', r.reserve a d = some r' ∧ r'.Safe := by
  obtain ⟨outcome, s', hreserve, hspec⟩ := reserve_spec (d := d) ha h.ends
  rw [LockRun.reserve, hreserve]
  cases hspec with
  | first howner =>
      exact ⟨_, rfl, h.reserved ha (.inl ⟨howner, rfl⟩) (by omega)⟩
  | again howner =>
      have hcount : r.locks.count d + 1 < 2 ^ 16 := by
        rwa [h.nesting, if_pos howner] at hn
      rw [show ushort (r.locks.count d + 1) = r.locks.count d + 1 from Nat.mod_eq_of_lt hcount]
      exact ⟨_, rfl, h.reserved ha (.inr ⟨howner, rfl⟩) hcount⟩
  | deadlock => exact ⟨r, rfl, h⟩
  | waits howner hne hcycle => exact ⟨_, rfl, h.waits ha howner hne hcycle⟩

omit [DecidableEq ι] [Fintype α] in
theorem Safe.owner_of_nesting (h : r.Safe) (hn : 0 < r.history.nesting a d) :
    r.locks.owner d = some a := by
  by_contra howner
  rw [h.nesting, if_neg howner] at hn
  exact absurd hn (lt_irrefl 0)

omit [Fintype α] in
theorem Safe.release (h : r.Safe) (hn : 0 < r.history.nesting a d) : (r.release a d).Safe := by
  have howner := h.owner_of_nesting hn
  obtain ⟨hpos, hlt⟩ := h.count a d howner
  have hspec := release_spec hpos hlt
  rw [LockRun.release]
  generalize r.locks.release d = result at hspec ⊢
  obtain ⟨woken, s'⟩ := result
  cases hspec with
  | nested hone =>
      have hne : r.locks.count d ≠ 1 := by omega
      have hreleased := h.released howner fun hone => absurd hone hne
      rwa [if_neg hne, ← howner] at hreleased
  | free hone hqueue =>
      have hreleased := h.released howner fun _ => hqueue
      rwa [if_pos hone, hone] at hreleased
  | handOff hone hqueue => exact h.handedOff howner hone hqueue

omit [Fintype α] in
theorem Safe.transfer (h : r.Safe) (hn : 0 < r.history.nesting a d)
    (hb : r.locks.waitingObject b = none) : (r.transfer a d b).Safe := by
  have howner := h.owner_of_nesting hn
  by_cases hone : r.locks.count d = 1
  · rw [LockRun.transfer, transfer_once b hone]
    exact h.transferred howner hone hb
  · rw [LockRun.transfer, transfer_nested b hone]
    exact h.release hn

theorem enabled_of_step {op : LockOp α ι} {r' : LockRun α ι} (hstep : r.step op = some r') :
    r.Enabled op := by
  by_contra hop
  have hnone : r.step op = none := if_neg hop
  rw [hnone] at hstep
  cases hstep

theorem Safe.step (h : r.Safe) {op : LockOp α ι} (hop : r.Enabled op) :
    ∃ r', r.step op = some r' ∧ r'.Safe := by
  cases op with
  | reserve a d =>
      obtain ⟨r', hreserve, hr'⟩ := h.reserve hop.1 hop.2
      exact ⟨r', (if_pos hop).trans hreserve, hr'⟩
  | release a d => exact ⟨_, if_pos hop, h.release hop.2⟩
  | transfer a d target => exact ⟨_, if_pos hop, h.transfer hop.2.1 hop.2.2⟩

theorem Safe.run (h : r.Safe) {ops : List (LockOp α ι)} {r' : LockRun α ι}
    (hrun : r.run ops = some r') : r'.Safe := by
  induction ops generalizing r with
  | nil =>
      cases hrun
      exact h
  | cons op ops ih =>
      rw [LockRun.run, List.foldlM_cons] at hrun
      obtain ⟨u, hstep, hrun⟩ := Option.bind_eq_some_iff.mp hrun
      obtain ⟨u', hstep', hu⟩ := h.step (enabled_of_step hstep)
      obtain rfl : u' = u := Option.some.inj (hstep'.symm.trans hstep)
      exact ih hu hrun

structure KeepsProtocol (r : LockRun α ι) : Prop where
  owner : ∀ a d, r.locks.owner d = some a →
    0 < r.history.nesting a d ∧ r.locks.count d = r.history.nesting a d
  others : ∀ a d, r.locks.owner d ≠ some a → r.history.nesting a d = 0
  waiting : ∀ a d, a ∈ r.locks.queue d ↔ r.locks.waitingObject a = some d
  nodup : ∀ d, (r.locks.queue d).Nodup
  /-- An activity was woken as often as it waited, but for the time it waits now. -/
  posts : ∀ a, r.history.waits a =
    r.history.posts a + if r.locks.waitingObject a = none then 0 else 1
  acyclic : ∀ a, ¬ TransGen (WaitsFor.Follows r.locks.waitsFor) a a
  enabled : ∀ op, (r.step op).isSome ↔ r.Enabled op
  reserve : ∀ a d, r.Enabled (.reserve a d) →
    ∃ outcome s', r.locks.reserve d a = some (outcome, s') ∧
      (outcome = .deadlock ↔
        (∃ b, r.locks.owner d = some b ∧ b ≠ a) ∧ r.locks.ClosesCycle a d) ∧
      (outcome = .deadlock → s' = r.locks)
  /-- The lock is free if nobody waits, and else goes to the one who began to wait first. -/
  release : ∀ a d, r.Enabled (.release a d) → r.locks.count d = 1 →
    ∃ woken s', r.locks.release d = (woken, s') ∧ s'.owner d = woken ∧
      (woken = none → ∀ b, r.locks.waitingObject b ≠ some d) ∧
      ∀ b, woken = some b → s'.count d = 1 ∧ s'.waitingObject b = none ∧
        r.locks.waitingObject b = some d ∧ ∀ c, r.locks.waitingObject c = some d → c ≠ b →
          r.history.since b < r.history.since c ∧ s'.waitingObject c = some d

omit [Fintype α] in
theorem Safe.release_first (h : r.Safe) (hn : 0 < r.history.nesting a d)
    (hone : r.locks.count d = 1) :
    ∃ woken s', r.locks.release d = (woken, s') ∧ s'.owner d = woken ∧
      (woken = none → ∀ b, r.locks.waitingObject b ≠ some d) ∧
      ∀ b, woken = some b → s'.count d = 1 ∧ s'.waitingObject b = none ∧
        r.locks.waitingObject b = some d ∧ ∀ c, r.locks.waitingObject c = some d → c ≠ b →
          r.history.since b < r.history.since c ∧ s'.waitingObject c = some d := by
  obtain ⟨hpos, hlt⟩ := h.count a d (h.owner_of_nesting hn)
  have hspec := release_spec hpos hlt
  generalize r.locks.release d = result at hspec ⊢
  obtain ⟨woken, s'⟩ := result
  refine ⟨woken, s', rfl, ?_⟩
  cases hspec with
  | nested hnested => omega
  | free _ hqueue =>
      have howner : (r.locks.setDictionary d
          ⟨none, 0, (r.locks.dictionaries d).waitingActivities⟩).owner d = none := by simp
      refine ⟨howner, fun _ b hb => ?_, fun b hb => by cases hb⟩
      rw [← h.waiting, hqueue] at hb
      exact absurd hb List.not_mem_nil
  | @handOff _ b waiting hqueue =>
      have howner : ((r.locks.setDictionary d ⟨some b, 1, some waiting⟩).postRelease b).owner d =
          some b := by simp
      have hcount : ((r.locks.setDictionary d ⟨some b, 1, some waiting⟩).postRelease b).count d =
          1 := by simp
      have hwaiting (c : α) :
          ((r.locks.setDictionary d ⟨some b, 1, some waiting⟩).postRelease b).waitingObject c =
            if c = b then none else r.locks.waitingObject c := by simp
      refine ⟨howner, fun hnone => absurd hnone (Option.some_ne_none b), ?_⟩
      rintro _ ⟨⟩
      have hb : r.locks.waitingObject b = some d := by
        rw [← h.waiting, hqueue]
        exact List.mem_cons_self
      refine ⟨hcount, (hwaiting b).trans (if_pos rfl), hb, fun c hc hne =>
        ⟨?_, (hwaiting c).trans ((if_neg hne).trans hc)⟩⟩
      have horder := h.order d
      rw [hqueue, List.pairwise_cons] at horder
      rw [← h.waiting, hqueue, List.mem_cons] at hc
      rcases hc with heq | hc
      · exact absurd heq hne
      · exact horder.1 c hc

theorem Safe.reserve_outcome (h : r.Safe) (ha : r.locks.waitingObject a = none) :
    ∃ outcome s', r.locks.reserve d a = some (outcome, s') ∧
      (outcome = .deadlock ↔
        (∃ b, r.locks.owner d = some b ∧ b ≠ a) ∧ r.locks.ClosesCycle a d) ∧
      (outcome = .deadlock → s' = r.locks) := by
  obtain ⟨outcome, s', hreserve, hspec⟩ := reserve_spec (d := d) ha h.ends
  refine ⟨outcome, s', hreserve, ?_⟩
  cases hspec with
  | first howner => simp [howner]
  | again howner => simp [howner]
  | deadlock howner hne hcycle => simp [howner, hne, hcycle]
  | waits howner hne hcycle => simp [hcycle]

theorem Safe.keepsProtocol (h : r.Safe) : r.KeepsProtocol where
  owner a d howner := by
    rw [h.nesting, if_pos howner]
    exact ⟨(h.count a d howner).1, rfl⟩
  others a d howner := by rw [h.nesting, if_neg howner]
  waiting := h.waiting
  nodup d := by
    apply (h.order d).imp
    rintro b c hlt rfl
    exact absurd hlt (lt_irrefl _)
  posts := h.posts
  acyclic a := (h.ends a).acyclic
  enabled op := by
    constructor
    · intro hsome
      obtain ⟨r', hstep⟩ := Option.isSome_iff_exists.mp hsome
      exact enabled_of_step hstep
    · intro hop
      obtain ⟨r', hstep, -⟩ := h.step hop
      rw [hstep]
      rfl
  reserve a d hop := h.reserve_outcome hop.1
  release a d hop hone := h.release_first hop.2 hone

end LockRun

end LeooRexx
