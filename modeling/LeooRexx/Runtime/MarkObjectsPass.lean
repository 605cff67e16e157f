import LeooRexx.Runtime.MarkObjects
import Mathlib.Data.Fintype.Card

/-!
# One pass of the mark phase

Every object that is marked is on the live stack, or all it refers to is marked.  An object that
is pushed was not marked before, so that the unmarked objects and those on the stack get fewer
with each round, and `live` is called for no object twice.
-/

namespace LeooRexx

open Relation

variable {α : Type}

/-! ## The live stack -/

namespace RexxStack

structure Holds (s : RexxStack α) (base : Nat) (l : List α) : Prop where
  top_eq : s.top = base + 1 + l.length
  top_lt : s.top < s.uSize
  terminator : s.stack (base + 1) = none
  above : ∀ i (hi : i < l.length), s.stack (base + 1 + (i + 1)) = some l[i]

variable {s : RexxStack α} {base : Nat} {l : List α}

theorem Holds.doubled (h : s.Holds base l) : s.doubled.Holds base l where
  top_eq := h.top_eq
  top_lt := by
    have := h.top_lt
    change s.top < s.uSize * 2
    omega
  terminator := by
    have htop := h.top_eq
    have hlt := h.top_lt
    exact (if_pos (by omega)).trans h.terminator
  above i hi := by
    have htop := h.top_eq
    have hlt := h.top_lt
    exact (if_pos (by omega)).trans (h.above i hi)

theorem Holds.fastPush (h : s.Holds base l) (hroom : s.top + 1 < s.uSize) (object : α) :
    ∃ s', s.fastPush (some object) = some s' ∧ s'.Holds base (l ++ [object]) := by
  refine ⟨_, if_pos hroom, ?_, hroom, ?_, ?_⟩
  · have htop := h.top_eq
    rw [List.length_append, List.length_singleton]
    change s.top + 1 = _
    omega
  · have htop := h.top_eq
    exact (Function.update_of_ne (by omega) ..).trans h.terminator
  · intro i hi
    have htop := h.top_eq
    rw [List.length_append, List.length_singleton] at hi
    change Function.update s.stack (s.top + 1) (some object) (base + 1 + (i + 1)) = _
    by_cases hlast : i = l.length
    · subst hlast
      have hplace : base + 1 + (l.length + 1) = s.top + 1 := by omega
      rw [hplace, Function.update_self, List.getElem_concat_length rfl]
    · rw [Function.update_of_ne (by omega), h.above i (by omega),
        List.getElem_append_left (by omega)]

theorem Holds.fastPop (h : s.Holds base (l ++ [object])) :
    ∃ s', s.fastPop = some (some object, s') ∧ s'.Holds base l := by
  have htop := h.top_eq
  have hlt := h.top_lt
  rw [List.length_append, List.length_singleton] at htop
  have hvalue : s.stack s.top = some object := by
    have habove := h.above l.length (by simp)
    rw [List.getElem_concat_length rfl] at habove
    rw [htop]
    exact habove
  refine ⟨{ s with top := s.top - 1 }, ?_, ?_, ?_, h.terminator, ?_⟩
  · rw [RexxStack.fastPop, if_pos ⟨by omega, hlt⟩, hvalue]
  · change s.top - 1 = _
    omega
  · change s.top - 1 < s.uSize
    omega
  · intro i hi
    have habove := h.above i (by rw [List.length_append]; omega)
    rw [List.getElem_append_left hi] at habove
    exact habove

end RexxStack

namespace MarkState

/-! ## Pushing and popping -/

@[simp] theorem liveStack_setLiveStack (m : MarkState α) (s : RexxStack α) :
    (m.setLiveStack s).liveStack = s := by
  rw [setLiveStack]
  cases m.expandedLiveStack with
  | none => simp [liveStack]
  | some t => simp [liveStack]

@[simp] theorem marked_setLiveStack (m : MarkState α) (s : RexxStack α) :
    (m.setLiveStack s).marked = m.marked := by
  rw [setLiveStack]
  split <;> rfl

@[simp] theorem liveCalls_setLiveStack (m : MarkState α) (s : RexxStack α) :
    (m.setLiveStack s).liveCalls = m.liveCalls := by
  rw [setLiveStack]
  split <;> rfl

def OriginalFits (m : MarkState α) : Prop :=
  m.originalLiveStack.top < m.originalLiveStack.uSize

theorem OriginalFits.setLiveStack {m : MarkState α} (h : m.OriginalFits) {s : RexxStack α}
    (hs : s.top < s.uSize) : (m.setLiveStack s).OriginalFits := by
  rw [MarkState.setLiveStack]
  split
  · exact h
  · exact hs

theorem checkLiveStack_spec (m : MarkState α) (hlt : m.liveStack.top < m.liveStack.uSize) :
    (m.checkLiveStack.liveStack = m.liveStack ∨ m.checkLiveStack.liveStack = m.liveStack.doubled) ∧
      m.checkLiveStack.liveStack.top + 1 < m.checkLiveStack.liveStack.uSize ∧
      m.checkLiveStack.marked = m.marked ∧ m.checkLiveStack.liveCalls = m.liveCalls ∧
      m.checkLiveStack.originalLiveStack = m.originalLiveStack := by
  rw [checkLiveStack]
  by_cases hroom : m.liveStack.checkRoom
  · rw [if_pos hroom]
    have hroom : m.liveStack.top < m.liveStack.uSize - 1 := of_decide_eq_true hroom
    exact ⟨.inl rfl, by omega, rfl, rfl, rfl⟩
  · rw [if_neg hroom]
    refine ⟨.inr rfl, ?_, rfl, rfl, rfl⟩
    change m.liveStack.top + 1 < m.liveStack.uSize * 2
    omega

structure Pushes (m m' : MarkState α) : Prop where
  marked : m'.marked = m.marked
  liveCalls : m'.liveCalls = m.liveCalls
  original : m.OriginalFits → m'.OriginalFits

theorem push_spec {m : MarkState α} {base : Nat} {l : List α} (h : m.liveStack.Holds base l)
    (object : α) :
    ∃ m', m.pushLiveStack (some object) = some m' ∧ Pushes m m' ∧
      m'.liveStack.Holds base (l ++ [object]) := by
  obtain ⟨hstack, hroom, hmarked, hcalls, horiginal⟩ := m.checkLiveStack_spec h.top_lt
  have hheld : m.checkLiveStack.liveStack.Holds base l := by
    rcases hstack with heq | heq
    · rwa [heq]
    · rw [heq]
      exact h.doubled
  obtain ⟨s', hpush, hs'⟩ := hheld.fastPush hroom object
  refine ⟨m.checkLiveStack.setLiveStack s', by simp [pushLiveStack, hpush], ⟨?_, ?_, ?_⟩, ?_⟩
  · rw [marked_setLiveStack, hmarked]
  · rw [liveCalls_setLiveStack, hcalls]
  · intro hfits
    refine OriginalFits.setLiveStack ?_ hs'.top_lt
    rwa [OriginalFits, horiginal]
  · rwa [liveStack_setLiveStack]

theorem push_terminator {m : MarkState α} (hlt : m.liveStack.top < m.liveStack.uSize) :
    ∃ m', m.pushLiveStack none = some m' ∧ Pushes m m' ∧
      m'.liveStack.Holds m.liveStack.top [] := by
  obtain ⟨hstack, hroom, hmarked, hcalls, horiginal⟩ := m.checkLiveStack_spec hlt
  have htop : m.checkLiveStack.liveStack.top = m.liveStack.top := by
    rcases hstack with heq | heq
    · rw [heq]
    · rw [heq]
      rfl
  obtain ⟨s', hs'⟩ : ∃ s', s' = { m.checkLiveStack.liveStack with
      top := m.checkLiveStack.liveStack.top + 1
      stack := Function.update m.checkLiveStack.liveStack.stack
        (m.checkLiveStack.liveStack.top + 1) none } := ⟨_, rfl⟩
  have hpush : m.checkLiveStack.liveStack.fastPush none = some s' := by
    rw [hs']
    exact if_pos hroom
  have hheld : s'.Holds m.liveStack.top [] := by
    rw [← htop, hs']
    exact ⟨rfl, hroom, Function.update_self .., nofun⟩
  refine ⟨m.checkLiveStack.setLiveStack s', by simp [pushLiveStack, hpush], ⟨?_, ?_, ?_⟩, ?_⟩
  · rw [marked_setLiveStack, hmarked]
  · rw [liveCalls_setLiveStack, hcalls]
  · intro hfits
    refine OriginalFits.setLiveStack ?_ hheld.top_lt
    rwa [OriginalFits, horiginal]
  · rwa [liveStack_setLiveStack]

theorem pop_spec {m : MarkState α} {base : Nat} {l : List α} {object : α}
    (h : m.liveStack.Holds base (l ++ [object])) :
    ∃ m', m.popLiveStack = some (some object, m') ∧ Pushes m m' ∧ m'.liveStack.Holds base l := by
  obtain ⟨s', hpop, hs'⟩ := h.fastPop
  refine ⟨m.setLiveStack s', by simp [popLiveStack, hpop], ⟨by simp, by simp, fun hfits => ?_⟩, ?_⟩
  · exact hfits.setLiveStack hs'.top_lt
  · rwa [liveStack_setLiveStack]

theorem pop_terminator {m : MarkState α} {base : Nat} (h : m.liveStack.Holds base []) :
    ∃ m', m.popLiveStack = some (none, m') ∧ Pushes m m' ∧ m'.liveStack.top = base ∧
      m'.liveStack.top < m'.liveStack.uSize := by
  have htop := h.top_eq
  have hlt := h.top_lt
  rw [List.length_nil, Nat.add_zero] at htop
  have hpop : m.liveStack.fastPop =
      some (none, { m.liveStack with top := m.liveStack.top - 1 }) := by
    rw [RexxStack.fastPop, if_pos ⟨by omega, hlt⟩, htop, h.terminator]
  have hless : m.liveStack.top - 1 < m.liveStack.uSize := by omega
  refine ⟨m.setLiveStack { m.liveStack with top := m.liveStack.top - 1 },
    by simp [popLiveStack, hpop], ⟨by simp, by simp, fun hfits => hfits.setLiveStack hless⟩, ?_, ?_⟩
  · rw [liveStack_setLiveStack]
    change m.liveStack.top - 1 = base
    omega
  · rw [liveStack_setLiveStack]
    exact hless

end MarkState

/-! ## References -/

namespace ObjectGraph

def Refers (g : ObjectGraph α) (a b : α) : Prop := g.behaviour a = some b ∨ some b ∈ g.live a

def Reaches (g : ObjectGraph α) : α → α → Prop := ReflTransGen g.Refers

def Flagged (g : ObjectGraph α) : Prop := ∀ a, g.hasReferences a = false → g.live a = []

end ObjectGraph

namespace MarkState

variable [DecidableEq α]

/-! ## The invariant -/

/--
`l` are the objects on the stack, `busy` those that are being processed, `calls` those that `live`
was called for in this pass or, for `due`, is about to be.
-/
structure Marking (g : ObjectGraph α) (m₀ : MarkState α) (root : α) (base : Nat)
    (busy l calls due : List α) (m : MarkState α) : Prop where
  holds : m.liveStack.Holds base l
  original : m.OriginalFits
  calls_eq : m.liveCalls ++ due = m₀.liveCalls ++ calls
  nodup : (calls ++ l).Nodup
  marked : ∀ o ∈ calls ++ l, m.marked o
  fresh : ∀ o ∈ calls ++ l, m₀.marked o = false ∨ o = root
  mono : ∀ o, m₀.marked o → m.marked o
  sound : ∀ o, m.marked o → m₀.marked o ∨ g.Reaches root o
  closed : ∀ o, m.marked o → o ∉ l → o ∉ busy → ∀ b, g.Refers o b → m.marked b

variable {g : ObjectGraph α} {m₀ m : MarkState α} {root : α} {base : Nat}
  {busy l calls due : List α}

theorem Marking.set (h : Marking g m₀ root base busy l calls due m) {o : α}
    (hreach : g.Reaches root o) :
    Marking g m₀ root base (o :: busy) l calls due (m.setObjectLive o) := by
  have hgrow : ∀ x, m.marked x → (m.setObjectLive o).marked x := by
    intro x hx
    change Function.update m.marked o true x = true
    by_cases heq : x = o
    · rw [heq, Function.update_self]
    · rwa [Function.update_of_ne heq]
  have hback : ∀ x, x ≠ o → (m.setObjectLive o).marked x → m.marked x := by
    intro x hne hx
    change Function.update m.marked o true x = true at hx
    rwa [Function.update_of_ne hne] at hx
  refine ⟨h.holds, h.original, h.calls_eq, h.nodup, fun x hx => hgrow x (h.marked x hx), h.fresh,
    fun x hx => hgrow x (h.mono x hx), fun x hx => ?_, fun x hx hl hbusy b hrefers => ?_⟩
  · by_cases heq : x = o
    · exact .inr (heq ▸ hreach)
    · exact h.sound x (hback x heq hx)
  · rw [List.mem_cons, not_or] at hbusy
    exact hgrow b (h.closed x (hback x hbusy.1 hx) hl hbusy.2 b hrefers)

theorem Marking.settle {o : α} (h : Marking g m₀ root base (o :: busy) l calls due m)
    (hrefers : ∀ b, g.Refers o b → m.marked b) : Marking g m₀ root base busy l calls due m := by
  refine { h with closed := fun x hx hl hbusy b hb => ?_ }
  by_cases heq : x = o
  · exact hrefers b (heq ▸ hb)
  · refine h.closed x hx hl ?_ b hb
    rw [List.mem_cons, not_or]
    exact ⟨heq, hbusy⟩

omit [DecidableEq α] in
theorem Marking.push {o : α} (h : Marking g m₀ root base (o :: busy) l calls due m)
    (hmarked : m.marked o) (hnew : o ∉ calls ++ l) (hfresh : m₀.marked o = false ∨ o = root) :
    ∃ m', m.pushLiveStack (some o) = some m' ∧ m'.marked = m.marked ∧
      Marking g m₀ root base busy (l ++ [o]) calls due m' := by
  obtain ⟨m', hpush, hpushes, hheld⟩ := push_spec h.holds o
  have hmem : ∀ x ∈ calls ++ (l ++ [o]), x ∈ calls ++ l ∨ x = o := by
    intro x hx
    rwa [← List.append_assoc, List.mem_append, List.mem_singleton] at hx
  refine ⟨m', hpush, hpushes.marked, hheld, hpushes.original h.original, ?_, ?_, ?_, ?_, ?_, ?_,
    ?_⟩
  · rw [hpushes.liveCalls]
    exact h.calls_eq
  · rw [← List.append_assoc, ← List.concat_eq_append]
    exact h.nodup.concat hnew
  · intro x hx
    rw [hpushes.marked]
    rcases hmem x hx with hx | rfl
    · exact h.marked x hx
    · exact hmarked
  · intro x hx
    rcases hmem x hx with hx | rfl
    · exact h.fresh x hx
    · exact hfresh
  · rw [hpushes.marked]
    exact h.mono
  · rw [hpushes.marked]
    exact h.sound
  · rw [hpushes.marked]
    intro x hx hl hbusy
    rw [List.mem_append, List.mem_singleton, not_or] at hl
    refine h.closed x hx hl.1 ?_
    rw [List.mem_cons, not_or]
    exact ⟨hl.2, hbusy⟩

/-! ## What a pass has still to do -/

section Work

variable [Fintype α]

def work (m : MarkState α) (l : List α) : Nat :=
  (Finset.univ.filter fun o => m.marked o = false).card + l.length

theorem work_setObjectLive {o : α} (h : m.marked o = false) (l : List α) :
    (m.setObjectLive o).work l + 1 ≤ m.work l := by
  have hlt : (Finset.univ.filter fun x => (m.setObjectLive o).marked x = false).card <
      (Finset.univ.filter fun x => m.marked x = false).card := by
    apply Finset.card_lt_card
    rw [Finset.ssubset_iff_of_subset]
    · refine ⟨o, by simpa using h, ?_⟩
      have hself : (m.setObjectLive o).marked o = true := Function.update_self ..
      simp [hself]
    · intro x hx
      rw [Finset.mem_filter] at hx ⊢
      refine ⟨hx.1, ?_⟩
      by_cases heq : x = o
      · rwa [heq]
      · have hx' : Function.update m.marked o true x = false := hx.2
        rwa [Function.update_of_ne heq] at hx'
  rw [work, work]
  omega

omit [DecidableEq α] in
theorem work_eq_of_marked {m' : MarkState α} (h : m'.marked = m.marked) (l : List α) :
    m'.work l = m.work l := by
  rw [work, work, h]

omit [DecidableEq α] in
theorem work_append (m : MarkState α) (l : List α) (o : α) : m.work (l ++ [o]) = m.work l + 1 := by
  rw [work, work, List.length_append, List.length_singleton, Nat.add_assoc]

/-! ## Marking -/

structure Marks (g : ObjectGraph α) (m₀ : MarkState α) (root : α) (base : Nat)
    (busy calls due : List α) (m : MarkState α) (l : List α) (m' : MarkState α) (l' : List α) :
    Prop where
  marking : Marking g m₀ root base busy l' calls due m'
  grows : ∀ o, m.marked o → m'.marked o
  work_le : m'.work l' ≤ m.work l

omit [DecidableEq α] in
theorem Marks.refl (h : Marking g m₀ root base busy l calls due m) :
    Marks g m₀ root base busy calls due m l m l := ⟨h, fun _ ho => ho, Nat.le_refl _⟩

omit [DecidableEq α] in
theorem Marks.trans {m₁ m₂ : MarkState α} {l₁ l₂ : List α}
    (h : Marks g m₀ root base busy calls due m l m₁ l₁)
    (h' : Marks g m₀ root base busy calls due m₁ l₁ m₂ l₂) :
    Marks g m₀ root base busy calls due m l m₂ l₂ :=
  ⟨h'.marking, fun o ho => h'.grows o (h.grows o ho), h'.work_le.trans h.work_le⟩

omit [Fintype α] in
theorem marked_setObjectLive_self (m : MarkState α) (o : α) : (m.setObjectLive o).marked o :=
  Function.update_self ..

omit [Fintype α] in
theorem marked_setObjectLive (m : MarkState α) (o : α) {x : α} (h : m.marked x) :
    (m.setObjectLive o).marked x := by
  by_cases heq : x = o
  · rw [heq]
    exact m.marked_setObjectLive_self o
  · exact (Function.update_of_ne heq ..).trans h

omit [DecidableEq α] [Fintype α] in
theorem Marking.unseen (h : Marking g m₀ root base busy l calls due m) {o : α}
    (ho : m.marked o = false) : o ∉ calls ++ l ∧ m₀.marked o = false := by
  refine ⟨fun hmem => ?_, ?_⟩
  · have hmarked := h.marked o hmem
    rw [ho] at hmarked
    contradiction
  · by_contra hne
    have hmarked := h.mono o (by simpa using hne)
    rw [ho] at hmarked
    contradiction

theorem mark_spec (hflagged : g.Flagged) (h : Marking g m₀ root base busy l calls due m) {o : α}
    (hreach : g.Reaches root o) (hnew : o ∉ calls ++ l) (hfresh : m₀.marked o = false ∨ o = root) :
    ∃ m' l', m.mark g o = some m' ∧ m'.marked o ∧
      Marking g m₀ root base busy l' calls due m' ∧ (∀ x, m.marked x → m'.marked x) ∧
      m'.work l' ≤ (m.setObjectLive o).work l + 1 := by
  have hset := h.set hreach
  have hself := m.marked_setObjectLive_self o
  rw [mark]
  cases hrefs : g.hasReferences o with
  | true =>
      obtain ⟨m', hpush, hmarked, hmarking⟩ := hset.push hself hnew hfresh
      refine ⟨m', l ++ [o], by simpa using hpush, hmarked ▸ hself, hmarking, fun x hx => ?_, ?_⟩
      · rw [hmarked]
        exact m.marked_setObjectLive o hx
      · rw [work_append, work_eq_of_marked hmarked]
  | false =>
      have hlive := hflagged o hrefs
      simp only [Bool.false_eq_true, if_false]
      cases hbehaviour : g.behaviour o with
      | none =>
          refine ⟨_, l, rfl, hself, hset.settle ?_, fun x => m.marked_setObjectLive o,
            Nat.le_succ _⟩
          rintro b (hb | hb)
          · rw [hbehaviour] at hb
            contradiction
          · rw [hlive] at hb
            contradiction
      | some behaviour =>
          have hrefers : ∀ b, g.Refers o b → b = behaviour := by
            rintro b (hb | hb)
            · exact (Option.some.inj (hbehaviour.symm.trans hb)).symm
            · rw [hlive] at hb
              contradiction
          cases hmarked : (m.setObjectLive o).marked behaviour with
          | true =>
              refine ⟨_, l, if_pos hmarked, hself, hset.settle fun b hb => ?_,
                fun x => m.marked_setObjectLive o, Nat.le_succ _⟩
              rwa [hrefers b hb]
          | false =>
              have hstep : g.Reaches root behaviour := hreach.tail (.inl hbehaviour)
              obtain ⟨hunseen, hfresh'⟩ := hset.unseen hmarked
              obtain ⟨m', hpush, hsame, hmarking⟩ := (hset.set hstep).push
                (marked_setObjectLive_self _ behaviour) hunseen (.inl hfresh')
              have hgrow : ∀ x, (m.setObjectLive o).marked x → m'.marked x := by
                intro x hx
                rw [hsame]
                exact marked_setObjectLive _ behaviour hx
              refine ⟨m', l ++ [behaviour], ?_, hgrow o hself, hmarking.settle fun b hb => ?_,
                fun x hx => hgrow x (m.marked_setObjectLive o hx), ?_⟩
              · simpa [hmarked] using hpush
              · rw [hrefers b hb, hsame]
                exact marked_setObjectLive_self _ behaviour
              · have hless := work_setObjectLive hmarked l
                rw [work_append, work_eq_of_marked hsame]
                omega

theorem memoryMark_spec (hflagged : g.Flagged) (h : Marking g m₀ root base busy l calls due m)
    (object : Option α) (hreach : ∀ o ∈ object, g.Reaches root o) :
    ∃ m' l', m.memoryMark g object = some m' ∧ (∀ o ∈ object, m'.marked o) ∧
      Marks g m₀ root base busy calls due m l m' l' := by
  cases object with
  | none => exact ⟨m, l, rfl, nofun, .refl h⟩
  | some o =>
      cases hmarked : m.marked o with
      | true =>
          refine ⟨m, l, if_pos hmarked, fun x hx => ?_, .refl h⟩
          rwa [← Option.some.inj hx]
      | false =>
          obtain ⟨hnew, hfresh⟩ := h.unseen hmarked
          obtain ⟨m', l', hmark, hself, hmarking, hgrow, hwork⟩ :=
            mark_spec hflagged h (hreach o rfl) hnew (.inl hfresh)
          have hless := work_setObjectLive hmarked l
          refine ⟨m', l', by simpa [memoryMark, hmarked] using hmark, fun x hx => ?_,
            ⟨hmarking, hgrow, by omega⟩⟩
          rwa [← Option.some.inj hx]

theorem memoryMark_all (hflagged : g.Flagged) (objects : List (Option α))
    {m : MarkState α} {l : List α} (h : Marking g m₀ root base busy l calls due m)
    (hreach : ∀ o, some o ∈ objects → g.Reaches root o) :
    ∃ m' l', objects.foldlM (memoryMark g) m = some m' ∧ (∀ o, some o ∈ objects → m'.marked o) ∧
      Marks g m₀ root base busy calls due m l m' l' := by
  induction objects generalizing m l with
  | nil => exact ⟨m, l, rfl, nofun, .refl h⟩
  | cons object objects ih =>
      obtain ⟨m₁, l₁, hfirst, hmarked, hmarks⟩ := memoryMark_spec hflagged h object
        fun o ho => hreach o (by rw [Option.mem_def.mp ho]; exact List.mem_cons_self)
      obtain ⟨m', l', hrest, hall, hmarks'⟩ :=
        ih hmarks.marking fun o ho => hreach o (List.mem_cons_of_mem _ ho)
      refine ⟨m', l', by simp [List.foldlM_cons, hfirst, hrest], fun o ho => ?_,
        hmarks.trans hmarks'⟩
      rcases List.mem_cons.mp ho with heq | ho
      · exact hmarks'.grows o (hmarked o heq.symm)
      · exact hall o ho

/-! ## The loop -/

omit [DecidableEq α] [Fintype α] in
theorem Marking.reaches (h : Marking g m₀ root base busy l calls due m) {o : α} (ho : o ∈ l) :
    g.Reaches root o := by
  have hmem : o ∈ calls ++ l := List.mem_append_right calls ho
  rcases h.fresh o hmem with hfresh | rfl
  · rcases h.sound o (h.marked o hmem) with hmarked | hreach
    · rw [hfresh] at hmarked
      contradiction
    · exact hreach
  · exact .refl

omit [DecidableEq α] [Fintype α] in
theorem Marking.popped {m' : MarkState α} {o : α}
    (h : Marking g m₀ root base [] (l ++ [o]) calls [] m) (hpushes : Pushes m m')
    (hheld : m'.liveStack.Holds base l) :
    Marking g m₀ root base [o] l (calls ++ [o]) [o] m' := by
  have hperm : ((calls ++ [o]) ++ l).Perm (calls ++ (l ++ [o])) := by
    rw [List.append_assoc]
    exact List.Perm.append_left calls List.perm_append_comm
  refine ⟨hheld, hpushes.original h.original, ?_, hperm.nodup_iff.mpr h.nodup, ?_, ?_, ?_, ?_, ?_⟩
  · have hcalls := h.calls_eq
    rw [List.append_nil] at hcalls
    rw [hpushes.liveCalls, hcalls, List.append_assoc]
  · intro x hx
    rw [hpushes.marked]
    exact h.marked x (hperm.mem_iff.mp hx)
  · exact fun x hx => h.fresh x (hperm.mem_iff.mp hx)
  · rw [hpushes.marked]
    exact h.mono
  · rw [hpushes.marked]
    exact h.sound
  · rw [hpushes.marked]
    intro x hx hl hbusy
    refine h.closed x hx ?_ (List.not_mem_nil)
    rw [List.mem_append, not_or]
    exact ⟨hl, hbusy⟩

omit [DecidableEq α] [Fintype α] in
theorem Marking.called {o : α} (h : Marking g m₀ root base busy l calls [o] m) :
    Marking g m₀ root base busy l calls [] { m with liveCalls := m.liveCalls ++ [o] } :=
  ⟨h.holds, h.original, (List.append_nil _).trans h.calls_eq, h.nodup, h.marked, h.fresh, h.mono,
    h.sound, h.closed⟩

theorem round_spec (hflagged : g.Flagged) {o : α}
    (h : Marking g m₀ root base [] (l ++ [o]) calls [] m) :
    ∃ m₁ m₂ m' l', m.popLiveStack = some (some o, m₁) ∧
      m₁.memoryMark g (g.behaviour o) = some m₂ ∧ m₂.callLive g o = some m' ∧
      Marking g m₀ root base [] l' (calls ++ [o]) [] m' ∧ (∀ x, m.marked x → m'.marked x) ∧
      m'.work l' < m.work (l ++ [o]) := by
  have hreach := h.reaches (List.mem_append_right l (List.mem_singleton.mpr rfl))
  obtain ⟨m₁, hpop, hpushes, hheld⟩ := pop_spec h.holds
  have hpopped := h.popped hpushes hheld
  obtain ⟨m₂, l₂, hmark, hbehaviour, hmarks⟩ := memoryMark_spec hflagged hpopped (g.behaviour o)
    fun b hb => hreach.tail (.inl (Option.mem_def.mp hb))
  obtain ⟨m', l', hlive, hall, hmarks'⟩ := memoryMark_all hflagged (g.live o) hmarks.marking.called
    fun b hb => hreach.tail (.inr hb)
  refine ⟨m₁, m₂, m', l', hpop, hmark, hlive, hmarks'.marking.settle ?_, fun x hx => ?_, ?_⟩
  · rintro b (hb | hb)
    · exact hmarks'.grows b (hbehaviour b hb)
    · exact hall b hb
  · rw [← hpushes.marked] at hx
    exact hmarks'.grows x (hmarks.grows x hx)
  · have hfirst : m₂.work l₂ ≤ m₁.work l := hmarks.work_le
    have hsecond : m'.work l' ≤ m₂.work l₂ := hmarks'.work_le
    rw [work_append, ← work_eq_of_marked hpushes.marked]
    omega

structure Passed (g : ObjectGraph α) (m₀ : MarkState α) (root : α) (m : MarkState α) : Prop where
  marked_iff : ∀ o, m.marked o ↔ m₀.marked o ∨ g.Reaches root o
  calls : ∃ calls, m.liveCalls = m₀.liveCalls ++ calls ∧ calls.Nodup ∧
    (∀ o ∈ calls, m.marked o) ∧ ∀ o ∈ calls, m₀.marked o = false ∨ o = root
  original : m.OriginalFits
  fits : m.liveStack.top < m.liveStack.uSize

theorem markLoop_spec (hflagged : g.Flagged) {fuel : Nat}
    {m : MarkState α} {l calls : List α} (h : Marking g m₀ root base [] l calls [] m)
    (hfuel : m.work l < fuel) (hroot : m.marked root) :
    ∃ m', markLoop g fuel m = some m' ∧ Passed g m₀ root m' := by
  induction fuel generalizing m l calls with
  | zero => omega
  | succ fuel ih =>
      rcases List.eq_nil_or_concat' l with rfl | ⟨l, o, rfl⟩
      · obtain ⟨m', hpop, hpushes, -, hfits⟩ := pop_terminator h.holds
        refine ⟨m', by simp [markLoop, hpop], ?_, ⟨calls, ?_⟩, hpushes.original h.original, hfits⟩
        · intro o
          rw [hpushes.marked]
          refine ⟨h.sound o, ?_⟩
          rintro (hmarked | hreach)
          · exact h.mono o hmarked
          · -- the references of marked objects are marked
            induction hreach with
            | refl => exact hroot
            | tail _ hstep ih => exact h.closed _ ih List.not_mem_nil List.not_mem_nil _ hstep
        · have hcalls := h.calls_eq
          have hnodup := h.nodup
          have hmarked := h.marked
          have hfresh := h.fresh
          rw [List.append_nil] at hcalls hnodup hmarked hfresh
          rw [hpushes.liveCalls, hpushes.marked]
          exact ⟨hcalls, hnodup, hmarked, hfresh⟩
      · obtain ⟨m₁, m₂, m', l', hpop, hmark, hlive, hmarking, hgrows, hwork⟩ :=
          round_spec hflagged h
        obtain ⟨final, hloop, hpassed⟩ := ih hmarking (by omega) (hgrows root hroot)
        refine ⟨final, ?_, hpassed⟩
        simp only [markLoop, hpop, Option.bind_eq_bind, Option.bind_some, hmark, hlive]
        exact hloop

theorem markObjectsMain_spec (root : α) (hflagged : g.Flagged)
    (hfits : m₀.liveStack.top < m₀.liveStack.uSize) (horiginal : m₀.OriginalFits)
    (hclosed : ∀ o, m₀.marked o → ∀ b, g.Refers o b → m₀.marked b) :
    ∃ m, m₀.markObjectsMain g (Fintype.card α + 2) root = some m ∧ Passed g m₀ root m := by
  obtain ⟨m₁, hpush, hpushes, hheld⟩ := push_terminator hfits
  have hstart : Marking g m₀ root m₀.liveStack.top [] [] [] [] m₁ := by
    refine ⟨hheld, hpushes.original horiginal, ?_, List.nodup_nil, nofun, nofun, ?_, ?_, ?_⟩
    · rw [hpushes.liveCalls]
    · rw [hpushes.marked]
      exact fun _ ho => ho
    · rw [hpushes.marked]
      exact fun _ ho => .inl ho
    · rw [hpushes.marked]
      exact fun o ho _ _ => hclosed o ho
  obtain ⟨m₂, l, hmark, hroot, hmarking, -, hwork⟩ :=
    mark_spec hflagged hstart .refl List.not_mem_nil (.inr rfl)
  have hcard : (m₁.setObjectLive root).work [] ≤ Fintype.card α := by
    rw [work, List.length_nil, Nat.add_zero]
    exact Finset.card_le_univ _
  have hfuel : m₂.work l < Fintype.card α + 2 := by omega
  obtain ⟨m, hloop, hpassed⟩ := markLoop_spec hflagged hmarking hfuel hroot
  refine ⟨m, ?_, hpassed⟩
  simp only [markObjectsMain, hpush, Option.bind_eq_bind, Option.bind_some, hmark]
  exact hloop

end Work

end MarkState

end LeooRexx
