import LeooRexx.Runtime.TrapQueuesPairs
import LeooRexx.Runtime.TrapQueuesTables

/-!
# Runs with condition traps

Every step that interrupts no delayed trap, changes no table of a caller and merges queues in their
order keeps the traps and the conditions of all activations.
-/

namespace LeooRexx

namespace TrapTables

variable {s : TrapTables} {a a' : Activation} {rest : List Activation}

theorem checkTrapTable_snd (s : TrapTables) (a : Activation) : ∃ traps copied,
    (s.checkTrapTable a).2 = { a with traps := traps, trapsCopied := copied } := by
  rw [checkTrapTable]
  split
  · exact ⟨_, a.trapsCopied, rfl⟩
  · split
    · exact ⟨_, true, rfl⟩
    · exact ⟨a.traps, a.trapsCopied, rfl⟩

theorem setTrapState_snd (s : TrapTables) (a : Activation) (condition : Condition)
    (state : TrapState) : (s.setTrapState a condition state).2 = (s.checkTrapTable a).2 := by
  rw [setTrapState]
  dsimp only
  split <;> rfl

end TrapTables

open TrapTables in
theorem Activation.Private.congr {a a' : Activation} {rest : List Activation}
    (h : a.Private rest) (hcontext : a'.context = a.context) (htraps : a'.traps = a.traps) :
    a'.Private rest := by
  intro hinterpret t ht
  rw [callers_congr hcontext]
  exact h (hcontext ▸ hinterpret) t (htraps ▸ ht)

namespace TrapActivity

variable {w w' : TrapActivity} {a a' b : Activation} {above rest : List Activation}

structure Sound (w : TrapActivity) : Prop where
  queues : w.Queues
  tables : w.traps.TablesOf w.activations

/-- A `SIGNAL ON` trap of `a` leaves no trap delayed, and it merges the queues in their order. -/
def Interrupts (w : TrapActivity) (a : Activation) (rest : List Activation)
    (condition : Condition) : Prop :=
  ∀ i, w.traps.findTrap a condition = some i → ¬ (w.traps.arrays i).handler.isCall →
    w.traps.delayed a = [] ∧
      (a.context = .INTERPRET → MergesInOrder w.postponed a.conditions rest)

def Admits (w : TrapActivity) (op : TrapOperation) : Prop :=
  match op, w.activations with
  | .trapOn _, a :: rest => a.Private rest
  | .trapOff _, a :: rest => a.Private rest
  | .processTrap, a :: rest =>
      ∀ i ∈ a.handlers.head?, ¬ (w.traps.arrays i).handler.isCall → a.Private rest
  | .raise condition, a :: rest => w.Interrupts a rest condition
  | .raiseSender condition, _ :: b :: rest => w.Interrupts b rest condition
  | .propagate, a :: rest =>
      ∀ i ∈ w.traps.delayed a, ∀ b ∈ rest, ∀ condition, w.traps.lookup b condition ≠ some i
  | .returnFrom, a :: b :: _ =>
      a.context = .INTERPRET →
        (a.clauseBoundary ∨ b.pendingCount = 0) ∧ Older w.postponed b.conditions a.conditions
  | _, _ => True

inductive Reached (admitted : TrapActivity → TrapOperation → Prop) : TrapActivity → Prop where
  | start : Reached admitted start
  | step {w w' : TrapActivity} {op : TrapOperation} (h : Reached admitted w)
      (hadmits : admitted w op) (hstep : w.step op = some w') : Reached admitted w'

/--
Each condition stands at the place of its trap, it is in one place only, and what the caller of
an internal routine has trapped is what it had trapped at the call.
-/
structure KeepsTraps (w : TrapActivity) : Prop where
  parallel : ∀ a ∈ w.activations, a.handlers.length = a.conditions.length ∧
    a.pendingCount = a.conditions.length ∧ ∀ e ∈ a.waiting, e ∈ w.accepted
  nodup : (w.accepted.map Prod.fst).Nodup
  once : ∀ e, w.accepted.count e =
    w.passed.count e + (w.activations.flatMap Activation.waiting).count e + w.lost.count e
  ordered : ∀ a ∈ w.activations, Ascending w.postponed a.conditions
  ready : ∀ a ∈ w.activations, a.Ready
  delayed : ∀ a ∈ w.activations, ∀ condition i, w.traps.lookup a condition = some i →
    (w.traps.arrays i).state = .DELAY → ∃ b ∈ w.activations, ∃ called,
      b.delaying = some called ∧ w.traps.lookup b called = some i
  callers : ∀ a b rest, w.activations = a :: b :: rest → a.context = .INTERNALCALL →
    a.delaying = none → a.callerTraps = w.traps.view b

theorem Sound.pushed (h : w.Sound)
    (hempty : a.conditionQueue = none ∧ a.handlerQueue = none ∧ a.pendingCount = 0 ∧
      a.loop = none)
    (hparent : a.context = .INTERPRET →
      ∃ b ∈ w.activations.head?, b.loop = none ∧ b.delaying = none)
    (htables : w.traps.TablesOf (a :: w.activations)) :
    Sound { w with activations := a :: w.activations } :=
  ⟨h.queues.push hempty hparent, htables⟩

theorem Sound.external (h : w.Sound) :
    Sound { w with activations := externalActivation :: w.activations } := by
  refine h.pushed ⟨rfl, rfl, rfl, rfl⟩ (fun hinterpret => by cases hinterpret)
    (h.tables.push rfl ?_ (fun t ht => by cases ht) fun condition i hfound => by cases hfound)
  cases w.activations with
  | nil => rfl
  | cons b rest => exact fun t ht => by cases ht

theorem Sound.internal (h : w.Sound) (hw : w.activations = a :: rest) :
    Sound { w with activations := internalActivation w.traps a :: w.activations } := by
  have hmem : a ∈ w.activations := hw ▸ List.mem_cons_self
  refine h.pushed ⟨rfl, rfl, rfl, rfl⟩ (fun hinterpret => by cases hinterpret)
    (h.tables.push rfl ?_ (h.tables.table_lt a hmem) fun condition i hfound => ⟨a, hmem, hfound⟩)
  rw [hw]
  refine ⟨fun hcopied => (by cases hcopied), funext fun condition => ?_⟩
  refine congrArg (fun f => (w.traps.lookup a condition).map f) (funext fun i => ?_)
  rw [TrapTables.restored, if_neg List.not_mem_nil]

theorem Sound.interpreted (h : w.Sound) (hw : w.activations = a :: rest) (hclause : InClause a) :
    Sound { w with activations := interpretActivation a :: w.activations } := by
  have hmem : a ∈ w.activations := hw ▸ List.mem_cons_self
  simp only [InClause, Bool.and_eq_true, Option.isNone_iff_eq_none] at hclause
  refine h.pushed ⟨rfl, rfl, rfl, rfl⟩ (fun _ => ⟨a, by rw [hw]; rfl, hclause⟩)
    (h.tables.push rfl ?_ (h.tables.table_lt a hmem) fun condition i hfound => ⟨a, hmem, hfound⟩)
  rw [hw]
  exact ⟨hclause.2, rfl, .inl rfl⟩

theorem Sound.checkedTable (h : w.Sound) (hw : w.activations = a :: rest) (traps : TrapTables)
    (delaying : Option Condition) :
    Queues { w with
      traps := traps
      activations := { (w.traps.checkTrapTable a).2 with delaying := delaying } :: rest } := by
  have hready := h.queues.ready a (hw ▸ List.mem_cons_self)
  obtain ⟨table, copied, hsnd⟩ := w.traps.checkTrapTable_snd a
  rw [hsnd]
  exact h.queues.sameQueues hw _ ⟨rfl, rfl, rfl⟩
    ⟨hready.boundary, hready.processing, hready.rounds_le⟩ rfl

theorem Sound.trapOff (h : w.Sound) (hw : w.activations = a :: rest) (hprivate : a.Private rest)
    (hnone : a.delaying = none) (condition : Condition) :
    Sound { w with
      traps := (w.traps.trapOff a condition).1
      activations := (w.traps.trapOff a condition).2 :: rest } :=
  ⟨h.checkedTable hw _ _, (hw ▸ h.tables).trapOff hprivate hnone condition⟩

theorem Sound.trapOn (h : w.Sound) (hw : w.activations = a :: rest) (hprivate : a.Private rest)
    (hnone : a.delaying = none) (handler : TrapInstruction) :
    Sound { w with
      traps := (w.traps.trapOn a handler).1
      activations := (w.traps.trapOn a handler).2 :: rest } :=
  ⟨h.checkedTable hw _ _, (hw ▸ h.tables).trapOn hprivate hnone handler⟩

theorem Sound.setTrapState (h : w.Sound) (hw : w.activations = a :: rest) (condition : Condition)
    (state : TrapState) (delaying : Option Condition)
    (hcalls : a.delaying = none ∧ delaying = some condition ∧ state = .DELAY ∧
        w.traps.trapState a condition ≠ some .DELAY ∨
      a.delaying = some condition ∧ delaying = none ∧ state = .ON) :
    Sound { w with
      traps := (w.traps.setTrapState a condition state).1
      activations :=
        { (w.traps.setTrapState a condition state).2 with delaying := delaying } :: rest } := by
  refine ⟨?_, (hw ▸ h.tables).setTrapState condition state delaying hcalls⟩
  rw [TrapTables.setTrapState_snd]
  exact h.checkedTable hw _ delaying

theorem Sound.processedTop (h : w.Sound) (hw : w.activations = a :: rest)
    (loop : Option (Bool × Nat)) (boundary : Bool)
    (hready : ({ a with loop := loop, clauseBoundary := boundary } : Activation).Ready) :
    Sound { w with
      activations := { a with loop := loop, clauseBoundary := boundary } :: rest } :=
  ⟨h.queues.sameQueues hw w.traps ⟨rfl, rfl, rfl⟩ hready rfl,
    h.tables.same (by rw [hw]; rfl)⟩

theorem Sound.landed (h : w.Sound) (hw : w.activations = a :: rest) (hnone : a.delaying = none) :
    Sound { w with activations := a.landed :: rest } := by
  have hpaired := h.queues.paired a (hw ▸ List.mem_cons_self)
  refine ⟨h.queues.sameQueues hw w.traps ⟨rfl, rfl, ?_⟩ (Activation.Ready.landed a) rfl,
    h.tables.same ?_⟩
  · exact hpaired.landed.pending_eq.trans hpaired.pending_eq.symm
  · rw [hw]
    simp [TrapTables.tablesOnly, Activation.landed, hnone]

theorem Sound.trapped {condition : Condition} (h : w.Sound)
    (hw : w.activations = above ++ a :: rest)
    (habove : ∀ x ∈ above, x.delaying = none)
    (hadmits : w.Interrupts a rest condition)
    (htrap : w.trap above a rest condition = some w') : w'.Sound := by
  refine ⟨h.queues.trap hw (fun i hfind hsignal => (hadmits i hfind hsignal).2) htrap, ?_⟩
  have htables := h.tables
  rw [hw] at htables
  simp only [TrapActivity.trap] at htrap
  split at htrap
  · cases htrap
  · next i hfind =>
    split at htrap
    · cases htrap
      exact htables.same (by rw [List.map_append, List.map_append]; rfl)
    · next hsignal =>
      cases htrap
      have hbelow : w.traps.TablesOf (a :: rest) := by
        clear hw
        induction above with
        | nil => exact htables
        | cons x above ih =>
            refine ih (fun y hy => habove y (List.mem_cons_of_mem x hy)) (htables.pop ?_)
            rw [TrapTables.delayed_none _ (habove x List.mem_cons_self)]
            exact fun i hi => absurd hi List.not_mem_nil
      have hlanded := hbelow.absent none (hadmits i hfind hsignal).1
        (TrapTables.delayed_none _ rfl)
      exact TrapTables.TablesOf.unwindTrap _ (hlanded.same rfl)

theorem Sound.postponed {i id : Nat} {handlers conditions : List Nat} {trapped : Bool}
    {rounds : Nat} (h : w.Sound) (hw : w.activations = a :: rest)
    (hhandlers : a.handlers = i :: handlers) (hconditions : a.conditions = id :: conditions)
    (hloop : a.loop = some (trapped, rounds + 1)) :
    Sound { w with
      activations := { a with
        handlerQueue := some (handlers ++ [i])
        conditionQueue := some (conditions ++ [id])
        loop := some (trapped, rounds) } :: rest
      postponed := w.postponed ++ [id] } := by
  have hmem : a ∈ w.activations := hw ▸ List.mem_cons_self
  have hready := h.queues.ready a hmem
  obtain ⟨hlength, hpending⟩ := h.queues.paired a hmem
  rw [hhandlers, hconditions] at hlength
  have hshort : handlers.length = conditions.length := Nat.succ.inj hlength
  refine ⟨h.queues.top hw rfl (fun _ hl => hl.postpone id) ⟨?_, ?_⟩ ?_ ?_ rfl ⟨rfl, rfl, rfl⟩
    fun e => ?_, h.tables.same (by rw [hw]; rfl)⟩
  · change (handlers ++ [i]).length = (conditions ++ [id]).length
    simp [hshort]
  · change a.pendingCount = (conditions ++ [id]).length
    rw [hpending, hconditions]
    simp
  · have hordered := h.queues.ordered a hmem
    rw [hconditions] at hordered
    exact hordered.rotate
  · refine ⟨fun hnone => (by cases hnone), fun r hr => ?_, fun t r hr => ?_⟩
    · cases hr
      exact hready.processing (rounds + 1) hloop
    · cases hr
      exact Nat.le_of_succ_le (hready.rounds_le trapped (rounds + 1) hloop)
  · have hafter : (({ a with
        handlerQueue := some (handlers ++ [i])
        conditionQueue := some (conditions ++ [id])
        loop := some (trapped, rounds) } : Activation).waiting) =
        conditions.zip handlers ++ [(id, i)] := List.zip_append hshort.symm
    have hbefore : a.waiting = (id, i) :: conditions.zip handlers := by
      rw [Activation.waiting, hconditions, hhandlers, List.zip_cons_cons]
    rw [hafter, hbefore, List.count_append, List.count_cons, List.count_singleton]

theorem Sound.taken {i id : Nat} {handlers conditions : List Nat} {trapped : Bool}
    {rounds : Nat} (h : w.Sound) (hw : w.activations = a :: rest)
    (hhandlers : a.handlers = i :: handlers) (hconditions : a.conditions = id :: conditions)
    (hloop : a.loop = some (trapped, rounds + 1)) :
    Sound { w with
      activations := { a with
        handlerQueue := some handlers
        conditionQueue := some conditions
        pendingCount := a.pendingCount - 1
        loop := some (trapped, rounds) } :: rest
      passed := w.passed ++ [(id, i)] } := by
  have hmem : a ∈ w.activations := hw ▸ List.mem_cons_self
  have hready := h.queues.ready a hmem
  obtain ⟨hlength, hpending⟩ := h.queues.paired a hmem
  rw [hhandlers, hconditions] at hlength
  refine ⟨h.queues.top hw rfl (fun _ hl => hl) ⟨Nat.succ.inj hlength, ?_⟩ ?_ ?_ rfl
    ⟨rfl, rfl, rfl⟩ fun e => ?_, h.tables.same (by rw [hw]; rfl)⟩
  · change a.pendingCount - 1 = conditions.length
    rw [hpending, hconditions]
    rfl
  · have hordered := h.queues.ordered a hmem
    rw [hconditions] at hordered
    exact List.Pairwise.of_cons hordered
  · refine ⟨fun hnone => (by cases hnone), fun r hr => ?_, fun t r hr => ?_⟩
    · cases hr
      exact hready.processing (rounds + 1) hloop
    · cases hr
      exact Nat.le_sub_one_of_lt (hready.rounds_le trapped (rounds + 1) hloop)
  · have hafter : (({ a with
        handlerQueue := some handlers
        conditionQueue := some conditions
        pendingCount := a.pendingCount - 1
        loop := some (trapped, rounds) } : Activation).waiting) = conditions.zip handlers := rfl
    have hbefore : a.waiting = (id, i) :: conditions.zip handlers := by
      rw [Activation.waiting, hconditions, hhandlers, List.zip_cons_cons]
    rw [hafter, hbefore, List.count_append, List.count_cons, List.count_singleton]
    omega

theorem Sound.processTrap {trapped : Bool} {rounds : Nat} (h : w.Sound)
    (hw : w.activations = a :: rest) (hloop : a.loop = some (trapped, rounds + 1))
    (hnone : a.delaying = none)
    (hadmits : ∀ i ∈ a.handlers.head?, ¬ (w.traps.arrays i).handler.isCall → a.Private rest)
    (hstep : w.processTrap a rest trapped rounds = some w') : w'.Sound := by
  simp only [TrapActivity.processTrap] at hstep
  split at hstep
  · next i handlers id conditions hhandlers hconditions =>
    split at hstep
    · cases hstep
      exact h.postponed hw hhandlers hconditions hloop
    · next hstate =>
      have htaken := h.taken hw hhandlers hconditions hloop
      rw [h.tables.condition_eq i] at hstate
      split at hstep
      · have hcalled := htaken.setTrapState rfl (w.traps.arrays i).handler.condition .DELAY
          (some (w.traps.arrays i).handler.condition) (.inl ⟨hnone, rfl, rfl, hstate⟩)
        split at hstep
        · cases hstep
          exact hcalled.internal rfl
        · cases hstep
          exact hcalled
      · next hsignal =>
        cases hstep
        have hprivate := hadmits i (by rw [hhandlers]; rfl) hsignal
        exact htaken.trapOff rfl (hprivate.congr rfl rfl) hnone _
  · cases hstep

theorem Sound.ended (h : w.Sound) (hw : w.activations = a :: rest)
    (hleft : ∀ i ∈ w.traps.delayed a, ∀ b ∈ rest, ∀ condition,
      w.traps.lookup b condition ≠ some i) :
    Sound { w with activations := rest, lost := w.lost ++ a.waiting } := by
  have hqueues := h.queues.toQueuesOf
  have htables := h.tables
  rw [hw] at hqueues htables
  refine ⟨⟨hqueues.pop, h.queues.known, h.queues.nodup, fun e => ?_⟩, htables.pop hleft⟩
  have honce := h.queues.once e
  rw [hw] at honce
  simp only [List.flatMap_cons, List.count_append] at honce ⊢
  omega

theorem mergeTraps_eq (b a : Activation) : ∃ conditions handlers pending, b.mergeTraps a =
    { b with conditionQueue := conditions, handlerQueue := handlers, pendingCount := pending } := by
  rw [Activation.mergeTraps]
  split
  · exact ⟨b.conditionQueue, b.handlerQueue, b.pendingCount, rfl⟩
  · split <;> exact ⟨_, _, _, rfl⟩

theorem Sound.returned (h : w.Sound) (hw : w.activations = a :: b :: rest)
    (hclause : InClause a) (hinterpret : a.context = .INTERPRET)
    (hboundary : a.clauseBoundary ∨ b.pendingCount = 0)
    (holder : Older w.postponed b.conditions a.conditions) :
    Sound { w with activations := (b.getSettings a).mergeTraps a :: rest } := by
  simp only [InClause, Bool.and_eq_true, Option.isNone_iff_eq_none] at hclause
  have hqueues := h.queues.toQueuesOf
  have htables := h.tables
  rw [hw] at hqueues htables
  have hb : b ∈ a :: b :: rest := List.mem_cons_of_mem a List.mem_cons_self
  have hpaired := hqueues.paired b hb
  have hchild := hqueues.paired a List.mem_cons_self
  have hsettings : (b.getSettings a).Paired := ⟨hpaired.length_eq, hpaired.pending_eq⟩
  obtain ⟨hmerged, hconditions, hwaiting⟩ := hsettings.mergeTraps hchild
  obtain ⟨parent, hparent, hidle, -⟩ := hqueues.nested.1 hinterpret
  cases hparent
  obtain ⟨conditions, handlers, pending, hfields⟩ := mergeTraps_eq (b.getSettings a) a
  have hready : ((b.getSettings a).mergeTraps a).Ready := by
    have hloop : ((b.getSettings a).mergeTraps a).loop = none := by rw [hfields]; exact hidle
    have hflag : ((b.getSettings a).mergeTraps a).clauseBoundary = a.clauseBoundary := by
      rw [hfields]; rfl
    refine ⟨fun _ hpending => ?_, fun r hr => ?_, fun t r hr => ?_⟩
    · rw [hflag]
      rcases hboundary with hup | hzero
      · exact hup
      · refine (hqueues.ready a List.mem_cons_self).boundary hclause.1 fun hnone => hpending ?_
        rw [hmerged.pending_eq, hconditions, List.length_append]
        change b.conditions.length + a.conditions.length = 0
        rw [← hpaired.pending_eq, ← hchild.pending_eq, hzero, hnone]
    · rw [hloop] at hr
      cases hr
    · rw [hloop] at hr
      cases hr
  refine ⟨⟨?_, h.queues.known, h.queues.nodup, fun e => ?_⟩, ?_⟩
  · have hbelow : QueuesOf w.postponed ([] ++ b :: rest) := hqueues.pop
    refine hbelow.replace (fun _ hl => hl) hmerged ?_ hready
      (by rw [hfields]; rfl) (fun hnil => absurd rfl hnil) fun hnil => absurd rfl hnil
    rw [hconditions]
    exact (hqueues.ordered b hb).append (hqueues.ordered a List.mem_cons_self) holder
  · have honce := h.queues.once e
    have hown : (b.getSettings a).waiting = b.waiting := rfl
    rw [hw] at honce
    simp only [List.flatMap_cons, List.count_append, hwaiting, hown] at honce ⊢
    omega
  · refine (htables.getSettings hinterpret hclause.2).same ?_
    rw [List.map_cons, TrapTables.tablesOnly_mergeTraps]
    rfl

theorem Sound.step {op : TrapOperation} (h : w.Sound) (hadmits : w.Admits op)
    (hstep : w.step op = some w') : w'.Sound := by
  cases hw : w.activations with
  | nil =>
      rw [TrapActivity.step, hw] at hstep
      cases hstep
  | cons a rest =>
      simp only [TrapActivity.step, hw] at hstep
      cases op with
      | trapOn handler =>
          simp only [Admits, hw] at hadmits
          dsimp only at hstep
          split at hstep
          · next hclause =>
            cases hstep
            simp only [InClause, Bool.and_eq_true, Option.isNone_iff_eq_none] at hclause
            exact h.trapOn hw hadmits hclause.2 handler
          · cases hstep
      | trapOff condition =>
          simp only [Admits, hw] at hadmits
          dsimp only at hstep
          split at hstep
          · next hclause =>
            cases hstep
            simp only [InClause, Bool.and_eq_true, Option.isNone_iff_eq_none] at hclause
            exact h.trapOff hw hadmits hclause.2 condition
          · cases hstep
      | raise condition =>
          simp only [Admits, hw] at hadmits
          dsimp only at hstep
          have hlist : w.activations = [] ++ a :: rest := hw
          cases htrap : w.trap [] a rest condition with
          | none =>
              rw [htrap] at hstep
              cases hstep
              exact h
          | some trapped =>
              rw [htrap] at hstep
              cases hstep
              exact h.trapped hlist (fun _ hx => absurd hx List.not_mem_nil) hadmits htrap
      | raiseSender condition =>
          cases rest with
          | nil => cases hstep
          | cons b rest =>
              simp only [Admits, hw] at hadmits
              dsimp only at hstep
              split at hstep
              · next hclause =>
                simp only [InClause, Bool.and_eq_true, Option.isNone_iff_eq_none] at hclause
                have hlanded : Sound { w with activations := [a.landed] ++ b :: rest } :=
                  h.landed hw hclause.2
                cases htrap : w.trap [a.landed] b rest condition with
                | none =>
                    rw [htrap] at hstep
                    cases hstep
                    exact hlanded
                | some trapped =>
                    rw [htrap] at hstep
                    cases hstep
                    refine hlanded.trapped rfl (fun x hx => ?_) hadmits htrap
                    rw [List.mem_singleton.1 hx]
                    rfl
              · cases hstep
      | propagate =>
          simp only [Admits, hw] at hadmits
          dsimp only at hstep
          split at hstep
          · cases hstep
          · cases hstep
            exact h.ended hw hadmits
      | externalCall =>
          cases hstep
          rw [← hw]
          exact h.external
      | internalCall =>
          dsimp only at hstep
          split at hstep
          · cases hstep
            rw [← hw]
            exact h.internal hw
          · cases hstep
      | interpret =>
          dsimp only at hstep
          split at hstep
          · next hclause =>
            cases hstep
            rw [← hw]
            exact h.interpreted hw hclause
          · cases hstep
      | returnFrom =>
          cases rest with
          | nil => cases hstep
          | cons b rest =>
              simp only [Admits, hw] at hadmits
              dsimp only at hstep
              split at hstep
              · next hclause =>
                split at hstep
                · next hinterpret =>
                  cases hstep
                  exact h.returned hw hclause hinterpret (hadmits hinterpret).1
                    (hadmits hinterpret).2
                · cases hstep
                  simp only [InClause, Bool.and_eq_true, Option.isNone_iff_eq_none] at hclause
                  refine h.ended hw ?_
                  rw [TrapTables.delayed_none _ hclause.2]
                  exact fun i hi => absurd hi List.not_mem_nil
              · cases hstep
      | processClauseBoundary =>
          dsimp only at hstep
          split at hstep
          · next hclause =>
            cases hstep
            refine h.processedTop hw (some (false, a.pendingCount)) a.clauseBoundary
              ⟨fun hnone => (by cases hnone), fun _ _ => hclause.2, fun t r hr => ?_⟩
            cases hr
            exact Nat.le_refl _
          · cases hstep
      | processTrap =>
          simp only [Admits, hw] at hadmits
          dsimp only at hstep
          split at hstep
          · next hloop hnone =>
            exact h.processTrap hw hloop hnone hadmits hstep
          · cases hstep
      | handlerReturned =>
          dsimp only at hstep
          split at hstep
          · next condition hdelaying =>
            cases hstep
            exact h.setTrapState hw condition .ON none (.inr ⟨hdelaying, rfl, rfl⟩)
          · cases hstep
      | processedTraps =>
          dsimp only at hstep
          split at hstep
          · next trapped hloop hnone =>
            cases hstep
            have hready := h.queues.ready a (hw ▸ List.mem_cons_self)
            refine h.processedTop hw none _ ⟨fun _ hpending => ?_, fun _ hr => (by cases hr),
              fun _ _ hr => by cases hr⟩
            have hleft : decide (a.pendingCount ≠ 0) = true := decide_eq_true hpending
            cases trapped with
            | true => simp [hleft]
            | false =>
                have hboundary := hready.processing 0 hloop
                simp [hleft, hboundary]
          · cases hstep

/-! ## Runs -/

theorem Sound.start : start.Sound := by
  refine ⟨⟨⟨fun a ha => ?_, fun a ha => ?_, fun a ha => ?_, ⟨fun h => (by cases h), trivial⟩⟩,
    fun e he => absurd he List.not_mem_nil, List.nodup_nil, fun e => rfl⟩,
    ⟨fun a ha t ht => ?_, fun t ht => absurd ht (Nat.not_lt_zero t), fun _ => rfl,
      ⟨rfl, trivial⟩, fun a ha condition i hfound => ?_⟩⟩ <;> cases List.mem_singleton.1 ha
  · exact ⟨rfl, rfl⟩
  · exact List.Pairwise.nil
  · exact ⟨fun _ hne => absurd rfl hne, fun _ h => (by cases h), fun _ _ h => by cases h⟩
  · cases ht
  · cases hfound

theorem Reached.sound (h : Reached Admits w) : w.Sound := by
  induction h with
  | start => exact Sound.start
  | step _ hadmits hstep ih => exact ih.step hadmits hstep

theorem Sound.keepsTraps (h : w.Sound) : w.KeepsTraps where
  parallel a ha := by
    obtain ⟨hlength, hpending⟩ := h.queues.paired a ha
    refine ⟨hlength, hpending, fun e he => ?_⟩
    have hwaits : e ∈ w.activations.flatMap Activation.waiting := List.mem_flatMap.2 ⟨a, ha, he⟩
    have hcount := h.queues.once e
    have hpos := List.count_pos_iff.2 hwaits
    exact List.count_pos_iff.1 (by omega)
  nodup := h.queues.nodup
  once := h.queues.once
  ordered := h.queues.ordered
  ready := h.queues.ready
  delayed a ha condition i hfound hstate := by
    obtain ⟨b, hb, hi⟩ := List.mem_flatMap.1 (h.tables.delaying a ha condition i hfound hstate)
    rw [TrapTables.delayed, Option.mem_toList, Option.bind_eq_some_iff] at hi
    obtain ⟨called, hcalled, hlookup⟩ := hi
    exact ⟨b, hb, called, hcalled, hlookup⟩
  callers a b rest hw hinternal hnone := by
    have hplaced := h.tables.layered
    rw [hw, TrapTables.Layered, TrapTables.delayed_none _ hnone] at hplaced
    simp only [TrapTables.Placed, hinternal] at hplaced
    refine hplaced.1.2.trans (funext fun condition => ?_)
    refine congrArg (fun f => (w.traps.lookup b condition).map f) (funext fun i => ?_)
    exact if_neg List.not_mem_nil

end TrapActivity

end LeooRexx
