import LeooRexx.Runtime.TrapQueues
import Mathlib.Data.List.Count
import Mathlib.Data.List.Perm.Basic
import Mathlib.Data.List.Nodup
import Mathlib.Data.List.Pairwise
import Mathlib.Tactic.Ring

/-!
# Conditions and their traps

The two queues of an activation run side by side, and a condition is always in one place: it waits
in an activation, it was passed to its handler, or the activation that it waited in has ended.
-/

namespace LeooRexx

/-! ## The queues of one activation -/

namespace Activation

structure Paired (a : Activation) : Prop where
  length_eq : a.handlers.length = a.conditions.length
  pending_eq : a.pendingCount = a.conditions.length

variable {a b child : Activation}

theorem Paired.map_fst (h : a.Paired) : a.waiting.map Prod.fst = a.conditions :=
  List.map_fst_zip h.length_eq.ge

theorem Paired.addLast (h : a.Paired) (condition handler : Nat) :
    (a.addLast condition handler).Paired ∧
      (a.addLast condition handler).conditions = a.conditions ++ [condition] ∧
      (a.addLast condition handler).waiting = a.waiting ++ [(condition, handler)] := by
  have hconditions : (a.addLast condition handler).conditions = a.conditions ++ [condition] := rfl
  have hhandlers : (a.addLast condition handler).handlers = a.handlers ++ [handler] := rfl
  refine ⟨⟨?_, ?_⟩, hconditions, ?_⟩
  · simp [hconditions, hhandlers, h.length_eq]
  · rw [hconditions, List.length_append]
    exact congrArg (· + 1) h.pending_eq
  · rw [waiting, hconditions, hhandlers, List.zip_append h.length_eq.symm]
    rfl

theorem Paired.mergeTraps (h : a.Paired) (hchild : child.Paired) :
    (a.mergeTraps child).Paired ∧
      (a.mergeTraps child).conditions = a.conditions ++ child.conditions ∧
      (a.mergeTraps child).waiting = a.waiting ++ child.waiting := by
  have hsides : (a.mergeTraps child).conditions = a.conditions ++ child.conditions ∧
      (a.mergeTraps child).handlers = a.handlers ++ child.handlers ∧
      (a.mergeTraps child).pendingCount = (a.conditions ++ child.conditions).length := by
    have hlength := h.length_eq
    have hchildLength := hchild.length_eq
    rw [Activation.mergeTraps]
    cases hconditions : child.conditionQueue with
    | none =>
        have hnone : child.conditions = [] := by rw [conditions, hconditions]; rfl
        rw [hnone, List.length_nil, List.length_eq_zero_iff] at hchildLength
        rw [hnone, hchildLength, List.append_nil, List.append_nil]
        exact ⟨rfl, rfl, h.pending_eq⟩
    | some queue =>
        have hqueue : child.conditions = queue := by rw [conditions, hconditions]; rfl
        rw [hqueue] at hchildLength
        cases hown : a.conditionQueue with
        | none =>
            have hnone : a.conditions = [] := by rw [conditions, hown]; rfl
            rw [hnone, List.length_nil, List.length_eq_zero_iff] at hlength
            rw [hnone, hlength, hqueue, List.nil_append, List.nil_append]
            exact ⟨rfl, rfl, rfl⟩
        | some own =>
            have hsome : a.conditions = own := by rw [conditions, hown]; rfl
            have htake : child.handlers.take queue.length = child.handlers :=
              List.take_of_length_le hchildLength.le
            rw [hsome, hqueue]
            refine ⟨rfl, ?_, rfl⟩
            change a.handlers ++ child.handlers.take queue.length = _
            rw [htake]
  obtain ⟨hconditions, hhandlers, hpending⟩ := hsides
  refine ⟨⟨?_, ?_⟩, hconditions, ?_⟩
  · rw [hconditions, hhandlers, List.length_append, List.length_append, h.length_eq,
      hchild.length_eq]
  · rw [hpending, hconditions]
  · rw [waiting, hconditions, hhandlers, List.zip_append h.length_eq.symm]
    rfl

theorem Paired.landed (h : a.Paired) : a.landed.Paired := by
  refine ⟨h.length_eq, ?_⟩
  change (a.conditionQueue.map List.length).getD a.pendingCount = a.conditions.length
  cases hqueue : a.conditionQueue with
  | none => exact h.pending_eq
  | some queue =>
      rw [conditions, hqueue]
      rfl

/--
Traps that wait are processed at the next clause boundary, the flag is up while they are processed
there, and there is no round without a condition.
-/
structure Ready (a : Activation) : Prop where
  boundary : a.loop = none → a.pendingCount ≠ 0 → a.clauseBoundary = true
  processing : ∀ rounds, a.loop = some (false, rounds) → a.clauseBoundary = true
  rounds_le : ∀ trapped rounds, a.loop = some (trapped, rounds) → rounds ≤ a.pendingCount

theorem Ready.landed (a : Activation) : a.landed.Ready := by
  refine ⟨fun h => absurd h (by simp [Activation.landed]),
    fun _ h => absurd h (by simp [Activation.landed]), fun trapped rounds h => ?_⟩
  cases h
  exact Nat.le_refl _

end Activation

/-! ## The queues of all activations -/

/-- Conditions that were never found delayed wait in the order in which they were raised. -/
def Ascending (postponed conditions : List Nat) : Prop :=
  conditions.Pairwise fun id id' => id ∉ postponed → id' ∉ postponed → id < id'

section Ascending

variable {postponed l l' : List Nat} {id : Nat}

theorem Ascending.postpone (h : Ascending postponed l) (id : Nat) :
    Ascending (postponed ++ [id]) l :=
  h.imp fun hlt hx hy => hlt (by grind) (by grind)

theorem Ascending.rotate (h : Ascending postponed (id :: l)) :
    Ascending (postponed ++ [id]) (l ++ [id]) := by
  have htail : Ascending (postponed ++ [id]) l := Ascending.postpone (List.Pairwise.of_cons h) id
  refine List.pairwise_append.2 ⟨htail, List.pairwise_singleton .., ?_⟩
  intro x _ y hy _ hlate
  rw [List.mem_singleton.1 hy] at hlate
  simp at hlate

theorem Ascending.addLast (h : Ascending postponed l) (hnew : ∀ x ∈ l, x < id) :
    Ascending postponed (l ++ [id]) := by
  refine List.pairwise_append.2 ⟨h, List.pairwise_singleton .., ?_⟩
  intro x hx y hy _ _
  rw [List.mem_singleton.1 hy]
  exact hnew x hx

/-- Every condition of `l` that was never found delayed is older than those of `l'`. -/
def Older (postponed l l' : List Nat) : Prop :=
  ∀ id ∈ l, ∀ id' ∈ l', id ∉ postponed → id' ∉ postponed → id < id'

theorem Ascending.append (h : Ascending postponed l) (h' : Ascending postponed l')
    (hold : Older postponed l l') : Ascending postponed (l ++ l') :=
  List.pairwise_append.2 ⟨h, h', hold⟩

end Ascending

namespace TrapActivity

def Nested : List Activation → Prop
  | [] => True
  | a :: rest =>
      (a.context = .INTERPRET → ∃ b ∈ rest.head?, b.loop = none ∧ b.delaying = none) ∧ Nested rest

/-- The queues that are merged when the activations of an `INTERPRET` end, from the top. -/
def MergesInOrder (postponed later : List Nat) : List Activation → Prop
  | [] => True
  | b :: rest =>
      Older postponed b.conditions later ∧
        (b.context = .INTERPRET → MergesInOrder postponed (b.conditions ++ later) rest)

structure QueuesOf (postponed : List Nat) (activations : List Activation) : Prop where
  paired : ∀ a ∈ activations, a.Paired
  ordered : ∀ a ∈ activations, Ascending postponed a.conditions
  ready : ∀ a ∈ activations, a.Ready
  nested : Nested activations

structure Queues (w : TrapActivity) : Prop extends QueuesOf w.postponed w.activations where
  known : ∀ e ∈ w.accepted, e.1 < w.newCondition
  nodup : (w.accepted.map Prod.fst).Nodup
  once : ∀ e, w.accepted.count e =
    w.passed.count e + (w.activations.flatMap Activation.waiting).count e + w.lost.count e

section Lists

variable {postponed later : List Nat} {a a' b : Activation} {above rest : List Activation}

theorem Nested.replace (h : Nested (above ++ a :: rest)) (hcontext : a'.context = a.context)
    (hloop : above ≠ [] → a.loop = none → a'.loop = none)
    (hdelaying : above ≠ [] → a.delaying = none → a'.delaying = none) :
    Nested (above ++ a' :: rest) := by
  induction above with
  | nil => exact ⟨fun hinterpret => h.1 (hcontext ▸ hinterpret), h.2⟩
  | cons x above ih =>
      refine ⟨fun hinterpret => ?_, ih h.2 (fun _ => hloop (by simp)) fun _ => hdelaying (by simp)⟩
      have hparent := h.1 hinterpret
      cases above with
      | nil =>
          obtain ⟨b, hb, hnone, hcalls⟩ := hparent
          cases hb
          exact ⟨a', rfl, hloop (by simp) hnone, hdelaying (by simp) hcalls⟩
      | cons y above => exact hparent

theorem QueuesOf.replace (h : QueuesOf postponed (above ++ a :: rest)) {postponed' : List Nat}
    (hpostponed : ∀ l, Ascending postponed l → Ascending postponed' l)
    (hpaired : a'.Paired) (hordered : Ascending postponed' a'.conditions) (hready : a'.Ready)
    (hcontext : a'.context = a.context)
    (hloop : above ≠ [] → a.loop = none → a'.loop = none)
    (hdelaying : above ≠ [] → a.delaying = none → a'.delaying = none) :
    QueuesOf postponed' (above ++ a' :: rest) := by
  have hothers : ∀ x, x ∈ above ++ a' :: rest → x = a' ∨ x ∈ above ++ a :: rest := by
    simp only [List.mem_append, List.mem_cons]
    rintro x (hx | rfl | hx) <;> simp [*]
  refine ⟨fun x hx => ?_, fun x hx => ?_, fun x hx => ?_,
    h.nested.replace hcontext hloop hdelaying⟩
  · rcases hothers x hx with rfl | hold
    · exact hpaired
    · exact h.paired x hold
  · rcases hothers x hx with rfl | hold
    · exact hordered
    · exact hpostponed _ (h.ordered x hold)
  · rcases hothers x hx with rfl | hold
    · exact hready
    · exact h.ready x hold

theorem QueuesOf.pop (h : QueuesOf postponed (a :: rest)) : QueuesOf postponed rest where
  paired x hx := h.paired x (List.mem_cons_of_mem a hx)
  ordered x hx := h.ordered x (List.mem_cons_of_mem a hx)
  ready x hx := h.ready x (List.mem_cons_of_mem a hx)
  nested := h.nested.2

theorem MergesInOrder.addLast {id : Nat} (h : MergesInOrder postponed later rest)
    (hnew : ∀ b ∈ rest, ∀ x ∈ b.conditions, x < id) :
    MergesInOrder postponed (later ++ [id]) rest := by
  induction rest generalizing later with
  | nil => trivial
  | cons b rest ih =>
      refine ⟨fun x hx y hy hxp hyp => ?_, fun hinterpret => ?_⟩
      · rcases List.mem_append.1 hy with hy | hy
        · exact h.1 x hx y hy hxp hyp
        · rw [List.mem_singleton.1 hy]
          exact hnew b List.mem_cons_self x hx
      · rw [← List.append_assoc]
        exact ih (h.2 hinterpret) fun c hc => hnew c (List.mem_cons_of_mem b hc)

theorem QueuesOf.unwindTrap (child : Activation) (hpaired : a.Paired)
    (hordered : Ascending postponed a.conditions)
    (hnested : a.context = .INTERPRET → ∃ b ∈ rest.head?, b.loop = none ∧ b.delaying = none)
    (h : QueuesOf postponed rest)
    (hmerges : a.context = .INTERPRET → MergesInOrder postponed a.conditions rest) :
    QueuesOf postponed (Activation.unwindTrap child a rest) ∧
      ∀ e, ((Activation.unwindTrap child a rest).flatMap Activation.waiting).count e =
        a.waiting.count e + (rest.flatMap Activation.waiting).count e := by
  have hland (a : Activation) (rest : List Activation) (hpaired : a.Paired)
      (hordered : Ascending postponed a.conditions) (hcontext : a.context ≠ .INTERPRET)
      (h : QueuesOf postponed rest) :
      QueuesOf postponed ((a.getSettings child).landed :: rest) := by
    have hsettings : (a.getSettings child).Paired := ⟨hpaired.length_eq, hpaired.pending_eq⟩
    refine ⟨fun x hx => ?_, fun x hx => ?_, fun x hx => ?_,
      ⟨fun hinterpret => absurd hinterpret hcontext, h.nested⟩⟩ <;>
      rcases List.mem_cons.1 hx with rfl | hrest
    · exact hsettings.landed
    · exact h.paired x hrest
    · exact hordered
    · exact h.ordered x hrest
    · exact Activation.Ready.landed _
    · exact h.ready x hrest
  induction rest generalizing a with
  | nil =>
      have hcontext : a.context ≠ .INTERPRET := fun hinterpret => by
        obtain ⟨b, hb, -⟩ := hnested hinterpret
        cases hb
      rw [Activation.unwindTrap, if_neg hcontext]
      exact ⟨hland a [] hpaired hordered hcontext h, fun e => by
        rw [List.flatMap_cons, List.count_append]; rfl⟩
  | cons b rest ih =>
      rw [Activation.unwindTrap]
      by_cases hinterpret : a.context = .INTERPRET
      · rw [if_pos hinterpret]
        have hb := List.mem_cons_self (a := b) (l := rest)
        obtain ⟨hmerged, hconditions, hwaiting⟩ := (h.paired b hb).mergeTraps hpaired
        have hmerge := hmerges hinterpret
        have hcontext : (b.mergeTraps a).context = b.context := by
          rw [Activation.mergeTraps]; split <;> [rfl; (split <;> rfl)]
        have hrun := ih hmerged
          (by rw [hconditions]; exact (h.ordered b hb).append hordered hmerge.1)
          (by rw [hcontext]; exact h.nested.1) h.pop
          (by rw [hcontext, hconditions]; exact hmerge.2)
        refine ⟨hrun.1, fun e => ?_⟩
        rw [hrun.2 e, hwaiting, List.count_append, List.flatMap_cons, List.count_append]
        omega
      · rw [if_neg hinterpret]
        exact ⟨hland a (b :: rest) hpaired hordered hinterpret h, fun e => by
          rw [List.flatMap_cons, List.count_append]; rfl⟩

end Lists

/-! ## Steps -/

section Steps

variable {w w' : TrapActivity} {a a' b : Activation} {above rest : List Activation}

theorem Queues.waiting_known (h : w.Queues) {x : Activation} (hx : x ∈ w.activations) :
    ∀ id ∈ x.conditions, id < w.newCondition := by
  intro id hid
  rw [← (h.paired x hx).map_fst] at hid
  obtain ⟨e, he, rfl⟩ := List.mem_map.1 hid
  have hwaits : e ∈ w.activations.flatMap Activation.waiting := List.mem_flatMap.2 ⟨x, hx, he⟩
  have hcount := h.once e
  have hpos := List.count_pos_iff.2 hwaits
  exact h.known e (List.count_pos_iff.1 (by omega))

theorem Queues.top (h : w.Queues) (hw : w.activations = a :: rest)
    (hw' : w'.activations = a' :: rest)
    (hpostponed : ∀ l, Ascending w.postponed l → Ascending w'.postponed l)
    (hpaired : a'.Paired) (hordered : Ascending w'.postponed a'.conditions) (hready : a'.Ready)
    (hcontext : a'.context = a.context)
    (hconditions : w'.accepted = w.accepted ∧ w'.newCondition = w.newCondition ∧ w'.lost = w.lost)
    (hcount : ∀ e, w.passed.count e + a.waiting.count e =
      w'.passed.count e + a'.waiting.count e) : w'.Queues := by
  obtain ⟨haccepted, hnew, hlost⟩ := hconditions
  have hqueues : QueuesOf w.postponed ([] ++ a :: rest) := hw ▸ h.toQueuesOf
  refine ⟨?_, ?_, ?_, fun e => ?_⟩
  · rw [hw']
    exact hqueues.replace hpostponed hpaired hordered hready hcontext
      (fun hnil => absurd rfl hnil) fun hnil => absurd rfl hnil
  · rw [haccepted, hnew]
    exact h.known
  · rw [haccepted]
    exact h.nodup
  · have honce := h.once e
    have hhead := hcount e
    rw [hw, List.flatMap_cons, List.count_append] at honce
    rw [haccepted, hlost, hw', List.flatMap_cons, List.count_append]
    omega

theorem Queues.sameQueues (h : w.Queues) (hw : w.activations = a :: rest) (s : TrapTables)
    (hconditions : a'.conditionQueue = a.conditionQueue ∧ a'.handlerQueue = a.handlerQueue ∧
      a'.pendingCount = a.pendingCount)
    (hready : a'.Ready) (hcontext : a'.context = a.context) :
    Queues { w with traps := s, activations := a' :: rest } := by
  have hmem : a ∈ w.activations := hw ▸ List.mem_cons_self
  have hpaired := h.paired a hmem
  have hordered := h.ordered a hmem
  have hsame : a'.conditions = a.conditions := congrArg (·.getD []) hconditions.1
  have hhandlers : a'.handlers = a.handlers := congrArg (·.getD []) hconditions.2.1
  have hwaiting : a'.waiting = a.waiting := by
    rw [Activation.waiting, hsame, hhandlers]
    rfl
  refine h.top hw rfl (fun _ hl => hl) ⟨?_, ?_⟩ (by rw [hsame]; exact hordered) hready hcontext
    ⟨rfl, rfl, rfl⟩ fun e => by rw [hwaiting]
  · rw [hsame, hhandlers]
    exact hpaired.length_eq
  · rw [hsame, hconditions.2.2]
    exact hpaired.pending_eq

theorem Queues.push (h : w.Queues)
    (hempty : a.conditionQueue = none ∧ a.handlerQueue = none ∧ a.pendingCount = 0 ∧
      a.loop = none)
    (hparent : a.context = .INTERPRET →
      ∃ b ∈ w.activations.head?, b.loop = none ∧ b.delaying = none) :
    Queues { w with activations := a :: w.activations } := by
  obtain ⟨hconditionQueue, hhandlerQueue, hpending, hloop⟩ := hempty
  have hconditions : a.conditions = [] := by rw [Activation.conditions, hconditionQueue]; rfl
  have hhandlers : a.handlers = [] := by rw [Activation.handlers, hhandlerQueue]; rfl
  have hwaiting : a.waiting = [] := by rw [Activation.waiting, hconditions]; rfl
  refine ⟨⟨fun x hx => ?_, fun x hx => ?_, fun x hx => ?_, hparent, h.nested⟩, h.known, h.nodup,
    fun e => ?_⟩
  · rcases List.mem_cons.1 hx with rfl | hold
    · exact ⟨by rw [hconditions, hhandlers], by rw [hconditions, hpending]; rfl⟩
    · exact h.paired x hold
  · rcases List.mem_cons.1 hx with rfl | hold
    · rw [hconditions]
      exact List.Pairwise.nil
    · exact h.ordered x hold
  · rcases List.mem_cons.1 hx with rfl | hold
    · exact ⟨fun _ hne => absurd hpending hne, fun _ hrounds => by simp [hloop] at hrounds,
        fun _ _ hrounds => by simp [hloop] at hrounds⟩
    · exact h.ready x hold
  · rw [List.flatMap_cons, hwaiting, List.nil_append]
    exact h.once e

theorem Queues.trap {condition : Condition} (h : w.Queues)
    (hw : w.activations = above ++ a :: rest)
    (hmerges : ∀ i, w.traps.findTrap a condition = some i → ¬ (w.traps.arrays i).handler.isCall →
      a.context = .INTERPRET → MergesInOrder w.postponed a.conditions rest)
    (htrap : w.trap above a rest condition = some w') : w'.Queues := by
  have hmem : a ∈ w.activations := hw ▸ List.mem_append_right _ List.mem_cons_self
  have hqueues := h.toQueuesOf
  rw [hw] at hqueues
  simp only [TrapActivity.trap] at htrap
  split at htrap
  · cases htrap
  · next i hfind =>
    obtain ⟨hpaired, hconditions, hwaiting⟩ := (h.paired a hmem).addLast w.newCondition i
    have hordered : Ascending w.postponed (a.addLast w.newCondition i).conditions := by
      rw [hconditions]
      exact Ascending.addLast (h.ordered a hmem) (h.waiting_known hmem)
    have hknown : ∀ e ∈ w.accepted ++ [(w.newCondition, i)], e.1 < w.newCondition + 1 := by
      intro e he
      rcases List.mem_append.1 he with hold | hnew
      · exact Nat.lt_succ_of_lt (h.known e hold)
      · rw [List.mem_singleton.1 hnew]
        exact Nat.lt_succ_self _
    have hnodup : ((w.accepted ++ [(w.newCondition, i)]).map Prod.fst).Nodup := by
      rw [List.map_append]
      refine List.Nodup.append h.nodup (List.nodup_singleton _) fun id hid hnew => ?_
      obtain ⟨e, he, rfl⟩ := List.mem_map.1 hid
      have := h.known e he
      simp only [List.map_cons, List.map_nil, List.mem_singleton] at hnew
      omega
    have honce (e : Nat × Nat) := h.once e
    split at htrap
    · -- the trap of a `CALL ON` waits for the next clause boundary
      cases htrap
      refine ⟨?_, hknown, hnodup, fun e => ?_⟩
      · exact hqueues.replace (fun _ hl => hl) ⟨hpaired.length_eq, hpaired.pending_eq⟩ hordered
          ⟨fun _ _ => rfl, fun _ _ => rfl, fun trapped rounds hloop =>
            Nat.le_succ_of_le ((h.ready a hmem).rounds_le trapped rounds hloop)⟩
          rfl (fun _ hloop => hloop) fun _ hcalls => hcalls
      · have hown : ({ a.addLast w.newCondition i with clauseBoundary := true } :
            Activation).waiting = a.waiting ++ [(w.newCondition, i)] := hwaiting
        have := honce e
        rw [hw] at this
        simp only [List.count_append, List.flatMap_append, List.flatMap_cons, hown] at this ⊢
        omega
    · next hsignal =>
      cases htrap
      have hrest : QueuesOf w.postponed (a :: rest) := by
        clear hmerges hmem honce hw
        induction above with
        | nil => exact hqueues
        | cons x above ih => exact ih hqueues.pop
      have hunwind := QueuesOf.unwindTrap (a.addLast w.newCondition i) hpaired hordered
        hrest.nested.1 hrest.pop fun hinterpret => by
          rw [hconditions]
          refine (hmerges i hfind hsignal hinterpret).addLast fun b hb => h.waiting_known ?_
          rw [hw]
          exact List.mem_append_right _ (List.mem_cons_of_mem a hb)
      refine ⟨hunwind.1, hknown, hnodup, fun e => ?_⟩
      have hkept := hunwind.2 e
      have := honce e
      rw [hw] at this
      simp only [List.count_append, List.flatMap_append, List.flatMap_cons, hwaiting] at this hkept ⊢
      omega

end Steps

end TrapActivity

end LeooRexx
