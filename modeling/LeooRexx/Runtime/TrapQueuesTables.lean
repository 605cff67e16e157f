import LeooRexx.Runtime.TrapQueues
import Mathlib.Data.List.Basic
import Mathlib.Data.Option.Basic

/-!
# Shared trap tables

An internal routine starts with the table of its caller, and its own table keeps the arrays of the
caller's.  What the caller has trapped is seen through the delays that were set since the call.
-/

namespace LeooRexx

namespace TrapActivity

/-- The activations below the routine that is being executed, where `a` is on top. -/
def callers (a : Activation) : List Activation → List Activation
  | [] => []
  | b :: rest => if a.context = .INTERPRET then callers b rest else b :: rest

end TrapActivity

open TrapActivity (callers)

def Activation.Owns (a : Activation) (below : List Activation) : Prop :=
  ∀ t, a.traps = some t → ∀ b ∈ below, b.traps ≠ some t

/--
A table that an `INTERPRET` would change in place is not one that the callers of its routine have.
-/
def Activation.Private (a : Activation) (rest : List Activation) : Prop :=
  a.context = .INTERPRET → ∀ t, a.traps = some t → ∀ b ∈ callers a rest, b.traps ≠ some t

namespace TrapTables

def delayed (s : TrapTables) (a : Activation) : List Nat :=
  (a.delaying.bind (s.lookup a)).toList

/-- An array as it is when the handlers of the traps in `inner` have returned. -/
def restored (s : TrapTables) (inner : List Nat) (i : Nat) : TrapHandler :=
  if i ∈ inner then { s.arrays i with state := .ON } else s.arrays i

def restoredView (s : TrapTables) (inner : List Nat) (a : Activation) (condition : Condition) :
    Option TrapHandler :=
  (s.lookup a condition).map (s.restored inner)

def Placed (s : TrapTables) (inner : List Nat) (a : Activation) : List Activation → Prop
  | [] => a.context = .topLevelCall
  | b :: rest =>
      match a.context with
      | .topLevelCall => a.Owns (b :: rest)
      | .INTERNALCALL =>
          (a.trapsCopied → a.Owns (b :: rest)) ∧ a.callerTraps = s.restoredView inner b
      | .INTERPRET =>
          b.delaying = none ∧ a.trapsCopied = b.trapsCopied ∧
            (a.traps = b.traps ∨ b.traps = none ∧ a.Owns (b :: rest))

def Layered (s : TrapTables) : List Nat → List Activation → Prop
  | _, [] => True
  | inner, a :: rest =>
      s.Placed (s.delayed a ++ inner) a rest ∧ s.Layered (s.delayed a ++ inner) rest

structure TablesOf (s : TrapTables) (activations : List Activation) : Prop where
  table_lt : ∀ a ∈ activations, ∀ t, a.traps = some t → t < s.newTable
  array_lt : ∀ t < s.newTable, ∀ condition i, s.tables t condition = some i → i < s.newArray
  condition_eq : ∀ i, (s.arrays i).condition = (s.arrays i).handler.condition
  layered : s.Layered [] activations
  delaying : ∀ a ∈ activations, ∀ condition i, s.lookup a condition = some i →
    (s.arrays i).state = .DELAY → i ∈ activations.flatMap s.delayed

/-- The arrays that `activations` have are the same after the handlers have returned. -/
def Agrees (s : TrapTables) (inner : List Nat) (s' : TrapTables) (inner' : List Nat)
    (activations : List Activation) : Prop :=
  ∀ a ∈ activations, ∀ condition i, s.lookup a condition = some i →
    s.restored inner i = s'.restored inner' i

section Frames

variable {s s' : TrapTables} {inner inner' : List Nat} {a a' b : Activation}
  {rest activations : List Activation}

theorem restored_append (s : TrapTables) (l inner : List Nat) (i : Nat) :
    s.restored (l ++ inner) i =
      if i ∈ l then { s.restored inner i with state := .ON } else s.restored inner i := by
  simp only [restored, List.mem_append]
  by_cases hl : i ∈ l
  · by_cases hinner : i ∈ inner <;> simp [hl, hinner]
  · simp [hl]

theorem Agrees.append (h : Agrees s inner s' inner' activations) (l : List Nat) :
    Agrees s (l ++ inner) s' (l ++ inner') activations := by
  intro a ha condition i hlookup
  rw [restored_append, restored_append, h a ha condition i hlookup]

theorem Agrees.mono (h : Agrees s inner s' inner' activations)
    (hsub : ∀ b ∈ rest, b ∈ activations) : Agrees s inner s' inner' rest :=
  fun b hb => h b (hsub b hb)

theorem Placed.frame (h : s.Placed inner a rest)
    (hlookup : ∀ b ∈ rest, a.context = .INTERNALCALL → s'.lookup b = s.lookup b)
    (hagree : a.context = .INTERNALCALL → Agrees s inner s' inner' rest) :
    s'.Placed inner' a rest := by
  cases rest with
  | nil => exact h
  | cons b rest =>
      have hb := List.mem_cons_self (a := b) (l := rest)
      cases hcontext : a.context with
      | topLevelCall => simpa [Placed, hcontext] using h
      | INTERPRET => simpa [Placed, hcontext] using h
      | INTERNALCALL =>
          simp only [Placed, hcontext] at h ⊢
          refine ⟨h.1, h.2.trans (funext fun condition => ?_)⟩
          rw [restoredView, restoredView, hlookup b hb hcontext]
          cases hfound : s.lookup b condition with
          | none => rfl
          | some i => exact congrArg some (hagree hcontext b hb condition i hfound)

theorem delayed_frame (hlookup : s'.lookup a = s.lookup a) : s'.delayed a = s.delayed a := by
  rw [delayed, delayed, hlookup]

theorem Layered.frame (h : s.Layered inner activations)
    (hlookup : ∀ b ∈ activations, s'.lookup b = s.lookup b)
    (hagree : Agrees s inner s' inner' activations) : s'.Layered inner' activations := by
  induction activations generalizing inner inner' with
  | nil => trivial
  | cons a rest ih =>
      have hrest : ∀ b ∈ rest, s'.lookup b = s.lookup b := fun b hb =>
        hlookup b (List.mem_cons_of_mem a hb)
      have hbelow : Agrees s (s.delayed a ++ inner) s' (s.delayed a ++ inner') rest :=
        (hagree.append (s.delayed a)).mono fun b hb => List.mem_cons_of_mem a hb
      rw [Layered, delayed_frame (hlookup a List.mem_cons_self)]
      exact ⟨h.1.frame (fun b hb _ => hrest b hb) fun _ => hbelow, ih h.2 hrest hbelow⟩

theorem Layered.below (hplaced : s.Placed inner a rest) (h : s.Layered inner rest)
    (hlookup : ∀ b ∈ callers a rest, s'.lookup b = s.lookup b)
    (hagree : Agrees s inner s' inner' (callers a rest)) : s'.Layered inner' rest := by
  induction rest generalizing a with
  | nil => trivial
  | cons b rest ih =>
      by_cases hinterpret : a.context = .INTERPRET
      · rw [callers, if_pos hinterpret] at hlookup hagree
        simp only [Placed, hinterpret] at hplaced
        have hnone (s : TrapTables) : s.delayed b = [] := by
          rw [delayed, hplaced.1]
          rfl
        rw [Layered, hnone, List.nil_append] at h ⊢
        have hcallers (hinternal : b.context = .INTERNALCALL) : callers b rest = rest := by
          cases rest with
          | nil => rfl
          | cons c rest => rw [callers, if_neg (by rw [hinternal]; decide)]
        refine ⟨h.1.frame (fun c hc hinternal => ?_) fun hinternal => ?_, ih h.1 h.2 hlookup hagree⟩
        · exact hlookup c (by rwa [hcallers hinternal])
        · rwa [hcallers hinternal] at hagree
      · rw [callers, if_neg hinterpret] at hlookup hagree
        exact h.frame hlookup hagree

theorem Layered.mem_rest (hplaced : s.Placed inner a rest) (h : s.Layered inner rest) :
    ∀ b ∈ rest, b ∈ callers a rest ∨ b.delaying = none := by
  induction rest generalizing a inner with
  | nil => exact fun b hb => absurd hb List.not_mem_nil
  | cons b rest ih =>
      by_cases hinterpret : a.context = .INTERPRET
      · rw [callers, if_pos hinterpret]
        simp only [Placed, hinterpret] at hplaced
        intro c hc
        rcases List.mem_cons.1 hc with rfl | hc
        · exact .inr hplaced.1
        · exact ih h.1 h.2 c hc
      · rw [callers, if_neg hinterpret]
        exact fun c hc => .inl hc

theorem callers_subset : ∀ b ∈ callers a rest, b ∈ rest := by
  induction rest generalizing a with
  | nil => exact fun b hb => hb
  | cons c rest ih =>
      rw [callers]
      split
      · exact fun b hb => List.mem_cons_of_mem c (ih b hb)
      · exact fun b hb => hb

theorem Placed.callers_eq (h : a.context ≠ .INTERPRET) : callers a rest = rest := by
  cases rest with
  | nil => rfl
  | cons b rest => rw [callers, if_neg h]

theorem callers_congr (h : a'.context = a.context) : callers a' rest = callers a rest := by
  cases rest with
  | nil => rfl
  | cons b rest => rw [callers, callers, h]

theorem TablesOf.top (h : s.TablesOf (a :: rest))
    (hlookup : ∀ b ∈ callers a rest, s'.lookup b = s.lookup b)
    (hagree : Agrees s (s.delayed a) s' (s'.delayed a') (callers a rest))
    (hplaced : s'.Placed (s'.delayed a') a' rest)
    (htable : s.newTable ≤ s'.newTable) (htop : ∀ t, a'.traps = some t → t < s'.newTable)
    (harray : ∀ t < s'.newTable, ∀ condition i, s'.tables t condition = some i → i < s'.newArray)
    (hcondition : ∀ i, (s'.arrays i).condition = (s'.arrays i).handler.condition)
    (hdelaying : ∀ b ∈ a' :: rest, ∀ condition i, s'.lookup b condition = some i →
      (s'.arrays i).state = .DELAY → i ∈ s'.delayed a' ∨ i ∈ rest.flatMap s.delayed) :
    s'.TablesOf (a' :: rest) := by
  obtain ⟨hbefore, hbelow⟩ := h.layered
  rw [List.append_nil] at hbefore hbelow
  have hdelayed : ∀ b ∈ rest, s'.delayed b = s.delayed b := by
    intro b hb
    rcases hbelow.mem_rest hbefore b hb with hcaller | hnone
    · exact delayed_frame (hlookup b hcaller)
    · rw [delayed, delayed, hnone]
      rfl
  refine ⟨fun b hb t ht => ?_, harray, hcondition, ?_, fun b hb condition i hfound hstate => ?_⟩
  · rcases List.mem_cons.1 hb with rfl | hrest
    · exact htop t ht
    · exact Nat.lt_of_lt_of_le (h.table_lt b (List.mem_cons_of_mem a hrest) t ht) htable
  · rw [Layered, List.append_nil]
    exact ⟨hplaced, hbelow.below hbefore hlookup hagree⟩
  · rw [List.flatMap_cons, List.mem_append, List.flatMap_congr hdelayed]
    exact hdelaying b hb condition i hfound hstate

theorem Placed.same (h : s.Placed inner a rest) (hcontext : a'.context = a.context)
    (htraps : a'.traps = a.traps) (hcopied : a'.trapsCopied = a.trapsCopied)
    (hcaller : a'.callerTraps = a.callerTraps) : s.Placed inner a' rest := by
  cases rest with
  | nil => exact hcontext.trans h
  | cons b rest =>
      simp only [Placed, Activation.Owns, hcontext, htraps, hcopied, hcaller] at h ⊢
      exact h

theorem Placed.own (h : s.Placed inner a rest) (hcontext : a'.context = a.context)
    (hcaller : a'.callerTraps = a.callerTraps) (howns : a'.Owns rest)
    (hinterpret : a.context = .INTERPRET → a.traps = none ∧ a'.trapsCopied = a.trapsCopied) :
    s.Placed inner a' rest := by
  cases rest with
  | nil => exact hcontext.trans h
  | cons b rest =>
      cases hkind : a.context with
      | topLevelCall => simpa [Placed, hcontext, hkind] using howns
      | INTERNALCALL =>
          simp only [Placed, hcontext, hkind] at h ⊢
          exact ⟨fun _ => howns, hcaller.trans h.2⟩
      | INTERPRET =>
          simp only [Placed, hcontext, hkind] at h ⊢
          obtain ⟨hnone, hcopied⟩ := hinterpret hkind
          refine ⟨h.1, hcopied.trans h.2.1, .inr ⟨?_, howns⟩⟩
          rcases h.2.2 with hsame | hown
          · exact hsame.symm.trans hnone
          · exact hown.1

theorem lookup_addTable (table : Condition → Option Nat)
    (h : ∀ t, b.traps = some t → t < s.newTable) :
    (s.addTable table).lookup b = s.lookup b := by
  funext condition
  cases htraps : b.traps with
  | none => rw [lookup, lookup, htraps]; rfl
  | some t =>
      rw [lookup, lookup, htraps]
      exact congrFun (Function.update_of_ne (Nat.ne_of_lt (h t htraps)) _ _) condition

theorem TablesOf.addTable (h : s.TablesOf (a :: rest)) (table : Condition → Option Nat)
    (hsame : table = s.lookup a) (copied : Bool)
    (hinterpret : a.context = .INTERPRET → a.traps = none ∧ copied = a.trapsCopied) :
    (s.addTable table).TablesOf
      ({ a with traps := some s.newTable, trapsCopied := copied } :: rest) := by
  have hrest : ∀ b ∈ rest, (s.addTable table).lookup b = s.lookup b := fun b hb =>
    lookup_addTable table (h.table_lt b (List.mem_cons_of_mem a hb))
  have htop : (s.addTable table).lookup
      { a with traps := some s.newTable, trapsCopied := copied } = s.lookup a := by
    rw [← hsame]
    funext condition
    exact congrFun (Function.update_self s.newTable table s.tables) condition
  have hdelayed : (s.addTable table).delayed
      { a with traps := some s.newTable, trapsCopied := copied } = s.delayed a := by
    rw [delayed, htop]
    rfl
  have hplaced := h.layered.1
  rw [List.append_nil] at hplaced
  have hframed : (s.addTable table).Placed (s.delayed a) a rest :=
    hplaced.frame (fun b hb _ => hrest b hb) fun _ _ _ _ _ _ => rfl
  refine h.top (fun b hb => hrest b (callers_subset b hb)) ?_ ?_ (Nat.le_succ _) ?_ ?_
    h.condition_eq ?_
  · rw [hdelayed]
    exact fun _ _ _ _ _ => rfl
  · rw [hdelayed]
    refine hframed.own rfl rfl (fun t ht b hb hbt => ?_) hinterpret
    cases ht
    exact Nat.ne_of_lt (h.table_lt b (List.mem_cons_of_mem a hb) _ hbt) rfl
  · rintro t ⟨⟩
    exact Nat.lt_succ_self _
  · intro t ht condition i hentry
    change Function.update s.tables s.newTable table t condition = some i at hentry
    rcases Nat.lt_succ_iff_lt_or_eq.1 ht with hold | rfl
    · rw [Function.update_of_ne (Nat.ne_of_lt hold)] at hentry
      exact h.array_lt t hold condition i hentry
    · rw [Function.update_self, hsame] at hentry
      rw [lookup] at hentry
      obtain ⟨t, htraps, hfound⟩ := Option.bind_eq_some_iff.1 hentry
      exact h.array_lt t (h.table_lt a List.mem_cons_self t htraps) condition i hfound
  · intro b hb condition i hfound hstate
    rw [hdelayed, ← List.mem_append, ← List.flatMap_cons]
    rcases List.mem_cons.1 hb with rfl | hb
    · rw [htop] at hfound
      exact h.delaying a List.mem_cons_self condition i hfound hstate
    · rw [hrest b hb] at hfound
      exact h.delaying b (List.mem_cons_of_mem a hb) condition i hfound hstate

theorem TablesOf.checkTrapTable (h : s.TablesOf (a :: rest)) :
    ∃ s' t copied, s.checkTrapTable a = (s', { a with traps := some t, trapsCopied := copied }) ∧
      s'.TablesOf ({ a with traps := some t, trapsCopied := copied } :: rest) ∧
      s'.lookup { a with traps := some t, trapsCopied := copied } = s.lookup a ∧
      s'.arrays = s.arrays ∧
      (a.Private rest → ∀ b ∈ callers a rest, b.traps ≠ some t) := by
  have hfresh : ∀ b ∈ callers a rest, b.traps ≠ some s.newTable := fun b hb ht =>
    Nat.ne_of_lt (h.table_lt b (List.mem_cons_of_mem a (callers_subset b hb)) _ ht) rfl
  have hnew (table : Condition → Option Nat) (copied : Bool) :
      (s.addTable table).lookup { a with traps := some s.newTable, trapsCopied := copied } =
        table := by
    funext condition
    exact congrFun (Function.update_self s.newTable table s.tables) condition
  cases htraps : a.traps with
  | none =>
      have hsame : (fun _ => none) = s.lookup a := by
        funext condition
        rw [lookup, htraps]
        rfl
      refine ⟨s.addTable fun _ => none, s.newTable, a.trapsCopied, ?_,
        h.addTable _ hsame _ fun _ => ⟨htraps, rfl⟩, (hnew _ _).trans hsame, rfl, fun _ => hfresh⟩
      rw [TrapTables.checkTrapTable, htraps]
  | some t =>
      have hsame : s.tables t = s.lookup a := by
        funext condition
        rw [lookup, htraps]
        rfl
      by_cases hcopy : a.context = .INTERNALCALL ∧ ¬ a.trapsCopied
      · refine ⟨s.addTable (s.tables t), s.newTable, true, ?_,
          h.addTable _ hsame _ fun hinterpret => ?_, (hnew _ _).trans hsame, rfl, fun _ => hfresh⟩
        · rw [TrapTables.checkTrapTable, htraps]
          exact if_pos hcopy
        · rw [hcopy.1] at hinterpret
          cases hinterpret
      · have heq : { a with traps := some t, trapsCopied := a.trapsCopied } = a := by
          rw [← htraps]
        refine ⟨s, t, a.trapsCopied, ?_, by rwa [heq], by rw [heq], rfl, fun hprivate => ?_⟩
        · rw [TrapTables.checkTrapTable, htraps, heq]
          exact if_neg hcopy
        · have hplaced := h.layered.1
          cases rest with
          | nil => exact fun b hb => absurd hb List.not_mem_nil
          | cons c rest =>
              cases hcontext : a.context with
              | INTERPRET => exact hprivate hcontext t htraps
              | topLevelCall =>
                  simp only [Placed, hcontext] at hplaced
                  exact fun b hb => hplaced t htraps b (callers_subset b hb)
              | INTERNALCALL =>
                  simp only [Placed, hcontext] at hplaced
                  have hcopied : a.trapsCopied = true := by simpa [hcontext] using hcopy
                  exact fun b hb => hplaced.1 hcopied t htraps b (callers_subset b hb)

theorem lookup_setEntry {t : Nat} (ht : a.traps = some t) (condition : Condition)
    (entry : Option Nat) (b : Activation) (asked : Condition) :
    (s.setEntry a condition entry).lookup b asked =
      if b.traps = some t ∧ asked = condition then entry else s.lookup b asked := by
  rw [setEntry, ht, lookup, lookup]
  cases b.traps with
  | none => simp
  | some u =>
      by_cases hu : u = t
      · subst hu
        by_cases hasked : asked = condition
        · simp [hasked]
        · simp [hasked]
      · simp [hu]

theorem TablesOf.setEntry (h : s.TablesOf (a :: rest)) {t : Nat} (ht : a.traps = some t)
    (hprivate : ∀ b ∈ callers a rest, b.traps ≠ some t) (hnone : a.delaying = none)
    (condition : Condition) (entry : Option Nat)
    (hentry : ∀ i, entry = some i → i < s.newArray ∧ (s.arrays i).state = .ON) :
    (s.setEntry a condition entry).TablesOf (a :: rest) := by
  have harrays : (s.setEntry a condition entry).arrays = s.arrays := by rw [TrapTables.setEntry, ht]
  have hnewTable : (s.setEntry a condition entry).newTable = s.newTable := by
    rw [TrapTables.setEntry, ht]
  have hnewArray : (s.setEntry a condition entry).newArray = s.newArray := by
    rw [TrapTables.setEntry, ht]
  have hlookup : ∀ b ∈ callers a rest, (s.setEntry a condition entry).lookup b = s.lookup b := by
    intro b hb
    funext asked
    rw [lookup_setEntry ht, if_neg fun hsame => hprivate b hb hsame.1]
  have hdelayed (s : TrapTables) : s.delayed a = [] := by
    rw [delayed, hnone]
    rfl
  have hplaced := h.layered.1
  rw [List.append_nil, hdelayed] at hplaced
  have hagree : Agrees s [] (s.setEntry a condition entry) [] (callers a rest) := by
    intro b _ _ i _
    rw [restored, restored, harrays]
  refine h.top hlookup ?_ ?_ (Nat.le_of_eq hnewTable.symm) ?_ ?_ ?_ ?_
  · rw [hdelayed, hdelayed]
    exact hagree
  · rw [hdelayed]
    have hcallers (hinternal : a.context = .INTERNALCALL) : callers a rest = rest :=
      Placed.callers_eq (by rw [hinternal]; decide)
    exact hplaced.frame (fun b hb hinternal => hlookup b (by rwa [hcallers hinternal]))
      fun hinternal => by rwa [hcallers hinternal] at hagree
  · rw [hnewTable]
    exact h.table_lt a List.mem_cons_self
  · rw [hnewTable, hnewArray]
    intro u hu asked i hfound
    rw [TrapTables.setEntry, ht] at hfound
    change Function.update s.tables t _ u asked = some i at hfound
    by_cases hut : u = t
    · subst hut
      rw [Function.update_self] at hfound
      by_cases hasked : asked = condition
      · subst hasked
        rw [Function.update_self] at hfound
        exact (hentry i hfound).1
      · rw [Function.update_of_ne hasked] at hfound
        exact h.array_lt u hu asked i hfound
    · rw [Function.update_of_ne hut] at hfound
      exact h.array_lt u hu asked i hfound
  · rw [harrays]
    exact h.condition_eq
  · rw [harrays, hdelayed]
    intro b hb asked i hfound hstate
    rw [lookup_setEntry ht] at hfound
    split at hfound
    · have hon := (hentry i hfound).2
      rw [hon] at hstate
      cases hstate
    · have hold := h.delaying b hb asked i hfound hstate
      rw [List.flatMap_cons, hdelayed] at hold
      exact .inr hold

theorem TablesOf.addArray (h : s.TablesOf activations) (array : TrapHandler)
    (harray : array.condition = array.handler.condition) :
    (s.addArray array).TablesOf activations := by
  have hold : ∀ a ∈ activations, ∀ condition i, s.lookup a condition = some i →
      (s.addArray array).arrays i = s.arrays i := by
    intro a ha condition i hfound
    obtain ⟨t, htraps, hentry⟩ := Option.bind_eq_some_iff.1 hfound
    have hlt := h.array_lt t (h.table_lt a ha t htraps) condition i hentry
    exact Function.update_of_ne (Nat.ne_of_lt hlt) _ _
  refine ⟨h.table_lt, fun t ht condition i hfound => ?_, fun i => ?_, ?_, ?_⟩
  · exact Nat.lt_succ_of_lt (h.array_lt t ht condition i hfound)
  · change (Function.update s.arrays s.newArray array i).condition =
      (Function.update s.arrays s.newArray array i).handler.condition
    by_cases hi : i = s.newArray
    · rw [hi, Function.update_self]
      exact harray
    · rw [Function.update_of_ne hi]
      exact h.condition_eq i
  · refine h.layered.frame (fun _ _ => rfl) fun a ha condition i hfound => ?_
    rw [restored, restored, hold a ha condition i hfound]
  · intro a ha condition i hfound hstate
    rw [hold a ha condition i hfound] at hstate
    exact h.delaying a ha condition i hfound hstate

theorem TablesOf.trapOff (h : s.TablesOf (a :: rest)) (hprivate : a.Private rest)
    (hnone : a.delaying = none) (condition : Condition) :
    (s.trapOff a condition).1.TablesOf ((s.trapOff a condition).2 :: rest) := by
  obtain ⟨s', t, copied, hcheck, htables, -, -, hown⟩ := h.checkTrapTable
  rw [TrapTables.trapOff, hcheck]
  refine htables.setEntry rfl ?_ hnone condition none fun i hi => by cases hi
  have hsame : callers { a with traps := some t, trapsCopied := copied } rest = callers a rest :=
    callers_congr rfl
  rw [hsame]
  exact hown hprivate

theorem TablesOf.trapOn (h : s.TablesOf (a :: rest)) (hprivate : a.Private rest)
    (hnone : a.delaying = none) (handler : TrapInstruction) :
    (s.trapOn a handler).1.TablesOf ((s.trapOn a handler).2 :: rest) := by
  obtain ⟨s', t, copied, hcheck, htables, -, -, hown⟩ := h.checkTrapTable
  rw [TrapTables.trapOn, hcheck]
  refine (htables.addArray ⟨handler, .ON, handler.condition⟩ rfl).setEntry rfl ?_ hnone _ _
    fun i hi => ?_
  · have hsame : callers { a with traps := some t, trapsCopied := copied } rest =
        callers a rest := callers_congr rfl
    rw [hsame]
    exact hown hprivate
  · cases hi
    refine ⟨Nat.lt_succ_self _, ?_⟩
    change (Function.update s'.arrays s'.newArray _ s'.newArray).state = .ON
    rw [Function.update_self]

/-! ## Delays -/

theorem TablesOf.states (h : s.TablesOf (a :: rest)) (arrays : Nat → TrapHandler)
    (delaying : Option Condition)
    (hcondition : ∀ i, (arrays i).condition = (arrays i).handler.condition)
    (hagree : ∀ i, s.restored (s.delayed a) i = restored { s with arrays := arrays }
      (delayed { s with arrays := arrays } { a with delaying := delaying }) i)
    (hdelayed : ∀ i, (arrays i).state = .DELAY →
      i ∈ delayed { s with arrays := arrays } { a with delaying := delaying } ∨
        (s.arrays i).state = .DELAY ∧ i ∉ s.delayed a) :
    TablesOf { s with arrays := arrays } ({ a with delaying := delaying } :: rest) := by
  have hplaced := h.layered.1
  rw [List.append_nil] at hplaced
  refine h.top (fun _ _ => rfl) (fun _ _ _ i _ => hagree i) ?_ (Nat.le_refl _)
    (h.table_lt a List.mem_cons_self) h.array_lt hcondition fun b hb condition i hfound hstate => ?_
  · exact Placed.same (hplaced.frame (fun _ _ _ => rfl) fun _ _ _ _ i _ => hagree i) rfl rfl rfl rfl
  · rcases hdelayed i hstate with hown | ⟨hbefore, hnot⟩
    · exact .inl hown
    · have hmem : i ∈ (a :: rest).flatMap s.delayed := by
        rcases List.mem_cons.1 hb with rfl | hb
        · exact h.delaying a List.mem_cons_self condition i hfound hbefore
        · exact h.delaying b (List.mem_cons_of_mem a hb) condition i hfound hbefore
      rw [List.flatMap_cons, List.mem_append] at hmem
      exact .inr (hmem.resolve_left hnot)

theorem setTrapState_arrays (s : TrapTables) (i : Nat) (state : TrapState) (j : Nat) :
    (Function.update s.arrays i { s.arrays i with state := state }) j =
      if j = i then { s.arrays i with state := state } else s.arrays j := by
  by_cases hj : j = i
  · rw [hj, Function.update_self, if_pos rfl]
  · rw [Function.update_of_ne hj, if_neg hj]

theorem delayed_none (s : TrapTables) (h : a.delaying = none) : s.delayed a = [] := by
  rw [delayed, h]
  rfl

theorem delayed_some (s : TrapTables) {condition : Condition} (h : a.delaying = some condition) :
    s.delayed a = (s.lookup a condition).toList := by
  rw [delayed, h]
  rfl

theorem TablesOf.absent (h : s.TablesOf (a :: rest)) (delaying : Option Condition)
    (hbefore : s.delayed a = []) (hafter : s.delayed { a with delaying := delaying } = []) :
    s.TablesOf ({ a with delaying := delaying } :: rest) := by
  refine h.states s.arrays delaying h.condition_eq (fun i => ?_) fun i hi => .inr ⟨hi, ?_⟩
  · rw [hbefore]
    exact congrArg (s.restored · i) hafter.symm
  · rw [hbefore]
    exact List.not_mem_nil

theorem TablesOf.stateSet (h : s.TablesOf (a :: rest)) (delaying : Option Condition) {i : Nat}
    (state : TrapState)
    (hbefore : ∀ j, j ∈ s.delayed a ↔ j = i ∧ state = .ON)
    (hafter : ∀ j, j ∈ s.delayed { a with delaying := delaying } ↔ j = i ∧ state = .DELAY)
    (hstate : state = .DELAY → (s.arrays i).state = .ON) :
    TablesOf { s with arrays := Function.update s.arrays i { s.arrays i with state := state } }
      ({ a with delaying := delaying } :: rest) := by
  refine h.states _ delaying (fun j => ?_) (fun j => ?_) fun j hj => ?_
  · rw [setTrapState_arrays]
    split
    · exact h.condition_eq i
    · exact h.condition_eq j
  · change s.restored (s.delayed a) j = if j ∈ s.delayed { a with delaying := delaying }
      then { Function.update s.arrays i { s.arrays i with state := state } j with state := .ON }
      else Function.update s.arrays i { s.arrays i with state := state } j
    rw [setTrapState_arrays, restored]
    simp only [hbefore, hafter]
    by_cases hj : j = i
    · subst hj
      cases state with
      | ON => simp
      | DELAY => simp [← hstate rfl]
    · simp [hj]
  · rw [setTrapState_arrays] at hj
    change j ∈ s.delayed { a with delaying := delaying } ∨ _
    rw [hbefore, hafter]
    by_cases hji : j = i
    · subst hji
      rw [if_pos rfl] at hj
      exact .inl ⟨rfl, hj⟩
    · rw [if_neg hji] at hj
      exact .inr ⟨hj, fun hsame => hji hsame.1⟩

theorem TablesOf.setTrapState (h : s.TablesOf (a :: rest)) (condition : Condition)
    (state : TrapState) (delaying : Option Condition)
    (hcalls : a.delaying = none ∧ delaying = some condition ∧ state = .DELAY ∧
        s.trapState a condition ≠ some .DELAY ∨
      a.delaying = some condition ∧ delaying = none ∧ state = .ON) :
    (s.setTrapState a condition state).1.TablesOf
      ({ (s.setTrapState a condition state).2 with delaying := delaying } :: rest) := by
  obtain ⟨s', t, copied, hcheck, htables, hlookup, harrays, -⟩ := h.checkTrapTable
  rw [TrapTables.setTrapState, hcheck]
  generalize hcopy : { a with traps := some t, trapsCopied := copied } = a' at htables hlookup ⊢
  have hcopied : a'.delaying = a.delaying := by rw [← hcopy]
  cases hfound : s'.lookup a' condition with
  | none =>
      simp only [hfound]
      refine htables.absent delaying ?_ ?_ <;>
        rcases hcalls with ⟨hnone, hsome, -, -⟩ | ⟨hsome, hnone, -⟩
      · exact delayed_none s' (hcopied.trans hnone)
      · rw [delayed_some s' (hcopied.trans hsome), hfound]
        rfl
      · rw [delayed_some s' hsome]
        exact congrArg Option.toList hfound
      · exact delayed_none s' hnone
  | some i =>
      simp only [hfound]
      refine htables.stateSet delaying state (fun j => ?_) (fun j => ?_) fun hdelay => ?_ <;>
        rcases hcalls with ⟨hnone, hsome, hstate, hview⟩ | ⟨hsome, hnone, hstate⟩
      · rw [delayed_none s' (hcopied.trans hnone), hstate]
        simp
      · rw [delayed_some s' (hcopied.trans hsome), hfound, hstate]
        simp
      · rw [delayed_some s' hsome, hstate]
        change j ∈ (s'.lookup a' condition).toList ↔ _
        rw [hfound]
        simp
      · rw [delayed_none s' hnone, hstate]
        simp
      · rw [trapState, view, ← hlookup, hfound] at hview
        cases hold : (s'.arrays i).state with
        | ON => rfl
        | DELAY =>
            rw [harrays] at hold
            exact absurd (congrArg some hold) hview
      · rw [hstate] at hdelay
        cases hdelay

/-! ## Activations that start and end -/

def tablesOnly (a : Activation) : Activation :=
  { TrapActivity.externalActivation with
    context := a.context
    traps := a.traps
    trapsCopied := a.trapsCopied
    delaying := a.delaying
    callerTraps := a.callerTraps }

theorem placed_map :
    s.Placed inner (tablesOnly a) (rest.map tablesOnly) ↔ s.Placed inner a rest := by
  cases rest with
  | nil => rfl
  | cons b rest =>
      have howns : (tablesOnly a).Owns ((b :: rest).map tablesOnly) ↔ a.Owns (b :: rest) := by
        simp only [Activation.Owns, List.forall_mem_map]
        rfl
      have hcontext : (tablesOnly a).context = a.context := rfl
      rw [List.map_cons] at howns ⊢
      simp only [Placed, hcontext, howns]
      rfl

theorem layered_map :
    s.Layered inner (activations.map tablesOnly) ↔ s.Layered inner activations := by
  induction activations generalizing inner with
  | nil => rfl
  | cons a rest ih =>
      rw [List.map_cons, Layered, Layered, placed_map, ih]
      rfl

theorem tablesOf_map : s.TablesOf (activations.map tablesOnly) ↔ s.TablesOf activations := by
  have hdelayed : (activations.map tablesOnly).flatMap s.delayed =
      activations.flatMap s.delayed := by
    rw [List.flatMap_map]
    rfl
  constructor <;> intro h
  · refine ⟨fun a ha => ?_, h.array_lt, h.condition_eq, layered_map.1 h.layered, fun a ha => ?_⟩
    · exact h.table_lt (tablesOnly a) (List.mem_map_of_mem ha)
    · rw [← hdelayed]
      exact h.delaying (tablesOnly a) (List.mem_map_of_mem ha)
  · refine ⟨fun a ha => ?_, h.array_lt, h.condition_eq, layered_map.2 h.layered, fun a ha => ?_⟩
    · obtain ⟨b, hb, rfl⟩ := List.mem_map.1 ha
      exact h.table_lt b hb
    · obtain ⟨b, hb, rfl⟩ := List.mem_map.1 ha
      rw [hdelayed]
      exact h.delaying b hb

theorem TablesOf.same {activations' : List Activation} (h : s.TablesOf activations)
    (hsame : activations'.map tablesOnly = activations.map tablesOnly) :
    s.TablesOf activations' := by
  rw [← tablesOf_map, hsame]
  exact tablesOf_map.2 h

theorem TablesOf.push (h : s.TablesOf activations) (hnone : a.delaying = none)
    (hplaced : s.Placed [] a activations) (htable : ∀ t, a.traps = some t → t < s.newTable)
    (hview : ∀ condition i, s.lookup a condition = some i →
      ∃ b ∈ activations, s.lookup b condition = some i) : s.TablesOf (a :: activations) := by
  have hempty := delayed_none s hnone
  refine ⟨fun b hb => ?_, h.array_lt, h.condition_eq, ?_, fun b hb condition i hfound hstate => ?_⟩
  · rcases List.mem_cons.1 hb with rfl | hb
    · exact htable
    · exact h.table_lt b hb
  · rw [Layered, hempty, List.nil_append]
    exact ⟨hplaced, h.layered⟩
  · rw [List.flatMap_cons, hempty, List.nil_append]
    rcases List.mem_cons.1 hb with rfl | hb
    · obtain ⟨c, hc, hsame⟩ := hview condition i hfound
      exact h.delaying c hc condition i hsame hstate
    · exact h.delaying b hb condition i hfound hstate

theorem TablesOf.pop (h : s.TablesOf (a :: rest))
    (hleft : ∀ i ∈ s.delayed a, ∀ b ∈ rest, ∀ condition, s.lookup b condition ≠ some i) :
    s.TablesOf rest := by
  have hbelow := h.layered.2
  rw [List.append_nil] at hbelow
  refine ⟨fun b hb => h.table_lt b (List.mem_cons_of_mem a hb), h.array_lt, h.condition_eq,
    hbelow.frame (fun _ _ => rfl) fun b hb condition i hfound => ?_,
    fun b hb condition i hfound hstate => ?_⟩
  · rw [restored, restored, if_neg fun hi => hleft i hi b hb condition hfound,
      if_neg List.not_mem_nil]
  · have hmem := h.delaying b (List.mem_cons_of_mem a hb) condition i hfound hstate
    rw [List.flatMap_cons, List.mem_append] at hmem
    exact hmem.resolve_left fun hi => hleft i hi b hb condition hfound

theorem TablesOf.parent_delaying (h : s.TablesOf (a :: b :: rest))
    (hinterpret : a.context = .INTERPRET) : b.delaying = none := by
  have hplaced := h.layered.1
  simp only [Placed, hinterpret] at hplaced
  exact hplaced.1

theorem TablesOf.getSettings (h : s.TablesOf (a :: b :: rest)) (hinterpret : a.context = .INTERPRET)
    (hnone : a.delaying = none) : s.TablesOf (b.getSettings a :: rest) := by
  obtain ⟨hplaced, hparent, hbelow⟩ := h.layered
  have hb := h.parent_delaying hinterpret
  simp only [Placed, hinterpret] at hplaced
  rw [List.append_nil, delayed_none s hnone, List.append_nil] at hparent hbelow
  rw [delayed_none s hb] at hparent hbelow
  have hempty : s.delayed (b.getSettings a) = [] := delayed_none s hb
  refine ⟨fun c hc => ?_, h.array_lt, h.condition_eq, ?_, fun c hc condition i hfound hstate => ?_⟩
  · rcases List.mem_cons.1 hc with rfl | hc
    · exact h.table_lt a List.mem_cons_self
    · exact h.table_lt c (List.mem_cons_of_mem a (List.mem_cons_of_mem b hc))
  · rw [Layered, hempty]
    refine ⟨?_, hbelow⟩
    rcases hplaced.2.2 with hsame | ⟨htraps, howns⟩
    · exact hparent.same rfl hsame hplaced.2.1 rfl
    · exact hparent.own rfl rfl (fun t ht c hc => howns t ht c (List.mem_cons_of_mem b hc))
        fun _ => ⟨htraps, hplaced.2.1⟩
  · have hmem : i ∈ (a :: b :: rest).flatMap s.delayed := by
      rcases List.mem_cons.1 hc with rfl | hc
      · exact h.delaying a List.mem_cons_self condition i hfound hstate
      · exact h.delaying c (List.mem_cons_of_mem a (List.mem_cons_of_mem b hc)) condition i hfound
          hstate
    rw [List.flatMap_cons, List.flatMap_cons, delayed_none s hnone, delayed_none s hb] at hmem
    rw [List.flatMap_cons, hempty]
    exact hmem

theorem tablesOnly_mergeTraps (b a : Activation) : tablesOnly (b.mergeTraps a) = tablesOnly b := by
  rw [Activation.mergeTraps]
  split
  · rfl
  · split <;> rfl

theorem TablesOf.unwindTrap (child : Activation)
    (h : s.TablesOf ((a.getSettings child).landed :: rest)) :
    s.TablesOf (Activation.unwindTrap child a rest) := by
  induction rest generalizing a with
  | nil =>
      have hcontext : a.context = .topLevelCall := h.layered.1
      rw [Activation.unwindTrap, if_neg (by rw [hcontext]; decide)]
      exact h
  | cons b rest ih =>
      rw [Activation.unwindTrap]
      by_cases hinterpret : a.context = .INTERPRET
      · rw [if_pos hinterpret]
        refine ih (TablesOf.same (h.getSettings hinterpret rfl) ?_)
        have hnone : b.delaying = none := h.parent_delaying hinterpret
        have hmerged := tablesOnly_mergeTraps b a
        simp only [tablesOnly, Activation.mk.injEq] at hmerged
        simp [tablesOnly, Activation.landed, Activation.getSettings, hnone, hmerged]
      · rw [if_neg hinterpret]
        exact h

end Frames

end TrapTables

end LeooRexx
