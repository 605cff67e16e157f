import LeooRexx.Parser.ExpressionRuns

/-!
# Reading an expression comes to an end

Each round of a loop, and each expression inside another one, comes behind a token that was read
and is not taken back.  The tokens of the clause therefore bound the counts of the model.
-/

namespace LeooRexx.RexxSource

open Precedence

variable {α β : Type} {s s' : Parser} {k j : ℕ}

/-- The counts suffice from this state, and fewer than `left` tokens are left behind. -/
def GoesAt (f : Parse α) (s : Parser) (left : α → ℕ) : Prop :=
  f s ≠ .error .outOfFuel ∧ ∀ a s', f s = .ok (a, s') → s'.clause.length < s'.current + left a

/-- The counts suffice where fewer than `k` tokens are left. -/
def Goes (f : Parse α) (k : ℕ) (left : α → ℕ) : Prop :=
  ∀ s : Parser, s.clause.length < s.current + k → GoesAt f s left

section Rules

variable {f : Parse α} {g : α → Parse β} {left : α → ℕ} {left' : β → ℕ}

theorem GoesAt.bind (hf : GoesAt f s left)
    (hg : ∀ a s', s'.clause.length < s'.current + left a → GoesAt (g a) s' left') :
    GoesAt (f >>= g) s left' := by
  refine ⟨fun h => ?_, fun b s₂ h => ?_⟩
  · change (f s >>= fun p => g p.1 p.2) = _ at h
    cases hfs : f s with
    | error e =>
        rw [hfs] at h
        obtain rfl : e = .outOfFuel := Except.error.inj h
        exact hf.1 hfs
    | ok p =>
        rw [hfs] at h
        exact (hg p.1 p.2 (hf.2 p.1 p.2 hfs)).1 h
  · obtain ⟨a, s₁, ha, hb⟩ := bind_eq_ok.mp h
    exact (hg a s₁ (hf.2 a s₁ ha)).2 b s₂ hb

theorem Goes.bind (hf : Goes f k left) (hg : ∀ a, Goes (g a) (left a) left') :
    Goes (f >>= g) k left' :=
  fun s hs => (hf s hs).bind fun a => hg a

theorem Goes.mono {more : α → ℕ} (hf : Goes f k left) (hk : j ≤ k) (hleft : ∀ a, left a ≤ more a) :
    Goes f j more := fun s hs =>
  have hs := hf s (by omega)
  ⟨hs.1, fun a s' h => (hs.2 a s' h).trans_le (Nat.add_le_add_left (hleft a) _)⟩

theorem goes_pure {a : α} (h : k ≤ left a) : Goes (pure a) k left := by
  refine fun s hs => ⟨fun h => (by cases h), fun b s' hb => ?_⟩
  obtain ⟨rfl, rfl⟩ := pure_eq_ok.mp hb
  omega

theorem goes_report {e : SyntaxError} (h : e ≠ .outOfFuel) : Goes (report e : Parse α) k left :=
  fun _ _ => ⟨fun heq => h (Except.error.inj heq), fun _ _ h => by cases h⟩

theorem goes_report_bind {e : SyntaxError} (h : e ≠ .outOfFuel) :
    Goes (report e >>= g) k left' :=
  (goes_report h : Goes (report e : Parse β) k left')

/-- No token is read or taken back. -/
def Still (f : Parse α) : Prop :=
  ∀ s, ∃ a s', f s = .ok (a, s') ∧ s'.clause = s.clause ∧ s'.current = s.current

theorem still_get : Still get := fun _ => ⟨_, _, rfl, rfl, rfl⟩

theorem still_pushTerm {term : Option Expression} : Still (pushTerm term) :=
  fun _ => ⟨_, _, rfl, rfl, rfl⟩

theorem still_popTerm : Still popTerm := fun _ => ⟨_, _, rfl, rfl, rfl⟩

theorem still_popNTerms {count : ℕ} : Still (popNTerms count) := fun _ => ⟨_, _, rfl, rfl, rfl⟩

theorem still_pushOperator {op : Option Operator} : Still (pushOperator op) :=
  fun _ => ⟨_, _, rfl, rfl, rfl⟩

theorem still_popOperator : Still popOperator := fun _ => ⟨_, _, rfl, rfl, rfl⟩

theorem still_popArguments {count : ℕ} : Still (popArguments count) :=
  fun _ => ⟨_, _, rfl, rfl, rfl⟩

theorem still_subTerms {f : Parser → List (Option Expression)} :
    Still (modify fun s => { s with subTerms := f s }) := fun _ => ⟨_, _, rfl, rfl, rfl⟩

theorem goes_still (h : Still f) (hg : ∀ a, Goes (g a) k left') : Goes (f >>= g) k left' := by
  refine (?_ : Goes f k fun _ => k).bind hg
  intro s hs
  obtain ⟨a, s₁, hrun, hclause, hcurrent⟩ := h s
  refine ⟨fun h => by simp [hrun] at h, fun b s' hb => ?_⟩
  cases hrun.symm.trans hb
  rwa [hclause, hcurrent]

theorem goes_nextToken {f : Token → Parse β}
    (h : ∀ token, (token ≠ .eoc → 1 < k) → Goes (f token) (k - 1) left') :
    Goes (nextToken >>= f) k left' := by
  intro s hs
  refine h s.token (fun htoken => ?_) (s.moved (s.current + 1)) ?_
  · by_contra hk
    refine htoken (List.getD_eq_default _ _ ?_)
    omega
  · change s.clause.length < s.current + 1 + (k - 1)
    omega

theorem goes_previousToken {f : Parse β} (h : Goes f (k + 1) left') :
    Goes (previousToken >>= fun _ => f) k left' := by
  intro s hs
  refine h (s.moved (s.current - 1)) ?_
  change s.clause.length < s.current - 1 + (k + 1)
  omega

theorem goes_nextReal : Goes nextReal k fun _ => k - 1 := by
  refine fun s hs => ⟨fun h => (by cases h), fun a s' h => ?_⟩
  cases h
  change s.clause.length < skipBlanks s.clause s.current + 1 + (k - 1)
  have hle : s.current ≤ skipBlanks s.clause s.current := Nat.le_add_right _ _
  omega

theorem goes_terminator {terminators : Terminators} {token : Token} {stop f : Parse β}
    (hstop : Goes stop (k + 1) left') (h : Goes f k left') :
    Goes (terminator terminators token >>= fun b => if b = true then stop else f) k left' := by
  unfold terminator
  split
  · exact goes_previousToken hstop
  · exact h

theorem ne_eoc_of_ends {terminators : Terminators} {token : Token}
    (h : ¬ terminators.ends token = true) : token ≠ .eoc := fun heq => h (by rw [heq]; rfl)

theorem goes_ended {terminators : Terminators} {stop : Parse β} {f : Token → Parse β}
    (hstop : Goes stop k left') (h : 1 < k → ∀ token, Goes (f token) (k - 1) left') :
    Goes (nextToken >>= fun token => terminator terminators token >>= fun b =>
      if b = true then stop else f token) k left' := by
  intro s hs
  unfold GoesAt
  rw [ended]
  split
  · exact hstop s hs
  next hends =>
    refine h ?_ s.token (s.moved (s.current + 1)) ?_
    · by_contra hk
      refine ne_eoc_of_ends hends (List.getD_eq_default _ _ ?_)
      omega
    · change s.clause.length < s.current + 1 + (k - 1)
      omega

theorem goes_getToken {terminators : Terminators} {errorcode : Option SyntaxError}
    {f : Option Token → Parse β} (he : errorcode ≠ some .outOfFuel) (hnone : Goes (f none) k left')
    (h : 1 < k → ∀ token, Goes (f (some token)) (k - 1) left') :
    Goes (getToken terminators errorcode >>= f) k left' := by
  have hget : getToken terminators errorcode >>= f = nextToken >>= fun token =>
      terminator terminators token >>= fun b => if b = true then
        errorcode.elim (f none) report else f (some token) := by
    simp only [getToken, bind_assoc]
    refine congrArg _ (funext fun token => congrArg _ (funext fun b => ?_))
    cases b with
    | false => rfl
    | true => cases errorcode <;> rfl
  rw [hget]
  refine goes_ended ?_ h
  cases errorcode with
  | none => exact hnone
  | some error => exact goes_report fun heq => he (congrArg some heq)

theorem goesAt_get {f : Parser → Parse β} (h : GoesAt (f s) s left') : GoesAt (get >>= f) s left' :=
  h

theorem Goes.steps {f : ℕ → Parse β} (hk : 0 < k)
    (h : ∀ j steps, 0 < j → j ≤ k → j ≤ steps → Goes (f steps) j left') :
    Goes (get >>= fun s : Parser => f (s.clause.length + 1)) k left' := by
  intro s hs
  exact h (min k (s.clause.length + 1)) _ (by omega) (by omega) (by omega) s (by omega)

end Rules

section Calls

variable {sub : Terminators → Parse (Option Expression)}
  (hsub : ∀ terminators j, 0 < j → j ≤ k → Goes (sub terminators) j fun _ => j)
  (terminators : Terminators)

include hsub

theorem argLoop_goes {steps total realcount : ℕ} (hj : 0 < j) (hk : j ≤ k) (hsteps : j ≤ steps) :
    Goes (argLoop sub terminators steps total realcount) j fun _ => j - 1 := by
  induction steps generalizing j total realcount with
  | zero => omega
  | succ steps ih =>
      refine (hsub _ j hj hk).bind fun subexpr => goes_still still_subTerms fun _ =>
        goes_still still_pushTerm fun _ => goes_nextToken fun token htoken => ?_
      split
      next hcomma =>
        have hlt := htoken (by rw [hcomma]; simp)
        exact (ih (by omega) (by omega) (by omega)).mono le_rfl fun _ => by omega
      · exact goes_pure le_rfl

theorem argList_goes (hj : 0 < j) (hk : j ≤ k) :
    Goes (argList sub terminators) j fun _ => j - 1 := by
  refine goes_nextReal.bind fun _ => goes_previousToken ?_
  rw [Nat.sub_add_cancel hj]
  refine Goes.steps (f := fun steps => argLoop sub terminators steps 0 0 >>= _) hj
    fun i steps hi hij hsteps =>
      (argLoop_goes hsub terminators hi (hij.trans hk) hsteps).bind fun r => ?_
  obtain ⟨total, realcount, token⟩ := r
  dsimp only
  split
  · exact goes_report (by simp)
  split
  · exact goes_report (by simp)
  · refine goes_still still_popNTerms fun _ => goes_still still_subTerms fun _ => goes_pure ?_
    omega

theorem function_goes (name : Token) (hj : 0 < j) (hk : j ≤ k) :
    Goes (function sub name terminators) j fun _ => j - 1 :=
  (argList_goes hsub _ hj hk).bind fun _ => goes_still still_popArguments fun _ =>
    goes_pure le_rfl

theorem collectionMessage_goes (target : Expression) (hj : 0 < j) (hk : j ≤ k) :
    Goes (collectionMessage sub target terminators) j fun _ => j - 1 :=
  (argList_goes hsub _ hj hk).bind fun _ => goes_still still_popArguments fun _ =>
    goes_pure le_rfl

omit hsub in
theorem messageSuper_goes {f : Option Token × Option Token → Parse β} {left : β → ℕ}
    {token : Option Token} {i : ℕ}
    (hnone : ∀ super, Goes (f (super, none)) k left)
    (hsome : ∀ super token i, 0 < i → i < k → Goes (f (super, some token)) i left)
    (htoken : token = none ∧ i = k ∨ token ≠ none ∧ 0 < i ∧ i < k) :
    Goes (messageSuper terminators token >>= f) i left := by
  unfold messageSuper
  split
  · obtain ⟨⟨⟩, -⟩ | ⟨-, hi, hk⟩ := htoken
    simp only [bind_assoc]
    refine goes_getToken (by simp) (goes_report (by simp)) fun hi' token => ?_
    split
    · split
      · simp only [bind_assoc, pure_bind]
        exact goes_getToken (by simp) ((hnone _).mono (by omega) fun _ => le_rfl)
          fun hi'' token => hsome _ _ _ (by omega) (by omega)
      · exact goes_report (by simp)
    · exact goes_report (by simp)
  · obtain ⟨rfl, rfl⟩ | ⟨hsuper, hi, hk⟩ := htoken
    · exact hnone none
    · obtain ⟨token, rfl⟩ := Option.ne_none_iff_exists'.mp hsuper
      exact hsome none token i hi hk

theorem messageArguments_goes {token : Option Token} {i : ℕ} (hi : 0 < i) (hj : i < j)
    (hk : j ≤ k) : Goes (messageArguments sub terminators token) i fun _ => j := by
  unfold messageArguments
  split
  · exact (argList_goes hsub _ hi (by omega)).mono le_rfl fun _ => by omega
  · exact goes_previousToken (goes_pure (by omega))
  · exact goes_pure hj.le

theorem message_goes (target : Expression) (doubleTilde : Bool) (hk : j ≤ k) :
    Goes (message sub target doubleTilde terminators) j fun _ => j := by
  refine goes_still still_pushTerm fun _ =>
    goes_getToken (by simp) (goes_report (by simp)) fun hj' token => ?_
  have hname (messagename : List UInt8) : Goes (getToken terminators none >>= fun token =>
      messageSuper terminators token >>= fun p =>
        messageArguments sub terminators p.2 >>= fun argCount => popTerm >>= fun _ =>
          popArguments argCount >>= fun arguments =>
            pure (Expression.message target messagename p.1 arguments doubleTilde)) (j - 1)
      fun _ => j := by
    have hrest (super : Option Token) {f : Parse ℕ} {i : ℕ} (hf : Goes f i fun _ => j) :
        Goes (f >>= fun argCount => popTerm >>= fun _ => popArguments argCount >>= fun arguments =>
          pure (Expression.message target messagename super arguments doubleTilde)) i fun _ => j :=
      hf.bind fun _ => goes_still still_popTerm fun _ => goes_still still_popArguments fun _ =>
        goes_pure le_rfl
    have hnone (super : Option Token) := hrest super (f := messageArguments sub terminators none)
      (goes_pure (k := j - 1) (by omega))
    have hsome (super : Option Token) (token : Token) (i : ℕ) (hi : 0 < i) (hij : i < j - 1) :=
      have hf : Goes (messageArguments sub terminators (some token)) i fun _ => j :=
        messageArguments_goes hsub terminators hi (by omega) hk
      hrest super hf
    exact goes_getToken (by simp) (messageSuper_goes terminators hnone hsome (.inl ⟨rfl, rfl⟩))
      fun hj'' token => messageSuper_goes terminators hnone hsome
        (.inr ⟨by simp, by omega, by omega⟩)
  split
  · exact hname _
  · exact hname _
  · exact goes_report (by simp)

theorem subTerm_goes_name (token : Token) (hj : 1 < j) (hk : j ≤ k + 1) :
    Goes (nextToken >>= fun second =>
      if second = .left then function sub token terminators >>= fun e => pure (some e)
      else previousToken >>= fun _ => pure (some (.text token))) (j - 1)
      fun r => if r.isSome then j - 1 else j := by
  refine goes_nextToken fun second hsecond => ?_
  split
  next hleft =>
    have hlt := hsecond (by rw [hleft]; simp)
    exact (function_goes hsub _ _ (by omega) (by omega)).bind fun _ =>
      goes_pure (show j - 1 - 1 - 1 ≤ j - 1 by omega)
  · exact goes_previousToken (goes_pure (show j - 1 - 1 + 1 ≤ j - 1 by omega))

theorem subTerm_goes (hj : 0 < j) (hk : j ≤ k + 1) :
    Goes (subTerm sub terminators) j fun r => if r.isSome then j - 1 else j := by
  refine goes_ended (goes_pure le_rfl) fun hlt token => ?_
  split
  · refine (hsub _ (j - 1) (by omega) (by omega)).bind fun r => ?_
    split
    · exact goes_report (by simp)
    · refine goes_nextToken fun second _ => ?_
      split
      · exact goes_pure (Nat.sub_le _ _)
      · exact goes_report (by simp)
  · refine subTerm_goes_name hsub terminators _ (by omega) hk
  · exact subTerm_goes_name hsub terminators _ (by omega) hk
  · exact goes_report (by simp)
  · exact goes_report (by simp)
  · exact goes_report (by simp)
  · exact goes_previousToken (goes_pure (by simp; omega))
  · exact goes_previousToken (goes_pure (by simp; omega))
  · exact goes_previousToken (goes_pure (by simp; omega))
  · exact goes_report (by simp)

theorem cascade_goes {steps : ℕ} {term : Expression} (hj : 0 < j) (hk : j ≤ k + 1)
    (hsteps : j ≤ steps) : Goes (cascade sub steps term) j fun _ => j := by
  induction steps generalizing j term with
  | zero => omega
  | succ steps ih =>
      refine goes_nextToken fun token htoken => ?_
      have hrest (htoken : token ≠ .eoc → 1 < j) (hne : token ≠ .eoc) (term : Expression) :
          Goes (cascade sub steps term) (j - 1) fun _ => j :=
        have hlt := htoken hne
        (ih (by omega) (by omega) (by omega)).mono le_rfl fun _ => Nat.sub_le _ _
      split
      · have hlt := htoken (by simp)
        exact (collectionMessage_goes hsub _ _ (by omega) (by omega)).bind fun term =>
          (hrest htoken (by simp) term).mono (by omega) fun _ => le_rfl
      · have hlt := htoken (by simp)
        exact (message_goes hsub _ _ _ (by omega)).bind (hrest htoken (by simp))
      · have hlt := htoken (by simp)
        exact (message_goes hsub _ _ _ (by omega)).bind (hrest htoken (by simp))
      · exact goes_previousToken (goes_pure (by omega))

theorem messageSubterm_goes {steps : ℕ} (hj : 0 < j) (hk : j ≤ k + 1) (hsteps : j ≤ steps) :
    Goes (messageSubterm sub terminators steps) j fun r => if r.isSome then j - 1 else j := by
  induction steps generalizing j with
  | zero => omega
  | succ steps ih =>
      refine goes_ended (goes_pure le_rfl) fun hlt token => ?_
      split
      · split
        · refine (ih (j := j - 1) (by omega) (by omega) (by omega)).bind fun r => ?_
          cases r with
          | none => exact goes_report (by simp)
          | some term => exact goes_pure (Nat.sub_le _ _)
        · exact goes_report (by simp)
      · refine goes_previousToken ?_
        rw [Nat.sub_add_cancel hj]
        refine (subTerm_goes hsub _ hj hk).bind fun r => ?_
        cases r with
        | none => exact goes_pure le_rfl
        | some term =>
            refine Goes.steps (f := fun steps => cascade sub steps term >>= fun term =>
              pure (some term)) (Nat.sub_pos_of_lt hlt) fun i steps hi hij hsteps =>
                (cascade_goes hsub hi ?_ hsteps).bind fun term => goes_pure hij
            exact hij.trans ((Nat.sub_le _ _).trans hk)

omit hsub in
theorem reduceLoop_goes (subclass : Operator) (operators : List (Option Operator)) :
    Goes (reduceLoop subclass operators) k fun _ => k := by
  induction operators with
  | nil => exact goes_pure le_rfl
  | cons op operators ih =>
      cases op with
      | none => exact goes_pure le_rfl
      | some second =>
          rw [reduceLoop]
          split
          · exact goes_pure le_rfl
          · refine goes_still still_popTerm fun right => goes_still still_popTerm fun left => ?_
            split
            · exact goes_still still_popOperator fun _ => goes_still still_pushTerm fun _ => ih
            · exact goes_report (by simp)

omit hsub in
theorem finishLoop_goes (operators : List (Option Operator)) :
    Goes (finishLoop operators) k fun _ => k := by
  have hpop : Goes popOperator k fun _ => k :=
    goes_still (g := pure) still_popOperator fun _ => goes_pure le_rfl
  induction operators with
  | nil => exact hpop
  | cons op operators ih =>
      cases op with
      | none => exact hpop
      | some op =>
          refine goes_still still_popOperator fun _ => goes_still still_popTerm fun right =>
            goes_still still_popTerm fun left => ?_
          split
          · exact goes_still still_pushTerm fun _ => ih
          · exact goes_report (by simp)

theorem dyadic_goes (op : Operator) (hj : 0 < j) (hk : j ≤ k + 1) :
    Goes (dyadic sub terminators op) j fun _ => if op = .blank then j else j - 1 := by
  unfold dyadic
  split
  · exact goes_report_bind (by simp)
  refine goes_still still_get fun s => (reduceLoop_goes op _).bind fun _ =>
    goes_still still_pushOperator fun _ => ?_
  refine Goes.steps (f := fun steps => messageSubterm sub terminators steps >>= _) hj
    fun i steps hi hij hsteps =>
      (messageSubterm_goes hsub terminators hi (hij.trans hk) hsteps).bind fun right => ?_
  split
  · exact goes_report_bind (by simp)
  next hnone =>
    refine goes_still (g := pure) still_pushTerm fun _ => goes_pure ?_
    cases right with
    | none =>
        have hop : op = .blank := by simpa using hnone
        rw [if_pos hop]
        exact hij
    | some x =>
        change i - 1 ≤ _
        split <;> omega

theorem operation_goes (hj : 0 < j) (hk : j ≤ k + 1) (hs : s.clause.length < s.current + j)
    (hends : ¬ terminators.ends s.token = true) :
    GoesAt (operation sub terminators s.token) (s.moved (s.current + 1)) fun _ => j - 1 := by
  have hlt : 1 < j := by
    by_contra hlt
    refine ne_eoc_of_ends hends (List.getD_eq_default _ _ ?_)
    omega
  have hdyadic (op : Operator) : Goes (dyadic sub terminators op) (j - 1) fun _ => j - 1 :=
    (dyadic_goes hsub terminators op (by omega) (by omega)).mono le_rfl fun _ => by
      split <;> omega
  by_cases habuts : abuts s.token = true
  · have hskip : skipBlanks s.clause s.current = s.current := skipBlanks_of_ne fun hblank => by
      rw [Parser.token, hblank] at habuts
      cases habuts
    have hrun : operation sub terminators s.token (s.moved (s.current + 1)) =
        dyadic sub terminators .abuttal s := by
      rw [operation_abuts habuts, concatenation_eq, hskip]
      exact if_neg hends
    have habuttal := dyadic_goes hsub terminators .abuttal hj hk s hs
    unfold GoesAt at habuttal ⊢
    rwa [hrun]
  refine (?_ : Goes (operation sub terminators s.token) (j - 1) fun _ => j - 1) _
    (show s.clause.length < s.current + 1 + (j - 1) by omega)
  generalize s.token = token at habuts
  have hsend {f : Option Expression → Parse Unit} {g : Expression → Parse Expression}
      (hnone : f none = report (.invalidExpressionGeneral token))
      (hsome : ∀ left, f (some left) = g left >>= fun e => pushTerm (some e))
      (hg : ∀ e, Goes (g e) (j - 1) fun _ => j - 1) :
      Goes (popTerm >>= f) (j - 1) fun _ => j - 1 := by
    refine goes_still still_popTerm fun r => ?_
    cases r with
    | none =>
        rw [hnone]
        exact goes_report (by simp)
    | some left =>
        rw [hsome]
        exact (hg left).bind fun e =>
          goes_still (g := pure) still_pushTerm fun _ => goes_pure le_rfl
  cases token with
  | symbol value subclass => exact absurd rfl habuts
  | literal value => exact absurd rfl habuts
  | left => exact absurd rfl habuts
  | tilde => exact hsend rfl (fun _ => rfl) fun e => message_goes hsub _ e _ (by omega)
  | dtilde => exact hsend rfl (fun _ => rfl) fun e => message_goes hsub _ e _ (by omega)
  | sqleft =>
      exact hsend rfl (fun _ => rfl) fun e =>
        (collectionMessage_goes hsub _ e (by omega) (by omega)).mono le_rfl fun _ => Nat.sub_le _ _
  | blank =>
      refine goes_nextReal.bind fun second => goes_terminator (goes_pure (by omega)) ?_
      refine goes_previousToken ?_
      rw [Nat.sub_add_cancel (Nat.sub_pos_of_lt hlt)]
      exact hdyadic .blank
  | operator op hop => exact hdyadic op
  | _ => exact goes_report (by simp)

theorem operatorLoop_goes {steps : ℕ} (hj : 0 < j) (hk : j ≤ k + 1) (hsteps : j ≤ steps) :
    Goes (operatorLoop sub terminators steps) j fun _ => j := by
  induction steps generalizing j with
  | zero => omega
  | succ steps ih =>
      intro s hs
      unfold GoesAt
      rw [operatorLoop, ended]
      split
      · exact (goes_pure le_rfl : Goes (pure ()) j fun _ => j) s hs
      next hends =>
        have hlt : 1 < j := by
          by_contra hlt
          refine ne_eoc_of_ends hends (List.getD_eq_default _ _ ?_)
          omega
        exact (operation_goes hsub terminators hj hk hs hends).bind fun _ =>
          (ih (j := j - 1) (by omega) (by omega) (by omega)).mono le_rfl fun _ => Nat.sub_le _ _

theorem expressionOf_goes (hj : 0 < j) (hk : j ≤ k + 1) :
    Goes (expressionOf sub terminators) j fun _ => j := by
  intro s hs
  have hi : s.clause.length < s.current + min j (s.clause.length + 1) := by omega
  refine goesAt_get ((messageSubterm_goes hsub terminators (by omega) (by omega)
    (min_le_right _ _) s hi).bind fun r s₁ hs₁ => ?_)
  cases r with
  | none => exact goes_pure (min_le_left _ _) s₁ hs₁
  | some left =>
      have hloop : Goes (operatorLoop sub terminators (s.clause.length + 1))
          (min j (s.clause.length + 1)) fun _ => min j (s.clause.length + 1) :=
        operatorLoop_goes hsub terminators (by omega) (by omega) (min_le_right _ _)
      have hrest : Goes (pushTerm (some left) >>= fun _ => pushOperator none >>= fun _ =>
          operatorLoop sub terminators (s.clause.length + 1) >>= fun _ => get >>= fun s =>
            finishLoop s.operators >>= fun _ => popTerm) (min j (s.clause.length + 1))
          fun _ => j :=
        goes_still still_pushTerm fun _ => goes_still still_pushOperator fun _ =>
          hloop.bind fun _ => goes_still still_get fun s => (finishLoop_goes _).bind fun _ =>
            goes_still (g := pure) still_popTerm fun _ => goes_pure (min_le_left _ _)
      exact hrest s₁ (hs₁.trans_le (Nat.add_le_add_left (Nat.sub_le _ _) _))

end Calls

theorem subExpression_goes {depth : ℕ} (terminators : Terminators) (hj : 0 < j) (hk : j ≤ depth) :
    Goes (subExpression depth terminators) j fun _ => j := by
  induction depth generalizing terminators j with
  | zero => omega
  | succ depth ih => exact expressionOf_goes (fun terminators j => ih terminators) terminators hj hk

/-- With a step for each token there is an error of the clause, no expression before a token that
ends it, or the only tree of the operators and terms that binds them by precedence and to the
left.  What is on the stacks and in the queue stays and has no influence. -/
theorem subExpression_parses {depth : ℕ} (h : s.clause.length ≤ s.current + depth)
    (terminators : Terminators) :
    subExpression (depth + 1) terminators s ≠ .error .outOfFuel ∧
    (∀ s', subExpression (depth + 1) terminators s = .ok (none, s') →
      terminators.ends s.token = true ∧ s' = s) ∧
    ∀ e s', subExpression (depth + 1) terminators s = .ok (some e, s') →
      ∃ first current items current' height,
        Operand (subExpression depth) terminators s.clause s.current first current ∧
        Items (subExpression depth) terminators s.clause current items current' ∧
        (∃ t : Tree Operator Expression, t.value .binary = e ∧
          ∀ t', t'.Fits precedence ∧ t'.first = first ∧ t'.rest = items ↔ t' = t) ∧
        s' = s.after current' height ∧
        ∀ t : Parser, t.clause = s.clause → t.current = s.current →
          subExpression (depth + 1) terminators t = .ok (some e, t.after current' height) := by
  refine ⟨(subExpression_goes terminators (Nat.succ_pos depth) le_rfl s (by omega)).1,
    fun s' hrun => ?_, fun e s' hrun => ?_⟩
  · rcases expressionOf_reads (subExpression_framed depth) hrun with
      ⟨hends, -, hreads⟩ | ⟨_, _, _, _, _, -, -, hnone, -⟩
    · cases hrun.symm.trans (hreads s rfl rfl)
      exact ⟨hends, rfl⟩
    · cases hnone
  · rcases expressionOf_reads (subExpression_framed depth) hrun with
      ⟨-, hnone, -⟩ | ⟨first, current, items, current', height, hfirst, hitems, he, hreads⟩
    · cases hnone
    cases hrun.symm.trans (hreads s rfl rfl)
    refine ⟨first, current, items, current', height, hfirst, hitems,
      ⟨(Tree.leaf first).extend precedence items, (Option.some.inj he).symm, fun t => ?_⟩, rfl,
      hreads⟩
    have hfits : ((Tree.leaf first).extend precedence items).Fits precedence :=
      Tree.Fits.extend (e := .leaf first) trivial items
    constructor
    · rintro ⟨ht, htfirst, htrest⟩
      refine ht.unique hfits (htfirst.trans ?_) (htrest.trans ?_)
      · rw [Tree.first_extend]
        rfl
      · rw [Tree.rest_extend]
        rfl
    · rintro rfl
      refine ⟨hfits, ?_, ?_⟩
      · rw [Tree.first_extend]
        rfl
      · rw [Tree.rest_extend]
        rfl

/-- `A-B`. -/
theorem subExpression_parses_difference :
    let name : UInt8 → Token := fun c => .symbol [c] .variable
    let s : Parser := ⟨[name 65, .operator .subtract, name 66], 0, [], [], [], 0, 0⟩
    let e : Expression := .binary .subtract (.text (name 65)) (.text (name 66))
    ∃ first current items current' height,
      Operand (subExpression 3) .eoc s.clause s.current first current ∧
      Items (subExpression 3) .eoc s.clause current items current' ∧
      (∃ t : Tree Operator Expression, t.value .binary = e ∧
        ∀ t', t'.Fits precedence ∧ t'.first = first ∧ t'.rest = items ↔ t' = t) ∧
      s.after 3 2 = s.after current' height ∧
      ∀ t : Parser, t.clause = s.clause → t.current = s.current →
        subExpression 4 .eoc t = .ok (some e, t.after current' height) := by
  intro name s e
  have hdyadic : dyadic (subExpression 3) .eoc .subtract
      ((s.after 2 1).frame [] [.text (name 65)]) =
        .ok ((), (s.after 3 2).frame [.subtract] [.text (name 66), .text (name 65)]) := by
    rw [dyadic, if_neg (by decide)]
    exact bind_eq_ok.mpr ⟨_, _, rfl, bind_eq_ok.mpr ⟨_, _, rfl, bind_eq_ok.mpr ⟨_, _, rfl,
      bind_eq_ok.mpr ⟨_, _, rfl, bind_eq_ok.mpr ⟨some (.text (name 66)),
        (s.after 3 1).frame [.subtract] [.text (name 65)], rfl, rfl⟩⟩⟩⟩⟩
  have hloop : operatorLoop (subExpression 3) .eoc 4 ((s.after 1 1).frame [] [.text (name 65)]) =
      .ok ((), (s.after 3 2).frame [.subtract] [.text (name 66), .text (name 65)]) :=
    bind_eq_ok.mpr ⟨.operator .subtract, _, rfl, bind_eq_ok.mpr ⟨false, _, rfl,
      bind_eq_ok.mpr ⟨(), _, hdyadic, rfl⟩⟩⟩
  have hrun : subExpression 4 .eoc s = .ok (some e, s.after 3 2) :=
    bind_eq_ok.mpr ⟨_, _, rfl, bind_eq_ok.mpr ⟨some (.text (name 65)), s.moved 1, rfl,
      bind_eq_ok.mpr ⟨_, _, rfl, bind_eq_ok.mpr ⟨_, _, rfl, bind_eq_ok.mpr ⟨(), _, hloop, rfl⟩⟩⟩⟩⟩
  have hsteps : s.clause.length ≤ s.current + 3 := by decide
  exact (subExpression_parses hsteps .eoc).2.2 e _ hrun

end LeooRexx.RexxSource
