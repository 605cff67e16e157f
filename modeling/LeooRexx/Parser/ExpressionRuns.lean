import LeooRexx.Foundation.Precedence
import LeooRexx.Parser.ExpressionStacks

/-!
# The trees of expressions

The operators of an expression and the terms between them are read from the left.  What is on
the stacks above the fence is at each time the right spine of the only tree that binds what was
read so far by precedence and to the left.
-/

namespace LeooRexx.RexxSource

open Precedence

variable {α β : Type} {sub : Terminators → Parse (Option Expression)} {terminators : Terminators}
  {s s' : Parser}

/-! ## The stacks above the fence -/

namespace Parser

def token (s : Parser) : Token := s.clause.getD s.current .eoc

def moved (s : Parser) (current : ℕ) : Parser := { s with current := current }

def frame (s : Parser) (ops : List Operator) (ts : List Expression) : Parser :=
  { s with
    terms := ts.map some ++ s.terms
    operators := ops.map some ++ none :: s.operators
    currentstack := s.currentstack + ts.length }

/-- The tree that is on the stacks. -/
def holding (s : Parser) (e : Tree Operator Expression) : Parser :=
  s.frame e.operators (e.terms .binary)

end Parser

theorem frame_joined {p : Operator} {ops : List Operator} {left right : Expression}
    {ts : List Expression}
    (hmax : s.currentstack + (right :: left :: ts).length ≤ s.maxstack) :
    { s.frame (p :: ops) (right :: left :: ts) with
      terms := some (.binary p left right) :: (ts.map some ++ s.terms)
      operators := ops.map some ++ none :: s.operators
      currentstack := s.currentstack + (ts.length + 1 + 1) - 1 - 1 + 1
      maxstack := max s.maxstack (s.currentstack + (ts.length + 1 + 1) - 1 - 1 + 1) } =
    s.frame ops (.binary p left right :: ts) := by
  simp only [List.length_cons] at hmax
  have hcurrent : s.currentstack + (ts.length + 1 + 1) - 1 - 1 + 1 =
      s.currentstack + (ts.length + 1) := by omega
  rw [hcurrent, max_eq_left (by omega)]
  rfl

theorem reduceLoop_frame (op : Operator) {ops : List Operator} {ts : List Expression}
    (hlength : ts.length = ops.length + 1) (hmax : s.currentstack + ts.length ≤ s.maxstack) :
    reduceLoop op (s.frame ops ts).operators (s.frame ops ts) =
      .ok ((), s.frame (reduce precedence .binary op ops ts).1
        (reduce precedence .binary op ops ts).2) := by
  induction ops generalizing ts with
  | nil =>
      obtain ⟨t, rfl⟩ := List.length_eq_one_iff.mp hlength
      rfl
  | cons p ops ih =>
      match ts, hlength with
      | right :: left :: ts, hlength =>
          rw [reduce]
          by_cases hlt : precedence p < precedence op
          · rw [if_pos hlt]
            exact congrFun (if_pos hlt) _
          · rw [if_neg hlt]
            refine (congrFun (if_neg hlt) _).trans ?_
            have hrest := @ih (.binary p left right :: ts)
              (by simpa using hlength) (by simp only [List.length_cons] at hmax ⊢; omega)
            rw [← frame_joined hmax] at hrest
            exact hrest

theorem finishLoop_frame {ops : List Operator} {ts : List Expression}
    (hlength : ts.length = ops.length + 1) (hmax : s.currentstack + ts.length ≤ s.maxstack) :
    finishLoop (s.frame ops ts).operators (s.frame ops ts) =
      .ok ((), { s with
        terms := (collapse .binary ops ts).map some ++ s.terms
        currentstack := s.currentstack + (collapse .binary ops ts).length }) := by
  induction ops generalizing ts with
  | nil =>
      obtain ⟨t, rfl⟩ := List.length_eq_one_iff.mp hlength
      rfl
  | cons p ops ih =>
      match ts, hlength with
      | right :: left :: ts, hlength =>
          have hrest := @ih (.binary p left right :: ts)
            (by simpa using hlength) (by simp only [List.length_cons] at hmax ⊢; omega)
          rw [← frame_joined hmax] at hrest
          exact hrest

/-! ## Token by token -/

theorem nextToken_eq_ok {token : Token} :
    nextToken s = .ok (token, s') ↔ s.token = token ∧ s.moved (s.current + 1) = s' := by
  change Except.ok (s.token, s.moved (s.current + 1)) = _ ↔ _
  rw [Except.ok.injEq, Prod.mk.injEq]

theorem ended (stop : Parse α) (k : Token → Parse α) :
    (nextToken >>= fun token => terminator terminators token >>= fun b =>
      if b = true then stop else k token) s =
      if terminators.ends s.token then stop s else k s.token (s.moved (s.current + 1)) := by
  change (terminator terminators s.token >>= fun b => if b = true then stop else k s.token)
    (s.moved (s.current + 1)) = _
  unfold terminator
  split <;> rfl

theorem subTerm_none (h : subTerm sub .eoc s = .ok (none, s')) :
    s.token = .eoc ∨ ∃ op hop, s.token = .operator op hop := by
  rw [subTerm, ended] at h
  split at h
  next hends =>
    cases htoken : s.token <;> rw [htoken] at hends <;>
      simp [Terminators.ends, Terminators.eoc] at hends
    exact .inl rfl
  next hends =>
    cases htoken : s.token with
    | operator op hop => exact .inr ⟨op, hop, rfl⟩
    | symbol value subclass =>
        rw [htoken] at h
        obtain ⟨second, s₁, -, h⟩ := bind_eq_ok.mp h
        split at h <;> obtain ⟨_, _, -, h⟩ := bind_eq_ok.mp h <;> cases (pure_eq_ok.mp h).1
    | literal value =>
        rw [htoken] at h
        obtain ⟨second, s₁, -, h⟩ := bind_eq_ok.mp h
        split at h <;> obtain ⟨_, _, -, h⟩ := bind_eq_ok.mp h <;> cases (pure_eq_ok.mp h).1
    | left =>
        rw [htoken] at h
        obtain ⟨r, s₁, -, h⟩ := bind_eq_ok.mp h
        cases r with
        | none => simp at h
        | some term =>
            obtain ⟨second, s₂, -, h⟩ := bind_eq_ok.mp h
            split at h <;> simp at h
    | _ =>
        rw [htoken] at h
        simp at h

def sends : Token → Bool
  | .tilde | .dtilde | .sqleft => true
  | _ => false

theorem cascade_sends {steps : ℕ} {term x : Expression}
    (h : cascade sub steps term s = .ok (x, s')) : sends s'.token = false := by
  induction steps generalizing term s with
  | zero => simp [cascade] at h
  | succ steps ih =>
      rw [cascade, bind_eq_ok] at h
      obtain ⟨token, s₁, hnext, h⟩ := h
      obtain ⟨htoken, rfl⟩ := nextToken_eq_ok.mp hnext
      split at h
      · obtain ⟨r, s₂, -, h⟩ := bind_eq_ok.mp h
        exact ih h
      · obtain ⟨r, s₂, -, h⟩ := bind_eq_ok.mp h
        exact ih h
      · obtain ⟨r, s₂, -, h⟩ := bind_eq_ok.mp h
        exact ih h
      next hsq htilde hdtilde =>
        cases h
        change sends s.token = false
        rw [htoken]
        unfold sends
        split
        · exact absurd rfl htilde
        · exact absurd rfl hdtilde
        · exact absurd rfl hsq
        · rfl

theorem messageSubterm_eq_ok {steps : ℕ} {r : Option Expression}
    (h : messageSubterm sub terminators steps s = .ok (r, s')) :
    (terminators.ends s.token = true ∧ r = none ∧ s' = s) ∨
      (terminators.ends s.token = false ∧ r ≠ none ∧ sends s'.token = false) := by
  induction steps generalizing r s with
  | zero => simp [messageSubterm] at h
  | succ steps ih =>
      rw [messageSubterm, ended] at h
      split at h
      next hends =>
        obtain ⟨rfl, rfl⟩ := pure_eq_ok.mp h
        exact .inl ⟨hends, rfl, rfl⟩
      next hends =>
        rw [Bool.not_eq_true] at hends
        refine .inr ⟨hends, ?_⟩
        generalize htoken : s.token = token at h
        dsimp only at h
        split at h
        · split at h
          · obtain ⟨r', s₁, hterm, h⟩ := bind_eq_ok.mp h
            cases r' with
            | none => simp at h
            | some term =>
                obtain ⟨rfl, rfl⟩ := pure_eq_ok.mp h
                rcases ih hterm with ⟨-, hnone, -⟩ | ⟨-, -, hsends⟩
                · cases hnone
                · exact ⟨Option.some_ne_none _, hsends⟩
          · simp at h
        next hoperator =>
          obtain ⟨_, s₁, hback, h⟩ := bind_eq_ok.mp h
          cases hback
          obtain ⟨r', s₂, hterm, h⟩ := bind_eq_ok.mp h
          cases r' with
          | none =>
              rcases subTerm_none hterm with heoc | ⟨op, hwritten, hop⟩
              · change s.token = _ at heoc
                rw [heoc] at hends
                cases hends
              · exact absurd (htoken.symm.trans hop) (hoperator op hwritten)
          | some term =>
              obtain ⟨p, s₃, -, h⟩ := bind_eq_ok.mp h
              obtain ⟨x, s₄, hcascade, h⟩ := bind_eq_ok.mp h
              obtain ⟨rfl, rfl⟩ := pure_eq_ok.mp h
              exact ⟨Option.some_ne_none _, cascade_sends hcascade⟩

/-! ## Operands and operators -/

theorem Framed.read {f : Parse α} (hf : Framed f) {a : α} (h : f s = .ok (a, s')) :
    ∃ height, s' = s.after s'.current height ∧
      Reads f s.clause s.current a s'.current height := by
  obtain ⟨current, height, hreads⟩ := hf h
  cases h.symm.trans (hreads s rfl rfl)
  exact ⟨height, rfl, hreads⟩

section Items

variable (sub) (terminators) (clause : List Token)

/-- A term stands between two positions. -/
def Operand (current : ℕ) (x : Expression) (current' : ℕ) : Prop :=
  ∃ height, Reads (messageSubterm sub terminators (clause.length + 1)) clause current (some x)
    current' height

/-- A token that makes a concatenation with the term directly before it. -/
def abuts : Token → Bool
  | .symbol _ _ | .literal _ | .left => true
  | _ => false

/-- The operator behind a term, and where the term behind the operator begins. -/
inductive Joint : ℕ → Operator → ℕ → Prop
  | operator {current : ℕ} {op : Operator} {hop : op ≠ .blank} :
      clause.getD current .eoc = .operator op hop → op ≠ .backslash →
      Joint current op (current + 1)
  | abuttal {current : ℕ} : abuts (clause.getD current .eoc) = true →
      terminators.ends (clause.getD current .eoc) = false → Joint current .abuttal current
  | blank {current : ℕ} : clause.getD current .eoc = .blank →
      terminators.ends (clause.getD (skipBlanks clause (current + 1)) .eoc) = false →
      Joint current .blank (skipBlanks clause (current + 1))

/-- The operators and terms behind the first term, up to the token that ends the expression. -/
inductive Items : ℕ → List (Operator × Expression) → ℕ → Prop
  | ends {current : ℕ} : terminators.ends (clause.getD current .eoc) = true →
      Items current [] current
  | blanks {current : ℕ} : clause.getD current .eoc = .blank →
      terminators.ends (clause.getD (skipBlanks clause (current + 1)) .eoc) = true →
      Items current [] (skipBlanks clause (current + 1))
  | item {current : ℕ} {op : Operator} {current₁ : ℕ} {x : Expression} {current₂ : ℕ}
      {items : List (Operator × Expression)} {current₃ : ℕ} :
      Joint terminators clause current op current₁ →
      Operand sub terminators clause current₁ x current₂ → Items current₂ items current₃ →
      Items current ((op, x) :: items) current₃

end Items

theorem skipBlanks_of_ne {clause : List Token} {current : ℕ}
    (h : clause.getD current .eoc ≠ .blank) : skipBlanks clause current = current := by
  rw [skipBlanks]
  cases hdrop : clause.drop current with
  | nil => rfl
  | cons token rest =>
      have htoken : clause.getD current .eoc = token := by
        rw [List.getD_eq_getElem?_getD, ← List.head?_drop, hdrop]
        rfl
      rw [List.takeWhile_cons_of_neg (by simpa using htoken ▸ h)]
      rfl

theorem concatenation_eq (op : Operator) :
    concatenation sub terminators op s =
      if terminators.ends (s.clause.getD (skipBlanks s.clause s.current) .eoc) then
        .ok ((), s.moved (skipBlanks s.clause s.current))
      else dyadic sub terminators op (s.moved (skipBlanks s.clause s.current)) := by
  change (terminator terminators (s.clause.getD (skipBlanks s.clause s.current) .eoc) >>= fun b =>
    if b = true then pure () else previousToken >>= fun _ => dyadic sub terminators op)
    (s.moved (skipBlanks s.clause s.current + 1)) = _
  unfold terminator
  split <;> rfl

theorem frame_pushed (op : Operator) (ops : List Operator) (ts : List Expression) (x : Expression)
    (current height : ℕ) :
    ((s.frame (op :: ops) ts).after current height).pushed (some x) =
      (s.after current (ts.length + max height 1)).frame (op :: ops) (x :: ts) := by
  have hraised : max (raised s.maxstack (s.currentstack + ts.length) height)
      (s.currentstack + (ts.length + 1)) =
        raised s.maxstack s.currentstack (ts.length + max height 1) := by
    unfold raised
    split_ifs <;> omega
  simp only [Parser.pushed, Parser.after, Parser.frame, hraised, List.length_cons, Nat.add_assoc]
  rfl

section Loop

variable (hsub : ∀ terminators, Framed (sub terminators)) {e : Tree Operator Expression}
  {op : Operator}

def Parser.Within (s : Parser) (e : Tree Operator Expression) : Prop :=
  s.currentstack + (e.operators.length + 1) ≤ s.maxstack

def Extends (f : Parse Unit) (clause : List Token) (current : ℕ)
    (e e' : Tree Operator Expression) (current' height : ℕ) : Prop :=
  ∀ t : Parser, t.clause = clause → t.current = current → t.Within e →
    f (t.holding e) = .ok ((), (t.after current' height).holding e') ∧
      (t.after current' height).Within e'

include hsub

theorem dyadic_holding (he : e.Fits precedence) (hmax : s.Within e)
    (h : dyadic sub terminators op (s.holding e) = .ok ((), s'))
    (hblank : op = .blank → terminators.ends s.token = false) :
    op ≠ .backslash ∧ ∃ x current height,
      Operand sub terminators s.clause s.current x current ∧
      Extends (dyadic sub terminators op) s.clause s.current e (e.insert precedence op x)
        current height ∧
      sends (s.clause.getD current .eoc) = false := by
  by_cases hop : op = .backslash
  · rw [dyadic, if_pos hop] at h
    simp [bind_eq_ok] at h
  refine ⟨hop, ?_⟩
  rw [dyadic, if_neg hop] at h
  beta_reduce at h
  obtain ⟨_, _, hget, h⟩ := bind_eq_ok.mp h
  cases hget
  obtain ⟨_, s₁, hreduce, h⟩ := bind_eq_ok.mp h
  have hterms := Tree.length_terms Expression.binary e
  cases hreduce.symm.trans (reduceLoop_frame (s := s) op hterms (hterms ▸ hmax))
  obtain ⟨_, _, hpush, h⟩ := bind_eq_ok.mp h
  cases hpush
  obtain ⟨_, _, hget, h⟩ := bind_eq_ok.mp h
  cases hget
  obtain ⟨right, s₂, hread, h⟩ := bind_eq_ok.mp h
  obtain ⟨height, hafter, hreads⟩ := (messageSubterm_framed hsub terminators _).read hread
  rcases messageSubterm_eq_ok hread with ⟨hends, rfl, -⟩ | ⟨-, hright, hsends⟩
  · -- only a blank would do without a term, but a blank before the end is no operator
    by_cases hop' : op = .blank
    · have hnot := hblank hop'
      change terminators.ends s.token = true at hends
      rw [hnot] at hends
      cases hends
    · rw [if_pos ⟨rfl, hop'⟩] at h
      simp [bind_eq_ok] at h
  obtain ⟨x, rfl⟩ := Option.ne_none_iff_exists'.mp hright
  rw [if_neg (by simp)] at h
  obtain ⟨ops, ts, hreduced, hops, hts⟩ := reduce_fits Expression.binary op he x
  generalize s₂.current = current at hafter hreads
  subst hafter
  refine ⟨x, current, ts.length + max height 1, ⟨height, hreads⟩,
    fun t hclause hcurrent hwithin => ⟨?_, ?_⟩, hsends⟩
  · have hresult : (t.after current (ts.length + max height 1)).holding
        (e.insert precedence op x) =
          (t.after current (ts.length + max height 1)).frame (op :: ops) (x :: ts) := by
      rw [Parser.holding, hops, hts]
    rw [dyadic, if_neg hop, hresult]
    refine bind_eq_ok.mpr ⟨_, _, rfl, bind_eq_ok.mpr ⟨(), t.frame ops ts, ?_,
      bind_eq_ok.mpr ⟨(), t.frame (op :: ops) ts, rfl, bind_eq_ok.mpr ⟨_, _, rfl,
        bind_eq_ok.mpr ⟨some x, (t.frame (op :: ops) ts).after current height, ?_, ?_⟩⟩⟩⟩⟩
    · have hreduce := reduceLoop_frame (s := t) op hterms (hterms ▸ hwithin)
      rw [hreduced] at hreduce
      exact hreduce
    · change messageSubterm sub terminators (t.clause.length + 1) _ = _
      rw [hclause]
      exact hreads (t.frame (op :: ops) ts) hclause hcurrent
    · rw [if_neg (by simp)]
      exact congrArg (fun s => Except.ok ((), s))
        (frame_pushed (s := t) op ops ts x current height)
  · have hlength := Tree.length_terms Expression.binary (e.insert precedence op x)
    rw [hts, hops] at hlength
    simp only [List.length_cons] at hlength
    rw [Parser.Within, hops, List.length_cons]
    change t.currentstack + _ ≤ raised t.maxstack t.currentstack (ts.length + max height 1)
    rw [raised, if_neg (by omega)]
    omega

omit hsub in
theorem operation_abuts (h : abuts s.token = true) :
    operation sub terminators s.token (s.moved (s.current + 1)) =
      concatenation sub terminators .abuttal s := by
  generalize s.token = token at h
  cases token with
  | symbol value subclass => rfl
  | literal value => rfl
  | left => rfl
  | _ => cases h

omit hsub in
theorem operation_eq_ok
    (h : operation sub terminators s.token (s.moved (s.current + 1)) = .ok ((), s'))
    (hsends : sends s.token = false) :
    abuts s.token = true ∨ s.token = .blank ∨ ∃ op hop, s.token = .operator op hop := by
  generalize s.token = token at h hsends
  cases token with
  | tilde => cases hsends
  | dtilde => cases hsends
  | sqleft => cases hsends
  | symbol value subclass => exact .inl rfl
  | literal value => exact .inl rfl
  | left => exact .inl rfl
  | blank => exact .inr (.inl rfl)
  | operator op hop => exact .inr (.inr ⟨op, hop, rfl⟩)
  | _ => exact absurd h (by simp [operation])

omit hsub in
theorem operation_blanks (hblank : s.token = .blank)
    (hend : terminators.ends (s.clause.getD (skipBlanks s.clause (s.current + 1)) .eoc) = true) :
    operation sub terminators s.token (s.moved (s.current + 1)) =
      .ok ((), s.moved (skipBlanks s.clause (s.current + 1))) := by
  rw [hblank]
  exact (concatenation_eq (s := s.moved (s.current + 1)) .blank).trans (if_pos hend)

theorem operation_holding (he : e.Fits precedence) (hmax : s.Within e)
    (h : operation sub terminators s.token ((s.holding e).moved (s.current + 1)) = .ok ((), s'))
    (hsends : sends s.token = false) (hends : terminators.ends s.token = false) :
    (s.token = .blank ∧
      terminators.ends (s.clause.getD (skipBlanks s.clause (s.current + 1)) .eoc) = true) ∨
    ∃ op current₁ x current height, Joint terminators s.clause s.current op current₁ ∧
      Operand sub terminators s.clause current₁ x current ∧
      Extends (fun t => operation sub terminators t.token (t.moved (t.current + 1)))
        s.clause s.current e (e.insert precedence op x) current height ∧
      sends (s.clause.getD current .eoc) = false := by
  -- the operator is followed by a term, once its token is known to lead to `dyadic`
  have hdyadic (op : Operator) (current : ℕ)
      (hleads : ∀ t : Parser, t.clause = s.clause → t.current = s.current →
        operation sub terminators t.token (t.moved (t.current + 1)) =
          dyadic sub terminators op (t.moved current))
      (hblank : op = .blank → terminators.ends (s.clause.getD current .eoc) = false) :
      op ≠ .backslash ∧ ∃ x current₁ height,
        Operand sub terminators s.clause current x current₁ ∧
        Extends (fun t => operation sub terminators t.token (t.moved (t.current + 1)))
          s.clause s.current e (e.insert precedence op x) current₁ height ∧
        sends (s.clause.getD current₁ .eoc) = false := by
    obtain ⟨hop, x, current₁, height, hoperand, hextends, hnext⟩ := dyadic_holding
      (s := s.moved current) hsub he hmax ((hleads (s.holding e) rfl rfl).symm.trans h) hblank
    refine ⟨hop, x, current₁, height, hoperand, fun t hclause hcurrent hwithin => ?_, hnext⟩
    obtain ⟨hrun, hwithin⟩ := hextends (t.moved current) hclause rfl hwithin
    exact ⟨(hleads (t.holding e) hclause hcurrent).trans hrun, hwithin⟩
  have htoken (t : Parser) (hclause : t.clause = s.clause) (hcurrent : t.current = s.current) :
      t.token = s.token := by
    rw [Parser.token, Parser.token, hclause, hcurrent]
  rcases operation_eq_ok (s := s.holding e) h hsends with habuts | hblank | ⟨op, hop, hoperator⟩
  · change abuts s.token = true at habuts
    have hskip : skipBlanks s.clause s.current = s.current := skipBlanks_of_ne fun hblank => by
      rw [Parser.token, hblank] at habuts
      cases habuts
    obtain ⟨-, x, current, height, hoperand, hextends, hnext⟩ := hdyadic .abuttal s.current
      (fun t hclause hcurrent => by
        rw [operation_abuts (by rw [htoken t hclause hcurrent]; exact habuts), concatenation_eq,
          hclause, hcurrent, hskip]
        exact if_neg (by rw [← Parser.token, hends]; exact Bool.false_ne_true))
      (fun heq => absurd heq (by decide))
    exact .inr ⟨.abuttal, _, x, current, height, .abuttal habuts hends, hoperand, hextends, hnext⟩
  · change s.token = .blank at hblank
    by_cases hend :
        terminators.ends (s.clause.getD (skipBlanks s.clause (s.current + 1)) .eoc) = true
    · exact .inl ⟨hblank, hend⟩
    obtain ⟨-, x, current, height, hoperand, hextends, hnext⟩ := hdyadic .blank
      (skipBlanks s.clause (s.current + 1))
      (fun t hclause hcurrent => by
        rw [htoken t hclause hcurrent, hblank]
        refine (concatenation_eq (s := t.moved (t.current + 1)) .blank).trans ?_
        change (if terminators.ends (t.clause.getD (skipBlanks t.clause (t.current + 1)) .eoc)
          then _ else dyadic sub terminators .blank
            (t.moved (skipBlanks t.clause (t.current + 1)))) = _
        rw [hclause, hcurrent, if_neg hend])
      (fun _ => Bool.eq_false_iff.mpr hend)
    exact .inr ⟨.blank, _, x, current, height, .blank hblank (Bool.eq_false_iff.mpr hend),
      hoperand, hextends, hnext⟩
  · change s.token = .operator op hop at hoperator
    obtain ⟨hbackslash, x, current, height, hoperand, hextends, hnext⟩ := hdyadic op
      (s.current + 1)
      (fun t hclause hcurrent => by
        rw [htoken t hclause hcurrent, hoperator, hcurrent]
        rfl)
      (fun heq => absurd heq hop)
    exact .inr ⟨op, _, x, current, height, .operator hoperator hbackslash, hoperand, hextends,
      hnext⟩

theorem operatorLoop_holding {steps : ℕ} (he : e.Fits precedence) (hmax : s.Within e)
    (h : operatorLoop sub terminators steps (s.holding e) = .ok ((), s'))
    (hsends : sends s.token = false) :
    ∃ items current height, Items sub terminators s.clause s.current items current ∧
      Extends (operatorLoop sub terminators steps) s.clause s.current e
        (e.extend precedence items) current height := by
  have htoken (t : Parser) (hclause : t.clause = s.clause) (hcurrent : t.current = s.current) :
      t.token = s.token := by
    rw [Parser.token, Parser.token, hclause, hcurrent]
  induction steps generalizing s e with
  | zero => cases h
  | succ steps ih =>
      rw [operatorLoop, ended] at h
      split at h
      next hends =>
        refine ⟨[], s.current, 0, .ends hends, fun t hclause hcurrent hwithin => ⟨?_, hwithin⟩⟩
        rw [operatorLoop, ended]
        refine (if_pos ?_).trans ?_
        · exact (congrArg terminators.ends (htoken t hclause hcurrent)).trans hends
        · rw [← hcurrent]
          rfl
      next hends =>
        have hstep (t : Parser) (hclause : t.clause = s.clause) (hcurrent : t.current = s.current) :
            operatorLoop sub terminators (steps + 1) t =
              (operation sub terminators t.token >>= fun _ => operatorLoop sub terminators steps)
                (t.moved (t.current + 1)) := by
          rw [operatorLoop, ended]
          exact if_neg (by rw [htoken t hclause hcurrent]; exact hends)
        obtain ⟨_, s₁, hoperation, h⟩ := bind_eq_ok.mp h
        rcases operation_holding hsub he hmax hoperation hsends (Bool.eq_false_iff.mpr hends) with
          ⟨hblank, hend⟩ | ⟨op, current₁, x, current₂, height, hjoint, hoperand, hextends, hnext⟩
        · cases hoperation.symm.trans (operation_blanks (s := s.holding e) hblank hend)
          cases steps with
          | zero => cases h
          | succ steps =>
              refine ⟨[], _, 0, .blanks hblank hend, fun t hclause hcurrent hwithin =>
                ⟨?_, hwithin⟩⟩
              have hend' : terminators.ends
                  (t.clause.getD (skipBlanks t.clause (t.current + 1)) .eoc) = true := by
                rw [hclause, hcurrent]
                exact hend
              refine (hstep (t.holding e) hclause hcurrent).trans (bind_eq_ok.mpr ⟨(), _,
                operation_blanks (s := t.holding e) ((htoken t hclause hcurrent).trans hblank)
                  hend', ?_⟩)
              rw [operatorLoop, ended]
              refine (if_pos hend').trans ?_
              rw [← hclause, ← hcurrent]
              rfl
        · obtain ⟨hrun, hwithin₁⟩ := hextends s rfl rfl hmax
          cases hoperation.symm.trans hrun
          obtain ⟨items, current, height', hitems, hextends'⟩ := ih (s := s.after current₂ height)
            he.insert hwithin₁ h hnext fun t hclause hcurrent => by
              rw [Parser.token, Parser.token, hclause, hcurrent]
          refine ⟨(op, x) :: items, current, max height height', .item hjoint hoperand hitems,
            fun t hclause hcurrent hwithin => ?_⟩
          obtain ⟨hrun₁, hwithin₁⟩ := hextends t hclause hcurrent hwithin
          obtain ⟨hrun₂, hwithin₂⟩ := hextends' (t.after current₂ height) hclause rfl hwithin₁
          rw [Parser.after_after] at hrun₂ hwithin₂
          exact ⟨(hstep (t.holding e) hclause hcurrent).trans
            (bind_eq_ok.mpr ⟨(), _, hrun₁, hrun₂⟩), hwithin₂⟩

omit hsub in
theorem first_holding (x : Expression) (current height : ℕ) :
    { (s.after current height).pushed (some x) with operators := none :: s.operators } =
      (s.after current (max height 1)).holding (.leaf x) := by
  have hraised : max (raised s.maxstack s.currentstack height) (s.currentstack + 1) =
      raised s.maxstack s.currentstack (max height 1) := by
    unfold raised
    split_ifs <;> omega
  simp only [Parser.pushed, Parser.after, Parser.holding, Parser.frame, hraised]
  rfl

theorem expressionOf_reads {r : Option Expression}
    (h : expressionOf sub terminators s = .ok (r, s')) :
    (terminators.ends s.token = true ∧ r = none ∧
      Reads (expressionOf sub terminators) s.clause s.current none s.current 0) ∨
    ∃ first current items current' height,
      Operand sub terminators s.clause s.current first current ∧
      Items sub terminators s.clause current items current' ∧
      r = some (((Tree.leaf first).extend precedence items).value .binary) ∧
      Reads (expressionOf sub terminators) s.clause s.current r current' height := by
  obtain ⟨_, _, hget, hrun⟩ := bind_eq_ok.mp h
  cases hget
  obtain ⟨left, s₁, hread, hrun⟩ := bind_eq_ok.mp hrun
  obtain ⟨height, hafter, hreads⟩ := (messageSubterm_framed hsub terminators _).read hread
  rcases messageSubterm_eq_ok hread with ⟨hends, rfl, rfl⟩ | ⟨-, hleft, hsends⟩
  · obtain ⟨rfl, rfl⟩ := pure_eq_ok.mp hrun
    refine .inl ⟨hends, rfl, fun t hclause hcurrent => ?_⟩
    have hends' : terminators.ends t.token = true := by
      rw [Parser.token, hclause, hcurrent]
      exact hends
    refine bind_eq_ok.mpr ⟨t, t, rfl, bind_eq_ok.mpr ⟨none, t, ?_, ?_⟩⟩
    · rw [messageSubterm, ended]
      exact if_pos hends'
    · rw [← hcurrent]
      rfl
  obtain ⟨x, rfl⟩ := Option.ne_none_iff_exists'.mp hleft
  generalize s₁.current = current at hafter hreads
  subst hafter
  have hfirst (t : Parser) (hclause : t.clause = s.clause) (hcurrent : t.current = s.current) :
      expressionOf sub terminators t =
        (operatorLoop sub terminators (s.clause.length + 1) >>= fun _ => get >>= fun s =>
          finishLoop s.operators >>= fun _ => popTerm)
          ((t.after current (max height 1)).holding (.leaf x)) := by
    rw [← first_holding]
    change (messageSubterm sub terminators (t.clause.length + 1) t >>= _) = _
    rw [hclause, hreads t hclause hcurrent]
    rfl
  have hwithin (t : Parser) : (t.after current (max height 1)).Within (.leaf x) := by
    change t.currentstack + 1 ≤ raised t.maxstack t.currentstack (max height 1)
    rw [raised, if_neg (by omega)]
    omega
  have hrun' := (hfirst s rfl rfl).symm.trans h
  obtain ⟨_, s₂, hloop, hfinish⟩ := bind_eq_ok.mp hrun'
  obtain ⟨items, current', height', hitems, hextends⟩ := operatorLoop_holding
    (e := .leaf x) hsub trivial (hwithin s) hloop hsends
  -- at the end the tree is all that is on the stacks above the fence
  have hall (t : Parser) (hclause : t.clause = s.clause) (hcurrent : t.current = s.current) :
      expressionOf sub terminators t =
        .ok (some (((Tree.leaf x).extend precedence items).value .binary),
          t.after current' (max (max height 1) height')) := by
    obtain ⟨hloop, hlast⟩ := hextends (t.after current (max height 1)) hclause rfl (hwithin t)
    rw [Parser.after_after] at hloop hlast
    refine (hfirst t hclause hcurrent).trans (bind_eq_ok.mpr ⟨(), _, hloop, ?_⟩)
    have hterms := Tree.length_terms Expression.binary
      ((Tree.leaf x).extend precedence items)
    refine bind_eq_ok.mpr ⟨_, _, rfl, bind_eq_ok.mpr ⟨(), _,
      finishLoop_frame hterms (hterms ▸ hlast), ?_⟩⟩
    have hvalue : collapse Expression.binary ((Tree.leaf x).extend precedence items).operators
        (((Tree.leaf x).extend precedence items).terms .binary) =
          [((Tree.leaf x).extend precedence items).value .binary] := by
      exact collapse_tree Expression.binary _
    rw [hvalue]
    rfl
  obtain ⟨rfl, rfl⟩ := Prod.mk.injEq .. ▸ Except.ok.inj ((hall s rfl rfl).symm.trans h)
  exact .inr ⟨x, current, items, current', _, ⟨height, hreads⟩, hitems, rfl, hall⟩

theorem expressionOf_framed : Framed (expressionOf sub terminators) := by
  intro s r s' h
  rcases expressionOf_reads hsub h with
    ⟨-, rfl, hreads⟩ | ⟨first, current, items, current', height, -, -, -, hreads⟩
  · exact ⟨s.current, 0, hreads⟩
  · exact ⟨current', height, hreads⟩

end Loop

theorem subExpression_framed (depth : ℕ) (terminators : Terminators) :
    Framed (subExpression depth terminators) := by
  induction depth generalizing terminators with
  | zero => exact framed_report _
  | succ depth ih => exact expressionOf_framed ih

end LeooRexx.RexxSource