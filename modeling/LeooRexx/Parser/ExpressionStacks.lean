import LeooRexx.Parser.ArgumentListRuns
import LeooRexx.Parser.Expression

/-!
# What reading an expression leaves behind

The stacks are shared by all expressions that are being read.  Each routine of the parser leaves
them as they were: what it reads depends on the clause and the position alone, and besides the
position only the high-water mark of the term stack changes.
-/

namespace LeooRexx.RexxSource

variable {α β : Type}

/-- The high-water mark once `height` more terms have been on the stack. -/
def raised (maxstack currentstack height : ℕ) : ℕ :=
  if height = 0 then maxstack else max maxstack (currentstack + height)

theorem raised_raised (m c h h' : ℕ) : raised (raised m c h) c h' = raised m c (max h h') := by
  unfold raised
  split_ifs <;> omega

namespace Parser

variable (s : Parser)

def after (current height : ℕ) : Parser :=
  { s with current := current, maxstack := raised s.maxstack s.currentstack height }

theorem after_after (c h c' h' : ℕ) : (s.after c h).after c' h' = s.after c' (max h h') := by
  rw [after, after, raised_raised]
  rfl

def pushed (term : Option Expression) : Parser :=
  { s with
    terms := term :: s.terms
    currentstack := s.currentstack + 1
    maxstack := max s.maxstack (s.currentstack + 1) }

theorem pushed_after (term : Option Expression) (c h : ℕ) :
    (s.pushed term).after c h = (s.after c (h + 1)).pushed term := by
  have hraised : raised (max s.maxstack (s.currentstack + 1)) (s.currentstack + 1) h =
      max (raised s.maxstack s.currentstack (h + 1)) (s.currentstack + 1) := by
    unfold raised
    rw [if_neg (Nat.succ_ne_zero h)]
    split_ifs <;> omega
  rw [after, pushed, hraised]
  rfl

end Parser

/-! ## Reading -/

variable {s s' : Parser}

theorem bind_eq_ok {f : Parse α} {k : α → Parse β} {b : β} :
    (f >>= k) s = .ok (b, s') ↔ ∃ a s₁, f s = .ok (a, s₁) ∧ k a s₁ = .ok (b, s') := by
  change (f s >>= fun p => k p.1 p.2) = _ ↔ _
  cases f s with
  | error e =>
      refine iff_of_false (fun h => by cases h) ?_
      rintro ⟨a, s₁, h, -⟩
      cases h
  | ok p =>
      constructor
      · exact fun h => ⟨p.1, p.2, rfl, h⟩
      · rintro ⟨a, s₁, h, hk⟩
        cases h
        exact hk

@[simp]
theorem report_ne_ok {e : SyntaxError} {a : α} : (report e : Parse α) s = .ok (a, s') ↔ False :=
  iff_of_false (fun h => by cases h) id

@[simp]
theorem pure_eq_ok {a b : α} : (pure a : Parse α) s = .ok (b, s') ↔ a = b ∧ s = s' := by
  change Except.ok (a, s) = _ ↔ _
  rw [Except.ok.injEq, Prod.mk.injEq]

def Reads (f : Parse α) (clause : List Token) (current : ℕ) (a : α) (current' height : ℕ) : Prop :=
  ∀ t : Parser, t.clause = clause → t.current = current → f t = .ok (a, t.after current' height)

/-- A routine that leaves the stacks as they were. -/
def Framed (f : Parse α) : Prop :=
  ∀ ⦃s a s'⦄, f s = .ok (a, s') → ∃ current height, Reads f s.clause s.current a current height

/-- A routine that leaves the stacks as they were below a term that it takes away. -/
def FramedUnder (f : Parse α) : Prop := ∀ term, Framed (pushTerm term >>= fun _ => f)

theorem Reads.bind {f : Parse α} {k : α → Parse β} {clause : List Token} {c c₁ c₂ h₁ h₂ : ℕ}
    {a : α} {b : β} (hf : Reads f clause c a c₁ h₁) (hk : Reads (k a) clause c₁ b c₂ h₂) :
    Reads (f >>= k) clause c b c₂ (max h₁ h₂) := by
  intro t hclause hcurrent
  refine bind_eq_ok.mpr ⟨a, t.after c₁ h₁, hf t hclause hcurrent, ?_⟩
  rw [hk (t.after c₁ h₁) hclause rfl, Parser.after_after]

theorem Framed.bind {f : Parse α} {k : α → Parse β} (hf : Framed f) (hk : ∀ a, Framed (k a)) :
    Framed (f >>= k) := by
  intro s b s' h
  obtain ⟨a, s₁, ha, hb⟩ := bind_eq_ok.mp h
  obtain ⟨c₁, h₁, hreads⟩ := hf ha
  cases ha.symm.trans (hreads s rfl rfl)
  obtain ⟨c₂, h₂, hreads'⟩ := hk a hb
  exact ⟨c₂, max h₁ h₂, hreads.bind hreads'⟩

theorem framed_pure (a : α) : Framed (pure a : Parse α) := by
  intro s b s' h
  obtain ⟨rfl, -⟩ := pure_eq_ok.mp h
  refine ⟨s.current, 0, fun t _ hcurrent => ?_⟩
  rw [← hcurrent]
  rfl

theorem framed_report (e : SyntaxError) : Framed (report e : Parse α) := fun _ _ _ h => by
  cases h

theorem framed_nextToken : Framed nextToken := by
  intro s a s' h
  cases h
  refine ⟨s.current + 1, 0, fun t hclause hcurrent => ?_⟩
  rw [← hclause, ← hcurrent]
  rfl

theorem framed_previousToken : Framed previousToken := by
  intro s a s' h
  refine ⟨s.current - 1, 0, fun t _ hcurrent => ?_⟩
  rw [← hcurrent]
  rfl

theorem framed_nextReal : Framed nextReal := by
  intro s a s' h
  cases h
  refine ⟨skipBlanks s.clause s.current + 1, 0, fun t hclause hcurrent => ?_⟩
  rw [← hclause, ← hcurrent]
  rfl

theorem framed_terminator (terminators : Terminators) (token : Token) :
    Framed (terminator terminators token) := by
  unfold terminator
  split
  · exact framed_previousToken.bind fun _ => framed_pure true
  · exact framed_pure false

theorem framed_getToken (terminators : Terminators) (errorcode : Option SyntaxError) :
    Framed (getToken terminators errorcode) := by
  refine framed_nextToken.bind fun token => (framed_terminator terminators token).bind fun b => ?_
  split
  · cases errorcode with
    | none => exact framed_pure none
    | some e => exact framed_report e
  · exact framed_pure (some token)

theorem Framed.steps {f : ℕ → Parse α} (hf : ∀ steps, Framed (f steps)) :
    Framed (get >>= fun s : Parser => f (s.clause.length + 1)) := by
  intro s a s' h
  obtain ⟨c, height, hreads⟩ := hf (s.clause.length + 1) (s := s) h
  refine ⟨c, height, fun t hclause hcurrent => ?_⟩
  have ht := hreads t hclause hcurrent
  rw [← hclause] at ht
  exact ht

theorem FramedUnder.bind {f : Parse α} {k : α → Parse β} (hf : Framed f)
    (hk : ∀ a, FramedUnder (k a)) : FramedUnder (f >>= k) := by
  intro term s b s' h
  obtain ⟨a, s₁, ha, hb⟩ := bind_eq_ok.mp (show (f >>= k) (s.pushed term) = .ok (b, s') from h)
  obtain ⟨c₁, h₁, hreads⟩ := hf ha
  cases ha.symm.trans (hreads (s.pushed term) rfl rfl)
  rw [Parser.pushed_after] at hb
  obtain ⟨c₂, h₂, hreads'⟩ := hk a term (s := s.after c₁ (h₁ + 1)) hb
  refine ⟨c₂, max (h₁ + 1) h₂, fun t hclause hcurrent => ?_⟩
  have ht := hreads' (t.after c₁ (h₁ + 1)) hclause rfl
  rw [Parser.after_after] at ht
  refine bind_eq_ok.mpr ⟨(), t.pushed term, rfl, bind_eq_ok.mpr ⟨a, (t.pushed term).after c₁ h₁,
    hreads (t.pushed term) hclause hcurrent, ?_⟩⟩
  rw [Parser.pushed_after]
  exact ht

theorem framedUnder_report (e : SyntaxError) : FramedUnder (report e : Parse α) :=
  fun _ _ _ _ h => by cases h

theorem framedUnder_popTerm {k : Parse α} (hk : Framed k) :
    FramedUnder (popTerm >>= fun _ => k) := by
  intro term s a s' h
  obtain ⟨c, height, hreads⟩ := hk (s := s.after s.current 1) h
  refine ⟨c, max 1 height, fun t hclause hcurrent => ?_⟩
  have ht := hreads (t.after t.current 1) hclause hcurrent
  rw [Parser.after_after] at ht
  exact ht

/-! ## Arguments -/

def lastGiven : List (Option Expression) → ℕ → ℕ → ℕ
  | [], _, realcount => realcount
  | subexpr :: args, total, realcount =>
      lastGiven args (total + 1) (if subexpr.isSome then total + 1 else realcount)

open ArgumentList (kept kept_cons length_kept_le)

theorem lastGiven_eq (args : List (Option Expression)) (total realcount : ℕ) :
    lastGiven args total realcount =
      if kept args = [] then realcount else total + (kept args).length := by
  induction args generalizing total realcount with
  | nil => rfl
  | cons subexpr args ih =>
      rw [lastGiven, ih, kept_cons]
      by_cases hnil : kept args = []
      · cases subexpr <;> simp [hnil]
      · rw [if_neg hnil, if_neg hnil, if_neg (List.cons_ne_nil _ _), List.length_cons]
        omega

theorem take_lastGiven (args : List (Option Expression)) :
    args.take (lastGiven args 0 0) = kept args := by
  have hprefix := List.prefix_iff_eq_take.mp (List.rdropWhile_prefix Option.isNone args)
  rw [lastGiven_eq]
  split
  next hnil => rw [hnil, List.take_zero]
  · rw [Nat.zero_add]
    exact hprefix.symm

theorem lastGiven_le (args : List (Option Expression)) : lastGiven args 0 0 ≤ args.length := by
  rw [lastGiven_eq]
  split
  · exact Nat.zero_le _
  · rw [Nat.zero_add]
    exact length_kept_le args

/-- The arguments read so far are in the queue and on the stack. -/
def Parser.given (s : Parser) (args : List (Option Expression)) : Parser :=
  { s with
    subTerms := args.reverse ++ s.subTerms
    terms := args.reverse ++ s.terms
    currentstack := s.currentstack + args.length }

theorem Parser.afterGiven (s : Parser) (c h : ℕ) (subexpr : Option Expression) :
    { s.after c h with
      current := c + 1
      subTerms := subexpr :: (s.after c h).subTerms
      terms := subexpr :: (s.after c h).terms
      currentstack := (s.after c h).currentstack + 1
      maxstack := max (s.after c h).maxstack ((s.after c h).currentstack + 1) } =
    (s.after (c + 1) (max h 1)).given [subexpr] := by
  have hraised : max (raised s.maxstack s.currentstack h) (s.currentstack + 1) =
      raised s.maxstack s.currentstack (max h 1) := by
    unfold raised
    split_ifs <;> omega
  rw [after, after, given, ← hraised]
  rfl

theorem Parser.given_given (s : Parser) (c h c' h' : ℕ) (subexpr : Option Expression)
    (args : List (Option Expression)) :
    (((s.after c (max h 1)).given [subexpr]).after c' h').given args =
      (s.after c' (max h (h' + 1))).given (subexpr :: args) := by
  have hraised : raised (raised s.maxstack s.currentstack (max h 1)) (s.currentstack + 1) h' =
      raised s.maxstack s.currentstack (max h (h' + 1)) := by
    unfold raised
    split_ifs <;> omega
  simp [after, given, hraised, Nat.add_assoc, Nat.add_comm 1]

theorem drop_given {args : List (Option Expression)} {realcount : ℕ}
    (h : realcount ≤ args.length) (subTerms : List (Option Expression)) :
    (args.reverse ++ subTerms).drop (args.length - realcount) =
      (args.take realcount).reverse ++ subTerms := by
  rw [List.drop_append_of_le_length (by simp), List.drop_reverse,
    Nat.sub_sub_self h]

theorem Parser.pop_given (s : Parser) (c h : ℕ) {args : List (Option Expression)} {realcount : ℕ}
    (hle : realcount ≤ args.length) :
    let given := (s.after c h).given args
    let subTerms := given.subTerms.drop (0 + args.length - realcount)
    ((subTerms.take realcount).reverse,
      { given with
        terms := given.terms.drop (0 + args.length)
        currentstack := given.currentstack - (0 + args.length)
        subTerms := subTerms.drop realcount }) = (args.take realcount, s.after c h) := by
  have hlength : (args.take realcount).reverse.length = realcount := by
    rw [List.length_reverse, List.length_take, Nat.min_eq_left hle]
  simp only [given, Nat.zero_add, drop_given hle]
  rw [List.take_left' hlength, List.drop_left' hlength, List.reverse_reverse,
    List.drop_left' (List.length_reverse), Nat.add_sub_cancel]

/-- The arguments between commas, up to the token behind them. -/
inductive Arguments (sub : Terminators → Parse (Option Expression)) (terminators : Terminators)
    (clause : List Token) : ℕ → List (Option Expression) → Token → ℕ → Prop
  | last {current : ℕ} {subexpr : Option Expression} {current₁ height : ℕ} :
      Reads (sub { terminators with comma := true }) clause current subexpr current₁ height →
      clause.getD current₁ .eoc ≠ .comma →
      Arguments sub terminators clause current [subexpr] (clause.getD current₁ .eoc) (current₁ + 1)
  | comma {current : ℕ} {subexpr : Option Expression} {current₁ height : ℕ}
      {args : List (Option Expression)} {token : Token} {current₂ : ℕ} :
      Reads (sub { terminators with comma := true }) clause current subexpr current₁ height →
      clause.getD current₁ .eoc = .comma →
      Arguments sub terminators clause (current₁ + 1) args token current₂ →
      Arguments sub terminators clause current (subexpr :: args) token current₂

section Calls

variable {sub : Terminators → Parse (Option Expression)}
  (hsub : ∀ terminators, Framed (sub terminators)) (terminators : Terminators)

include hsub

theorem argLoop_reads {steps total realcount : ℕ} {r : ℕ × ℕ × Token}
    (h : argLoop sub terminators steps total realcount s = .ok (r, s')) :
    ∃ args token current height, Arguments sub terminators s.clause s.current args token current ∧
      ∀ t : Parser, t.clause = s.clause → t.current = s.current → ∀ total realcount,
        argLoop sub terminators steps total realcount t =
          .ok ((total + args.length, lastGiven args total realcount, token),
            (t.after current height).given args) := by
  induction steps generalizing s total realcount with
  | zero => cases h
  | succ steps ih =>
      obtain ⟨subexpr, s₁, hread, h⟩ := bind_eq_ok.mp h
      obtain ⟨c₁, h₁, hreads⟩ := hsub _ hread
      cases hread.symm.trans (hreads s rfl rfl)
      -- the argument is on the stack and in the queue, and the token behind it is read
      have hstep (t : Parser) (hclause : t.clause = s.clause) (hcurrent : t.current = s.current)
          (total realcount : ℕ) : argLoop sub terminators (steps + 1) total realcount t =
            (if t.clause.getD c₁ .eoc = .comma then
                argLoop sub terminators steps (total + 1)
                  (if subexpr.isSome then total + 1 else realcount)
              else pure (total + 1, if subexpr.isSome then total + 1 else realcount,
                t.clause.getD c₁ .eoc) : Parse _)
              ((t.after (c₁ + 1) (max h₁ 1)).given [subexpr]) := by
        rw [← Parser.afterGiven]
        change (sub { terminators with comma := true } t >>= _) = _
        rw [hreads t hclause hcurrent]
        rfl
      by_cases hcomma : s.clause.getD c₁ .eoc = .comma
      · have hrest := (congrFun (if_pos hcomma) _).symm.trans
          ((hstep s rfl rfl total realcount).symm.trans (bind_eq_ok.mpr ⟨_, _, hread, h⟩))
        obtain ⟨args, token, c₂, h₂, hlist, hargs⟩ := ih hrest
        refine ⟨subexpr :: args, token, c₂, max h₁ (h₂ + 1), .comma hreads hcomma hlist,
          fun t hclause hcurrent total realcount => ?_⟩
        rw [hstep t hclause hcurrent, hclause, if_pos hcomma,
          hargs ((t.after (c₁ + 1) (max h₁ 1)).given [subexpr]) hclause rfl, Parser.given_given,
          Nat.add_assoc, Nat.add_comm 1]
        rfl
      · refine ⟨[subexpr], s.clause.getD c₁ .eoc, c₁ + 1, max h₁ 1, .last hreads hcomma,
          fun t hclause hcurrent total realcount => ?_⟩
        rw [hstep t hclause hcurrent, hclause, if_neg hcomma]
        rfl

/-- The node that is made of a list takes its arguments out of the queue, in order and without the
omitted ones at the end. -/
theorem arguments_read {arguments : List (Option Expression)}
    (h : (argList sub terminators >>= popArguments) s = .ok (arguments, s')) :
    ∃ args token current height,
      Arguments sub terminators s.clause (skipBlanks s.clause s.current) args token current ∧
      (terminators.right = true → token = .right) ∧
      (terminators.sqright = true → token = .sqright) ∧ arguments = kept args ∧
      Reads (argList sub terminators >>= popArguments) s.clause s.current arguments current
        height := by
  simp only [argList, bind_assoc] at h ⊢
  obtain ⟨_, _, hnext, h⟩ := bind_eq_ok.mp h
  cases hnext
  obtain ⟨_, _, hprevious, h⟩ := bind_eq_ok.mp h
  cases hprevious
  obtain ⟨_, _, hget, h⟩ := bind_eq_ok.mp h
  cases hget
  obtain ⟨r, s₁, hloop, h⟩ := bind_eq_ok.mp h
  obtain ⟨args, token, current, height, hlist, hargs⟩ := argLoop_reads hsub terminators hloop
  cases hloop.symm.trans (hargs _ rfl rfl 0 0)
  by_cases hright : terminators.right = true ∧ token ≠ .right
  · rw [if_pos hright] at h
    cases h
  by_cases hsqright : terminators.sqright = true ∧ token ≠ .sqright
  · rw [if_neg hright, if_pos hsqright] at h
    cases h
  rw [if_neg hright, if_neg hsqright] at h
  have hvalue := (congrArg Except.ok (s.pop_given current height (lastGiven_le args))).symm.trans h
  refine ⟨args, token, current, height, hlist, fun htrue => ?_, fun htrue => ?_, ?_,
    fun t hclause hcurrent => ?_⟩
  · by_contra hne
    exact hright ⟨htrue, hne⟩
  · by_contra hne
    exact hsqright ⟨htrue, hne⟩
  · rw [← take_lastGiven]
    cases hvalue
    rfl
  · have hloop' := hargs { t with current := skipBlanks t.clause t.current } hclause
      (congrArg₂ skipBlanks hclause hcurrent) 0 0
    change argLoop sub terminators (s.clause.length + 1) 0 0 _ = _ at hloop'
    rw [← hclause] at hloop'
    refine bind_eq_ok.mpr ⟨_, _, rfl, bind_eq_ok.mpr ⟨(), _, rfl, bind_eq_ok.mpr ⟨_, _, rfl,
      bind_eq_ok.mpr ⟨_, _, hloop', ?_⟩⟩⟩⟩
    rw [if_neg hright, if_neg hsqright]
    cases hvalue
    exact congrArg Except.ok (t.pop_given current height (lastGiven_le args))

theorem arguments_framed : Framed (argList sub terminators >>= popArguments) := fun _ _ _ h =>
  have ⟨_, _, current, height, _, _, _, _, hreads⟩ := arguments_read hsub terminators h
  ⟨current, height, hreads⟩

theorem function_framed (name : Token) : Framed (function sub name terminators) := by
  simp only [function, ← bind_assoc]
  exact (arguments_framed hsub _).bind fun _ => framed_pure _

theorem collectionMessage_framed (target : Expression) :
    Framed (collectionMessage sub target terminators) := by
  simp only [collectionMessage, ← bind_assoc]
  exact (arguments_framed hsub _).bind fun _ => framed_pure _

omit hsub in
theorem messageSuper_framed (token : Option Token) :
    Framed (messageSuper terminators token) := by
  unfold messageSuper
  split
  · refine (framed_getToken _ _).bind fun r => ?_
    split
    · split
      · exact (framed_getToken _ _).bind fun _ => framed_pure _
      · exact framed_report _
    · exact framed_report _
  · exact framed_pure _

theorem messageArguments_framed (token : Option Token) :
    Framed (messageArguments sub terminators token >>= popArguments) := by
  have hnone : popArguments 0 = pure [] := rfl
  cases token with
  | none =>
      rw [messageArguments, pure_bind, hnone]
      exact framed_pure []
  | some token =>
      unfold messageArguments
      split
      next heq => exact arguments_framed hsub _
      · rw [bind_assoc]
        simp only [pure_bind, hnone]
        exact framed_previousToken.bind fun _ => framed_pure []
      next heq => cases heq

theorem message_framed (target : Expression) (doubleTilde : Bool) :
    Framed (message sub target doubleTilde terminators) := by
  refine FramedUnder.bind (framed_getToken _ _) (fun r => ?_) (some target)
  have hname (messagename : List UInt8) : FramedUnder (getToken terminators none >>= fun token =>
      messageSuper terminators token >>= fun p =>
        messageArguments sub terminators p.2 >>= fun argCount => popTerm >>= fun _ =>
          popArguments argCount >>= fun arguments =>
            pure (Expression.message target messagename p.1 arguments doubleTilde)) := by
    refine FramedUnder.bind (framed_getToken _ _) fun token =>
      FramedUnder.bind (messageSuper_framed _ _) fun p => ?_
    -- the target and the arguments are in different places
    have hcomm : (messageArguments sub terminators p.2 >>= fun argCount => popTerm >>= fun _ =>
          popArguments argCount >>= fun arguments =>
            (pure (Expression.message target messagename p.1 arguments doubleTilde) : Parse _)) =
        (messageArguments sub terminators p.2 >>= popArguments) >>= fun arguments =>
          popTerm >>= fun _ => pure (.message target messagename p.1 arguments doubleTilde) := by
      rw [bind_assoc]
      rfl
    rw [hcomm]
    exact FramedUnder.bind (messageArguments_framed hsub _ _) fun _ =>
      framedUnder_popTerm (framed_pure _)
  split
  · exact hname _
  · exact hname _
  · exact framedUnder_report _

theorem subTerm_framed : Framed (subTerm sub terminators) := by
  refine framed_nextToken.bind fun token => (framed_terminator _ _).bind fun b => ?_
  split
  · exact framed_pure none
  split
  · refine (hsub _).bind fun r => ?_
    split
    · exact framed_report _
    · refine framed_nextToken.bind fun second => ?_
      split
      · exact framed_pure _
      · exact framed_report _
  · refine framed_nextToken.bind fun second => ?_
    split
    · exact (function_framed hsub _ _).bind fun _ => framed_pure _
    · exact framed_previousToken.bind fun _ => framed_pure _
  · refine framed_nextToken.bind fun second => ?_
    split
    · exact (function_framed hsub _ _).bind fun _ => framed_pure _
    · exact framed_previousToken.bind fun _ => framed_pure _
  · exact framed_report _
  · exact framed_report _
  · exact framed_report _
  · exact framed_previousToken.bind fun _ => framed_pure none
  · exact framed_previousToken.bind fun _ => framed_pure none
  · exact framed_previousToken.bind fun _ => framed_pure none
  · exact framed_report _

theorem cascade_framed (steps : ℕ) (term : Expression) : Framed (cascade sub steps term) := by
  induction steps generalizing term with
  | zero => exact framed_report _
  | succ steps ih =>
      refine framed_nextToken.bind fun token => ?_
      split
      · exact (collectionMessage_framed hsub _ _).bind ih
      · exact (message_framed hsub _ _ _).bind ih
      · exact (message_framed hsub _ _ _).bind ih
      · exact framed_previousToken.bind fun _ => framed_pure _

theorem messageSubterm_framed (steps : ℕ) : Framed (messageSubterm sub terminators steps) := by
  induction steps with
  | zero => exact framed_report _
  | succ steps ih =>
      refine framed_nextToken.bind fun token => (framed_terminator _ _).bind fun b => ?_
      split
      · exact framed_pure none
      split
      · split
        · refine ih.bind fun r => ?_
          split
          · exact framed_report _
          · exact framed_pure _
        · exact framed_report _
      · refine framed_previousToken.bind fun _ => (subTerm_framed hsub _).bind fun r => ?_
        split
        · exact framed_pure none
        next term =>
          exact Framed.steps (f := fun steps => cascade sub steps term >>= fun term =>
            pure (some term)) fun steps => (cascade_framed hsub steps term).bind fun _ =>
              framed_pure _

end Calls

end LeooRexx.RexxSource
