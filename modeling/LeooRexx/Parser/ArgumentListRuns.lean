import LeooRexx.Parser.ArgumentList
import Mathlib.Data.List.DropRight

/-!
# Arguments are preserved

Parsing an expression leaves the queue and the term stack as they were, so that a call
takes exactly its own arguments from the queue.  What a node evaluates is then what was
written, without the omitted arguments at the end, as long as the count fits its field.
-/

namespace LeooRexx.ArgumentList

variable {τ : Type}

def kept {α : Type} (args : List (Option α)) : List (Option α) := args.rdropWhile Option.isNone

theorem kept_cons {α : Type} (arg : Option α) (args : List (Option α)) :
    kept (arg :: args) =
      if kept args = [] then if arg.isSome then [arg] else [] else arg :: kept args := by
  simp only [kept, List.rdropWhile, List.reverse_cons, List.dropWhile_append,
    List.reverse_eq_nil_iff, List.isEmpty_iff]
  cases arg <;> split <;> simp_all

theorem length_kept_le {α : Type} (args : List (Option α)) : (kept args).length ≤ args.length :=
  (List.rdropWhile_prefix _ args).length_le

/-! ## The tree -/

mutual

def translate : SourceExpr τ → ExprNode τ
  | .term t => .term t
  | .binary op left right => .binary op (translate left) (translate right)
  | .function name args =>
      .function name (functionCount (kept args).length)
        ((translateArguments args).take (kept args).length)
  | .message target name args doubleTilde =>
      .message (translate target) name (messageCount (kept args).length)
        ((translateArguments args).take (kept args).length) doubleTilde
  | .collection target args =>
      .message (translate target) brackets (messageCount (kept args).length)
        ((translateArguments args).take (kept args).length) false

def translateArguments : List (Option (SourceExpr τ)) → List (Option (ExprNode τ))
  | [] => []
  | arg :: args => translateArgument arg :: translateArguments args

def translateArgument : Option (SourceExpr τ) → Option (ExprNode τ)
  | none => none
  | some expression => some (translate expression)

end

theorem length_translateArguments (args : List (Option (SourceExpr τ))) :
    (translateArguments args).length = args.length := by
  induction args with
  | nil => rfl
  | cons arg args ih => rw [translateArguments, List.length_cons, ih, List.length_cons]

theorem isSome_translateArgument (arg : Option (SourceExpr τ)) :
    (translateArgument arg).isSome = arg.isSome := by
  cases arg <;> rfl

/-! ## Parsing -/

theorem popArguments_append (items arguments rest : List (Option (ExprNode τ)))
    (terms : List (Option (ExprNode τ))) :
    popArguments items.length arguments ⟨items ++ rest, terms⟩ =
      some (items.reverse ++ arguments, ⟨rest, terms⟩) := by
  induction items generalizing arguments with
  | nil => rfl
  | cons item items ih =>
      have htail := ih (item :: arguments)
      rw [List.length_cons, List.cons_append, List.reverse_cons, List.append_assoc,
        List.singleton_append, ← htail]
      rfl

theorem ite_self_length (args : List (Option (SourceExpr τ))) :
    (if kept args = [] then 0 else (kept args).length) = (kept args).length := by
  split
  case isTrue hnil => rw [hnil, List.length_nil]
  case isFalse _ => rfl

def withArguments (p : Parser τ) (nodes : List (Option (ExprNode τ))) : Parser τ :=
  ⟨nodes.reverse ++ p.subTerms, nodes.reverse ++ p.terms⟩

theorem endList_pop (p : Parser τ) (args : List (Option (SourceExpr τ))) :
    endList (withArguments p (translateArguments args)) args.length (kept args).length =
        ((kept args).length,
          ⟨((translateArguments args).take (kept args).length).reverse ++ p.subTerms, p.terms⟩) ∧
      popArguments (kept args).length []
          ⟨((translateArguments args).take (kept args).length).reverse ++ p.subTerms, p.terms⟩ =
        some ((translateArguments args).take (kept args).length, p) := by
  have hlen := length_translateArguments args
  have hle := length_kept_le args
  have htake : ((translateArguments args).take (kept args).length).reverse.length =
      (kept args).length := by
    rw [List.length_reverse, List.length_take, hlen]
    omega
  constructor
  · have hterms : ((translateArguments args).reverse ++ p.terms).drop args.length = p.terms :=
      List.drop_left' (by rw [List.length_reverse, hlen])
    have hqueue : ((translateArguments args).reverse ++ p.subTerms).drop
        (args.length - (kept args).length) =
          ((translateArguments args).take (kept args).length).reverse ++ p.subTerms := by
      rw [List.drop_append_of_le_length (by rw [List.length_reverse, hlen]; omega),
        List.drop_reverse, hlen, Nat.sub_sub_self hle]
    rw [endList, withArguments, hterms, hqueue]
  · have hpop := popArguments_append ((translateArguments args).take (kept args).length).reverse []
      p.subTerms p.terms
    rw [htake, List.reverse_reverse, List.append_nil] at hpop
    exact hpop

mutual

theorem subExpression_eq : ∀ (w : SourceExpr τ) (p : Parser τ),
    subExpression w p = some (translate w, p)
  | .term t, p => rfl
  | .binary op left right, p => by
      simp only [subExpression, subExpression_eq left, subExpression_eq right, Option.bind_eq_bind,
        Option.bind_some, Parser.pushTerm, popTerm, translate, Option.pure_def]
  | .function name args, p => by
      obtain ⟨hend, hpop⟩ := endList_pop p args
      simp only [subExpression, argLoop_eq args, Option.bind_eq_bind, Option.bind_some,
        Nat.zero_add, ite_self_length, hend, hpop, translate, Option.pure_def]
  | .message target name args doubleTilde, p => by
      obtain ⟨hend, hpop⟩ := endList_pop (p.pushTerm (some (translate target))) args
      obtain ⟨-, hpop⟩ := endList_pop p args
      simp only [subExpression, subExpression_eq target, argLoop_eq args, Option.bind_eq_bind,
        Option.bind_some, Nat.zero_add, ite_self_length, hend, translate, Option.pure_def]
      simp only [Parser.pushTerm, popTerm, Option.bind_some, hpop]
  | .collection target args, p => by
      obtain ⟨hend, hpop⟩ := endList_pop p args
      simp only [subExpression, subExpression_eq target, argLoop_eq args, Option.bind_eq_bind,
        Option.bind_some, Nat.zero_add, ite_self_length, hend, hpop, translate, Option.pure_def]

theorem argLoop_eq : ∀ (args : List (Option (SourceExpr τ))) (p : Parser τ) (total realcount : ℕ),
    argLoop args p total realcount =
      some (withArguments p (translateArguments args), total + args.length,
        if kept args = [] then realcount else total + (kept args).length)
  | [], p, total, realcount => rfl
  | arg :: args, p, total, realcount => by
      simp only [argLoop, argExpression_eq arg p, Option.bind_eq_bind, Option.bind_some,
        argLoop_eq args, Option.some.injEq, Prod.mk.injEq]
      refine ⟨?_, by rw [List.length_cons]; omega, ?_⟩
      · simp only [withArguments, Parser.addArgument, translateArguments, List.reverse_cons,
          List.append_assoc, List.singleton_append]
      · rw [kept_cons, isSome_translateArgument]
        by_cases hnil : kept args = []
        · cases hsome : arg.isSome <;> simp [hnil]
        · simp only [hnil, if_false, List.length_cons, reduceCtorEq]
          omega

theorem argExpression_eq : ∀ (arg : Option (SourceExpr τ)) (p : Parser τ),
    argExpression arg p = some (translateArgument arg, p)
  | none, p => rfl
  | some expression, p => by
      simp only [argExpression, subExpression_eq expression, Option.bind_eq_bind,
        Option.bind_some, Option.pure_def, translateArgument]

end

/-! ## Evaluation -/

section Evaluate

variable {σ V : Type} (m : Machine τ σ V)

mutual

/-- What an expression says: the arguments of a call are evaluated in the order in which
they are written, and the call gets them in their positions. -/
def denote : SourceExpr τ → σ → V × σ
  | .term t, s => m.term t s
  | .binary op left right, s =>
      let (left, s) := denote left s
      let (right, s) := denote right s
      m.binary op left right s
  | .function name args, s =>
      let (arguments, s) := denoteArguments (kept args).length args s
      m.call name arguments s
  | .message target name args doubleTilde, s =>
      let (target, s) := denote target s
      let (arguments, s) := denoteArguments (kept args).length args s
      let (result, s) := m.send target name arguments s
      (if doubleTilde then target else result, s)
  | .collection target args, s =>
      let (target, s) := denote target s
      let (arguments, s) := denoteArguments (kept args).length args s
      m.send target brackets arguments s

/-- The first `n` arguments of a list. -/
def denoteArguments : ℕ → List (Option (SourceExpr τ)) → σ → List (Option V) × σ
  | 0, _, s => ([], s)
  | _ + 1, [], s => ([], s)
  | n + 1, arg :: args, s =>
      let (value, s) := denoteArgument arg s
      let (values, s) := denoteArguments n args s
      (value :: values, s)

def denoteArgument : Option (SourceExpr τ) → σ → Option V × σ
  | none, s => (none, s)
  | some expression, s =>
      let (value, s) := denote expression s
      (some value, s)

end

end Evaluate

/-! ## Calls -/

mutual

def calls : SourceExpr τ → List (SourceExpr τ)
  | .term _ => []
  | .binary _ left right => calls left ++ calls right
  | .function name args => .function name args :: argumentCalls args
  | .message target name args doubleTilde =>
      .message target name args doubleTilde :: (calls target ++ argumentCalls args)
  | .collection target args => .collection target args :: (calls target ++ argumentCalls args)

def argumentCalls : List (Option (SourceExpr τ)) → List (SourceExpr τ)
  | [] => []
  | arg :: args => argumentCall arg ++ argumentCalls args

def argumentCall : Option (SourceExpr τ) → List (SourceExpr τ)
  | none => []
  | some expression => calls expression

end

def argumentsOf : SourceExpr τ → List (Option (SourceExpr τ))
  | .function _ args | .message _ _ args _ | .collection _ args => args
  | .term _ | .binary _ _ _ => []

def passed : ExprNode τ → Int
  | .function _ argument_count _ => argument_count
  | .message _ _ argumentCount _ _ => argumentCount
  | .term _ | .binary _ _ _ => 0

/-- The count of the kept arguments fits the field: fewer than 256 in a function call, and
than 32768 in a message. -/
def Narrow : SourceExpr τ → Prop
  | .function _ args => (kept args).length < 256
  | .message _ _ args _ | .collection _ args => (kept args).length < 32768
  | .term _ | .binary _ _ _ => True

theorem functionCount_eq_iff (n : ℕ) : functionCount n = n ↔ n < 256 :=
  Nat.mod_eq_iff_lt (by decide)

theorem messageCount_eq_iff (n : ℕ) : messageCount n = n ↔ n < 32768 := by
  unfold messageCount
  constructor
  · intro h
    have hlt := @Int.bmod_lt n 65536 (by decide)
    rw [h] at hlt
    omega
  · intro h
    exact Int.bmod_eq_of_le (by omega) (by omega)

theorem size_of_narrow {n : ℕ} (h : n < 32768) : ((n : Int) % 4294967296).toNat = n := by
  omega

section Evaluate

variable {σ V : Type} (m : Machine τ σ V)

theorem length_denoteArguments {n : ℕ} {args : List (Option (SourceExpr τ))} (h : n ≤ args.length)
    (s : σ) : (denoteArguments m n args s).1.length = n := by
  induction n generalizing args s with
  | zero => simp [denoteArguments]
  | succ n ih =>
      cases args with
      | nil => simp at h
      | cons arg args =>
          have htail := ih (by simpa using h) (denoteArgument m arg s).2
          simp [denoteArguments, htail]

theorem take_arguments {n : ℕ} {args : List (Option (SourceExpr τ))} (h : n ≤ args.length) (s : σ)
    (stack : List (Option V)) :
    (((denoteArguments m n args s).1.reverse ++ stack).take n).reverse =
        (denoteArguments m n args s).1 ∧
      ((denoteArguments m n args s).1.reverse ++ stack).drop n = stack := by
  have hlen := length_denoteArguments m h s
  constructor
  · rw [List.take_left' (by rw [List.length_reverse, hlen]), List.reverse_reverse]
  · exact List.drop_left' (by rw [List.length_reverse, hlen])

mutual

theorem evaluate_translate : ∀ (w : SourceExpr τ), (∀ c ∈ calls w, Narrow c) →
    ∀ (stack : List (Option V)) (s : σ),
    evaluate m (translate w) stack s =
      some ((denote m w s).1, some (denote m w s).1 :: stack, (denote m w s).2)
  | .term t, _, stack, s => rfl
  | .binary op left right, h, stack, s => by
      have hleft := evaluate_translate left fun c hc => h c (List.mem_append_left _ hc)
      have hright := evaluate_translate right fun c hc => h c (List.mem_append_right _ hc)
      simp only [translate, evaluate, hleft, hright, Option.bind_eq_bind, Option.bind_some, denote,
        Option.pure_def]
  | .function name args, h, stack, s => by
      have hnarrow : (kept args).length < 256 := h _ List.mem_cons_self
      have hargs := evaluateArguments_translate args fun c hc => h c (List.mem_cons_of_mem _ hc)
      obtain ⟨htake, -⟩ := take_arguments m (length_kept_le args) s stack
      simp only [translate, evaluate, (functionCount_eq_iff _).mpr hnarrow,
        hargs _ (length_kept_le args), htake, Option.bind_eq_bind, Option.bind_some, denote,
        Option.pure_def]
  | .message target name args doubleTilde, h, stack, s => by
      have hnarrow : (kept args).length < 32768 := h _ List.mem_cons_self
      have htarget := evaluate_translate target
        fun c hc => h c (List.mem_cons_of_mem _ (List.mem_append_left _ hc))
      have hargs := evaluateArguments_translate args
        fun c hc => h c (List.mem_cons_of_mem _ (List.mem_append_right _ hc))
      obtain ⟨htake, hdrop⟩ := take_arguments m (length_kept_le args) (denote m target s).2
        (some (denote m target s).1 :: stack)
      simp only [translate, evaluate, (messageCount_eq_iff _).mpr hnarrow, htarget,
        size_of_narrow hnarrow, Int.toNat_natCast, hargs _ (length_kept_le args), htake, hdrop,
        Option.bind_eq_bind, Option.bind_some, denote, Option.pure_def, List.tail_cons]
      cases doubleTilde <;> rfl
  | .collection target args, h, stack, s => by
      have hnarrow : (kept args).length < 32768 := h _ List.mem_cons_self
      have htarget := evaluate_translate target
        fun c hc => h c (List.mem_cons_of_mem _ (List.mem_append_left _ hc))
      have hargs := evaluateArguments_translate args
        fun c hc => h c (List.mem_cons_of_mem _ (List.mem_append_right _ hc))
      obtain ⟨htake, hdrop⟩ := take_arguments m (length_kept_le args) (denote m target s).2
        (some (denote m target s).1 :: stack)
      simp only [translate, evaluate, (messageCount_eq_iff _).mpr hnarrow, htarget,
        size_of_narrow hnarrow, Int.toNat_natCast, hargs _ (length_kept_le args), htake, hdrop,
        Option.bind_eq_bind, Option.bind_some, denote, Option.pure_def, List.tail_cons,
        Bool.false_eq_true, if_false]

theorem evaluateArguments_translate : ∀ (args : List (Option (SourceExpr τ))),
    (∀ c ∈ argumentCalls args, Narrow c) → ∀ n ≤ args.length,
    ∀ (stack : List (Option V)) (s : σ),
    evaluateArguments m n ((translateArguments args).take n) stack s =
      some ((denoteArguments m n args s).1.reverse ++ stack, (denoteArguments m n args s).2)
  | [], _, n, hn, stack, s => by
      obtain rfl : n = 0 := Nat.le_zero.mp hn
      rfl
  | arg :: args, h, 0, _, stack, s => rfl
  | arg :: args, h, n + 1, hn, stack, s => by
      have hfirst := evaluateArgument_translate arg fun c hc => h c (List.mem_append_left _ hc)
      have hrest := evaluateArguments_translate args
        (fun c hc => h c (List.mem_append_right _ hc)) n (Nat.le_of_succ_le_succ hn)
      simp only [translateArguments, List.take_succ_cons, evaluateArguments, hfirst, hrest,
        Option.bind_eq_bind, Option.bind_some, denoteArguments, List.reverse_cons,
        List.append_assoc, List.singleton_append]

theorem evaluateArgument_translate : ∀ (arg : Option (SourceExpr τ)),
    (∀ c ∈ argumentCall arg, Narrow c) → ∀ (stack : List (Option V)) (s : σ),
    evaluateArgument m (translateArgument arg) stack s =
      some ((denoteArgument m arg s).1 :: stack, (denoteArgument m arg s).2)
  | none, _, stack, s => rfl
  | some expression, h, stack, s => by
      simp only [translateArgument, evaluateArgument, evaluate_translate expression h,
        Option.bind_eq_bind, Option.bind_some, denoteArgument, Option.pure_def]

end

end Evaluate

/-! ## Preservation -/

/-- The node of a call passes on the count of the kept arguments, and evaluates them and
nothing else, in order and in place, whatever the terms and the callees do. -/
def Preserved (call : SourceExpr τ) : Prop :=
  ∃ node : ExprNode τ, (∀ p, subExpression call p = some (node, p)) ∧
    passed node = (kept (argumentsOf call)).length ∧
    ∀ (σ V : Type) (m : Machine τ σ V) (stack : List (Option V)) (s : σ),
      evaluate m node stack s =
        some ((denote m call s).1, some (denote m call s).1 :: stack, (denote m call s).2)

def Closed (expressions : List (SourceExpr τ)) : Prop :=
  ∀ c ∈ expressions, calls c ⊆ expressions

theorem closed_append {xs ys : List (SourceExpr τ)} (hx : Closed xs) (hy : Closed ys) :
    Closed (xs ++ ys) := by
  intro c hc
  rcases List.mem_append.mp hc with hc | hc
  · exact List.Subset.trans (hx c hc) (List.subset_append_left xs ys)
  · exact List.Subset.trans (hy c hc) (List.subset_append_right xs ys)

theorem closed_cons {c : SourceExpr τ} {xs : List (SourceExpr τ)} (hc : calls c = c :: xs)
    (hx : Closed xs) : Closed (c :: xs) := by
  intro d hd
  rcases List.mem_cons.mp hd with rfl | hd
  · rw [hc]
    exact List.Subset.refl _
  · exact List.Subset.trans (hx d hd) (List.subset_cons_self c xs)

mutual

theorem closed_calls : ∀ w : SourceExpr τ, Closed (calls w)
  | .term t => by simp [calls, Closed]
  | .binary op left right => closed_append (closed_calls left) (closed_calls right)
  | .function name args => closed_cons rfl (closed_argumentCalls args)
  | .message target name args doubleTilde =>
      closed_cons rfl (closed_append (closed_calls target) (closed_argumentCalls args))
  | .collection target args =>
      closed_cons rfl (closed_append (closed_calls target) (closed_argumentCalls args))

theorem closed_argumentCalls : ∀ args : List (Option (SourceExpr τ)), Closed (argumentCalls args)
  | [] => by simp [argumentCalls, Closed]
  | arg :: args => closed_append (closed_argumentCall arg) (closed_argumentCalls args)

theorem closed_argumentCall : ∀ arg : Option (SourceExpr τ), Closed (argumentCall arg)
  | none => by simp [argumentCall, Closed]
  | some expression => closed_calls expression

end

theorem passed_translate (call : SourceExpr τ) :
    passed (translate call) = (kept (argumentsOf call)).length ↔ Narrow call := by
  cases call with
  | term t => simp [translate, passed, argumentsOf, kept, Narrow]
  | binary op left right => simp [translate, passed, argumentsOf, kept, Narrow]
  | function name args =>
      exact Int.ofNat_inj.trans (functionCount_eq_iff (kept args).length)
  | message target name args doubleTilde =>
      rw [translate, passed, argumentsOf, Narrow]
      exact messageCount_eq_iff (kept args).length
  | collection target args =>
      rw [translate, passed, argumentsOf, Narrow]
      exact messageCount_eq_iff (kept args).length

/-- The arguments of every call in an expression are preserved exactly when the counts of
all these calls fit. -/
theorem arguments_preserved_iff (w : SourceExpr τ) :
    (∀ c ∈ calls w, Preserved c) ↔ ∀ c ∈ calls w, Narrow c := by
  constructor
  · intro h c hc
    obtain ⟨node, hparse, hcount, -⟩ := h c hc
    have hnode := (hparse ⟨[], []⟩).symm.trans (subExpression_eq c ⟨[], []⟩)
    obtain rfl : node = translate c := congrArg Prod.fst (Option.some.inj hnode)
    exact (passed_translate c).mp hcount
  · intro h c hc
    refine ⟨translate c, subExpression_eq c, (passed_translate c).mpr (h c hc), ?_⟩
    intro σ V m stack s
    exact evaluate_translate m c (fun d hd => h d (closed_calls w c hc hd)) stack s

def wideCall (n : ℕ) : SourceExpr Unit := .function [] (List.replicate n (some (.term ())))

theorem wideCall_count (n : ℕ) :
    (kept (argumentsOf (wideCall n))).length = n ∧
      passed (translate (wideCall n)) = functionCount n := by
  have hkept : (kept (List.replicate n (some (SourceExpr.term ())))).length = n := by
    simp [kept, List.rdropWhile]
  exact ⟨hkept, by rw [wideCall, translate, passed, hkept]⟩

/-- A function call with 256 arguments passes none of them. -/
theorem argument_count_wraps :
    passed (translate (wideCall 256)) = 0 ∧ ¬ ∀ c ∈ calls (wideCall 256), Preserved c := by
  obtain ⟨hkept, hpassed⟩ := wideCall_count 256
  refine ⟨hpassed, ?_⟩
  intro h
  have hself : wideCall 256 ∈ calls (wideCall 256) := by
    rw [wideCall, calls]
    exact List.mem_cons_self
  obtain ⟨node, hparse, hcount, -⟩ := h _ hself
  have hnode := (hparse ⟨[], []⟩).symm.trans (subExpression_eq _ ⟨[], []⟩)
  obtain rfl := congrArg Prod.fst (Option.some.inj hnode)
  rw [hpassed, hkept] at hcount
  exact absurd hcount (by decide)

end LeooRexx.ArgumentList
