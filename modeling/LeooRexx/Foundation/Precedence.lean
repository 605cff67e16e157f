import Mathlib

/-!
# Operator precedence

Terms joined by binary operators make one tree in which every operator binds its operands by
precedence and to the left.  Reading from the left, the tree grows along its right spine, and a
stack of terms and a stack of operators are enough to hold it.
-/

namespace Precedence

variable {O T : Type*}

inductive Tree (O T : Type*) where
  | leaf (t : T)
  | node (o : O) (left right : Tree O T)

namespace Tree

def top : Tree O T → Option O
  | leaf _ => none
  | node o _ _ => some o

def first : Tree O T → T
  | leaf t => t
  | node _ l _ => l.first

def rest : Tree O T → List (O × T)
  | leaf _ => []
  | node o l r => l.rest ++ (o, r.first) :: r.rest

def operators : Tree O T → List O
  | leaf _ => []
  | node o _ r => r.operators ++ [o]

section Fits

variable (prec : O → ℕ)

/-- The left operand of an operator binds at least as tightly, the right one more tightly. -/
def Fits : Tree O T → Prop
  | leaf _ => True
  | node o l r => l.Fits ∧ r.Fits ∧ (∀ p, l.top = some p → prec o ≤ prec p) ∧
      ∀ p, r.top = some p → prec o < prec p

def insert (o : O) (t : T) : Tree O T → Tree O T
  | leaf u => node o (leaf u) (leaf t)
  | node p l r =>
      if prec o ≤ prec p then node o (node p l r) (leaf t) else node p l (insert o t r)

def extend (e : Tree O T) (items : List (O × T)) : Tree O T :=
  items.foldl (fun e item => e.insert prec item.1 item.2) e

variable {prec} {e e' : Tree O T} {o : O} {t : T}

@[simp]
theorem first_insert : (e.insert prec o t).first = e.first := by
  cases e with
  | leaf u => rfl
  | node p l r =>
      rw [insert]
      split <;> rfl

@[simp]
theorem rest_insert : (e.insert prec o t).rest = e.rest ++ [(o, t)] := by
  induction e with
  | leaf u => rfl
  | node p l r _ ih =>
      rw [insert]
      split
      · rfl
      · simp [rest, ih]

theorem top_insert {q : O} (h : (e.insert prec o t).top = some q) :
    q = o ∨ (e.top = some q ∧ prec q < prec o) := by
  cases e with
  | leaf u => exact .inl (Option.some.inj h).symm
  | node p l r =>
      rw [insert] at h
      split at h
      · exact .inl (Option.some.inj h).symm
      next hlt =>
        obtain rfl := Option.some.inj h
        exact .inr ⟨rfl, not_le.mp hlt⟩

theorem Fits.insert (h : e.Fits prec) : (e.insert prec o t).Fits prec := by
  induction e with
  | leaf u => exact ⟨trivial, trivial, fun p hp => (by cases hp), fun p hp => (by cases hp)⟩
  | node p l r _ ih =>
      obtain ⟨hl, hr, hleft, hright⟩ := h
      rw [Tree.insert]
      split
      next hle =>
        refine ⟨⟨hl, hr, hleft, hright⟩, trivial, fun q hq => ?_, fun q hq => (by cases hq)⟩
        obtain rfl := Option.some.inj hq
        exact hle
      next hlt =>
        refine ⟨hl, ih hr, hleft, fun q hq => ?_⟩
        rcases top_insert hq with rfl | ⟨htop, -⟩
        · exact not_le.mp hlt
        · exact hright q htop

theorem Fits.extend (h : e.Fits prec) (items : List (O × T)) : (e.extend prec items).Fits prec := by
  induction items generalizing e with
  | nil => exact h
  | cons item items ih => exact ih h.insert

theorem first_extend (items : List (O × T)) : (e.extend prec items).first = e.first := by
  induction items generalizing e with
  | nil => rfl
  | cons item items ih => exact ih.trans first_insert

theorem rest_extend (items : List (O × T)) : (e.extend prec items).rest = e.rest ++ items := by
  induction items generalizing e with
  | nil => exact (List.append_nil _).symm
  | cons item items ih =>
      refine ih.trans ?_
      rw [rest_insert, List.append_assoc]
      rfl

theorem Fits.le_rest {k : ℕ} (h : e.Fits prec) (hk : ∀ p, e.top = some p → k ≤ prec p) :
    ∀ item ∈ e.rest, k ≤ prec item.1 := by
  induction e with
  | leaf u => exact fun item hitem => absurd hitem List.not_mem_nil
  | node p l r ihl ihr =>
      obtain ⟨hl, hr, hleft, hright⟩ := h
      have hp := hk p rfl
      intro item hitem
      rcases List.mem_append.mp hitem with hitem | hitem
      · exact ihl hl (fun q hq => hp.trans (hleft q hq)) item hitem
      · rcases List.mem_cons.mp hitem with rfl | hitem
        · exact hp
        · exact ihr hr (fun q hq => hp.trans (hright q hq).le) item hitem

theorem insert_of_le (h : ∀ p, e.top = some p → prec o ≤ prec p) :
    e.insert prec o t = node o e (leaf t) := by
  cases e with
  | leaf u => rfl
  | node p l r => rw [insert, if_pos (h p rfl)]

theorem extend_node {l r : Tree O T} {items : List (O × T)}
    (h : ∀ item ∈ items, prec o < prec item.1) :
    (node o l r).extend prec items = node o l (r.extend prec items) := by
  induction items generalizing r with
  | nil => rfl
  | cons item items ih =>
      have hitem := h item List.mem_cons_self
      change ((node o l r).insert prec item.1 item.2).extend prec items = _
      rw [insert, if_neg (not_le.mpr hitem),
        ih fun item hmem => h item (List.mem_cons_of_mem _ hmem)]
      rfl

theorem Fits.extend_first (h : e.Fits prec) : (leaf e.first).extend prec e.rest = e := by
  induction e with
  | leaf u => rfl
  | node p l r ihl ihr =>
      obtain ⟨hl, hr, hleft, hright⟩ := h
      have hitems : ∀ item ∈ r.rest, prec p < prec item.1 := hr.le_rest hright
      calc (leaf l.first).extend prec (l.rest ++ (p, r.first) :: r.rest)
          = (((leaf l.first).extend prec l.rest).insert prec p r.first).extend prec r.rest := by
            rw [Tree.extend, List.foldl_append]
            rfl
        _ = (node p l (leaf r.first)).extend prec r.rest := by rw [ihl hl, insert_of_le hleft]
        _ = node p l r := by rw [extend_node hitems, ihr hr]

theorem Fits.unique (h : e.Fits prec) (h' : e'.Fits prec) (hfirst : e.first = e'.first)
    (hrest : e.rest = e'.rest) : e = e' := by
  rw [← h.extend_first, ← h'.extend_first, hfirst, hrest]

theorem Fits.le_operators {k : ℕ} (h : e.Fits prec) (hk : ∀ p, e.top = some p → k ≤ prec p) :
    ∀ p ∈ e.operators, k ≤ prec p := by
  induction e with
  | leaf u => exact fun p hp => absurd hp List.not_mem_nil
  | node q l r _ ih =>
      obtain ⟨-, hr, -, hright⟩ := h
      have hq := hk q rfl
      intro p hp
      rcases List.mem_append.mp hp with hp | hp
      · exact ih hr (fun p hp => hq.trans (hright p hp).le) p hp
      · rw [List.mem_singleton.mp hp]
        exact hq

end Fits

/-! ## The stacks -/

section Stacks

variable {E : Type*} (join : O → E → E → E)

def value : Tree O E → E
  | leaf t => t
  | node o l r => join o l.value r.value

def terms : Tree O E → List E
  | leaf t => [t]
  | node _ l r => r.terms ++ [l.value join]

theorem length_terms (e : Tree O E) : (e.terms join).length = e.operators.length + 1 := by
  induction e with
  | leaf t => rfl
  | node o l r _ ih =>
      rw [terms, operators, List.length_append, List.length_append, ih]
      rfl

end Stacks

end Tree

section Reduce

variable {E : Type*} (prec : O → ℕ) (join : O → E → E → E)

def reduce (o : O) : List O → List E → List O × List E
  | p :: ops, right :: left :: ts =>
      if prec p < prec o then (p :: ops, right :: left :: ts)
      else reduce o ops (join p left right :: ts)
  | ops, ts => (ops, ts)

def collapse : List O → List E → List E
  | p :: ops, right :: left :: ts => collapse ops (join p left right :: ts)
  | _, ts => ts

variable {prec join} {o : O} {ops : List O} {ts : List E}

theorem reduce_stop (h : ∀ p, ops.head? = some p → prec p < prec o) :
    reduce prec join o ops ts = (ops, ts) := by
  match ops, ts with
  | [], ts => rfl
  | p :: ops, [] => rfl
  | p :: ops, [t] => rfl
  | p :: ops, right :: left :: ts => rw [reduce, if_pos (h p rfl)]

theorem reduce_tree {e : Tree O E} (h : ∀ p ∈ e.operators, prec o ≤ prec p) :
    reduce prec join o (e.operators ++ ops) (e.terms join ++ ts) =
      reduce prec join o ops (e.value join :: ts) := by
  induction e generalizing ops ts with
  | leaf t => rfl
  | node p l r _ ih =>
      rw [Tree.operators, Tree.terms, List.append_assoc, List.append_assoc,
        ih fun q hq => h q (List.mem_append_left _ hq)]
      have hp := h p (List.mem_append_right _ (List.mem_singleton_self p))
      exact if_neg (not_lt.mpr hp)

theorem reduce_fits_append {e : Tree O E} (hfits : e.Fits prec)
    (hstop : ∀ p, ops.head? = some p → prec p < prec o) (t : E) :
    ∃ ops' ts', reduce prec join o (e.operators ++ ops) (e.terms join ++ ts) =
        (ops' ++ ops, ts' ++ ts) ∧
      (e.insert prec o t).operators = o :: ops' ∧ (e.insert prec o t).terms join = t :: ts' := by
  induction e generalizing ops ts with
  | leaf u => exact ⟨[], [u], reduce_stop hstop, rfl, rfl⟩
  | node p l r _ ih =>
      rw [Tree.insert]
      split
      next hle =>
        have hall := hfits.le_operators (k := prec o) fun q hq => by
          obtain rfl := Option.some.inj hq
          exact hle
        exact ⟨[], [(Tree.node p l r).value join], (reduce_tree hall).trans (reduce_stop hstop),
          rfl, rfl⟩
      next hlt =>
        obtain ⟨ops', ts', hreduce, hops, hts⟩ := @ih (p :: ops) (l.value join :: ts) hfits.2.1
          fun q hq => by
            obtain rfl := Option.some.inj hq
            exact not_le.mp hlt
        refine ⟨ops' ++ [p], ts' ++ [l.value join], ?_, ?_, ?_⟩
        · simpa [Tree.operators, Tree.terms] using hreduce
        · rw [Tree.operators, hops]
          rfl
        · rw [Tree.terms, hts]
          rfl

theorem collapse_tree_append (e : Tree O E) :
    collapse join (e.operators ++ ops) (e.terms join ++ ts) =
      collapse join ops (e.value join :: ts) := by
  induction e generalizing ops ts with
  | leaf t => rfl
  | node p l r _ ih =>
      rw [Tree.operators, Tree.terms, List.append_assoc, List.append_assoc, ih]
      rfl

variable (join)

theorem reduce_fits (o : O) {e : Tree O E} (hfits : e.Fits prec) (t : E) :
    ∃ ops' ts', reduce prec join o e.operators (e.terms join) = (ops', ts') ∧
      (e.insert prec o t).operators = o :: ops' ∧
      (e.insert prec o t).terms join = t :: ts' := by
  obtain ⟨ops', ts', hreduce, hops, hts⟩ := @reduce_fits_append _ _ prec join o [] [] e hfits
    (fun p hp => (by cases hp)) t
  simp only [List.append_nil] at hreduce
  exact ⟨ops', ts', hreduce, hops, hts⟩

theorem collapse_tree (e : Tree O E) :
    collapse join e.operators (e.terms join) = [e.value join] := by
  have h := @collapse_tree_append _ _ join [] [] e
  rw [List.append_nil, List.append_nil] at h
  exact h

end Reduce

end Precedence
