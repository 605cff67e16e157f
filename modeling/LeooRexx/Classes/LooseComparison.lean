import LeooRexx.Classes.StrictComparison
import LeooRexx.NumberString.Compare
import Mathlib.Data.List.DropRight

/-!
# Loose comparison

`RexxString::comp`: two numbers are compared as numbers, and other strings without their leading
blanks and tabs.  What the longer string has behind the common part is compared with blanks, where
a tab counts as a blank; within the common part it does not.
-/

namespace LeooRexx

open CompoundTail (memcmp)
open NumberString (isBlank chBlank chTab)

namespace RexxString

def remainder : List UInt8 → Int
  | [] => 0
  | current :: rest => if isBlank current then remainder rest else (current.toNat : Int) - 32

def compStripped (first second : List UInt8) : Int :=
  if second.length ≤ first.length then
    let result := memcmp first second
    if result = 0 ∧ first.length ≠ second.length then remainder (first.drop second.length)
    else result
  else
    let result := memcmp first second
    if result = 0 then -remainder (second.drop first.length) else result

def compText (this other : List UInt8) : Int :=
  compStripped (this.dropWhile isBlank) (other.dropWhile isBlank)

def comp (s : Settings) (this other : List UInt8) : Outcome Int :=
  match NumberString.newInstance s this, NumberString.newInstance s other with
  | some firstNum, some secondNum => firstNum.comp s secondNum
  | _, _ => .ok (compText this other)

/-! ## The laws of a comparison -/

def SamePadded (a a' : List UInt8) : Prop :=
  ∃ core l r l' r', (∀ c ∈ l ++ r ++ l' ++ r', isBlank c) ∧ a = l ++ core ++ r ∧
    a' = l' ++ core ++ r'

/-- The sign of the comparison does not change with the blanks and tabs around its operands. -/
def IgnoresPadding (compare : List UInt8 → List UInt8 → Outcome Int) (a b : List UInt8) : Prop :=
  (∀ a', SamePadded a a' →
      (compare a' b).map Int.sign = (compare a b).map Int.sign) ∧
    ∀ b', SamePadded b b' → (compare a b').map Int.sign = (compare a b).map Int.sign

def Antisymmetric (compare : List UInt8 → List UInt8 → Outcome Int) (a b : List UInt8) : Prop :=
  (compare b a).map Int.sign = (compare a b).map fun r => -r.sign

def TransitiveOn (compare : List UInt8 → List UInt8 → Outcome Int) (a b c : List UInt8) : Prop :=
  compare a a = .ok 0 ∧
    (compare a b = .ok 0 → compare b c = .ok 0 → compare a c = .ok 0) ∧
    ∀ r r', compare a b = .ok r → compare b c = .ok r' → r ≤ 0 → r' ≤ 0 →
      ∃ r'', compare a c = .ok r'' ∧ r'' ≤ 0 ∧ (r < 0 ∨ r' < 0 → r'' < 0)

structure LooseLaws (compare : List UInt8 → List UInt8 → Outcome Int) (a b c : List UInt8) :
    Prop where
  antisymmetric : Antisymmetric compare a b ∧ Antisymmetric compare b c ∧ Antisymmetric compare a c
  transitive : TransitiveOn compare a b c
  padding : IgnoresPadding compare a b ∧ IgnoresPadding compare b c ∧ IgnoresPadding compare a c

/-! ## Where tabs do no harm -/

def body (a : List UInt8) : List UInt8 := (a.dropWhile isBlank).rdropWhile isBlank

/-- What the longer string has behind the common part: with the first other character above a blank
only blanks are before it, with one below a tab only tabs. -/
def SettledRest (rest : List UInt8) : Prop :=
  ∃ blanks e after, rest = blanks ++ e :: after ∧
    (32 < e ∧ (∀ c ∈ blanks, c = chBlank) ∨ e < 9 ∧ ∀ c ∈ blanks, c = chTab)

/-- The first character that differs is in both strings, or the rest of the longer one is settled;
and equal strings have no blanks at their ends. -/
def Settled (a b : List UInt8) : Prop :=
  body a = [] ∨ body b = [] ∨
    body a = body b ∧ a.dropWhile isBlank = body a ∧ b.dropWhile isBlank = body b ∨
    (∃ rest, body b = body a ++ rest ∧ SettledRest rest) ∨
    (∃ rest, body a = body b ++ rest ∧ SettledRest rest) ∨
    ¬ body a <+: body b ∧ ¬ body b <+: body a

/-! ## The comparison character by character -/

theorem compStripped_cons (x y : UInt8) (u v : List UInt8) :
    compStripped (x :: u) (y :: v) =
      if x = y then compStripped u v else (x.toNat : Int) - y.toNat := by
  by_cases hxy : x = y
  · simp [compStripped, memcmp, hxy]
  · have hne : (x.toNat : Int) - y.toNat ≠ 0 := by
      have := mt UInt8.toNat_inj.1 hxy
      omega
    simp [compStripped, memcmp, hxy, hne]

theorem compStripped_nil_left (v : List UInt8) : compStripped [] v = -remainder v := by
  cases v <;> simp [compStripped, memcmp, remainder]

theorem compStripped_nil_right (u : List UInt8) : compStripped u [] = remainder u := by
  cases u <;> simp [compStripped, memcmp, remainder]

theorem compStripped_antisymm (u v : List UInt8) : compStripped v u = -compStripped u v := by
  induction u generalizing v with
  | nil => rw [compStripped_nil_left, compStripped_nil_right, neg_neg]
  | cons x u ih =>
      cases v with
      | nil => rw [compStripped_nil_left, compStripped_nil_right]
      | cons y v =>
          rw [compStripped_cons, compStripped_cons]
          by_cases hxy : x = y
          · rw [if_pos hxy, if_pos hxy.symm, ih]
          · rw [if_neg hxy, if_neg (Ne.symm hxy)]
            omega

theorem compStripped_append (p u v : List UInt8) :
    compStripped (p ++ u) (p ++ v) = compStripped u v := by
  induction p with
  | nil => rfl
  | cons x p ih => rw [List.cons_append, List.cons_append, compStripped_cons, if_pos rfl, ih]

theorem remainder_blanks {blanks : List UInt8} (h : ∀ c ∈ blanks, isBlank c)
    (rest : List UInt8) : remainder (blanks ++ rest) = remainder rest := by
  induction blanks with
  | nil => rfl
  | cons c blanks ih =>
      rw [List.cons_append, remainder, if_pos (h c List.mem_cons_self)]
      exact ih fun x hx => h x (List.mem_cons_of_mem c hx)

theorem remainder_other {e : UInt8} (h : isBlank e = false) (rest : List UInt8) :
    remainder (e :: rest) = (e.toNat : Int) - 32 := by
  rw [remainder, h]
  rfl

theorem isBlank_iff {c : UInt8} : isBlank c ↔ c = 32 ∨ c = 9 := by
  simp [isBlank, chBlank, chTab]

theorem isBlank_eq_false {c : UInt8} : isBlank c = false ↔ c.toNat ≠ 32 ∧ c.toNat ≠ 9 := by
  rw [← Bool.not_eq_true, isBlank_iff, not_or]
  exact and_congr (not_congr UInt8.toNat_inj.symm) (not_congr UInt8.toNat_inj.symm)

/-! ## Bodies -/

theorem dropWhile_head {a u : List UInt8} {x : UInt8} (h : a.dropWhile isBlank = x :: u) :
    isBlank x = false := by
  have hne : a.dropWhile isBlank ≠ [] := by rw [h]; exact List.cons_ne_nil x u
  have hhead := List.head_dropWhile_not isBlank hne
  simpa only [h, List.head_cons] using hhead

theorem body_cons {a u : List UInt8} {x : UInt8} (h : body a = x :: u) : isBlank x = false := by
  obtain ⟨rest, hrest⟩ := List.rdropWhile_prefix isBlank (l := a.dropWhile isBlank)
  change body a ++ rest = _ at hrest
  rw [h] at hrest
  exact dropWhile_head hrest.symm

theorem exists_trailing (a : List UInt8) : ∃ w, (∀ c ∈ w, isBlank c) ∧
    a.dropWhile isBlank = body a ++ w ∧ (body a = [] → w = []) := by
  have hsplit : a.dropWhile isBlank = body a ++ (a.dropWhile isBlank).rtakeWhile isBlank :=
    (List.rdropWhile_append_rtakeWhile ..).symm
  have hblank : ∀ c ∈ (a.dropWhile isBlank).rtakeWhile isBlank, isBlank c := fun c hc =>
    List.mem_rtakeWhile_imp hc
  refine ⟨(a.dropWhile isBlank).rtakeWhile isBlank, hblank, hsplit, fun hnil => ?_⟩
  cases hw : (a.dropWhile isBlank).rtakeWhile isBlank with
  | nil => rfl
  | cons c w =>
      rw [hnil, hw] at hsplit
      have hother := dropWhile_head hsplit
      have := hblank c (by rw [hw]; exact List.mem_cons_self)
      rw [hother] at this
      cases this

theorem rdropWhile_append_blanks {r : List UInt8} (h : ∀ c ∈ r, isBlank c) (x : List UInt8) :
    (x ++ r).rdropWhile isBlank = x.rdropWhile isBlank := by
  have hall : r.reverse.dropWhile isBlank = [] :=
    List.dropWhile_eq_nil_iff.2 fun c hc => h c (List.mem_reverse.1 hc)
  rw [List.rdropWhile, List.reverse_append, List.dropWhile_append, hall]
  rfl

theorem body_padded {l r : List UInt8} (hl : ∀ c ∈ l, isBlank c) (hr : ∀ c ∈ r, isBlank c)
    (core : List UInt8) : body (l ++ core ++ r) = body core := by
  have hall (x : List UInt8) (hx : ∀ c ∈ x, isBlank c) : x.dropWhile isBlank = [] :=
    List.dropWhile_eq_nil_iff.2 hx
  rw [body, body, List.append_assoc, List.dropWhile_append, hall l hl]
  simp only [List.isEmpty_nil, if_true]
  rw [List.dropWhile_append]
  split
  · next hempty =>
    rw [hall r hr, List.isEmpty_iff.1 hempty]
  · exact rdropWhile_append_blanks hr _

theorem SamePadded.body_eq {a a' : List UInt8} (h : SamePadded a a') : body a' = body a := by
  obtain ⟨core, l, r, l', r', hblank, rfl, rfl⟩ := h
  simp only [List.mem_append] at hblank
  rw [body_padded (fun c hc => hblank c (by tauto)) (fun c hc => hblank c (by tauto)),
    body_padded (fun c hc => hblank c (by tauto)) (fun c hc => hblank c (by tauto))]

theorem samePadded_body (a : List UInt8) {r : List UInt8} (hr : ∀ c ∈ r, isBlank c) :
    SamePadded a (body a ++ r) := by
  obtain ⟨w, hw, hsplit, -⟩ := exists_trailing a
  refine ⟨body a, a.takeWhile isBlank, w, [], r, fun c hc => ?_, ?_, rfl⟩
  · simp only [List.append_nil, List.mem_append] at hc
    rcases hc with (hc | hc) | hc
    · exact List.mem_takeWhile_imp hc
    · exact hw c hc
    · exact hr c hc
  · rw [List.append_assoc, ← hsplit, List.takeWhile_append_dropWhile]

theorem dropWhile_body {a : List UInt8} (h : body a ≠ []) (r : List UInt8) :
    (body a ++ r).dropWhile isBlank = body a ++ r := by
  cases hbody : body a with
  | nil => exact absurd hbody h
  | cons x u => rw [List.cons_append, List.dropWhile_cons, body_cons hbody]; rfl

theorem rest_split {b u rest : List UInt8} (h : body b = u ++ rest) (hne : rest ≠ []) :
    ∃ blanks e after, rest = blanks ++ e :: after ∧ (∀ c ∈ blanks, isBlank c) ∧
      isBlank e = false := by
  cases hdrop : rest.dropWhile isBlank with
  | nil =>
      have hlast := List.rdropWhile_last_not isBlank (l := b.dropWhile isBlank)
        (by change body b ≠ []; rw [h]; simp [hne])
      refine absurd ?_ hlast
      change isBlank ((body b).getLast _)
      simp only [h]
      rw [List.getLast_append_of_ne_nil _ hne]
      exact List.dropWhile_eq_nil_iff.1 hdrop _ (List.getLast_mem hne)
  | cons e after =>
      refine ⟨rest.takeWhile isBlank, e, after, ?_, fun c hc => List.mem_takeWhile_imp hc,
        dropWhile_head hdrop⟩
      rw [← hdrop, List.takeWhile_append_dropWhile]

/-! ## Padded comparison -/

def paddedComp : Nat → List UInt8 → List UInt8 → Int
  | 0, _, _ => 0
  | n + 1, u, v =>
      if u.headD chBlank = v.headD chBlank then paddedComp n u.tail v.tail
      else ((u.headD chBlank).toNat : Int) - (v.headD chBlank).toNat

theorem paddedComp_self (n : Nat) (u : List UInt8) : paddedComp n u u = 0 := by
  induction n generalizing u with
  | zero => rfl
  | succ n ih => rw [paddedComp, if_pos rfl, ih]

theorem paddedComp_antisymm (n : Nat) (u v : List UInt8) :
    paddedComp n v u = -paddedComp n u v := by
  induction n generalizing u v with
  | zero => rfl
  | succ n ih =>
      rw [paddedComp, paddedComp]
      by_cases h : u.headD chBlank = v.headD chBlank
      · rw [if_pos h, if_pos h.symm, ih]
      · rw [if_neg h, if_neg (Ne.symm h)]
        omega

theorem paddedComp_trans (n : Nat) (u v w : List UInt8) (huv : paddedComp n u v ≤ 0)
    (hvw : paddedComp n v w ≤ 0) : paddedComp n u w ≤ 0 ∧
      (paddedComp n u v < 0 ∨ paddedComp n v w < 0 → paddedComp n u w < 0) := by
  induction n generalizing u v w with
  | zero => simp [paddedComp]
  | succ n ih =>
      simp only [paddedComp, ← UInt8.toNat_inj] at *
      split at huv <;> split at hvw
      · next h h' =>
        rw [if_pos h, if_pos h', if_pos (h.trans h')]
        exact ih _ _ _ huv hvw
      · next h h' =>
        rw [if_neg (by omega)]
        omega
      · next h h' =>
        rw [if_neg (by omega)]
        omega
      · next h h' =>
        rw [if_neg (by omega)]
        omega

theorem paddedComp_append (p u v : List UInt8) (n : Nat) :
    paddedComp (p.length + n) (p ++ u) (p ++ v) = paddedComp n u v := by
  induction p with
  | nil => rw [List.length_nil, Nat.zero_add]; rfl
  | cons x p ih =>
      rw [List.length_cons, Nat.add_right_comm, paddedComp]
      exact (if_pos rfl).trans ih

/-! ## Settled strings -/

theorem isBlank_cases {c : UInt8} (h : isBlank c) : c.toNat = 32 ∨ c.toNat = 9 := by
  rcases isBlank_iff.1 h with rfl | rfl <;> decide

/-- Every blank compared with the character `e`, or with the filler in front of it, gives the sign
unless it is the filler itself. -/
structure Decides (sign : Int) (filler e : UInt8) : Prop where
  blank : isBlank filler
  other : isBlank e = false
  ends : ∀ c, isBlank c → ((c.toNat : Int) - e.toNat).sign = sign
  fills : ∀ c, isBlank c → c ≠ filler → ((c.toNat : Int) - filler.toNat).sign = sign

theorem decides_above {e : UInt8} (he : 32 < e) : Decides (-1) chBlank e := by
  have he' : 32 < e.toNat := he
  refine ⟨rfl, isBlank_eq_false.2 (by omega), fun c hc => ?_, fun c hc hne => ?_⟩
  · have hblank := isBlank_cases hc
    exact Int.sign_eq_neg_one_of_neg (by omega)
  · obtain rfl := (isBlank_iff.1 hc).resolve_left hne
    rfl

theorem decides_below {e : UInt8} (he : e < 9) : Decides 1 chTab e := by
  have he' : e.toNat < 9 := he
  refine ⟨rfl, isBlank_eq_false.2 (by omega), fun c hc => ?_, fun c hc hne => ?_⟩
  · have hblank := isBlank_cases hc
    exact Int.sign_eq_one_of_pos (by omega)
  · obtain rfl := (isBlank_iff.1 hc).resolve_right hne
    rfl

section Filler

variable {sign : Int} {filler e : UInt8}

theorem Decides.compStripped_sign (h : Decides sign filler e) {blanks : List UInt8}
    (hblanks : ∀ c ∈ blanks, c = filler) (after : List UInt8) {r : List UInt8}
    (hr : ∀ c ∈ r, isBlank c) : (compStripped r (blanks ++ e :: after)).sign = sign := by
  induction blanks generalizing r with
  | nil =>
      cases r with
      | nil =>
          rw [compStripped_nil_left, List.nil_append, remainder_other h.other, Int.neg_sub]
          exact h.ends chBlank rfl
      | cons c r =>
          have hc := hr c List.mem_cons_self
          have hne : c ≠ e := fun heq => absurd h.other (by rw [← heq, hc]; decide)
          rw [List.nil_append, compStripped_cons, if_neg hne]
          exact h.ends c hc
  | cons b blanks ih =>
      obtain ⟨rfl, hblanks⟩ := List.forall_mem_cons.1 hblanks
      cases r with
      | nil =>
          have hrest := ih hblanks fun c hc => absurd hc List.not_mem_nil
          rw [compStripped_nil_left] at hrest ⊢
          rwa [List.cons_append, remainder, if_pos h.blank]
      | cons c r =>
          obtain ⟨hc, hr⟩ := List.forall_mem_cons.1 hr
          rw [List.cons_append, compStripped_cons]
          split
          · exact ih hblanks hr
          · next hne => exact h.fills c hc hne

theorem Decides.paddedComp_sign (h : Decides sign filler e) {blanks : List UInt8}
    (hblanks : ∀ c ∈ blanks, c = filler) (after : List UInt8) {n : Nat}
    (hn : (blanks ++ e :: after).length ≤ n) :
    (paddedComp n [] (blanks ++ e :: after)).sign = sign := by
  induction blanks generalizing n with
  | nil =>
      cases n with
      | zero => simp at hn
      | succ n =>
          have hne : chBlank ≠ e := fun heq => absurd h.other (by rw [← heq]; decide)
          rw [paddedComp, List.headD_nil, List.nil_append, List.headD_cons, if_neg hne]
          exact h.ends chBlank rfl
  | cons b blanks ih =>
      obtain ⟨rfl, hblanks⟩ := List.forall_mem_cons.1 hblanks
      cases n with
      | zero => simp at hn
      | succ n =>
          rw [paddedComp]
          split
          · exact ih hblanks (Nat.le_of_succ_le_succ hn)
          · next hne => exact h.fills chBlank rfl hne

end Filler

theorem settledRest_sign {rest : List UInt8} (h : SettledRest rest) :
    ∃ sign, (∀ r x, (∀ c ∈ r, isBlank c) → (compStripped r (rest ++ x)).sign = sign) ∧
      ∀ n, rest.length ≤ n → (paddedComp n [] rest).sign = sign := by
  obtain ⟨blanks, e, after, rfl, hsettled⟩ := h
  obtain ⟨sign, filler, hdecides, hblanks⟩ :
      ∃ sign filler, Decides sign filler e ∧ ∀ c ∈ blanks, c = filler := by
    rcases hsettled with ⟨he, hblanks⟩ | ⟨he, htabs⟩
    · exact ⟨-1, chBlank, decides_above he, hblanks⟩
    · exact ⟨1, chTab, decides_below he, htabs⟩
  refine ⟨sign, fun r x hr => ?_, fun n hn => hdecides.paddedComp_sign hblanks after hn⟩
  rw [List.append_assoc, List.cons_append]
  exact hdecides.compStripped_sign hblanks (after ++ x) hr

theorem exists_difference {u v : List UInt8} (huv : ¬ u <+: v) (hvu : ¬ v <+: u) :
    ∃ p x y u' v', x ≠ y ∧ u = p ++ x :: u' ∧ v = p ++ y :: v' := by
  induction u generalizing v with
  | nil => exact absurd List.nil_prefix huv
  | cons x u ih =>
      cases v with
      | nil => exact absurd List.nil_prefix hvu
      | cons y v =>
          by_cases hxy : x = y
          · subst hxy
            rw [List.prefix_cons_inj] at huv hvu
            obtain ⟨p, a, b, u', v', hab, rfl, rfl⟩ := ih huv hvu
            exact ⟨x :: p, a, b, u', v', hab, rfl, rfl⟩
          · exact ⟨[], x, y, u, v, hxy, rfl, rfl⟩

theorem nil_sign {b r : List UInt8} (hr : body b = [] → r = []) {n : Nat}
    (hn : (body b).length ≤ n) :
    (compStripped [] (body b ++ r)).sign = (paddedComp n [] (body b)).sign := by
  rw [compStripped_nil_left]
  cases hbody : body b with
  | nil =>
      rw [hr hbody, paddedComp_self]
      rfl
  | cons y v =>
      have hother := body_cons hbody
      have hy := isBlank_eq_false.1 hother
      rw [hbody] at hn
      cases n with
      | zero => simp at hn
      | succ n =>
          have hne : ¬ ([] : List UInt8).headD chBlank = (y :: v).headD chBlank := fun heq =>
            hy.1 (congrArg UInt8.toNat heq.symm)
          rw [List.cons_append, remainder_other hother, paddedComp, if_neg hne]
          congr 1
          change -((y.toNat : Int) - 32) = 32 - y.toNat
          omega

theorem rest_sign {u rest r r' : List UInt8} (hrest : SettledRest rest)
    (hr : ∀ c ∈ r, isBlank c) {n : Nat} (hn : (u ++ rest).length ≤ n) :
    (compStripped (u ++ r) (u ++ rest ++ r')).sign = (paddedComp n u (u ++ rest)).sign := by
  obtain ⟨sign, hblanks, hpadded⟩ := settledRest_sign hrest
  rw [List.length_append] at hn
  obtain ⟨k, rfl⟩ := Nat.exists_eq_add_of_le (Nat.le_of_add_right_le hn)
  have hnil := paddedComp_append u [] rest k
  rw [List.append_nil] at hnil
  rw [List.append_assoc, compStripped_append, hblanks r r' hr, hnil, hpadded k (by omega)]

theorem sign_neg_congr {x y : Int} (h : x.sign = y.sign) : (-x).sign = (-y).sign := by
  rw [Int.sign_neg, Int.sign_neg, h]

theorem settled_sign {a b : List UInt8} (h : Settled a b) {n : Nat} (hna : (body a).length ≤ n)
    (hnb : (body b).length ≤ n) {r r' : List UInt8} (hr : ∀ c ∈ r, isBlank c)
    (hr' : ∀ c ∈ r', isBlank c) (hra : body a = [] → r = []) (hrb : body b = [] → r' = [])
    (hsame : body a = body b → r = [] ∨ r' = []) :
    (compStripped (body a ++ r) (body b ++ r')).sign =
      (paddedComp n (body a) (body b)).sign := by
  rcases h with hnil | hnil | ⟨heq, -, -⟩ | ⟨rest, hrest, hsettled⟩ | ⟨rest, hrest, hsettled⟩ |
    ⟨huv, hvu⟩
  · rw [hra hnil, hnil]
    exact nil_sign hrb hnb
  · rw [hrb hnil, hnil, compStripped_antisymm, paddedComp_antisymm]
    exact sign_neg_congr (nil_sign hra hna)
  · have hzero : (compStripped (body b ++ r) (body b ++ r')) = 0 := by
      rw [compStripped_append]
      rcases hsame heq with rfl | rfl
      · rw [compStripped_nil_left, ← List.append_nil r', remainder_blanks hr']
        rfl
      · rw [compStripped_nil_right, ← List.append_nil r, remainder_blanks hr]
        rfl
    rw [heq, hzero, paddedComp_self]
  · rw [hrest] at hnb ⊢
    exact rest_sign hsettled hr hnb
  · rw [hrest] at hna ⊢
    rw [compStripped_antisymm, paddedComp_antisymm]
    exact sign_neg_congr (rest_sign hsettled hr' hna)
  · obtain ⟨p, x, y, u, v, hxy, hu, hv⟩ := exists_difference huv hvu
    rw [hu, List.length_append, List.length_cons] at hna
    obtain ⟨k, rfl⟩ : ∃ k, n = p.length + (k + 1) := ⟨n - p.length - 1, by omega⟩
    rw [hu, hv, List.append_assoc, List.append_assoc, compStripped_append, paddedComp_append,
      List.cons_append, List.cons_append, compStripped_cons, if_neg hxy, paddedComp]
    exact congrArg Int.sign (if_neg (by simpa using hxy)).symm

def TextIgnoresPadding (a b : List UInt8) : Prop :=
  (∀ a', SamePadded a a' → (compText a' b).sign = (compText a b).sign) ∧
    ∀ b', SamePadded b b' → (compText a b').sign = (compText a b).sign

theorem compText_antisymm (a b : List UInt8) : compText b a = -compText a b :=
  compStripped_antisymm _ _

theorem TextIgnoresPadding.symm {a b : List UInt8} (h : TextIgnoresPadding a b) :
    TextIgnoresPadding b a := by
  refine ⟨fun b' hb' => ?_, fun a' ha' => ?_⟩
  · rw [compText_antisymm a b', compText_antisymm a b]
    exact sign_neg_congr (h.2 b' hb')
  · rw [compText_antisymm a' b, compText_antisymm a b]
    exact sign_neg_congr (h.1 a' ha')

theorem Settled.compText_sign {a b : List UInt8} (h : Settled a b) {n : Nat}
    (hna : (body a).length ≤ n) (hnb : (body b).length ≤ n) :
    TextIgnoresPadding a b ∧ (compText a b).sign = (paddedComp n (body a) (body b)).sign := by
  obtain ⟨w, hw, hwa, hwnil⟩ := exists_trailing a
  obtain ⟨w', hw', hwb, hwnil'⟩ := exists_trailing b
  -- where the bodies are the same, settled strings have no blanks behind them
  have hsettled : body a = body b → (body a = [] ∧ w = [] ∧ w' = []) ∨ w = [] ∧ w' = [] := by
    intro heq
    rcases h with hnil | hnil | ⟨-, ha, hb⟩ | ⟨rest, hrest, blanks, e, after, rfl, -⟩ |
      ⟨rest, hrest, blanks, e, after, rfl, -⟩ | ⟨hno, -⟩
    · exact .inl ⟨hnil, hwnil hnil, hwnil' (heq ▸ hnil)⟩
    · exact .inl ⟨heq.trans hnil, hwnil (heq.trans hnil), hwnil' hnil⟩
    · rw [hwa] at ha
      rw [hwb] at hb
      exact .inr ⟨List.append_right_eq_self.1 ha, List.append_right_eq_self.1 hb⟩
    · rw [heq] at hrest
      have := List.append_right_eq_self.1 hrest.symm
      simp at this
    · rw [← heq] at hrest
      have := List.append_right_eq_self.1 hrest.symm
      simp at this
    · exact absurd (heq ▸ List.prefix_refl _) hno
  have hboth : body a = body b → w = [] ∧ w' = [] := fun heq =>
    (hsettled heq).elim (fun hall => hall.2) id
  have hown : (compText a b).sign = (paddedComp n (body a) (body b)).sign := by
    rw [compText, hwa, hwb]
    exact settled_sign h hna hnb hw hw' hwnil hwnil' fun heq => .inl (hboth heq).1
  refine ⟨⟨fun a' ha' => ?_, fun b' hb' => ?_⟩, hown⟩
  · obtain ⟨r, hr, hstrip, hrnil⟩ := exists_trailing a'
    rw [hown, compText, hstrip, hwb, ha'.body_eq]
    exact settled_sign h hna hnb hr hw' (fun hnil => hrnil (ha'.body_eq.trans hnil)) hwnil'
      fun heq => .inr (hboth heq).2
  · obtain ⟨r, hr, hstrip, hrnil⟩ := exists_trailing b'
    rw [hown, compText, hstrip, hwa, hb'.body_eq]
    exact settled_sign h hna hnb hw hr hwnil (fun hnil => hrnil (hb'.body_eq.trans hnil))
      fun heq => .inl (hboth heq).1

/-! ## Strings that are not settled -/

def otherBlank (c : UInt8) : UInt8 := if c = chTab then chBlank else chTab

theorem isBlank_otherBlank (c : UInt8) : isBlank (otherBlank c) ∧ (otherBlank c).toNat ≠ c.toNat := by
  rw [otherBlank]
  split
  · next hc =>
    subst hc
    decide
  · next hc => exact ⟨rfl, fun heq => hc (UInt8.toNat_inj.1 heq).symm⟩

theorem nil_of_sign {x : List UInt8} (hx : ∀ c ∈ x, isBlank c)
    (h : ∀ r, (∀ c ∈ r, isBlank c) → (compStripped r x).sign = (compStripped x x).sign) :
    x = [] := by
  cases x with
  | nil => rfl
  | cons c x =>
      obtain ⟨hblank, hne⟩ := isBlank_otherBlank c
      have hself : compStripped (c :: x) (c :: x) = 0 := by
        have := compStripped_append (c :: x) [] []
        rwa [List.append_nil] at this
      have hother := h [otherBlank c] fun y hy => by rwa [List.mem_singleton.1 hy]
      rw [hself, compStripped_cons, if_neg fun heq => hne (congrArg UInt8.toNat heq),
        Int.sign_zero, Int.sign_eq_zero_iff_zero] at hother
      omega

theorem settledRest_of_sign {blanks after : List UInt8} {e : UInt8}
    (hblanks : ∀ c ∈ blanks, isBlank c) (he : isBlank e = false) {sign : Int} {x : List UInt8}
    (h : ∀ r, (∀ c ∈ r, isBlank c) →
      (compStripped r (blanks ++ e :: after ++ x)).sign = sign) :
    SettledRest (blanks ++ e :: after) := by
  have hne := isBlank_eq_false.1 he
  have hnil := h [] fun c hc => absurd hc List.not_mem_nil
  rw [compStripped_nil_left, List.append_assoc, remainder_blanks hblanks, List.cons_append,
    remainder_other he] at hnil
  have htab := h (blanks ++ [chTab]) fun c hc => (List.mem_append.1 hc).elim (hblanks c)
    fun hc => by rw [List.mem_singleton.1 hc]; rfl
  rw [List.append_assoc, compStripped_append, List.cons_append, compStripped_cons,
    if_neg fun heq => hne.2 (congrArg UInt8.toNat heq.symm), ← hnil, RexxInteger.sign_eq_sign_iff] at htab
  have htabs : chTab.toNat = 9 := rfl
  rw [htabs] at htab
  -- a blank of the other kind before the first of one kind turns the sign
  have hturn (c : UInt8) (hc : c ∈ blanks) :
      ((otherBlank c).toNat : Int) - c.toNat < 0 ↔ -((e.toNat : Int) - 32) < 0 := by
    obtain ⟨before, rest, hsplit⟩ := List.append_of_mem hc
    obtain ⟨hblank, hother⟩ := isBlank_otherBlank c
    have hsign := h (before ++ [otherBlank c]) fun y hy => (List.mem_append.1 hy).elim
      (fun hy => hblanks y (by rw [hsplit]; exact List.mem_append_left _ hy))
      fun hy => by rwa [List.mem_singleton.1 hy]
    rw [hsplit, List.append_assoc, List.append_assoc, compStripped_append, List.cons_append,
      compStripped_cons, if_neg fun heq => hother (congrArg UInt8.toNat heq), ← hnil,
      RexxInteger.sign_eq_sign_iff] at hsign
    exact hsign.1
  refine ⟨blanks, e, after, rfl, ?_⟩
  rcases Nat.lt_or_ge 32 e.toNat with habove | hbelow
  · refine .inl ⟨habove, fun c hc => ?_⟩
    rcases isBlank_iff.1 (hblanks c hc) with hblank | hctab
    · exact hblank
    · have hsign := hturn c hc
      rw [hctab] at hsign
      have hvalue : ((otherBlank 9).toNat : Int) - (9 : UInt8).toNat = 23 := rfl
      rw [hvalue] at hsign
      omega
  · have hlow : e.toNat < 9 := by omega
    refine .inr ⟨hlow, fun c hc => ?_⟩
    rcases isBlank_iff.1 (hblanks c hc) with hblank | hctab
    · have hsign := hturn c hc
      rw [hblank] at hsign
      have hvalue : ((otherBlank 32).toNat : Int) - (32 : UInt8).toNat = -23 := rfl
      rw [hvalue] at hsign
      omega
    · exact hctab

theorem settled_of_prefix {a b rest : List UInt8} (h : TextIgnoresPadding a b)
    (hne : body a ≠ []) (hrest : body b = body a ++ rest) :
    rest = [] ∧ a.dropWhile isBlank = body a ∧ b.dropWhile isBlank = body b ∨
      SettledRest rest := by
  obtain ⟨w, hw, hwa, -⟩ := exists_trailing a
  obtain ⟨w', hw', hwb, -⟩ := exists_trailing b
  have hleft : ∀ r, (∀ c ∈ r, isBlank c) →
      (compStripped r (rest ++ w')).sign = (compText a b).sign := fun r hr => by
    rw [← h.1 _ (samePadded_body a hr), compText, dropWhile_body hne, hwb, hrest,
      List.append_assoc, compStripped_append]
  cases rest with
  | nil =>
      rw [List.append_nil] at hrest
      have hright : ∀ r, (∀ c ∈ r, isBlank c) →
          (compStripped w r).sign = (compText a b).sign := fun r hr => by
        rw [← h.2 _ (samePadded_body b hr), compText, dropWhile_body (hrest ▸ hne), hwa, hrest,
          compStripped_append]
      have hnil' : w' = [] := nil_of_sign hw' fun r hr => (hleft r hr).trans (hleft w' hw').symm
      have hnil : w = [] := nil_of_sign hw fun r hr => by
        have := (hright r hr).trans (hright w hw).symm
        rw [compStripped_antisymm w r, compStripped_antisymm w w]
        exact sign_neg_congr this
      refine .inl ⟨rfl, ?_, ?_⟩
      · rw [hwa, hnil, List.append_nil]
      · rw [hwb, hnil', List.append_nil]
  | cons d rest =>
      obtain ⟨blanks, e, after, hsplit, hblanks, he⟩ := rest_split hrest (List.cons_ne_nil d rest)
      rw [hsplit] at hleft ⊢
      exact .inr (settledRest_of_sign hblanks he hleft)

theorem settled_of_ignoresPadding {a b : List UInt8} (h : TextIgnoresPadding a b) :
    Settled a b := by
  by_cases ha : body a = []
  · exact .inl ha
  by_cases hb : body b = []
  · exact .inr (.inl hb)
  by_cases hab : body a <+: body b
  · obtain ⟨rest, hrest⟩ := hab
    rcases settled_of_prefix h ha hrest.symm with ⟨rfl, hda, hdb⟩ | hsettled
    · rw [List.append_nil] at hrest
      exact .inr (.inr (.inl ⟨hrest, hda, hdb⟩))
    · exact .inr (.inr (.inr (.inl ⟨rest, hrest.symm, hsettled⟩)))
  · by_cases hba : body b <+: body a
    · obtain ⟨rest, hrest⟩ := hba
      rcases settled_of_prefix h.symm hb hrest.symm with ⟨rfl, hdb, hda⟩ | hsettled
      · rw [List.append_nil] at hrest
        exact absurd (hrest ▸ List.prefix_refl _) hab
      · exact .inr (.inr (.inr (.inr (.inl ⟨rest, hrest.symm, hsettled⟩))))
    · exact .inr (.inr (.inr (.inr (.inr ⟨hab, hba⟩))))

/-! ## The laws -/

section Laws

variable {s : Settings} {a b c : List UInt8}

theorem comp_of_left (ha : NumberString.newInstance s a = none) (b : List UInt8) :
    comp s a b = .ok (compText a b) := by
  rw [comp, ha]

theorem comp_of_right (hb : NumberString.newInstance s b = none) (a : List UInt8) :
    comp s a b = .ok (compText a b) := by
  rw [comp, hb]
  cases NumberString.newInstance s a <;> rfl

theorem antisymmetric_comp (ha : NumberString.newInstance s a = none) :
    Antisymmetric (comp s) a b := by
  rw [Antisymmetric, comp_of_left ha, comp_of_right ha, compText_antisymm]
  exact congrArg Except.ok (Int.sign_neg ..)

theorem ignoresPadding_iff (ha : NumberString.newInstance s a = none)
    (hb : NumberString.newInstance s b = none) :
    IgnoresPadding (comp s) a b ↔ TextIgnoresPadding a b := by
  have hok (x y : Int) : (Except.ok x : Outcome Int).map Int.sign =
      (Except.ok y : Outcome Int).map Int.sign ↔ x.sign = y.sign := by
    change (Except.ok x.sign : Outcome Int) = .ok y.sign ↔ _
    exact ⟨fun h => by injection h, fun h => by rw [h]⟩
  simp only [IgnoresPadding, TextIgnoresPadding, comp_of_left ha, comp_of_right hb, hok]

theorem compText_self (a : List UInt8) : compText a a = 0 := by
  have := compStripped_append (a.dropWhile isBlank) [] []
  rwa [List.append_nil] at this

theorem transitiveOn_settled (ha : NumberString.newInstance s a = none)
    (hb : NumberString.newInstance s b = none) (hab : Settled a b) (hbc : Settled b c)
    (hac : Settled a c) : TransitiveOn (comp s) a b c := by
  let n := max (max (body a).length (body b).length) (body c).length
  have hna : (body a).length ≤ n := (le_max_left _ _).trans (le_max_left _ _)
  have hnb : (body b).length ≤ n := (le_max_right _ _).trans (le_max_left _ _)
  have hnc : (body c).length ≤ n := le_max_right _ _
  have hsab := (RexxInteger.sign_eq_sign_iff _ _).1 (hab.compText_sign hna hnb).2
  have hsbc := (RexxInteger.sign_eq_sign_iff _ _).1 (hbc.compText_sign hnb hnc).2
  have hsac := (RexxInteger.sign_eq_sign_iff _ _).1 (hac.compText_sign hna hnc).2
  have hforward := paddedComp_trans n (body a) (body b) (body c)
  have hbackward := paddedComp_trans n (body c) (body b) (body a)
  rw [paddedComp_antisymm n (body b) (body c), paddedComp_antisymm n (body a) (body b),
    paddedComp_antisymm n (body a) (body c)] at hbackward
  simp only [TransitiveOn, comp_of_left ha, comp_of_left hb, Except.ok.injEq, compText_self,
    true_and]
  refine ⟨fun h h' => by omega, ?_⟩
  rintro r r' rfl rfl hle hle'
  exact ⟨_, rfl, by omega, fun hlt => by omega⟩

/-- The laws hold for strings that are not numbers just where tabs do no harm. -/
theorem looseLaws_iff (ha : NumberString.newInstance s a = none)
    (hb : NumberString.newInstance s b = none) (hc : NumberString.newInstance s c = none) :
    LooseLaws (comp s) a b c ↔ Settled a b ∧ Settled b c ∧ Settled a c := by
  constructor
  · rintro ⟨-, -, hpab, hpbc, hpac⟩
    exact ⟨settled_of_ignoresPadding ((ignoresPadding_iff ha hb).1 hpab),
      settled_of_ignoresPadding ((ignoresPadding_iff hb hc).1 hpbc),
      settled_of_ignoresPadding ((ignoresPadding_iff ha hc).1 hpac)⟩
  · rintro ⟨hab, hbc, hac⟩
    exact ⟨⟨antisymmetric_comp ha, antisymmetric_comp hb, antisymmetric_comp ha⟩,
      transitiveOn_settled ha hb hab hbc hac,
      (ignoresPadding_iff ha hb).2 (hab.compText_sign (le_max_left _ _) (le_max_right _ _)).1,
      (ignoresPadding_iff hb hc).2 (hbc.compText_sign (le_max_left _ _) (le_max_right _ _)).1,
      (ignoresPadding_iff ha hc).2 (hac.compText_sign (le_max_left _ _) (le_max_right _ _)).1⟩

end Laws

/-- `'abc'` with a tab behind it is equal to `'abc'`, which is equal to `'abc '`. -/
theorem looseLaws_tab : NumberString.newInstance ⟨9, 0, .scientific⟩ [97, 98, 99, 9] = none ∧
    NumberString.newInstance ⟨9, 0, .scientific⟩ [97, 98, 99] = none ∧
    NumberString.newInstance ⟨9, 0, .scientific⟩ [97, 98, 99, 32] = none ∧
    ¬ LooseLaws (comp ⟨9, 0, .scientific⟩) [97, 98, 99, 9] [97, 98, 99] [97, 98, 99, 32] := by
  refine ⟨by decide, by decide, by decide, fun h => ?_⟩
  have hzero := h.transitive.2.1 (by decide) (by decide)
  revert hzero
  decide

theorem looseLaws_iff_abc : LooseLaws (comp ⟨9, 0, .scientific⟩) [97] [98] [99] :=
  (looseLaws_iff (by decide) (by decide) (by decide)).2
    ⟨.inr (.inr (.inr (.inr (.inr (by decide))))), .inr (.inr (.inr (.inr (.inr (by decide))))),
      .inr (.inr (.inr (.inr (.inr (by decide)))))⟩

end RexxString

end LeooRexx
