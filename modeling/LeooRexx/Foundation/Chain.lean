import Mathlib.Data.List.Nodup
import Mathlib.Logic.Function.Basic
import Mathlib.Tactic.Common

/-!
# Linked chains

A link function sends a node to its successor.  `Segment next p l q` says that
following the links from `p` visits the nodes `l` in this order and stops at
`q`.  A chain is a segment that stops at the end, `none`.
-/

namespace Chain

variable {ι : Type*}

def Segment (next : ι → Option ι) : Option ι → List ι → Option ι → Prop
  | p, [], q => p = q
  | p, i :: is, q => p = some i ∧ Segment next (next i) is q

@[simp] theorem segment_nil {next : ι → Option ι} {p q : Option ι} :
    Segment next p [] q ↔ p = q := Iff.rfl

@[simp] theorem segment_cons {next : ι → Option ι} {p q : Option ι} {i : ι} {is : List ι} :
    Segment next p (i :: is) q ↔ p = some i ∧ Segment next (next i) is q := Iff.rfl

theorem segment_append {next : ι → Option ι} {p q : Option ι} {xs ys : List ι} :
    Segment next p (xs ++ ys) q ↔ ∃ r, Segment next p xs r ∧ Segment next r ys q := by
  induction xs generalizing p with
  | nil => simp
  | cons x xs ih => simp [ih, and_assoc]

theorem segment_concat {next : ι → Option ι} {p q : Option ι} {xs : List ι} {i : ι} :
    Segment next p (xs ++ [i]) q ↔ Segment next p xs (some i) ∧ next i = q := by
  rw [segment_append]
  constructor
  · rintro ⟨r, hxs, hr, hq⟩
    exact ⟨hr ▸ hxs, hq⟩
  · rintro ⟨hxs, hq⟩
    exact ⟨some i, hxs, rfl, hq⟩

theorem Segment.congr {next next' : ι → Option ι} {p q : Option ι} {l : List ι}
    (h : Segment next p l q) (heq : ∀ i ∈ l, next' i = next i) : Segment next' p l q := by
  induction l generalizing p with
  | nil => exact h
  | cons i is ih =>
      obtain ⟨hp, his⟩ := h
      refine ⟨hp, ?_⟩
      rw [heq i List.mem_cons_self]
      exact ih his fun j hj => heq j (List.mem_cons_of_mem i hj)

theorem Segment.unique {next : ι → Option ι} {p : Option ι} {l l' : List ι}
    (h : Segment next p l none) (h' : Segment next p l' none) : l = l' := by
  induction l generalizing p l' with
  | nil =>
      cases l' with
      | nil => rfl
      | cons j js => exact absurd (h.symm.trans h'.1) (by simp)
  | cons i is ih =>
      cases l' with
      | nil => exact absurd (h.1.symm.trans h') (by simp)
      | cons j js =>
          obtain rfl : i = j := Option.some.inj (h.1.symm.trans h'.1)
          rw [ih h.2 h'.2]

theorem Segment.nodup {next : ι → Option ι} {p : Option ι} {l : List ι}
    (h : Segment next p l none) : l.Nodup := by
  induction l generalizing p with
  | nil => exact List.nodup_nil
  | cons i is ih =>
      refine List.nodup_cons.mpr ⟨fun hmem => ?_, ih h.2⟩
      obtain ⟨xs, ys, rfl⟩ := List.append_of_mem hmem
      obtain ⟨r, -, hr⟩ := segment_append.mp h.2
      have hlen := congrArg List.length (Segment.unique h.2 hr.2)
      simp at hlen
      omega

section Update

variable [DecidableEq ι]

theorem segment_update_of_notMem {next : ι → Option ι} {p q r : Option ι} {l : List ι}
    {i : ι} (h : i ∉ l) :
    Segment (Function.update next i r) p l q ↔ Segment next p l q := by
  have heq : ∀ j ∈ l, Function.update next i r j = next j := by
    intro j hj
    exact Function.update_of_ne (fun hji : j = i => h (hji ▸ hj)) ..
  exact ⟨fun hs => hs.congr fun j hj => (heq j hj).symm, fun hs => hs.congr heq⟩

theorem Segment.bypass {next : ι → Option ι} {p : Option ι} {xs ys : List ι} {i j : ι}
    (h : Segment next p (xs ++ i :: j :: ys) none) :
    Segment (Function.update next i (next j)) p (xs ++ i :: ys) none := by
  have hnodup := h.nodup
  obtain ⟨r, hxs, hr, hj, hys⟩ := segment_append.mp h
  have hdisj := List.nodup_append.mp hnodup
  have hixs : i ∉ xs := fun hi => hdisj.2.2 i hi i List.mem_cons_self rfl
  have hiys : i ∉ ys := fun hi =>
    (List.nodup_cons.mp hdisj.2.1).1 (List.mem_cons_of_mem j hi)
  refine segment_append.mpr ⟨r, (segment_update_of_notMem hixs).mpr hxs, hr, ?_⟩
  rw [Function.update_self]
  exact (segment_update_of_notMem hiys).mpr hys

theorem Segment.splice {next : ι → Option ι} {p : Option ι} {xs ys : List ι} {i j : ι}
    (h : Segment next p (xs ++ i :: ys) none) (hj : j ∉ xs ++ i :: ys) :
    Segment (Function.update (Function.update next j (next i)) i (some j)) p
      (xs ++ i :: j :: ys) none := by
  have hnodup := List.nodup_append.mp h.nodup
  obtain ⟨r, hxs, hr, hys⟩ := segment_append.mp h
  have hixs : i ∉ xs := fun hi => hnodup.2.2 i hi i List.mem_cons_self rfl
  have hiys : i ∉ ys := (List.nodup_cons.mp hnodup.2.1).1
  simp only [List.mem_append, List.mem_cons, not_or] at hj
  obtain ⟨hjxs, hji, hjys⟩ := hj
  refine segment_append.mpr ⟨r, ?_, hr, ?_⟩
  · rw [segment_update_of_notMem hixs, segment_update_of_notMem hjxs]
    exact hxs
  · rw [Function.update_self]
    refine ⟨rfl, ?_⟩
    rw [Function.update_of_ne hji, Function.update_self, segment_update_of_notMem hiys,
      segment_update_of_notMem hjys]
    exact hys

end Update

/-! ## Searching a chain -/

/--
Step along the links until a node passes the test, keeping the node before it.
The outer `none` means that the fuel ran out.
-/
def search (next : ι → Option ι) (test : ι → Bool) :
    ℕ → Option ι → ι → Option (Option (Option ι × ι))
  | 0, _, _ => none
  | fuel + 1, previous, position =>
      if test position then some (some (previous, position))
      else
        match next position with
        | none => some none
        | some position' => search next test fuel (some position) position'

theorem search_eq_none {next : ι → Option ι} {test : ι → Bool} {l : List ι} {i : ι}
    {fuel : ℕ} {previous : Option ι} (h : Segment next (some i) l none)
    (hfuel : l.length ≤ fuel) (htest : ∀ j ∈ l, test j = false) :
    search next test fuel previous i = some none := by
  induction l generalizing i fuel previous with
  | nil => exact absurd h (by simp)
  | cons j js ih =>
      obtain ⟨hi, hjs⟩ := h
      obtain rfl := Option.some.inj hi
      cases fuel with
      | zero => exact absurd hfuel (by simp)
      | succ fuel =>
          rw [search, if_neg (by simp [htest i List.mem_cons_self])]
          cases hnext : next i with
          | none => rfl
          | some i' =>
              rw [hnext] at hjs
              exact ih hjs (by simpa using hfuel)
                fun j hj => htest j (List.mem_cons_of_mem i hj)

theorem search_eq_some {next : ι → Option ι} {test : ι → Bool} {xs ys : List ι} {i j : ι}
    {fuel : ℕ} (previous : Option ι) (h : Segment next (some i) (xs ++ j :: ys) none)
    (hfuel : (xs ++ j :: ys).length ≤ fuel) (hxs : ∀ x ∈ xs, test x = false)
    (hj : test j = true) :
    search next test fuel previous i = some (some (xs.getLast?.or previous, j)) := by
  induction xs generalizing i fuel previous with
  | nil =>
      obtain rfl := Option.some.inj h.1
      cases fuel with
      | zero => exact absurd hfuel (by simp)
      | succ fuel => rw [search, if_pos hj]; rfl
  | cons x xs ih =>
      obtain ⟨hi, hrest⟩ := h
      obtain rfl := Option.some.inj hi
      cases fuel with
      | zero => exact absurd hfuel (by simp)
      | succ fuel =>
          rw [search, if_neg (by simp [hxs i List.mem_cons_self])]
          cases hnext : next i with
          | none =>
              rw [hnext] at hrest
              cases xs <;> exact absurd hrest.1 (by simp)
          | some i' =>
              rw [hnext] at hrest
              have hstep := ih (some i) hrest (by simpa using hfuel)
                fun y hy => hxs y (List.mem_cons_of_mem i hy)
              have hlast : xs.getLast?.or (some i) = ((i :: xs).getLast?).or previous := by
                cases xs <;> simp [List.getLast?_cons]
              simp only [hstep, hlast]

theorem search_first {next : ι → Option ι} (test : ι → Bool) {l : List ι} {i : ι} {fuel : ℕ}
    (h : Segment next (some i) l none) (hfuel : l.length ≤ fuel) :
    (∃ xs j ys, l = xs ++ j :: ys ∧ (∀ x ∈ xs, test x = false) ∧ test j = true ∧
      search next test fuel none i = some (some (xs.getLast?, j))) ∨
      ((∀ j ∈ l, test j = false) ∧ search next test fuel none i = some none) := by
  cases hfind : l.find? test with
  | none =>
      have htest : ∀ j ∈ l, test j = false := fun j hj => by
        simpa using List.find?_eq_none.mp hfind j hj
      exact .inr ⟨htest, search_eq_none h hfuel htest⟩
  | some j =>
      obtain ⟨hj, xs, ys, rfl, hxs⟩ := List.find?_eq_some_iff_append.mp hfind
      have hfirst : ∀ x ∈ xs, test x = false := fun x hx => by simpa using hxs x hx
      have hfound := search_eq_some none h hfuel hfirst hj
      exact .inl ⟨xs, j, ys, rfl, hfirst, hj, by simpa using hfound⟩

theorem search_cases {next : ι → Option ι} (test : ι → Bool) {l : List ι} {i : ι} {fuel : ℕ}
    (h : Segment next (some i) l none) (hfuel : l.length ≤ fuel) :
    (∃ xs j ys, l = xs ++ j :: ys ∧ test j = true ∧
      search next test fuel none i = some (some (xs.getLast?, j))) ∨
      ((∀ j ∈ l, test j = false) ∧ search next test fuel none i = some none) := by
  rcases search_first test h hfuel with ⟨xs, j, ys, hl, -, hj, hfound⟩ | hnone
  · exact .inl ⟨xs, j, ys, hl, hj, hfound⟩
  · exact .inr hnone

/-! ## Collecting along a chain -/

def collect (next : ι → Option ι) (test : ι → Bool) : ℕ → ι → Option (List ι)
  | 0, _ => none
  | fuel + 1, position => do
      let behind ←
        match next position with
        | none => some []
        | some position' => collect next test fuel position'
      some (if test position then position :: behind else behind)

theorem collect_eq {next : ι → Option ι} (test : ι → Bool) {l : List ι} {i : ι} {fuel : ℕ}
    (h : Segment next (some i) l none) (hfuel : l.length ≤ fuel) :
    collect next test fuel i = some (l.filter test) := by
  induction l generalizing i fuel with
  | nil => exact absurd h (by simp)
  | cons j js ih =>
      obtain ⟨hi, hjs⟩ := h
      obtain rfl := Option.some.inj hi
      cases fuel with
      | zero => exact absurd hfuel (by simp)
      | succ fuel =>
          rw [collect, List.filter_cons]
          cases hnext : next i with
          | none =>
              rw [hnext] at hjs
              cases js with
              | nil => rfl
              | cons k ks => exact absurd hjs.1 (by simp)
          | some i' =>
              rw [hnext] at hjs
              simp only [ih hjs (by simpa using hfuel)]
              rfl

end Chain
