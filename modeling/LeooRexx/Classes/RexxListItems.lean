import LeooRexx.Classes.RexxList

/-!
# The chain of the items of a list

What the methods that link a slot into the chain, or take one out, make of the
items.
-/

namespace LeooRexx

open Chain

namespace RexxList

variable {ν : Type} {t : RexxList ν}

def ptr (n : Int) : Option Int := if n = listEnd then none else some n

def nextLink (t : RexxList ν) (i : Int) : Option Int := ptr (t.entries i).next

def prevLink (t : RexxList ν) (i : Int) : Option Int := ptr (t.entries i).previous

@[simp] theorem ptr_listEnd : ptr listEnd = none := rfl

theorem ptr_of_nonneg {n : Int} (h : 0 ≤ n) : ptr n = some n :=
  if_neg (by rw [listEnd]; omega)

theorem ptr_eq_none {n : Int} : ptr n = none ↔ n = listEnd := by
  rw [ptr]
  split <;> simp_all

theorem ptr_eq_some {n i : Int} : ptr n = some i ↔ n = i ∧ n ≠ listEnd := by
  rw [ptr]
  split <;> simp_all

/-! ## Fields after an assignment -/

theorem entries_modify (t : RexxList ν) (i k : Int) (f : ListEntry ν → ListEntry ν) :
    (t.modify i f).entries k = if k = i then f (t.entries k) else t.entries k := by
  by_cases h : k = i
  · subst h
    simp [modify]
  · simp [modify, h]

@[simp] theorem nextLink_setNext (t : RexxList ν) (i n k : Int) :
    (t.setNext i n).nextLink k = if k = i then ptr n else t.nextLink k := by
  simp only [nextLink, setNext, entries_modify]
  split <;> rfl

@[simp] theorem prevLink_setNext (t : RexxList ν) (i n k : Int) :
    (t.setNext i n).prevLink k = t.prevLink k := by
  simp only [prevLink, setNext, entries_modify]
  split <;> rfl

@[simp] theorem nextLink_setPrevious (t : RexxList ν) (i n k : Int) :
    (t.setPrevious i n).nextLink k = t.nextLink k := by
  simp only [nextLink, setPrevious, entries_modify]
  split <;> rfl

@[simp] theorem prevLink_setPrevious (t : RexxList ν) (i n k : Int) :
    (t.setPrevious i n).prevLink k = if k = i then ptr n else t.prevLink k := by
  simp only [prevLink, setPrevious, entries_modify]
  split <;> rfl

@[simp] theorem nextLink_setValue (t : RexxList ν) (i k : Int) (value : Option ν) :
    (t.setValue i value).nextLink k = t.nextLink k := by
  simp only [nextLink, setValue, entries_modify]
  split <;> rfl

@[simp] theorem prevLink_setValue (t : RexxList ν) (i k : Int) (value : Option ν) :
    (t.setValue i value).prevLink k = t.prevLink k := by
  simp only [prevLink, setValue, entries_modify]
  split <;> rfl

@[simp] theorem nextLink_setFirst (t : RexxList ν) (i k : Int) :
    (t.setFirst i).nextLink k = t.nextLink k := rfl

@[simp] theorem prevLink_setFirst (t : RexxList ν) (i k : Int) :
    (t.setFirst i).prevLink k = t.prevLink k := rfl

@[simp] theorem nextLink_setLast (t : RexxList ν) (i k : Int) :
    (t.setLast i).nextLink k = t.nextLink k := rfl

@[simp] theorem prevLink_setLast (t : RexxList ν) (i k : Int) :
    (t.setLast i).prevLink k = t.prevLink k := rfl

@[simp] theorem first_setNext (t : RexxList ν) (i n : Int) :
    (t.setNext i n).first = t.first := rfl

@[simp] theorem last_setNext (t : RexxList ν) (i n : Int) :
    (t.setNext i n).last = t.last := rfl

@[simp] theorem first_setPrevious (t : RexxList ν) (i n : Int) :
    (t.setPrevious i n).first = t.first := rfl

@[simp] theorem last_setPrevious (t : RexxList ν) (i n : Int) :
    (t.setPrevious i n).last = t.last := rfl

@[simp] theorem first_setFirst (t : RexxList ν) (i : Int) : (t.setFirst i).first = i := rfl

@[simp] theorem first_setLast (t : RexxList ν) (i : Int) : (t.setLast i).first = t.first := rfl

@[simp] theorem last_setFirst (t : RexxList ν) (i : Int) : (t.setFirst i).last = t.last := rfl

@[simp] theorem last_setLast (t : RexxList ν) (i : Int) : (t.setLast i).last = i := rfl

theorem next_setPrevious (t : RexxList ν) (i n k : Int) :
    ((t.setPrevious i n).entries k).next = (t.entries k).next := by
  simp only [setPrevious, entries_modify]
  split <;> rfl

theorem previous_setNext (t : RexxList ν) (i n k : Int) :
    ((t.setNext i n).entries k).previous = (t.entries k).previous := by
  simp only [setNext, entries_modify]
  split <;> rfl

theorem previous_setPrevious (t : RexxList ν) (i n k : Int) :
    ((t.setPrevious i n).entries k).previous =
      if k = i then n else (t.entries k).previous := by
  simp only [setPrevious, entries_modify]
  split <;> rfl

/--
The lists differ in the links of the slots `s` and in the ends of the chain of
the items only.
-/
structure Relinked (s : List Int) (t t' : RexxList ν) : Prop where
  count : t'.count = t.count
  size : t'.size = t.size
  free : t'.free = t.free
  value : ∀ k, (t'.entries k).value = (t.entries k).value
  entries : ∀ k ∉ s, t'.entries k = t.entries k

theorem Relinked.refl (s : List Int) (t : RexxList ν) : Relinked s t t :=
  ⟨rfl, rfl, rfl, fun _ => rfl, fun _ _ => rfl⟩

section Relinked

variable {s : List Int} {t t' : RexxList ν} (h : Relinked s t t')

include h

theorem Relinked.setNext {i : Int} (hi : i ∈ s) (n : Int) : Relinked s t (t'.setNext i n) where
  count := h.count
  size := h.size
  free := h.free
  value := by
    intro k
    rw [← h.value k, RexxList.setNext, entries_modify]
    split <;> rfl
  entries := by
    intro k hk
    have hne : k ≠ i := fun hki => hk (hki ▸ hi)
    rw [RexxList.setNext, entries_modify, if_neg hne, h.entries k hk]

theorem Relinked.setPrevious {i : Int} (hi : i ∈ s) (n : Int) :
    Relinked s t (t'.setPrevious i n) where
  count := h.count
  size := h.size
  free := h.free
  value := by
    intro k
    rw [← h.value k, RexxList.setPrevious, entries_modify]
    split <;> rfl
  entries := by
    intro k hk
    have hne : k ≠ i := fun hki => hk (hki ▸ hi)
    rw [RexxList.setPrevious, entries_modify, if_neg hne, h.entries k hk]

theorem Relinked.setFirst (first : Int) : Relinked s t (t'.setFirst first) :=
  ⟨h.count, h.size, h.free, h.value, h.entries⟩

theorem Relinked.setLast (last : Int) : Relinked s t (t'.setLast last) :=
  ⟨h.count, h.size, h.free, h.value, h.entries⟩

end Relinked

/-! ## The items -/

structure Items (t : RexxList ν) (l : List Int) : Prop where
  chain : Doubly t.nextLink t.prevLink (ptr t.first) (ptr t.last) l
  nonneg : ∀ i ∈ l, 0 ≤ i

theorem Items.first_eq {i : Int} {l : List Int} (h : t.Items (i :: l)) : t.first = i :=
  (ptr_eq_some.mp h.chain.first_eq).1

theorem Items.last_eq {i : Int} {l : List Int} (h : t.Items (l ++ [i])) : t.last = i := by
  have hlast := h.chain.last_eq
  rw [List.getLast?_concat] at hlast
  exact (ptr_eq_some.mp hlast).1

theorem Items.last_eq_listEnd {l : List Int} (h : t.Items l) : t.last = listEnd ↔ l = [] := by
  rw [← ptr_eq_none, h.chain.last_eq, List.getLast?_eq_none_iff]

theorem Items.first_eq_listEnd {l : List Int} (h : t.Items l) :
    t.first = listEnd ↔ l = [] := by
  rw [← ptr_eq_none, h.chain.first_eq, List.head?_eq_none_iff]

theorem Items.next_eq {xs ys : List Int} {i : Int} (h : t.Items (xs ++ i :: ys)) :
    (t.entries i).next = ys.head?.getD listEnd := by
  have hnext : ptr (t.entries i).next = ys.head? := h.chain.next_eq
  cases hys : ys.head? with
  | none => exact ptr_eq_none.mp (hnext.trans hys)
  | some j => exact (ptr_eq_some.mp (hnext.trans hys)).1

theorem Items.previous_eq {xs ys : List Int} {i : Int} (h : t.Items (xs ++ i :: ys)) :
    (t.entries i).previous = xs.getLast?.getD listEnd := by
  have hprev : ptr (t.entries i).previous = xs.getLast? := h.chain.prev_eq
  cases hxs : xs.getLast? with
  | none => exact ptr_eq_none.mp (hprev.trans hxs)
  | some j => exact (ptr_eq_some.mp (hprev.trans hxs)).1

theorem Items.active {l : List Int} {i : Int} (h : t.Items l) (hi : i ∈ l) :
    (t.entries i).previous ≠ notActive := by
  obtain ⟨xs, ys, rfl⟩ := List.append_of_mem hi
  rw [h.previous_eq]
  cases hxs : xs.getLast? with
  | none => decide
  | some j =>
      have hj := h.nonneg j (by simp [List.mem_of_getLast? hxs])
      rw [Option.getD_some, notActive]
      omega

/-! ## Linking a slot -/

section Link

variable {x : Int} {xs ys : List Int}

theorem linkOnly_spec (hx : 0 ≤ x) :
    (t.linkOnly x).Items [x] ∧ Relinked [x] t (t.linkOnly x) := by
  refine ⟨⟨?_, by simpa using hx⟩, ?_⟩
  · have hptr := ptr_of_nonneg hx
    refine ⟨⟨hptr, ?_⟩, hptr, ?_⟩
    · simp [linkOnly]
    · simp [linkOnly]
  · exact ((((Relinked.refl [x] t).setFirst x).setLast x).setNext (by simp) _).setPrevious (by simp) _

theorem linkFront_spec {j : Int} (h : t.Items (j :: ys)) (hx : 0 ≤ x) (hnew : x ∉ j :: ys) :
    (t.linkFront x).Items (x :: j :: ys) ∧
      Relinked (x :: j :: ys) t (t.linkFront x) := by
  have hfirst := h.first_eq
  have hj := ptr_of_nonneg (h.nonneg j List.mem_cons_self)
  have hxj : x ≠ j := fun h => hnew (h ▸ List.mem_cons_self)
  have hmem : ∀ i ∈ x :: j :: ys, 0 ≤ i := List.forall_mem_cons.mpr ⟨hx, h.nonneg⟩
  refine ⟨⟨?_, hmem⟩, ?_⟩
  · have hends : ptr (t.linkFront x).first = some x := ptr_of_nonneg hx
    rw [hends]
    refine h.chain.insertFront hnew ?_ (fun k hk => ?_) ?_ ?_ fun k hkx hkj => ?_
    · simp [linkFront, hfirst, hj]
    · simp [linkFront, hk]
    · simp [linkFront, hfirst, hxj]
    · simp [linkFront, hfirst, ptr_of_nonneg hx]
    · simp [linkFront, hfirst, hkx, hkj]
  · have hlinks := (((Relinked.refl (x :: j :: ys) t).setNext (i := x) (by simp)
      t.first).setPrevious (i := x) (by simp) listEnd).setPrevious (i := t.first)
      (by simp [hfirst]) x
    exact hlinks.setFirst x

theorem linkBack_spec {i : Int} (h : t.Items (xs ++ [i])) (hx : 0 ≤ x)
    (hnew : x ∉ xs ++ [i]) :
    (t.linkBack x).Items (xs ++ [i, x]) ∧ Relinked (xs ++ [i, x]) t (t.linkBack x) := by
  have hlast := h.last_eq
  have hi := ptr_of_nonneg (h.nonneg i (by simp))
  have hxi : x ≠ i := fun h => hnew (by simp [h])
  have hmem : ∀ k ∈ xs ++ [i, x], 0 ≤ k := by
    intro k hk
    by_cases hkx : k = x
    · exact hkx ▸ hx
    · exact h.nonneg k (by simpa [hkx] using hk)
  refine ⟨⟨?_, hmem⟩, ?_⟩
  · have hends : ptr (t.linkBack x).last = some x := ptr_of_nonneg hx
    rw [hends]
    refine h.chain.insertBack hnew ?_ (fun k hk => ?_) ?_ ?_ fun k hkx hki => ?_
    · simp [linkBack, hlast, hi]
    · simp [linkBack, hk]
    · simp [linkBack, hlast, hxi]
    · simp [linkBack, hlast, ptr_of_nonneg hx]
    · simp [linkBack, hlast, hkx, hki]
  · have hlinks := (((Relinked.refl (xs ++ [i, x]) t).setPrevious (i := x) (by simp)
      t.last).setNext (i := x) (by simp) listEnd).setNext (i := t.last) (by simp [hlast]) x
    exact hlinks.setLast x

theorem linkBefore_spec {element : Int} (h : t.Items (xs ++ element :: ys)) (hx : 0 ≤ x)
    (hnew : x ∉ xs ++ element :: ys) :
    (t.linkBefore element x).Items (xs ++ x :: element :: ys) ∧
      Relinked (xs ++ x :: element :: ys) t (t.linkBefore element x) := by
  have he := ptr_of_nonneg (h.nonneg element (by simp))
  have hxe : element ≠ x := fun h => hnew (by simp [← h])
  have hptrx := ptr_of_nonneg hx
  have hprevious := h.previous_eq
  have hmem : ∀ k ∈ xs ++ x :: element :: ys, 0 ≤ k := by
    intro k hk
    by_cases hkx : k = x
    · exact hkx ▸ hx
    · exact h.nonneg k (by simpa [hkx] using hk)
  have hprev : ((t.setNext x element).entries element).previous =
      (t.entries element).previous := previous_setNext ..
  rcases List.eq_nil_or_concat' xs with rfl | ⟨xs, p, rfl⟩
  · rw [List.getLast?_nil, Option.getD_none] at hprevious
    have hlink : t.linkBefore element x = (((((t.setNext x element).setFirst x).setPrevious x
        listEnd).setPrevious element x).setNext x element) := by
      have hfirst : (((t.setNext x element).setFirst x).entries element).previous = listEnd :=
        hprev.trans hprevious
      simp only [linkBefore, hprev, hprevious, if_true, hfirst]
    rw [hlink]
    refine ⟨⟨?_, hmem⟩, ?_⟩
    · simp only [first_setNext, first_setPrevious, first_setFirst, last_setNext,
        last_setPrevious, last_setFirst, hptrx]
      refine h.chain.insertFront hnew ?_ (fun k hk => ?_) ?_ ?_ fun k hkx hke => ?_
      · simp [he]
      · simp [hk]
      · simp [hxe.symm]
      · simp [hptrx]
      · simp [hkx, hke]
    · exact (((((Relinked.refl _ t).setNext (by simp) _).setFirst x).setPrevious (by simp)
        _).setPrevious (by simp) _).setNext (by simp) _
  · have hp : 0 ≤ p := h.nonneg p (by simp)
    rw [List.getLast?_concat, Option.getD_some] at hprevious
    have hpe : p ≠ listEnd := by rw [listEnd]; omega
    have hlink : t.linkBefore element x = (((((t.setNext x element).setNext p x).setPrevious x
        p).setPrevious element x).setNext x element) := by
      have hsecond : (((t.setNext x element).setNext p x).entries element).previous = p := by
        rw [previous_setNext, previous_setNext, hprevious]
      simp only [linkBefore, hprev, hprevious, if_neg hpe, hsecond]
    have hxp : p ≠ x := fun h => hnew (by simp [← h])
    rw [hlink]
    refine ⟨⟨?_, hmem⟩, ?_⟩
    · simp only [first_setNext, first_setPrevious, last_setNext, last_setPrevious]
      have hchain := h.chain
      rw [List.append_assoc, List.singleton_append] at hchain hnew ⊢
      refine hchain.insertBetween hnew ?_ ?_ (fun k hkx hkp => ?_) ?_ ?_ fun k hkx hke => ?_
      · simp [hxp, hptrx]
      · simp [he]
      · simp [hkx, hkp]
      · simp [hptrx]
      · simp [hxe.symm, ptr_of_nonneg hp]
      · simp [hkx, hke]
    · exact (((((Relinked.refl _ t).setNext (by simp) _).setNext (by simp) _).setPrevious
        (by simp) _).setPrevious (by simp) _).setNext (by simp) _

theorem linkAfter_spec {element : Int} (h : t.Items (xs ++ element :: ys)) (hx : 0 ≤ x)
    (hnew : x ∉ xs ++ element :: ys) :
    (t.linkAfter element x).Items (xs ++ element :: x :: ys) ∧
      Relinked (xs ++ element :: x :: ys) t (t.linkAfter element x) := by
  have he := ptr_of_nonneg (h.nonneg element (by simp))
  have hxe : element ≠ x := fun h => hnew (by simp [← h])
  have hptrx := ptr_of_nonneg hx
  have hnexte := h.next_eq
  have hmem : ∀ k ∈ xs ++ element :: x :: ys, 0 ≤ k := by
    intro k hk
    by_cases hkx : k = x
    · exact hkx ▸ hx
    · exact h.nonneg k (by simpa [hkx] using hk)
  have hnext : ((t.setPrevious x element).entries element).next =
      (t.entries element).next := next_setPrevious ..
  cases ys with
  | nil =>
      rw [List.head?_nil, Option.getD_none] at hnexte
      have hlink : t.linkAfter element x = (((((t.setPrevious x element).setLast x).setNext x
          listEnd).setNext element x).setPrevious x element) := by
        have hlast : (((t.setPrevious x element).setLast x).entries element).next = listEnd :=
          hnext.trans hnexte
        simp only [linkAfter, hnext, hnexte, if_true, hlast]
      rw [hlink]
      refine ⟨⟨?_, hmem⟩, ?_⟩
      · simp only [first_setNext, first_setPrevious, first_setLast, last_setNext,
          last_setPrevious, last_setLast, hptrx]
        refine h.chain.insertBack hnew ?_ (fun k hk => ?_) ?_ ?_ fun k hkx hke => ?_
        · simp [he]
        · simp [hk]
        · simp [hxe.symm]
        · simp [hptrx]
        · simp [hkx, hke]
      · exact (((((Relinked.refl _ t).setPrevious (by simp) _).setLast x).setNext (by simp)
          _).setNext (by simp) _).setPrevious (by simp) _
  | cons n ys =>
      have hn : 0 ≤ n := h.nonneg n (by simp)
      rw [List.head?_cons, Option.getD_some] at hnexte
      have hne : n ≠ listEnd := by rw [listEnd]; omega
      have hlink : t.linkAfter element x = (((((t.setPrevious x element).setPrevious n
          x).setNext x n).setNext element x).setPrevious x element) := by
        have hsecond : (((t.setPrevious x element).setPrevious n x).entries element).next =
            n := by
          rw [next_setPrevious, next_setPrevious, hnexte]
        simp only [linkAfter, hnext, hnexte, if_neg hne, hsecond]
      have hxn : n ≠ x := fun h => hnew (by simp [← h])
      rw [hlink]
      refine ⟨⟨?_, hmem⟩, ?_⟩
      · simp only [first_setNext, first_setPrevious, last_setNext, last_setPrevious]
        refine h.chain.insertBetween hnew ?_ ?_ (fun k hkx hke => ?_) ?_ ?_ fun k hkx hkn => ?_
        · simp [hptrx]
        · simp [hxe.symm, ptr_of_nonneg hn]
        · simp [hkx, hke]
        · simp [hxn, hptrx]
        · simp [he]
        · simp [hkx, hkn]
      · exact (((((Relinked.refl _ t).setPrevious (by simp) _).setPrevious (by simp)
          _).setNext (by simp) _).setNext (by simp) _).setPrevious (by simp) _

end Link

/-! ## Taking a slot out -/

/-- The part of `removeSlot` that closes the chain of the items. -/
def unlink (t : RexxList ν) (element : Int) : RexxList ν :=
  let t :=
    if (t.entries element).next = listEnd then t.setLast (t.entries element).previous
    else t.setPrevious (t.entries element).next (t.entries element).previous
  if (t.entries element).previous = listEnd then t.setFirst (t.entries element).next
  else t.setNext (t.entries element).previous (t.entries element).next

theorem unlink_spec {element : Int} {xs ys : List Int} (h : t.Items (xs ++ element :: ys)) :
    (t.unlink element).Items (xs ++ ys) ∧ Relinked (xs ++ ys) t (t.unlink element) := by
  have hmem : ∀ k ∈ xs ++ ys, 0 ≤ k := fun k hk => by
    rcases List.mem_append.mp hk with hk | hk
    · exact h.nonneg k (by simp [hk])
    · exact h.nonneg k (by simp [hk])
  have hprevious := h.previous_eq
  have hnext := h.next_eq
  have hnodup := h.chain.nodup
  rcases List.eq_nil_or_concat' xs with rfl | ⟨xs, p, rfl⟩
  · rw [List.getLast?_nil, Option.getD_none] at hprevious
    cases ys with
    | nil =>
        rw [List.head?_nil, Option.getD_none] at hnext
        have hlink : t.unlink element = (t.setLast listEnd).setFirst listEnd := by
          have hprev : ((t.setLast listEnd).entries element).previous = listEnd := hprevious
          have hnext' : ((t.setLast listEnd).entries element).next = listEnd := hnext
          simp only [unlink, hnext, hprevious, if_true, hprev, hnext']
        rw [hlink]
        exact ⟨⟨⟨rfl, rfl⟩, hmem⟩, ((Relinked.refl _ t).setLast _).setFirst _⟩
    | cons n ys =>
        have hn : 0 ≤ n := h.nonneg n (by simp)
        have hne : element ≠ n := fun h => by simp [h] at hnodup
        rw [List.head?_cons, Option.getD_some] at hnext
        have hlink : t.unlink element = (t.setPrevious n listEnd).setFirst n := by
          have hprev : ((t.setPrevious n listEnd).entries element).previous = listEnd := by
            rw [previous_setPrevious, if_neg hne, hprevious]
          have hnlist : n ≠ listEnd := by rw [listEnd]; omega
          have hnext' : ((t.setPrevious n listEnd).entries element).next = n := by
            rw [next_setPrevious, hnext]
          simp only [unlink, hnext, hprevious, if_neg hnlist, if_true, hprev, hnext']
        rw [hlink]
        refine ⟨⟨?_, hmem⟩, ((Relinked.refl _ t).setPrevious (by simp) _).setFirst _⟩
        rw [first_setFirst, last_setFirst, last_setPrevious, ptr_of_nonneg hn]
        refine h.chain.removeFirst (fun k hk => ?_) ?_ fun k hk hkn => ?_
        · simp
        · simp
        · simp [hkn]
  · have hp : 0 ≤ p := h.nonneg p (by simp)
    have hplist : p ≠ listEnd := by rw [listEnd]; omega
    have hpe : element ≠ p := fun h => by simp [h, List.nodup_append] at hnodup
    rw [List.getLast?_concat, Option.getD_some] at hprevious
    cases ys with
    | nil =>
        rw [List.head?_nil, Option.getD_none] at hnext
        have hlink : t.unlink element = (t.setLast p).setNext p listEnd := by
          have hprev : ((t.setLast p).entries element).previous = p := hprevious
          have hnext' : ((t.setLast p).entries element).next = listEnd := hnext
          simp only [unlink, hnext, hprevious, if_true, if_neg hplist, hprev, hnext']
        rw [hlink]
        refine ⟨⟨?_, hmem⟩, ((Relinked.refl _ t).setLast _).setNext (by simp) _⟩
        rw [first_setNext, first_setLast, last_setNext, last_setLast, ptr_of_nonneg hp,
          List.append_nil]
        have hchain := h.chain
        rw [List.append_assoc, List.singleton_append] at hchain
        refine hchain.removeLast (fun k hk => ?_) ?_ fun k hk hkp => ?_
        · simp
        · simp
        · simp [hkp]
    | cons n ys =>
        have hn : 0 ≤ n := h.nonneg n (by simp)
        have hnlist : n ≠ listEnd := by rw [listEnd]; omega
        have hne : element ≠ n := fun h => by simp [h, List.nodup_append] at hnodup
        rw [List.head?_cons, Option.getD_some] at hnext
        have hlink : t.unlink element = (t.setPrevious n p).setNext p n := by
          have hprev : ((t.setPrevious n p).entries element).previous = p := by
            rw [previous_setPrevious, if_neg hne, hprevious]
          have hnext' : ((t.setPrevious n p).entries element).next = n := by
            rw [next_setPrevious, hnext]
          simp only [unlink, hnext, hprevious, if_neg hnlist, if_neg hplist, hprev, hnext']
        rw [hlink]
        refine ⟨⟨?_, hmem⟩, ((Relinked.refl _ t).setPrevious (by simp) _).setNext (by simp) _⟩
        rw [first_setNext, first_setPrevious, last_setNext, last_setPrevious]
        have hchain := h.chain
        rw [List.append_assoc, List.singleton_append] at hchain ⊢
        refine hchain.removeBetween ?_ (fun k hk hkp => ?_) ?_ fun k hk hkn => ?_
        · simp [ptr_of_nonneg hn]
        · simp [hkp]
        · simp [ptr_of_nonneg hp]
        · simp [hkn]

end RexxList

end LeooRexx
