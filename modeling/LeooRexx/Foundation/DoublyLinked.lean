import LeooRexx.Foundation.Chain

/-!
# Doubly linked lists

The links forward from the first node and the links backward from the last one
visit the same nodes, in opposite orders.  What an insertion or a removal has to
change is stated for the values of the new links only.
-/

namespace Chain

variable {ι : Type*}

structure Doubly (next prev : ι → Option ι) (first last : Option ι) (l : List ι) : Prop where
  forward : Segment next first l none
  backward : Segment prev last l.reverse none

variable {next prev next' prev' : ι → Option ι} {first last : Option ι}

theorem Doubly.symm {l : List ι} (h : Doubly next prev first last l) :
    Doubly prev next last first l.reverse where
  forward := h.backward
  backward := by rw [List.reverse_reverse]; exact h.forward

theorem Doubly.nodup {l : List ι} (h : Doubly next prev first last l) : l.Nodup :=
  h.forward.nodup

theorem Doubly.nil : Doubly next prev none none [] := ⟨rfl, rfl⟩

theorem Doubly.congr {l : List ι} (h : Doubly next prev first last l)
    (hn : ∀ k ∈ l, next' k = next k) (hp : ∀ k ∈ l, prev' k = prev k) :
    Doubly next' prev' first last l where
  forward := h.forward.congr hn
  backward := h.backward.congr fun k hk => hp k (List.mem_reverse.mp hk)

theorem Doubly.first_eq {l : List ι} (h : Doubly next prev first last l) :
    first = l.head? := by
  cases l with
  | nil => exact h.forward
  | cons i l => exact h.forward.1

theorem Doubly.last_eq {l : List ι} (h : Doubly next prev first last l) :
    last = l.getLast? := by
  have hlast := h.symm.first_eq
  rwa [List.head?_reverse] at hlast

theorem Doubly.next_eq {xs ys : List ι} {i : ι}
    (h : Doubly next prev first last (xs ++ i :: ys)) : next i = ys.head? := by
  obtain ⟨r, -, -, hys⟩ := segment_append.mp h.forward
  cases ys with
  | nil => exact hys
  | cons j ys => exact hys.1

theorem Doubly.prev_eq {xs ys : List ι} {i : ι}
    (h : Doubly next prev first last (xs ++ i :: ys)) : prev i = xs.getLast? := by
  have hsymm := h.symm
  rw [List.reverse_append, List.reverse_cons, List.append_assoc, List.singleton_append] at hsymm
  rw [hsymm.next_eq, List.head?_reverse]

theorem Segment.join {p q : Option ι} {xs ys : List ι} (hxs : Segment next p xs q)
    (hys : Segment next q ys none) : Segment next p (xs ++ ys) none :=
  segment_append.mpr ⟨q, hxs, hys⟩

section Insert

variable {xs ys : List ι} {i j x : ι}

theorem Doubly.insertFront (h : Doubly next prev first last (j :: ys)) (hx : x ∉ j :: ys)
    (hnx : next' x = some j) (hn : ∀ k ≠ x, next' k = next k) (hpx : prev' x = none)
    (hpj : prev' j = some x) (hp : ∀ k, k ≠ x → k ≠ j → prev' k = prev k) :
    Doubly next' prev' (some x) last (x :: j :: ys) := by
  have hne : ∀ k ∈ j :: ys, k ≠ x := fun k hk hkx => hx (hkx ▸ hk)
  have hjys := (List.nodup_cons.mp h.nodup).1
  constructor
  · refine ⟨rfl, ?_⟩
    rw [hnx, ← (h.forward.1 : first = some j)]
    exact h.forward.congr fun k hk => hn k (hne k hk)
  · have hback := h.backward
    rw [List.reverse_cons, segment_concat] at hback
    rw [List.reverse_cons, List.reverse_cons, segment_concat, segment_concat]
    refine ⟨⟨hback.1.congr fun k hk => ?_, hpj⟩, hpx⟩
    have hk : k ∈ ys := List.mem_reverse.mp hk
    exact hp k (hne k (List.mem_cons_of_mem j hk)) fun hkj => hjys (hkj ▸ hk)

theorem Doubly.insertBack (h : Doubly next prev first last (xs ++ [i])) (hx : x ∉ xs ++ [i])
    (hpx : prev' x = some i) (hp : ∀ k ≠ x, prev' k = prev k) (hnx : next' x = none)
    (hni : next' i = some x) (hn : ∀ k, k ≠ x → k ≠ i → next' k = next k) :
    Doubly next' prev' first (some x) (xs ++ [i, x]) := by
  have hsymm := h.symm
  rw [List.reverse_append, List.reverse_singleton, List.singleton_append] at hsymm
  have hinsert := (hsymm.insertFront (x := x) (by simpa [or_comm] using hx) hpx hp hnx hni
    hn).symm
  simpa using hinsert

theorem Doubly.insertBetween (h : Doubly next prev first last (xs ++ i :: j :: ys))
    (hx : x ∉ xs ++ i :: j :: ys) (hni : next' i = some x) (hnx : next' x = some j)
    (hn : ∀ k, k ≠ x → k ≠ i → next' k = next k) (hpj : prev' j = some x)
    (hpx : prev' x = some i) (hp : ∀ k, k ≠ x → k ≠ j → prev' k = prev k) :
    Doubly next' prev' first last (xs ++ i :: x :: j :: ys) := by
  have hne : ∀ k ∈ xs ++ i :: j :: ys, k ≠ x := fun k hk hkx => hx (hkx ▸ hk)
  have hnodup := List.nodup_append.mp h.nodup
  constructor
  · obtain ⟨r, hxs, hr, hjys⟩ := segment_append.mp h.forward
    refine Segment.join (hxs.congr fun k hk => ?_) ⟨hr, ?_⟩
    · exact hn k (hne k (by simp [hk])) (hnodup.2.2 k hk i (by simp))
    · rw [hni]
      refine ⟨rfl, ?_⟩
      rw [hnx, ← (hjys.1 : next i = some j)]
      refine hjys.congr fun k hk => hn k (hne k (by simp_all)) ?_
      rintro rfl
      exact (List.nodup_cons.mp hnodup.2.1).1 hk
  · have hback := h.backward
    simp only [List.reverse_append, List.reverse_cons, List.append_assoc,
      List.singleton_append] at hback ⊢
    obtain ⟨r, hys, hr, hixs⟩ := segment_append.mp hback
    have hjys : j ∉ ys :=
      (List.nodup_cons.mp (List.nodup_cons.mp hnodup.2.1).2).1
    refine Segment.join (hys.congr fun k hk => ?_) ⟨hr, ?_⟩
    · have hk : k ∈ ys := List.mem_reverse.mp hk
      exact hp k (hne k (by simp [hk])) fun hkj => hjys (hkj ▸ hk)
    · rw [hpj]
      refine ⟨rfl, ?_⟩
      rw [hpx, ← (hixs.1 : prev j = some i)]
      refine hixs.congr fun k hk => hp k (hne k ?_) ?_
      · rcases List.mem_cons.mp hk with rfl | hk
        · simp
        · simp [List.mem_reverse.mp hk]
      · rintro rfl
        rcases List.mem_cons.mp hk with rfl | hk
        · exact (List.nodup_cons.mp hnodup.2.1).1 (by simp)
        · exact hnodup.2.2 k (List.mem_reverse.mp hk) k (by simp) rfl

end Insert

section Remove

variable {xs ys : List ι} {i : ι}

theorem Doubly.removeFirst {j : ι} (h : Doubly next prev first last (i :: j :: ys))
    (hn : ∀ k ≠ i, next' k = next k) (hpj : prev' j = none)
    (hp : ∀ k, k ≠ i → k ≠ j → prev' k = prev k) :
    Doubly next' prev' (some j) last (j :: ys) := by
  obtain ⟨hi, hnodup⟩ := List.nodup_cons.mp h.nodup
  have hne : ∀ k ∈ j :: ys, k ≠ i := fun k hk hki => hi (hki ▸ hk)
  constructor
  · have hrest := h.forward.2
    rw [(hrest.1 : next i = some j)] at hrest
    exact hrest.congr fun k hk => hn k (hne k hk)
  · have hback := h.backward
    rw [List.reverse_cons, segment_concat, List.reverse_cons, segment_concat] at hback
    rw [List.reverse_cons, segment_concat]
    refine ⟨hback.1.1.congr fun k hk => ?_, hpj⟩
    have hk : k ∈ ys := List.mem_reverse.mp hk
    exact hp k (hne k (List.mem_cons_of_mem j hk)) fun hkj =>
      (List.nodup_cons.mp hnodup).1 (hkj ▸ hk)

theorem Doubly.removeLast {j : ι} (h : Doubly next prev first last (xs ++ [j, i]))
    (hp : ∀ k ≠ i, prev' k = prev k) (hnj : next' j = none)
    (hn : ∀ k, k ≠ i → k ≠ j → next' k = next k) :
    Doubly next' prev' first (some j) (xs ++ [j]) := by
  have hsymm := h.symm
  rw [List.reverse_append] at hsymm
  have hremove := (hsymm.removeFirst hp hnj hn).symm
  simpa using hremove

theorem Doubly.removeBetween {a b : ι} (h : Doubly next prev first last (xs ++ a :: i :: b :: ys))
    (hna : next' a = some b) (hn : ∀ k, k ≠ i → k ≠ a → next' k = next k)
    (hpb : prev' b = some a) (hp : ∀ k, k ≠ i → k ≠ b → prev' k = prev k) :
    Doubly next' prev' first last (xs ++ a :: b :: ys) := by
  have hnodup := h.nodup
  simp only [List.nodup_append, List.nodup_cons, List.mem_cons, not_or] at hnodup
  obtain ⟨-, ⟨⟨hai, hab, hays⟩, ⟨hib, hiys⟩, hbys, -⟩, hcross⟩ := hnodup
  have hxsi : ∀ k ∈ xs, k ≠ i := fun k hk => hcross k hk i (by simp)
  have hxsa : ∀ k ∈ xs, k ≠ a := fun k hk => hcross k hk a (by simp)
  have hxsb : ∀ k ∈ xs, k ≠ b := fun k hk => hcross k hk b (by simp)
  constructor
  · obtain ⟨r, hxs, hr, hi, hb⟩ := segment_append.mp h.forward
    refine Segment.join (hxs.congr fun k hk => hn k (hxsi k hk) (hxsa k hk)) ⟨hr, ?_⟩
    rw [hna, ← (hb.1 : next i = some b)]
    refine hb.congr fun k hk => ?_
    rcases List.mem_cons.mp hk with rfl | hk
    · exact hn k (Ne.symm hib) (Ne.symm hab)
    · exact hn k (fun h => hiys (h ▸ hk)) fun h => hays (h ▸ hk)
  · have hback := h.backward
    simp only [List.reverse_append, List.reverse_cons, List.append_assoc,
      List.singleton_append] at hback ⊢
    obtain ⟨r, hys, hr, hi, ha⟩ := segment_append.mp hback
    refine Segment.join (hys.congr fun k hk => ?_) ⟨hr, ?_⟩
    · have hk : k ∈ ys := List.mem_reverse.mp hk
      exact hp k (fun h => hiys (h ▸ hk)) fun h => hbys (h ▸ hk)
    · rw [hpb, ← (ha.1 : prev i = some a)]
      refine ha.congr fun k hk => ?_
      rcases List.mem_cons.mp hk with rfl | hk
      · exact hp k hai hab
      · exact hp k (hxsi k (List.mem_reverse.mp hk)) (hxsb k (List.mem_reverse.mp hk))

end Remove

end Chain
