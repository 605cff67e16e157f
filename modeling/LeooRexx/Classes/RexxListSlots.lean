import Mathlib.Data.List.Perm.Basic
import LeooRexx.Classes.RexxListItems

/-!
# The slots of a list

Every slot of the table is an item, is free, or has just been taken off the free
chain.  The methods move slots between the two chains.
-/

namespace LeooRexx

open Chain

namespace RexxList

variable {ν : Type} {t : RexxList ν}

/--
The slots `l` of the items, the free slots `f`, and the slots `d` in neither
chain, are all slots.
-/
structure Slots (t : RexxList ν) (l f d : List Int) : Prop where
  items : t.Items l
  free : Segment t.nextLink (ptr t.free) f none
  count : t.count = l.length
  pos : 0 < t.size
  cover : ∀ i, (0 ≤ i ∧ i < t.size) ↔ i ∈ l ∨ i ∈ f ∨ i ∈ d
  disjoint : l.Disjoint f
  rest : ∀ i ∈ d, i ∉ l ∧ i ∉ f
  inactive : ∀ i, i ∈ f ∨ i ∈ d → (t.entries i).previous = notActive

def slotsFrom (i : Int) : Nat → List Int
  | 0 => []
  | n + 1 => i :: slotsFrom (i + 1) n

theorem mem_slotsFrom {i k : Int} {n : Nat} : k ∈ slotsFrom i n ↔ i ≤ k ∧ k < i + n := by
  induction n generalizing i with
  | zero => simp [slotsFrom]
  | succ n ih =>
      rw [slotsFrom, List.mem_cons, ih]
      omega

theorem partitionFrom_entries (t : RexxList ν) (i k : Int) (n : Nat) :
    (t.partitionFrom i n).entries k =
      if i ≤ k ∧ k < i + n then ⟨none, k + 1, notActive⟩ else t.entries k := by
  induction n generalizing t i with
  | zero => rw [partitionFrom, if_neg (by omega)]
  | succ n ih =>
      rw [partitionFrom, ih, entries_modify]
      by_cases hk : k = i
      · subst hk
        rw [if_neg (by omega), if_pos rfl, if_pos (by omega)]
      · rw [if_neg hk]
        have hiff : (i + 1 ≤ k ∧ k < i + 1 + n) ↔ (i ≤ k ∧ k < i + (n + 1 : Nat)) := by omega
        simp only [hiff]

theorem partitionFrom_eq (t : RexxList ν) (i : Int) (n : Nat) :
    t.partitionFrom i n = { t with entries := (t.partitionFrom i n).entries } := by
  induction n generalizing t i with
  | zero => rfl
  | succ n ih =>
      rw [partitionFrom, ih]
      rfl

theorem partitionBuffer_spec (t : RexxList ν) {first : Int} {count : Nat} (hfirst : 0 ≤ first)
    (hcount : 0 < count) :
    Segment (t.partitionBuffer first count).nextLink (some first) (slotsFrom first count) none ∧
      (∀ k, first ≤ k ∧ k < first + count →
        ((t.partitionBuffer first count).entries k).previous = notActive) ∧
      (∀ k, ¬ (first ≤ k ∧ k < first + count) →
        (t.partitionBuffer first count).entries k = t.entries k) ∧
      t.partitionBuffer first count =
        { t with free := first, entries := (t.partitionBuffer first count).entries } := by
  have hentries : ∀ k, (t.partitionBuffer first count).entries k =
      if k = first + count - 1 then ⟨none, listEnd, notActive⟩
      else if first ≤ k ∧ k < first + count then ⟨none, k + 1, notActive⟩
      else t.entries k := by
    intro k
    rw [partitionBuffer, setNext, entries_modify, Int.toNat_natCast, partitionFrom_entries]
    by_cases hk : k = first + count - 1
    · have hin : first ≤ k ∧ k < first + count := by omega
      rw [if_pos hk, if_pos hk, if_pos hin]
    · rw [if_neg hk, if_neg hk]
  have hnext : ∀ k, first ≤ k → k < first + count - 1 →
      (t.partitionBuffer first count).nextLink k = some (k + 1) := by
    intro k hk hk'
    have hin : first ≤ k ∧ k < first + count := by omega
    have hne : k ≠ first + count - 1 := by omega
    rw [nextLink, hentries, if_neg hne, if_pos hin]
    exact ptr_of_nonneg (Int.le_trans hfirst (Int.le_trans hk (Int.le_add_one (Int.le_refl k))))
  have hlast : (t.partitionBuffer first count).nextLink (first + count - 1) = none := by
    rw [nextLink, hentries, if_pos rfl]
    rfl
  -- The chain from each slot on, by induction on the number of slots that follow.
  have hchain : ∀ n : Nat, ∀ i : Int, first ≤ i → i + n = first + count → 0 < n →
      Segment (t.partitionBuffer first count).nextLink (some i) (slotsFrom i n) none := by
    intro n
    induction n with
    | zero => exact fun i _ _ h => absurd h (Nat.lt_irrefl 0)
    | succ n ih =>
        intro i hi hn _
        refine ⟨rfl, ?_⟩
        cases n with
        | zero =>
            have hieq : i = first + count - 1 := by omega
            rw [hieq, hlast]
            rfl
        | succ n =>
            rw [hnext i hi (by omega)]
            exact ih (i + 1) (by omega) (by omega) (Nat.succ_pos n)
  refine ⟨hchain count first (Int.le_refl first) rfl hcount, fun k hk => ?_, fun k hk => ?_, ?_⟩
  · rw [hentries]
    by_cases hk' : k = first + count - 1
    · rw [if_pos hk']
    · rw [if_neg hk', if_pos hk]
  · have hne : k ≠ first + count - 1 := by omega
    rw [hentries, if_neg hne, if_neg hk]
  · rw [partitionBuffer, partitionFrom_eq]
    rfl

theorem init_slots : (init : RexxList ν).Slots [] (slotsFrom 0 5) [] := by
  obtain ⟨hchain, hprev, -, heq⟩ := partitionBuffer_spec
    (⟨fun _ => ⟨none, 0, 0⟩, listEnd, listEnd, 0, initialListSize, 0⟩ : RexxList ν)
    (Int.le_refl 0) (Nat.succ_pos 4)
  have hinit : (init : RexxList ν) = partitionBuffer
      ⟨fun _ => ⟨none, 0, 0⟩, listEnd, listEnd, 0, initialListSize, 0⟩ 0 (5 : Nat) := rfl
  rw [← hinit] at hchain hprev heq
  have hfree : (init : RexxList ν).free = 0 := heq ▸ rfl
  have hsize : (init : RexxList ν).size = 5 := heq ▸ rfl
  have hfirst : (init : RexxList ν).first = listEnd := heq ▸ rfl
  have hlast : (init : RexxList ν).last = listEnd := heq ▸ rfl
  have hcount : (init : RexxList ν).count = 0 := heq ▸ rfl
  refine ⟨⟨⟨?_, ?_⟩, by simp⟩, hfree ▸ hchain, hcount, ?_, fun i => ?_, by simp, by simp,
    fun i hi => ?_⟩
  · rw [hfirst]
    rfl
  · rw [hlast]
    rfl
  · rw [hsize]
    decide
  · simp [hsize, mem_slotsFrom]
  · exact hprev i (by simpa [mem_slotsFrom] using hi)

theorem Slots.first_free {u : RexxList ν} {l f d : List Int} {x : Int}
    (hu : u.Slots l (x :: f) d) : u.free = x ∧ x ∉ l ∧ x ∉ d :=
  ⟨(ptr_eq_some.mp hu.free.1).1, fun hxl => hu.disjoint hxl List.mem_cons_self,
    fun hxd => (hu.rest x hxd).2 List.mem_cons_self⟩

theorem Slots.takeFree {u : RexxList ν} {l f d : List Int} {x : Int} (hu : u.Slots l (x :: f) d) :
    ({ u with free := (u.entries u.free).next } : RexxList ν).Slots l f (x :: d) := by
  obtain ⟨hfree, hxl, -⟩ := hu.first_free
  have hnodup := hu.free.nodup
  refine ⟨⟨hu.items.chain, hu.items.nonneg⟩, ?_, hu.count, hu.pos, fun i => ?_,
    fun i hi hif => hu.disjoint hi (List.mem_cons_of_mem x hif), ?_, fun i hi => ?_⟩
  · rw [hfree]
    exact hu.free.2
  · refine (hu.cover i).trans ?_
    simp only [List.mem_cons]
    tauto
  · intro i hi
    rcases List.mem_cons.mp hi with rfl | hi
    · exact ⟨hxl, (List.nodup_cons.mp hnodup).1⟩
    · have hrest := hu.rest i hi
      exact ⟨hrest.1, fun hif => hrest.2 (List.mem_cons_of_mem x hif)⟩
  · apply hu.inactive i
    simp only [List.mem_cons] at hi ⊢
    tauto

theorem Slots.doubled {l d : List Int} (h : t.Slots l [] d) {u : RexxList ν}
    (hu : u = { t.partitionBuffer t.size t.size with
      size := (t.partitionBuffer t.size t.size).size + (t.partitionBuffer t.size t.size).size }) :
    u.Slots l (slotsFrom t.size t.size.toNat) d ∧ ∀ k ∈ l, u.entries k = t.entries k := by
  have hsize : t.size = (t.size.toNat : Int) := (Int.toNat_of_nonneg (Int.le_of_lt h.pos)).symm
  have hpos := h.pos
  have hcount : 0 < t.size.toNat := by omega
  obtain ⟨hchain, hprev, hother, heq⟩ :=
    t.partitionBuffer_spec (Int.le_of_lt h.pos) hcount
  rw [← hsize] at hchain hprev hother heq
  have husize : u.size = t.size + t.size := by rw [hu, heq]
  have hufree : u.free = t.size := by rw [hu, heq]
  have hufirst : u.first = t.first := by rw [hu, heq]
  have hulast : u.last = t.last := by rw [hu, heq]
  have hucount : u.count = t.count := by rw [hu, heq]
  have huentries : u.entries = (t.partitionBuffer t.size t.size).entries := by rw [hu]
  have hitems : ∀ k ∈ l, u.entries k = t.entries k := by
    intro k hk
    have hlt := ((h.cover k).mpr (.inl hk)).2
    rw [huentries]
    exact hother k (by omega)
  have hold : ∀ k, k ∈ l ∨ k ∈ d → 0 ≤ k ∧ k < t.size := fun k hk =>
    (h.cover k).mpr (by tauto)
  refine ⟨⟨⟨?_, h.items.nonneg⟩, ?_, hucount.trans h.count, ?_, fun i => ?_, ?_,
    fun i hi => ⟨(h.rest i hi).1, ?_⟩, fun i hi => ?_⟩, hitems⟩
  · rw [hufirst, hulast]
    refine h.items.chain.congr (fun k hk => ?_) fun k hk => ?_
    · rw [nextLink, nextLink, hitems k hk]
    · rw [prevLink, prevLink, hitems k hk]
  · rw [hufree, ptr_of_nonneg (Int.le_of_lt hpos)]
    have hlinks : u.nextLink = (t.partitionBuffer t.size t.size).nextLink := by
      funext k
      rw [nextLink, nextLink, huentries]
    rw [hlinks]
    exact hchain
  · rw [husize]
    omega
  · have hcover := h.cover i
    simp only [List.not_mem_nil, false_or] at hcover
    have hcases : i ∈ l ∨ i ∈ slotsFrom t.size t.size.toNat ∨ i ∈ d ↔
        (0 ≤ i ∧ i < t.size) ∨ i ∈ slotsFrom t.size t.size.toNat := by
      rw [hcover]
      tauto
    rw [husize, hcases, mem_slotsFrom]
    omega
  · intro i hi hif
    have hlt := ((h.cover i).mpr (.inl hi)).2
    rw [mem_slotsFrom] at hif
    omega
  · have hlt := (hold i (.inr hi)).2
    rw [mem_slotsFrom]
    omega
  · rw [huentries]
    rcases hi with hif | hid
    · rw [mem_slotsFrom, ← hsize] at hif
      exact hprev i hif
    · have hlt := (hold i (.inr hid)).2
      rw [hother i (by omega)]
      exact h.inactive i (.inr hid)

theorem getFree_spec {l f d : List Int} (h : t.Slots l f d) :
    ∃ f', t.getFree.1.Slots l f' (t.getFree.2 :: d) ∧ t.getFree.2 ∉ l ∧
      t.getFree.2 ∉ d ∧ ∀ k ∈ l, t.getFree.1.entries k = t.entries k := by
  cases f with
  | cons x f =>
      obtain ⟨hfree, hxl, hxd⟩ := h.first_free
      have hend : ¬ t.free = listEnd := (ptr_eq_some.mp h.free.1).2
      rw [getFree, if_neg hend]
      exact ⟨f, hfree ▸ h.takeFree, hfree ▸ hxl, hfree ▸ hxd, fun _ _ => rfl⟩
  | nil =>
      have hend : t.free = listEnd := ptr_eq_none.mp h.free
      have hpos := h.pos
      obtain ⟨n, hn⟩ : ∃ n, t.size.toNat = n + 1 :=
        Nat.exists_eq_add_one_of_ne_zero (by omega)
      obtain ⟨hslots, hitems⟩ := h.doubled rfl
      rw [hn, slotsFrom] at hslots
      obtain ⟨hfree, hxl, hxd⟩ := hslots.first_free
      have htaken := hslots.takeFree
      rw [getFree, if_pos hend]
      rw [hfree] at htaken
      dsimp only at hfree htaken ⊢
      rw [hfree]
      exact ⟨_, htaken, hxl, hxd, hitems⟩

theorem getEntry_eq_some {l f d : List Int} (h : t.Slots l f d) {index : ListIndex}
    {position : Nat} {e : Int} :
    t.getEntry index position = .ok (some e) ↔ index = .integer e ∧ e ∈ l := by
  cases index with
  | omitted => simp [getEntry]
  | nil => simp [getEntry]
  | other => simp [getEntry]
  | integer i =>
      have hmem : ∀ i ∈ l, ¬ i < 0 ∧ ¬ i ≥ t.size ∧ (t.entries i).previous ≠ notActive := by
        intro i hi
        have hcover := (h.cover i).mpr (.inl hi)
        exact ⟨by omega, by omega, h.items.active hi⟩
      rw [getEntry, ListIndex.integer.injEq]
      constructor
      · intro hget
        by_cases hneg : i < 0
        · simp [hneg] at hget
        · by_cases hsize : i ≥ t.size
          · simp [hneg, hsize] at hget
          · by_cases hactive : (t.entries i).previous = notActive
            · simp [hneg, hsize, hactive] at hget
            · simp only [if_neg hneg, if_neg hsize, if_neg hactive, Except.ok.injEq,
                Option.some.injEq] at hget
              subst hget
              refine ⟨rfl, ?_⟩
              rcases (h.cover i).mp ⟨by omega, by omega⟩ with hi | hi
              · exact hi
              · exact absurd (h.inactive i hi) hactive
      · rintro ⟨rfl, hi⟩
        obtain ⟨hneg, hsize, hactive⟩ := hmem i hi
        rw [if_neg hneg, if_neg hsize, if_neg hactive]

theorem Slots.setValue {l f d : List Int} (h : t.Slots l f d) (e : Int) (value : Option ν) :
    (t.setValue e value).Slots l f d := by
  refine ⟨⟨h.items.chain.congr (fun k _ => ?_) fun k _ => ?_, h.items.nonneg⟩,
    h.free.congr fun k _ => ?_, h.count, h.pos, h.cover, h.disjoint, h.rest, fun i hi => ?_⟩
  · exact nextLink_setValue ..
  · exact prevLink_setValue ..
  · exact nextLink_setValue ..
  · have hprevious : ((t.setValue e value).entries i).previous = (t.entries i).previous := by
      simp only [RexxList.setValue, entries_modify]
      split <;> rfl
    rw [hprevious]
    exact h.inactive i hi

/-! ## New items -/

/-- The slot `x` of `t'` is a new item with the value `value`, the others are as in `t`. -/
structure Gained (t t' : RexxList ν) (l l' d : List Int) (x : Int) (value : ν) : Prop where
  slots : ∃ f, t'.Slots l' f d
  perm : l'.Perm (x :: l)
  new : x ∉ l
  value_self : (t'.entries x).value = some value
  value_of : ∀ k ∈ l, (t'.entries k).value = (t.entries k).value

theorem Items.fill {l : List Int} (h : t.Items l) (x : Int) (value : ν) :
    (t.fill x value).Items l := by
  refine ⟨h.chain.congr (fun k _ => ?_) fun k _ => ?_, h.nonneg⟩
  · rw [RexxList.fill, nextLink_setValue]
    rfl
  · rw [RexxList.fill, prevLink_setValue]
    rfl

theorem entries_fill (t : RexxList ν) (x : Int) (value : ν) (k : Int) :
    (t.fill x value).entries k =
      if k = x then { t.entries k with value := some value } else t.entries k := by
  rw [RexxList.fill, setValue, entries_modify]

theorem gain {t' : RexxList ν} {l l' f d : List Int} {x : Int} {value : ν}
    (hget : t.getFree.1.Slots l f (x :: d)) (hd : x ∉ d) (hperm : l'.Perm (x :: l))
    (hkeep : ∀ k ∈ l, t.getFree.1.entries k = t.entries k) (hitems : t'.Items l')
    (hlinks : Relinked l' (t.getFree.1.fill x value) t') :
    Gained t t' l l' d x value := by
  have hmem : ∀ k, k ∈ l' ↔ k = x ∨ k ∈ l := fun k => by rw [hperm.mem_iff, List.mem_cons]
  obtain ⟨hxl, hxf⟩ := hget.rest x List.mem_cons_self
  have hfree : ∀ k ∈ f, t'.entries k = t.getFree.1.entries k := by
    intro k hk
    have hkx : k ≠ x := fun hkx => hxf (hkx ▸ hk)
    have hkl' : k ∉ l' := fun hkl' => by
      rcases (hmem k).mp hkl' with rfl | hkl
      · exact hxf hk
      · exact hget.disjoint hkl hk
    rw [hlinks.entries k hkl', entries_fill, if_neg hkx]
  have hlost : ∀ k ∈ d, k ∉ l' ∧ k ∉ f := by
    intro k hk
    have hrest := hget.rest k (List.mem_cons_of_mem x hk)
    have hkx : k ≠ x := fun hkx => hd (hkx ▸ hk)
    rw [hmem]
    exact ⟨by tauto, hrest.2⟩
  refine ⟨⟨f, hitems, ?_, ?_, ?_, fun i => ?_, ?_, hlost, fun i hi => ?_⟩, hperm, hxl, ?_,
    fun k hk => ?_⟩
  · rw [hlinks.free]
    refine hget.free.congr fun k hk => ?_
    rw [nextLink, hfree k hk]
    rfl
  · rw [hlinks.count, hperm.length_eq]
    exact congrArg Nat.succ hget.count
  · rw [hlinks.size]
    exact hget.pos
  · rw [hlinks.size]
    refine (hget.cover i).trans ?_
    rw [hmem]
    simp only [List.mem_cons]
    tauto
  · intro k hk hkf
    rcases (hmem k).mp hk with rfl | hk
    · exact hxf hkf
    · exact hget.disjoint hk hkf
  · rcases hi with hif | hid
    · rw [hfree i hif]
      exact hget.inactive i (.inl hif)
    · have hix : i ≠ x := fun hix => hd (hix ▸ hid)
      rw [hlinks.entries i (hlost i hid).1, entries_fill, if_neg hix]
      exact hget.inactive i (.inr (List.mem_cons_of_mem x hid))
  · rw [hlinks.value, entries_fill, if_pos rfl]
  · have hkx : k ≠ x := fun hkx => hxl (hkx ▸ hk)
    rw [hlinks.value, entries_fill, if_neg hkx, hkeep k hk]

theorem linkLast_spec {l : List Int} {x : Int} (h : t.Items l) (hx : 0 ≤ x) (hnew : x ∉ l) :
    (if t.last = listEnd then t.linkOnly x else t.linkBack x).Items (l ++ [x]) ∧
      Relinked (l ++ [x]) t (if t.last = listEnd then t.linkOnly x else t.linkBack x) := by
  have hiff := h.last_eq_listEnd
  rcases List.eq_nil_or_concat' l with rfl | ⟨l, i, rfl⟩
  · rw [if_pos (hiff.mpr rfl)]
    exact linkOnly_spec hx
  · rw [if_neg (fun hlast => by simpa using hiff.mp hlast), List.append_assoc]
    exact linkBack_spec h hx hnew

theorem linkFirst_spec {l : List Int} {x : Int} (h : t.Items l) (hx : 0 ≤ x) (hnew : x ∉ l) :
    (if t.last = listEnd then t.linkOnly x else t.linkFront x).Items (x :: l) ∧
      Relinked (x :: l) t (if t.last = listEnd then t.linkOnly x else t.linkFront x) := by
  have hiff := h.last_eq_listEnd
  cases l with
  | nil =>
      rw [if_pos (hiff.mpr rfl)]
      exact linkOnly_spec hx
  | cons i l =>
      rw [if_neg (fun hlast => by simpa using hiff.mp hlast)]
      exact linkFront_spec h hx hnew

theorem addLast_spec {l f d : List Int} (h : t.Slots l f d) (value : ν) :
    ∃ x, Gained t (t.addLast value) l (l ++ [x]) d x value := by
  obtain ⟨f', hget, hnew, hd, hkeep⟩ := getFree_spec h
  have hx := ((hget.cover _).mpr (.inr (.inr List.mem_cons_self))).1
  obtain ⟨hitems, hlinks⟩ := linkLast_spec (hget.items.fill t.getFree.2 value) hx hnew
  exact ⟨_, gain hget hd (List.perm_append_singleton ..) hkeep hitems hlinks⟩

theorem addFirst_spec {l f d : List Int} (h : t.Slots l f d) (value : ν) :
    ∃ x, Gained t (t.addFirst value) l (x :: l) d x value := by
  obtain ⟨f', hget, hnew, hd, hkeep⟩ := getFree_spec h
  have hx := ((hget.cover _).mpr (.inr (.inr List.mem_cons_self))).1
  obtain ⟨hitems, hlinks⟩ := linkFirst_spec (hget.items.fill t.getFree.2 value) hx hnew
  exact ⟨_, gain hget hd (List.Perm.refl _) hkeep hitems hlinks⟩

/-- The index argument of `insert` is `.nil`, omitted or the index of an item. -/
def InsertIndex (t : RexxList ν) (index : ListIndex) : Prop :=
  index = .nil ∨ index = .omitted ∨ ∃ e, t.getEntry index 1 = .ok (some e)

def AddIndex (t : RexxList ν) (index : ListIndex) : Prop :=
  index = .nil ∨ ∃ e, t.getEntry index 1 = .ok (some e)

theorem insert_spec {l f d : List Int} (h : t.Slots l f d) (value : ν) {index : ListIndex}
    (hindex : t.InsertIndex index) :
    ∃ t' l' x, t.insert value index = (t', .ok x) ∧ Gained t t' l l' d x value := by
  obtain ⟨f', hget, hnew, hd, hkeep⟩ := getFree_spec h
  have hx := ((hget.cover _).mpr (.inr (.inr List.mem_cons_self))).1
  have hfill := hget.items.fill t.getFree.2 value
  obtain ⟨hfront, hfrontlinks⟩ := linkFirst_spec hfill hx hnew
  have hafter : ∀ e ∈ l, ∃ l', Gained t
      ((t.getFree.1.fill t.getFree.2 value).linkAfter e t.getFree.2) l l' d t.getFree.2 value := by
    intro e he
    obtain ⟨xs, ys, rfl⟩ := List.append_of_mem he
    obtain ⟨hitems, hlinks⟩ := linkAfter_spec hfill hx hnew
    have hperm : (xs ++ e :: t.getFree.2 :: ys).Perm (t.getFree.2 :: (xs ++ e :: ys)) := by
      have hmiddle : ((xs ++ [e]) ++ t.getFree.2 :: ys).Perm
          (t.getFree.2 :: ((xs ++ [e]) ++ ys)) := List.perm_middle
      simpa using hmiddle
    exact ⟨_, gain hget hd hperm hkeep hitems hlinks⟩
  rcases hindex with rfl | rfl | ⟨e, he⟩
  · exact ⟨_, _, t.getFree.2, rfl, gain hget hd (List.Perm.refl _) hkeep hfront hfrontlinks⟩
  · rcases List.eq_nil_or_concat' l with rfl | ⟨l, i, rfl⟩
    · have hlast : t.getFree.1.last = listEnd := hget.items.last_eq_listEnd.mpr rfl
      refine ⟨_, _, t.getFree.2, ?_, gain hget hd (List.Perm.refl _) hkeep hfront hfrontlinks⟩
      simp [insert, hlast]
    · have hlast : t.getFree.1.last = i := hget.items.last_eq
      have hi : 0 ≤ i := hget.items.nonneg i (by simp)
      have hend : i ≠ listEnd := by rw [listEnd]; omega
      obtain ⟨l', hgained⟩ := hafter i (by simp)
      refine ⟨_, l', t.getFree.2, ?_, hgained⟩
      simp [insert, hlast, hend]
  · obtain ⟨rfl, hel⟩ := (getEntry_eq_some h).mp he
    have hentry : t.getFree.1.getEntry (.integer e) 1 = .ok (some e) :=
      (getEntry_eq_some hget).mpr ⟨rfl, hel⟩
    obtain ⟨l', hgained⟩ := hafter e hel
    refine ⟨_, l', t.getFree.2, ?_, hgained⟩
    simp [insert, hentry]

theorem add_spec {l f d : List Int} (h : t.Slots l f d) (value : ν) {index : ListIndex}
    (hindex : t.AddIndex index) :
    ∃ t' l' x, t.add value index = (t', .ok x) ∧ Gained t t' l l' d x value := by
  obtain ⟨f', hget, hnew, hd, hkeep⟩ := getFree_spec h
  have hx := ((hget.cover _).mpr (.inr (.inr List.mem_cons_self))).1
  have hfill := hget.items.fill t.getFree.2 value
  rcases hindex with rfl | ⟨e, he⟩
  · obtain ⟨hitems, hlinks⟩ := linkLast_spec hfill hx hnew
    exact ⟨_, _, t.getFree.2, rfl,
      gain hget hd (List.perm_append_singleton ..) hkeep hitems hlinks⟩
  · obtain ⟨rfl, hel⟩ := (getEntry_eq_some h).mp he
    have hentry : t.getFree.1.getEntry (.integer e) 1 = .ok (some e) :=
      (getEntry_eq_some hget).mpr ⟨rfl, hel⟩
    obtain ⟨xs, ys, rfl⟩ := List.append_of_mem hel
    obtain ⟨hitems, hlinks⟩ := linkBefore_spec hfill hx hnew
    refine ⟨_, _, t.getFree.2, ?_, gain hget hd List.perm_middle hkeep hitems hlinks⟩
    simp [add, hentry]

/-! ## Removed items -/

theorem removeSlot_spec {xs ys f d : List Int} {e : Int}
    (h : t.Slots (xs ++ e :: ys) f d) :
    (t.removeSlot e).1.Slots (xs ++ ys) (e :: f) d ∧
      (t.removeSlot e).2 = (t.entries e).value ∧
      ∀ k, ((t.removeSlot e).1.entries k).value = (t.entries k).value := by
  obtain ⟨hitems, hlinks⟩ := unlink_spec h.items
  obtain ⟨u, hu⟩ : ∃ u, u = t.unlink e := ⟨_, rfl⟩
  rw [← hu] at hitems hlinks
  have hremove : (t.removeSlot e).1 =
      ({ (({ u with count := u.count - 1 } : RexxList ν).setPrevious e notActive).setNext e
        u.free with free := e } : RexxList ν) := by
    rw [hu]
    rfl
  have hentries : ∀ k, (t.removeSlot e).1.entries k =
      if k = e then ⟨(u.entries k).value, u.free, notActive⟩ else u.entries k := by
    intro k
    rw [hremove]
    by_cases hk : k = e
    · subst hk
      simp [setNext, setPrevious, modify]
    · simp [setNext, setPrevious, modify, hk]
  have hnodup := h.items.chain.nodup
  have hmem : ∀ k, k ∈ xs ++ e :: ys ↔ k = e ∨ k ∈ xs ++ ys := fun k => by
    rw [List.perm_middle.mem_iff, List.mem_cons]
  have hexy : e ∉ xs ++ ys := (List.nodup_cons.mp (List.perm_middle.nodup_iff.mp hnodup)).1
  have hef : e ∉ f := fun hef => h.disjoint ((hmem e).mpr (.inl rfl)) hef
  have hother : ∀ k ∈ xs ++ ys, (t.removeSlot e).1.entries k = u.entries k := by
    intro k hk
    have hke : k ≠ e := fun hke => hexy (hke ▸ hk)
    rw [hentries, if_neg hke]
  have hfree : ∀ k ∈ f, (t.removeSlot e).1.entries k = t.entries k := by
    intro k hk
    have hkxy : k ∉ xs ++ ys := fun hkxy => h.disjoint ((hmem k).mpr (.inr hkxy)) hk
    have hke : k ≠ e := fun hke => hef (hke ▸ hk)
    rw [hentries, if_neg hke, hlinks.entries k hkxy]
  have hcover := h.cover
  simp only [hmem] at hcover
  have hlost : ∀ k ∈ d, k ∉ xs ++ ys ∧ k ≠ e ∧ k ∉ f := by
    intro k hk
    have hrest := h.rest k hk
    rw [hmem] at hrest
    tauto
  refine ⟨⟨⟨?_, hitems.nonneg⟩, ?_, ?_, ?_, fun i => ?_, ?_, fun i hi => ?_, fun i hi => ?_⟩, rfl,
    fun k => ?_⟩
  · have hends := hitems.chain.congr
      (fun k hk => by rw [nextLink, nextLink, hother k hk] :
        ∀ k ∈ xs ++ ys, (t.removeSlot e).1.nextLink k = _)
      (fun k hk => by rw [prevLink, prevLink, hother k hk] :
        ∀ k ∈ xs ++ ys, (t.removeSlot e).1.prevLink k = _)
    rw [hremove] at hends ⊢
    exact hends
  · have hlink : (t.removeSlot e).1.nextLink e = ptr t.free := by
      rw [nextLink, hentries, if_pos rfl, hlinks.free]
    have hhead : ptr (t.removeSlot e).1.free = some e := by
      rw [hremove]
      exact ptr_of_nonneg (h.items.nonneg e (by simp))
    rw [hhead]
    refine ⟨rfl, ?_⟩
    rw [hlink]
    exact h.free.congr fun k hk => by rw [nextLink, nextLink, hfree k hk]
  · have hcount : (t.removeSlot e).1.count = u.count - 1 := by
      rw [hremove]
      rfl
    rw [hcount, hlinks.count, h.count]
    simp only [List.length_append, List.length_cons]
    omega
  · have hsize : (t.removeSlot e).1.size = u.size := by
      rw [hremove]
      rfl
    rw [hsize, hlinks.size]
    exact h.pos
  · have hsize : (t.removeSlot e).1.size = u.size := by
      rw [hremove]
      rfl
    rw [hsize, hlinks.size, hcover, List.mem_cons]
    tauto
  · intro k hk hkf
    rcases List.mem_cons.mp hkf with rfl | hkf
    · exact hexy hk
    · exact h.disjoint ((hmem k).mpr (.inr hk)) hkf
  · rw [List.mem_cons]
    have hi := hlost i hi
    tauto
  · rcases hi with hi | hid
    · rcases List.mem_cons.mp hi with rfl | hi
      · rw [hentries, if_pos rfl]
      · rw [hfree i hi]
        exact h.inactive i (.inl hi)
    · rw [hentries, if_neg (hlost i hid).2.1, hlinks.entries i (hlost i hid).1]
      exact h.inactive i (.inr hid)
  · rw [hentries]
    split
    · exact hlinks.value k
    · exact hlinks.value k

theorem findItem_mem [BEq ν] {l : List Int} {p : Int} {target : ν} {e : Int}
    (hl : Segment t.nextLink (ptr p) l none) (h : t.findItem target l.length p = some e) :
    e ∈ l := by
  induction l generalizing p with
  | nil => exact absurd h (by simp [findItem])
  | cons i l ih =>
      obtain ⟨hp, hl⟩ := hl
      obtain ⟨rfl, -⟩ := ptr_eq_some.mp hp
      rw [List.length_cons, findItem] at h
      split at h
      · obtain rfl := Option.some.inj h
        exact List.mem_cons_self
      · exact List.mem_cons_of_mem _ (ih hl h)

theorem index_mem [BEq ν] {l f d : List Int} (h : t.Slots l f d) {target : ν} {e : Int}
    (hindex : t.index target = some e) : e ∈ l := by
  rw [index, h.count] at hindex
  exact findItem_mem h.items.chain.forward hindex

theorem emptyLoop_spec {l f d : List Int} {fuel : Nat} (h : t.Slots l f d)
    (hfuel : l.length < fuel) :
    ∃ t' f', t.emptyLoop fuel = some t' ∧ t'.Slots [] f' d := by
  induction l generalizing t f fuel with
  | nil =>
      cases fuel with
      | zero => exact absurd hfuel (Nat.lt_irrefl 0)
      | succ fuel =>
          have hfirst : t.first = listEnd := h.items.first_eq_listEnd.mpr rfl
          exact ⟨t, f, by simp [emptyLoop, hfirst], h⟩
  | cons i l ih =>
      cases fuel with
      | zero => exact absurd hfuel (Nat.not_lt_zero _)
      | succ fuel =>
          have hi : 0 ≤ i := h.items.nonneg i List.mem_cons_self
          have hend : i ≠ listEnd := by rw [listEnd]; omega
          have hfirst : t.Slots ([] ++ i :: l) f d := h
          obtain ⟨hslots, -⟩ := removeSlot_spec hfirst
          obtain ⟨t', f', hloop, ht'⟩ := ih hslots (Nat.lt_of_succ_lt_succ hfuel)
          exact ⟨t', f', by simp [emptyLoop, h.items.first_eq, hend, hloop], ht'⟩

end RexxList

end LeooRexx
