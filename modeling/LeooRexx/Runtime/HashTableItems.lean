import LeooRexx.Runtime.HashTableRuns

/-!
# The items of the chains

A table that may hold an index more than once, as `add` leaves it.  Each bucket stands for the list
of the items along its chain.  `add` puts an item in front of such a list, and every routine that
removes an item takes one out of it.
-/

namespace LeooRexx

open Chain

variable {κ ν : Type}

namespace HashTable

/--
What the routines that remove do once they found an entry.  Only some of them `raise` the free
pointer when the last entry of a chain is cleared.
-/
def unlinkFound (t : HashTable κ ν) (raise : Bool) (previous : Option Nat) (position : Nat) :
    HashTable κ ν × Option ν :=
  let removed := (t.entries position).item.map (·.2)
  let next := (t.entries position).next
  if next = 0 then
    let t := t.setItem position none
    match previous with
    | some previous =>
        let t := if raise ∧ position > t.free then t.setFree position else t
        (t.setNext previous 0, removed)
    | none => (t, removed)
  else
    let t := t.setNext position (t.entries next).next
    let t := t.setItem position (t.entries next).item
    let t := t.setItem next none
    let t := t.setNext next 0
    let t := if t.free < next then t.setFree next else t
    (t, removed)

section Routines

variable [BEq κ] [Hashable κ]

theorem remove_eq (t : HashTable κ ν) (index : κ) :
    t.remove index =
      if (t.entries (t.hashIndex index)).item.isSome then do
        match ← t.searchChain (t.holdsIndex index) (t.hashIndex index) with
        | some (previous, position) =>
            let (t, removed) := t.unlinkFound true previous position
            some (t, removed)
        | none => some (t, none)
      else some (t, none) := by
  unfold remove unlinkFound
  simp only [true_and]
  congr 1
  cases t.searchChain (t.holdsIndex index) (t.hashIndex index) with
  | none => rfl
  | some found =>
      cases found with
      | none => rfl
      | some pair =>
          obtain ⟨previous, position⟩ := pair
          simp only [Option.bind_eq_bind, Option.bind_some]
          split
          · cases previous <;> rfl
          · rfl

variable [BEq ν]

def holdsPair (t : HashTable κ ν) (value : ν) (index : κ) (position : Nat) : Bool :=
  (t.entries position).item.any fun entry => index == entry.1 && value == entry.2

/-- `removeItem` with an index. -/
def removePair (t : HashTable κ ν) (value : ν) (index : κ) :
    Option (HashTable κ ν × Option ν) :=
  let position := t.hashIndex index
  if (t.entries position).item.isSome then do
    match ← t.searchChain (t.holdsPair value index) position with
    | some (previous, position) =>
        let (t, removed) := t.unlinkFound false previous position
        some (t, removed)
    | none => some (t, none)
  else some (t, none)

def indexOf (t : HashTable κ ν) (value : ν) : Option κ :=
  ((List.range t.totalSlotsSize).find? fun i =>
    (t.entries i).item.any fun entry => value == entry.2).bind fun i =>
      (t.entries i).item.map (·.1)

/-- `removeItem` without an index; `.nil` where no entry has the value. -/
def removeValue (t : HashTable κ ν) (value : ν) : Option (HashTable κ ν × Option ν) :=
  match t.indexOf value with
  | some index => t.removePair value index
  | none => some (t, none)

end Routines

/-! ## Items at positions -/

def itemsAt (t : HashTable κ ν) (l : List Nat) : List (κ × ν) :=
  l.filterMap fun i => (t.entries i).item

variable {t t' : HashTable κ ν} {rest : Nat → List Nat} {L : Nat → List (κ × ν)}

@[simp] theorem itemsAt_nil : t.itemsAt [] = [] := rfl

@[simp] theorem itemsAt_append (l l' : List Nat) :
    t.itemsAt (l ++ l') = t.itemsAt l ++ t.itemsAt l' := List.filterMap_append

theorem itemsAt_cons {i : Nat} (l : List Nat) {entry : κ × ν}
    (h : (t.entries i).item = some entry) : t.itemsAt (i :: l) = entry :: t.itemsAt l :=
  List.filterMap_cons_some h

theorem itemsAt_cons_none {i : Nat} (l : List Nat) (h : (t.entries i).item = none) :
    t.itemsAt (i :: l) = t.itemsAt l :=
  List.filterMap_cons_none h

theorem itemsAt_congr {l : List Nat} (h : ∀ i ∈ l, (t'.entries i).item = (t.entries i).item) :
    t'.itemsAt l = t.itemsAt l :=
  List.filterMap_congr h

structure Represents [Hashable κ] (t : HashTable κ ν) (L : Nat → List (κ × ν)) : Prop where
  pos : 0 < t.uSize
  free_lt : t.free < t.totalSlotsSize
  low : t.uSize ≤ t.free + 1
  chains : ∃ rest, t.Chained rest ∧ ∀ b < t.uSize, t.itemsAt (b :: rest b) = L b

section Changes

variable [Hashable κ]

theorem itemsAt_other (h : t.Chained rest) {b c : Nat} (hb : b < t.uSize) (hc : c < t.uSize)
    (hne : c ≠ b) (hsame : ∀ i, i ∉ b :: rest b → (t'.entries i).item = (t.entries i).item) :
    t'.itemsAt (c :: rest c) = t.itemsAt (c :: rest c) :=
  itemsAt_congr fun i hi => hsame i fun hib => hne (h.disjoint hc hb hi hib)

theorem represents_newHashTable (entries : Nat) :
    (newHashTable entries : HashTable κ ν).Represents fun _ => [] := by
  have hfree := newHashTable_free (κ := κ) (ν := ν) entries
  have hpos := newHashTable_uSize_pos (κ := κ) (ν := ν) entries
  refine ⟨hpos, by omega, ?_, ?_⟩
  · unfold totalSlotsSize at hfree
    omega
  · refine ⟨fun _ => [], ⟨fun b _ => ⟨rfl, rfl⟩, ?_, ?_, fun _ _ _ => rfl⟩, fun _ _ => rfl⟩
    · simp [bucketOf, newHashTable]
    · simp [bucketOf, newHashTable]

theorem Represents.eq_nil (h : t.Represents L) {b : Nat} (hb : b < t.uSize)
    (hitem : (t.entries b).item = none) : L b = [] := by
  obtain ⟨rest, hchained, hitems⟩ := h.chains
  have hrest := hchained.empty b hb (bucketOf_eq_none_iff.mpr hitem)
  rw [← hitems b hb, hrest, itemsAt_cons_none [] hitem]
  rfl

theorem Represents.fill (h : t.Represents L) (value : ν) (index : κ)
    (hitem : (t.entries (t.hashIndex index)).item = none) :
    (t.setItem (t.hashIndex index) (some (index, value))).Represents
      (Function.update L (t.hashIndex index) ((index, value) :: L (t.hashIndex index))) := by
  have hb := t.hashIndex_lt h.pos index
  have hnil := h.eq_nil hb hitem
  obtain ⟨rest, hchained, hitems⟩ := h.chains
  have hrest := hchained.empty _ hb (bucketOf_eq_none_iff.mpr hitem)
  refine ⟨h.pos, h.free_lt, h.low, rest, hchained.setBucket hb hrest
    (fun c hc => (Option.some.inj hc).symm) rfl (link_setItem ..) (bucketOf_setItem ..), ?_⟩
  intro c hc
  by_cases hcb : c = t.hashIndex index
  · rw [hcb, Function.update_self, hnil, hrest, itemsAt_cons []
      (by rw [item_setItem, if_pos rfl])]
    rfl
  · rw [Function.update_of_ne hcb, ← hitems c hc]
    refine itemsAt_other hchained hb hc hcb fun i hi => ?_
    have hib : i ≠ t.hashIndex index := fun hib => hi (hib ▸ List.mem_cons_self)
    rw [item_setItem, if_neg hib]

theorem Represents.insertAt (h : t.Represents L) (value : ν) (index : κ) {overflow : Nat}
    (hitem : (t.entries (t.hashIndex index)).item.isSome) (hge : t.uSize ≤ overflow)
    (hlt : overflow < t.totalSlotsSize) (hfree : (t.entries overflow).item = none) :
    (t.insertAt value index (t.hashIndex index) overflow).Represents
      (Function.update L (t.hashIndex index) ((index, value) :: L (t.hashIndex index))) := by
  have hb := t.hashIndex_lt h.pos index
  obtain ⟨entry, hentry⟩ := Option.isSome_iff_exists.mp hitem
  obtain ⟨rest, hchained, hitems⟩ := h.chains
  have hpos := h.pos
  have hused : t.bucketOf (t.hashIndex index) ≠ none := by
    rw [Ne, bucketOf_eq_none_iff, hentry]
    exact Option.some_ne_none entry
  have hchained' := hchained.insertAt value h.pos hused hge hlt
    (bucketOf_eq_none_iff.mpr hfree)
  have hover : ∀ c < t.uSize, overflow ∉ c :: rest c := by
    intro c hc hmem
    rcases List.mem_cons.mp hmem with rfl | hmem
    · omega
    · have hbucket := ((hchained.mem_rest c hc overflow).mp hmem).2.2
      rw [bucketOf_eq_none_iff.mpr hfree] at hbucket
      cases hbucket
  have hentries : ∀ i, ((t.insertAt value index (t.hashIndex index) overflow).entries i).item =
      if i = t.hashIndex index then some (index, value)
      else if i = overflow then some entry else (t.entries i).item := by
    intro i
    rw [HashTable.insertAt, setFree_entries, item_setEntry, item_setEntry, hentry]
  refine ⟨h.pos, Nat.lt_of_le_of_lt (Nat.sub_le overflow 1) hlt, ?_, _, hchained', ?_⟩
  · change t.uSize ≤ overflow - 1 + 1
    omega
  · intro c hc
    change c < t.uSize at hc
    by_cases hcb : c = t.hashIndex index
    · rw [hcb, Function.update_self, Function.update_self, ← hitems _ hb,
        itemsAt_cons _ (by rw [hentries, if_pos rfl]),
        itemsAt_cons _ (by rw [hentries, if_neg (by omega), if_pos rfl]), itemsAt_cons _ hentry]
      refine congrArg _ (congrArg _ (itemsAt_congr fun i hi => ?_))
      have hnodup := (hchained.links _ hb).nodup
      have hi0 : i ≠ t.hashIndex index := fun h0 =>
        (List.nodup_cons.mp hnodup).1 (h0 ▸ hi)
      have hi1 : i ≠ overflow := fun h1 => hover _ hb (h1 ▸ List.mem_cons_of_mem _ hi)
      rw [hentries, if_neg hi0, if_neg hi1]
    · rw [Function.update_of_ne hcb, Function.update_of_ne hcb, ← hitems c hc]
      refine itemsAt_congr fun i hi => ?_
      have hi0 : i ≠ t.hashIndex index := fun h0 =>
        hcb (hchained.disjoint hc hb hi (h0 ▸ List.mem_cons_self))
      have hi1 : i ≠ overflow := fun h1 => hover c hc (h1 ▸ hi)
      rw [hentries, if_neg hi0, if_neg hi1]

/-! ## Unlinking an entry -/

structure Unlinked (t t' : HashTable κ ν) (L : Nat → List (κ × ν)) (b : Nat) (xs ys : List Nat)
    (freed free : Nat) : Prop where
  represents : t'.Represents (Function.update L b (t.itemsAt xs ++ t.itemsAt ys))
  uSize : t'.uSize = t.uSize
  item : ∀ i, (t'.entries i).item.isSome ↔ i ≠ freed ∧ (t.entries i).item.isSome
  free : t'.free = free

variable {b j : Nat} {xs ys : List Nat} {entry : κ × ν}

theorem Represents.of_chain {rest' : Nat → List Nat} {l : List (κ × ν)} (h : t.Represents L)
    (hchained : t.Chained rest) (hitems : ∀ b < t.uSize, t.itemsAt (b :: rest b) = L b)
    (hb : b < t.uSize) (hsize : t'.uSize = t.uSize) (hfree : t'.free < t.totalSlotsSize)
    (hlow : t.free ≤ t'.free) (hchained' : t'.Chained rest')
    (hrest : ∀ c, c ≠ b → rest' c = rest c) (hl : t'.itemsAt (b :: rest' b) = l)
    (hsame : ∀ i, i ∉ b :: rest b → (t'.entries i).item = (t.entries i).item) :
    t'.Represents (Function.update L b l) := by
  have hlow' := h.low
  refine ⟨hsize ▸ h.pos, ?_, by omega, rest', hchained', fun c hc => ?_⟩
  · rw [totalSlotsSize, hsize]
    exact hfree
  · rw [hsize] at hc
    by_cases hcb : c = b
    · rw [hcb, Function.update_self, hl]
    · rw [Function.update_of_ne hcb, hrest c hcb, ← hitems c hc]
      exact itemsAt_other hchained hb hc hcb hsame

theorem unlinkFound_only (h : t.Represents L) (hchained : t.Chained rest)
    (hitems : ∀ b < t.uSize, t.itemsAt (b :: rest b) = L b) (hb : b < t.uSize)
    (hsplit : b :: rest b = [j]) (raise : Bool) :
    Unlinked t (t.unlinkFound raise none j).1 L b [] [] j t.free := by
  obtain ⟨rfl, hrest⟩ := List.cons.inj hsplit
  have hlinks := hchained.links b hb
  rw [hrest] at hlinks
  have hzero : (t.entries b).next = 0 := by
    simpa [link] using hlinks.2
  have hrun : (t.unlinkFound raise none b).1 = t.setItem b none := by
    rw [unlinkFound, if_pos hzero]
  rw [hrun]
  have hchained' : (t.setItem b none).Chained rest :=
    hchained.setBucket hb hrest (by simp) rfl (link_setItem ..) (bucketOf_setItem ..)
  refine ⟨h.of_chain hchained hitems hb rfl h.free_lt (Nat.le_refl _) hchained' (fun _ _ => rfl)
    ?_ fun i hi => ?_, rfl, fun i => ?_, rfl⟩
  · rw [hrest, itemsAt_cons_none [] (by rw [item_setItem, if_pos rfl])]
    rfl
  · have hib : i ≠ b := fun hib => hi (hib ▸ List.mem_cons_self)
    rw [item_setItem, if_neg hib]
  · rw [item_setItem]
    by_cases hib : i = b
    · simp [hib]
    · simp [hib]

theorem unlinkFound_last {p : Nat} (h : t.Represents L) (hchained : t.Chained rest)
    (hitems : ∀ b < t.uSize, t.itemsAt (b :: rest b) = L b) (hb : b < t.uSize)
    (hsplit : b :: rest b = xs ++ [p, j]) (raise : Bool) :
    Unlinked t (t.unlinkFound raise (some p) j).1 L b (xs ++ [p]) [] j
      (if raise then max t.free j else t.free) := by
  have hsegment := hchained.links b hb
  have hnodup := hsegment.nodup
  have hjlt : j < t.totalSlotsSize := hchained.lt hb (by rw [hsplit]; simp)
  rw [hsplit, segment_append] at hsegment
  obtain ⟨-, -, -, -, hlast⟩ := hsegment
  have hlink : t.link j = none := hlast
  have hzero : (t.entries j).next = 0 := by
    simpa [link] using hlink
  obtain ⟨free, hfree, hfreeval⟩ : ∃ free, (if raise ∧ j > (t.setItem j none).free then
      (t.setItem j none).setFree j else t.setItem j none) = (t.setItem j none).setFree free ∧
      free = if raise then max t.free j else t.free := by
    cases raise with
    | false => exact ⟨t.free, rfl, rfl⟩
    | true =>
        by_cases hgt : j > t.free
        · exact ⟨j, if_pos ⟨rfl, hgt⟩, (max_eq_right (Nat.le_of_lt hgt)).symm⟩
        · exact ⟨t.free, if_neg fun hand => hgt hand.2, (max_eq_left (Nat.not_lt.mp hgt)).symm⟩
  have hrun : (t.unlinkFound raise (some p) j).1 =
      ((t.setItem j none).setFree free).setNext p 0 := by
    rw [unlinkFound, if_pos hzero]
    exact congrArg (fun u : HashTable κ ν => u.setNext p 0) hfree
  have hentries : ∀ i, ((((t.setItem j none).setFree free).setNext p 0).entries i).item =
      if i = j then none else (t.entries i).item := fun i => by
    rw [item_setNext, setFree_entries, item_setItem]
  have hbound : t.free ≤ free ∧ free < t.totalSlotsSize := by
    have hlt := h.free_lt
    rw [hfreeval]
    split
    · exact ⟨le_max_left .., max_lt hlt hjlt⟩
    · exact ⟨Nat.le_refl _, hlt⟩
  obtain ⟨hchain, hchained'⟩ := hchained.unlink_update hb hsplit
    (show (((t.setItem j none).setFree free).setNext p 0).uSize = t.uSize from rfl)
    ⟨Function.update t.link p none j, by
      rw [link_setNext, link_setFree, link_setItem, if_pos rfl, hlink]
      exact (Function.update_eq_self ..).symm⟩
    (by rw [bucketOf_setNext, bucketOf_setFree, bucketOf_setItem, Option.map_none])
  rw [hrun]
  refine ⟨h.of_chain hchained hitems hb rfl hbound.2 hbound.1 hchained'
    (fun c hc => Function.update_of_ne hc ..) ?_ fun i hi => ?_, rfl, fun i => ?_, hfreeval⟩
  · rw [Function.update_self, hchain, itemsAt_nil, List.append_nil]
    refine itemsAt_congr fun i hi => ?_
    have hij : i ≠ j := by
      rintro rfl
      have hregroup : b :: rest b = (xs ++ [p]) ++ [i] := by rw [hsplit]; simp
      rw [hregroup] at hnodup
      exact (List.nodup_append.mp hnodup).2.2 i hi i List.mem_cons_self rfl
    rw [hentries, if_neg hij]
  · have hij : i ≠ j := fun hij => hi (by rw [hsplit, hij]; simp)
    rw [hentries, if_neg hij]
  · rw [hentries]
    by_cases hij : i = j
    · simp [hij]
    · simp [hij]

theorem unlinkFound_inner {n : Nat} (h : t.Represents L) (hchained : t.Chained rest)
    (hitems : ∀ b < t.uSize, t.itemsAt (b :: rest b) = L b) (hb : b < t.uSize)
    (hsplit : b :: rest b = xs ++ j :: n :: ys) (hj : (t.entries j).item = some entry)
    (hbucket : t.bucketOf j = some b) (raise : Bool) (previous : Option Nat) :
    Unlinked t (t.unlinkFound raise previous j).1 L b xs (n :: ys) n (max t.free n) := by
  have hsegment := hchained.links b hb
  have hnodup := hsegment.nodup
  have hlink : t.link j = some n := (hchained.link_eq hb hsplit).1
  obtain ⟨hzero, hn⟩ : (t.entries j).next ≠ 0 ∧ (t.entries j).next = n := by
    simpa [link] using hlink
  have hnrest : n ∈ rest b := by
    have htail := congrArg List.tail hsplit
    rw [List.tail_cons] at htail
    rw [htail]
    cases xs <;> simp
  obtain ⟨-, hnlt, hbucketn⟩ := (hchained.mem_rest b hb n).mp hnrest
  obtain ⟨moved, hmoved, -⟩ := bucketOf_eq_some_iff.mp hbucketn
  have hjn : j ≠ n := by
    rw [hsplit] at hnodup
    rintro rfl
    exact absurd hnodup (by simp [List.nodup_append])
  obtain ⟨u, hu⟩ : ∃ u, u = (((t.setNext j (t.entries n).next).setItem j
    ((t.setNext j (t.entries n).next).entries n).item).setItem n none).setNext n 0 := ⟨_, rfl⟩
  have hraise : (if u.free < n then u.setFree n else u) = u.setFree (max t.free n) := by
    have hfree : u.free = t.free := hu ▸ rfl
    rw [hfree]
    by_cases hlt : t.free < n
    · rw [if_pos hlt, max_eq_right (Nat.le_of_lt hlt)]
    · rw [if_neg hlt, max_eq_left (Nat.not_lt.mp hlt), ← hfree]
      rfl
  have hrun : (t.unlinkFound raise previous j).1 = u.setFree (max t.free n) := by
    rw [unlinkFound, if_neg hzero, hn, ← hraise, hu]
  have hentries : ∀ i, ((u.setFree (max t.free n)).entries i).item =
      if i = n then none else if i = j then some moved else (t.entries i).item := fun i => by
    rw [setFree_entries, hu]
    simp only [item_setNext, item_setItem, hmoved]
  obtain ⟨hchain, hchained'⟩ := hchained.unlink_update hb hsplit
    (show (u.setFree (max t.free n)).uSize = t.uSize from hu ▸ rfl)
    ⟨none, by
      rw [link_setFree, hu, link_setNext, link_setItem, link_setItem, link_setNext]
      rfl⟩
    (by
      rw [bucketOf_setFree, hu, bucketOf_setNext, bucketOf_setItem, bucketOf_setItem,
        bucketOf_setNext, item_setNext]
      have hself : Function.update t.bucketOf j (t.bucketOf n) = t.bucketOf := by
        rw [hbucketn, ← hbucket]
        exact Function.update_eq_self ..
      exact congrArg (Function.update · n none) hself)
  rw [hrun]
  have hother : ∀ i, i ≠ n → i ≠ j →
      ((u.setFree (max t.free n)).entries i).item = (t.entries i).item := fun i hin hij => by
    rw [hentries, if_neg hin, if_neg hij]
  rw [hsplit] at hnodup
  obtain ⟨-, hnodup', hdisjoint⟩ := List.nodup_append.mp hnodup
  obtain ⟨hjys, hnys⟩ := List.nodup_cons.mp hnodup'
  have hxs : (u.setFree (max t.free n)).itemsAt xs = t.itemsAt xs :=
    itemsAt_congr fun i hi => hother i (fun hin => hdisjoint i hi n (by simp) hin)
      (fun hij => hdisjoint i hi j List.mem_cons_self hij)
  have hys : (u.setFree (max t.free n)).itemsAt ys = t.itemsAt ys :=
    itemsAt_congr fun i hi => hother i (fun hin => (List.nodup_cons.mp hnys).1 (hin ▸ hi))
      (fun hij => hjys (hij ▸ List.mem_cons_of_mem n hi))
  refine ⟨h.of_chain hchained hitems hb (hu ▸ rfl) (max_lt h.free_lt hnlt) (le_max_left ..)
    hchained' (fun c hc => Function.update_of_ne hc ..) ?_ fun i hi => ?_, hu ▸ rfl,
    fun i => ?_, rfl⟩
  · rw [Function.update_self, hchain, itemsAt_append, hxs,
      itemsAt_cons _ (by rw [hentries, if_neg hjn, if_pos rfl]), hys, itemsAt_cons ys hmoved]
  · exact hother i (fun hin => hi (by rw [hsplit, hin]; simp))
      (fun hij => hi (by rw [hsplit, hij]; simp))
  · rw [hentries]
    by_cases hin : i = n
    · simp [hin]
    · by_cases hij : i = j
      · simp [hij, hj, hjn]
      · simp [hin, hij]

theorem unlinkFound_spec (h : t.Represents L) (hchained : t.Chained rest)
    (hitems : ∀ b < t.uSize, t.itemsAt (b :: rest b) = L b) (hb : b < t.uSize)
    (hsplit : b :: rest b = xs ++ j :: ys) (hj : (t.entries j).item = some entry) (raise : Bool) :
    (t.unlinkFound raise xs.getLast? j).2 = some entry.2 ∧
      L b = t.itemsAt xs ++ entry :: t.itemsAt ys ∧
      Unlinked t (t.unlinkFound raise xs.getLast? j).1 L b xs ys (ys.head?.getD j)
        (if ys ≠ [] ∨ raise ∧ xs ≠ [] then max t.free (ys.head?.getD j) else t.free) := by
  refine ⟨?_, ?_, ?_⟩
  · unfold unlinkFound
    rw [hj]
    simp only [Option.map_some]
    split
    · cases xs.getLast? <;> rfl
    · rfl
  · rw [← hitems b hb, hsplit, itemsAt_append, itemsAt_cons ys hj]
  · cases ys with
    | cons n ys =>
        have hbucket : t.bucketOf j = some b := by
          cases xs with
          | nil =>
              obtain ⟨rfl, -⟩ := List.cons.inj hsplit
              obtain ⟨c, hc⟩ : ∃ c, t.bucketOf b = some c := ⟨_, by rw [bucketOf, hj]; rfl⟩
              rw [hc, hchained.main b hb c hc]
          | cons x xs =>
              have hmem : j ∈ rest b := by
                obtain ⟨-, hrest⟩ := List.cons.inj hsplit
                rw [hrest]
                simp
              exact ((hchained.mem_rest b hb j).mp hmem).2.2
        have hne : n :: ys ≠ [] ∨ raise ∧ xs ≠ [] := .inl (List.cons_ne_nil n ys)
        rw [if_pos hne]
        exact unlinkFound_inner h hchained hitems hb hsplit hj hbucket raise _
    | nil =>
        rcases List.eq_nil_or_concat' xs with rfl | ⟨xs, p, rfl⟩
        · have honly := unlinkFound_only h hchained hitems hb hsplit raise
          simpa using honly
        · rw [List.append_assoc] at hsplit
          rw [List.getLast?_concat]
          have hlast := unlinkFound_last h hchained hitems hb hsplit raise
          simpa using hlast

end Changes

/-! ## The routines -/

section Routines

variable [BEq κ] [Hashable κ]

def passes (t : HashTable κ ν) (test : κ × ν → Bool) (position : Nat) : Bool :=
  (t.entries position).item.any test

omit [BEq κ] [Hashable κ] in
theorem exists_item_of_passes {test : κ × ν → Bool} {i : Nat} (h : t.passes test i) :
    ∃ entry, (t.entries i).item = some entry ∧ test entry := by
  rw [passes] at h
  cases hitem : (t.entries i).item with
  | none => simp [hitem] at h
  | some entry => exact ⟨entry, rfl, by simpa [hitem] using h⟩

def removeWhere (t : HashTable κ ν) (raise : Bool) (test : κ × ν → Bool) (index : κ) :
    Option (HashTable κ ν × Option ν) :=
  let position := t.hashIndex index
  if (t.entries position).item.isSome then do
    match ← t.searchChain (t.passes test) position with
    | some (previous, position) =>
        let (t, removed) := t.unlinkFound raise previous position
        some (t, removed)
    | none => some (t, none)
  else some (t, none)

theorem remove_eq_removeWhere (t : HashTable κ ν) (index : κ) :
    t.remove index = t.removeWhere true (fun entry => index == entry.1) index := t.remove_eq index

theorem removePair_eq_removeWhere [BEq ν] (t : HashTable κ ν) (value : ν) (index : κ) :
    t.removePair value index =
      t.removeWhere false (fun entry => index == entry.1 && value == entry.2) index := rfl

structure Found (t : HashTable κ ν) (rest : Nat → List Nat) (test : κ × ν → Bool) (index : κ)
    (xs : List Nat) (j : Nat) (ys : List Nat) (entry : κ × ν) : Prop where
  split : t.hashIndex index :: rest (t.hashIndex index) = xs ++ j :: ys
  item : (t.entries j).item = some entry
  first : ∀ e ∈ t.itemsAt xs, test e = false
  passes : test entry = true
  search : t.searchChain (t.passes test) (t.hashIndex index) = some (some (xs.getLast?, j))

omit [BEq κ] in
theorem searchChain_spec (h : t.Represents L) (hchained : t.Chained rest)
    (hitems : ∀ b < t.uSize, t.itemsAt (b :: rest b) = L b) (test : κ × ν → Bool) (index : κ) :
    (∃ xs j ys entry, t.Found rest test index xs j ys entry) ∨
      ((∀ e ∈ L (t.hashIndex index), test e = false) ∧
        t.searchChain (t.passes test) (t.hashIndex index) = some none) := by
  have hb := t.hashIndex_lt h.pos index
  rcases search_first (t.passes test) (hchained.links _ hb) (hchained.length_le hb) with
    ⟨xs, j, ys, hsplit, hfirst, hj, hfound⟩ | ⟨hnone, hfound⟩
  · obtain ⟨entry, hentry, hpass⟩ := exists_item_of_passes hj
    refine .inl ⟨xs, j, ys, entry, hsplit, hentry, fun e he => ?_, hpass, hfound⟩
    obtain ⟨i, hi, hitem⟩ := List.mem_filterMap.mp he
    have hfalse := hfirst i hi
    rw [HashTable.passes, hitem] at hfalse
    exact hfalse
  · refine .inr ⟨fun e he => ?_, hfound⟩
    rw [← hitems _ hb] at he
    obtain ⟨i, hi, hitem⟩ := List.mem_filterMap.mp he
    have hfalse := hnone i hi
    rw [HashTable.passes, hitem] at hfalse
    exact hfalse

omit [BEq κ] in
theorem removeWhere_spec (h : t.Represents L) (hchained : t.Chained rest)
    (hitems : ∀ b < t.uSize, t.itemsAt (b :: rest b) = L b) (raise : Bool)
    (test : κ × ν → Bool) (index : κ) :
    (∃ xs j ys entry, t.Found rest test index xs j ys entry ∧
        t.removeWhere raise test index =
          some ((t.unlinkFound raise xs.getLast? j).1, some entry.2)) ∨
      ((∀ e ∈ L (t.hashIndex index), test e = false) ∧
        t.removeWhere raise test index = some (t, none)) := by
  have hb := t.hashIndex_lt h.pos index
  cases hitem : (t.entries (t.hashIndex index)).item with
  | none =>
      refine .inr ⟨?_, ?_⟩
      · rw [h.eq_nil hb hitem]
        exact fun e he => absurd he List.not_mem_nil
      · simp [removeWhere, hitem]
  | some e =>
      rcases searchChain_spec h hchained hitems test index with ⟨xs, j, ys, entry, hfound⟩ |
        ⟨hnone, hfound⟩
      · obtain ⟨hremoved, -⟩ :=
          unlinkFound_spec h hchained hitems hb hfound.split hfound.item raise
        refine .inl ⟨xs, j, ys, entry, hfound, ?_⟩
        simp [removeWhere, hitem, hfound.search, ← hremoved]
      · exact .inr ⟨hnone, by simp [removeWhere, hitem, hfound]⟩

omit [BEq κ] in
theorem removeWhere_erases (h : t.Represents L) (raise : Bool) (test : κ × ν → Bool) (index : κ) :
    ∃ t', t.removeWhere raise test index =
        some (t', ((L (t.hashIndex index)).find? test).map (·.2)) ∧
      t'.uSize = t.uSize ∧
      t'.Represents (Function.update L (t.hashIndex index)
        ((L (t.hashIndex index)).eraseP test)) := by
  have hb := t.hashIndex_lt h.pos index
  obtain ⟨rest, hchained, hitems⟩ := h.chains
  rcases removeWhere_spec h hchained hitems raise test index with
    ⟨xs, j, ys, entry, hfound, hrun⟩ | ⟨hnone, hrun⟩
  · obtain ⟨-, hlist, hunlinked⟩ :=
      unlinkFound_spec h hchained hitems hb hfound.split hfound.item raise
    have hfirst : ∀ e ∈ t.itemsAt xs, ¬ test e = true := fun e he => by
      simp [hfound.first e he]
    refine ⟨_, ?_, hunlinked.uSize, ?_⟩
    · rw [hrun, hlist, List.find?_append, List.find?_eq_none.mpr hfirst,
        List.find?_cons_of_pos hfound.passes]
      rfl
    · rw [hlist, List.eraseP_append_right _ hfirst, List.eraseP_cons_of_pos hfound.passes]
      exact hunlinked.represents
  · have hnone' : ∀ e ∈ L (t.hashIndex index), ¬ test e = true := fun e he => by
      simp [hnone e he]
    refine ⟨t, ?_, rfl, ?_⟩
    · rw [hrun, List.find?_eq_none.mpr hnone']
      rfl
    · rw [List.eraseP_of_forall_not hnone', Function.update_eq_self]
      exact h

omit [BEq κ] in
theorem addWith_spec_items {insert : HashTable κ ν → ν → κ → Nat →
      Option (HashTable κ ν × Option (HashTable κ ν))} (h : t.Represents L) (value : ν) (index : κ)
    (hroom : (t.entries (t.hashIndex index)).item.isSome → ∃ overflow,
      t.findFree t.free = some overflow ∧ insert t value index (t.hashIndex index) =
        some (t.insertAt value index (t.hashIndex index) overflow, none)) :
    ∃ t', addWith insert t value index = some (t', none) ∧ t'.uSize = t.uSize ∧
      t'.Represents (Function.update L (t.hashIndex index)
        ((index, value) :: L (t.hashIndex index))) := by
  by_cases hitem : (t.entries (t.hashIndex index)).item.isSome
  · obtain ⟨overflow, hfind, hinsert⟩ := hroom hitem
    obtain ⟨hge, hle, hfree⟩ := findFree_eq_some hfind
    refine ⟨t.insertAt value index (t.hashIndex index) overflow, ?_, rfl,
      h.insertAt value index hitem hge (Nat.lt_of_le_of_lt hle h.free_lt) hfree⟩
    rw [addWith, if_pos hitem, hinsert]
  · refine ⟨t.setItem (t.hashIndex index) (some (index, value)), ?_, rfl,
      h.fill value index (Option.not_isSome_iff_eq_none.mp hitem)⟩
    rw [addWith, if_neg hitem]

end Routines

end HashTable

end LeooRexx
