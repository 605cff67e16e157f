import LeooRexx.Rexxapi.SubcommandAPI

/-!
# What calls do to the chains

As long as no call frees a block, every block of the pool is on the chain of its kind, and
only there.  New blocks go to the front of a chain, and a search moves blocks within one.
-/

namespace LeooRexx.SubcommandAPI

open Chain REXXAPIDATA Function

/-! ## The chains -/

/-- The three chains end, and each block of the pool is on exactly one of them. -/
structure Chained (s : REXXAPIDATA) (c : RegType → List ℕ) : Prop where
  segment : ∀ K, Segment s.link (s.baseblock K) (c K) none
  lt : ∀ K, ∀ i ∈ c K, i < s.count
  covers : ∀ i < s.count, ∃ K, i ∈ c K
  disjoint : ∀ K K' i, i ∈ c K → i ∈ c K' → K = K'
  pool : s.sebase = false → s.count = 0

namespace Chained

variable {s s' : REXXAPIDATA} {c : RegType → List ℕ} {K : RegType} {i : ℕ}

theorem length_le (h : Chained s c) (K : RegType) : (c K).length ≤ s.count := by
  have hsub : (c K) ⊆ List.range s.count := fun i hi => List.mem_range.mpr (h.lt K i hi)
  have hle := (List.subperm_of_subset (h.segment K).nodup hsub).length_le
  rwa [List.length_range] at hle

theorem base_eq_none (h : Chained s c) : s.baseblock K = none ↔ c K = [] := by
  have hseg := h.segment K
  constructor
  · intro hbase
    rw [hbase] at hseg
    cases hc : c K with
    | nil => rfl
    | cons i is =>
        rw [hc] at hseg
        cases hseg.1
  · intro hc
    rw [hc] at hseg
    exact hseg

theorem congr (h : Chained s c) (hlink : ∀ i < s.count, s'.link i = s.link i)
    (hbase : s'.baseblock = s.baseblock) (hcount : s'.count = s.count)
    (hpool : s'.sebase = s.sebase) : Chained s' c := by
  constructor
  · intro K
    rw [hbase]
    exact (h.segment K).congr fun i hi => hlink i (h.lt K i hi)
  · intro K i hi
    rw [hcount]
    exact h.lt K i hi
  · intro i hi
    rw [hcount] at hi
    exact h.covers i hi
  · exact h.disjoint
  · rw [hpool, hcount]
    exact h.pool

theorem empty (hcount : s.count = 0) (hbase : ∀ K, s.baseblock K = none) :
    Chained s fun _ => [] where
  segment := hbase
  lt _ _ hi := absurd hi List.not_mem_nil
  covers i hi := absurd hi (by omega)
  disjoint _ _ _ hi := absurd hi List.not_mem_nil
  pool _ := hcount

theorem setBlock (h : Chained s c) {b : APIBLOCK} (hb : b.next = s.link i) :
    Chained (s.setBlock i b) c := by
  refine h.congr (fun j _ => ?_) rfl rfl rfl
  change (update s.SEDATA i b j).next = (s.SEDATA j).next
  rcases eq_or_ne j i with rfl | hj
  · rw [update_self]
    exact hb
  · rw [update_of_ne hj]

theorem push (h : Chained s c) {b : APIBLOCK} (hb : b.next = s.baseblock K)
    (hcount : s'.count = s.count + 1) (hnew : s'.SEDATA s.count = b)
    (hold : ∀ i < s.count, s'.link i = s.link i)
    (hbase : s'.baseblock = update s.baseblock K (some s.count)) (hpool : s'.sebase = true) :
    Chained s' (update c K (s.count :: c K)) := by
  have hold' : ∀ K', ∀ i ∈ c K', s'.link i = s.link i := fun K' i hi => hold i (h.lt K' i hi)
  have hmem : ∀ K' i, i ∈ update c K (s.count :: c K) K' ↔
      i ∈ c K' ∨ (K' = K ∧ i = s.count) := by
    intro K' i
    rcases eq_or_ne K' K with rfl | hK
    · rw [update_self, List.mem_cons]
      tauto
    · rw [update_of_ne hK]
      tauto
  constructor
  · intro K'
    rw [hbase]
    rcases eq_or_ne K' K with rfl | hK
    · rw [update_self, update_self]
      refine ⟨rfl, ?_⟩
      rw [link, hnew, hb]
      exact (h.segment K').congr (hold' K')
    · rw [update_of_ne hK, update_of_ne hK]
      exact (h.segment K').congr (hold' K')
  · intro K' i hi
    rw [hcount]
    rcases (hmem K' i).mp hi with hi | ⟨-, rfl⟩
    · exact Nat.lt_succ_of_lt (h.lt K' i hi)
    · exact Nat.lt_succ_self _
  · intro i hi
    rw [hcount] at hi
    rcases Nat.lt_succ_iff_lt_or_eq.mp hi with hlt | rfl
    · obtain ⟨K', hK'⟩ := h.covers i hlt
      exact ⟨K', (hmem K' i).mpr (.inl hK')⟩
    · exact ⟨K, (hmem K s.count).mpr (.inr ⟨rfl, rfl⟩)⟩
  · intro K₁ K₂ i h₁ h₂
    rcases (hmem K₁ i).mp h₁ with h₁ | ⟨hK₁, hi₁⟩ <;>
      rcases (hmem K₂ i).mp h₂ with h₂ | ⟨hK₂, hi₂⟩
    · exact h.disjoint K₁ K₂ i h₁ h₂
    · exact absurd (hi₂ ▸ h.lt K₁ i h₁) (Nat.lt_irrefl _)
    · exact absurd (hi₁ ▸ h.lt K₂ i h₂) (Nat.lt_irrefl _)
    · rw [hK₁, hK₂]
  · intro hfalse
    rw [hpool] at hfalse
    cases hfalse

theorem link_moveToFront (s : REXXAPIDATA) (K : RegType) {previous current : ℕ}
    (hne : previous ≠ current) :
    (moveToFront s K previous current).link =
      update (update s.link previous (s.link current)) current (s.baseblock K) := by
  funext i
  simp only [moveToFront, setBase, REXXAPIDATA.setBlock, link]
  rcases eq_or_ne i current with rfl | hi
  · simp only [update_self]
  · rcases eq_or_ne i previous with rfl | hp
    · simp only [update_of_ne hne, update_self]
    · simp only [update_of_ne hi, update_of_ne hp]
      rfl

theorem moveToFront (h : Chained s c) {xs ys : List ℕ} {previous current : ℕ}
    (hc : c K = xs ++ previous :: current :: ys) :
    Chained (moveToFront s K previous current)
      (update c K (current :: (xs ++ previous :: ys))) := by
  have hseg := h.segment K
  rw [hc] at hseg
  have hnodup := hseg.nodup
  have hmem : ∀ i, i ∈ current :: (xs ++ previous :: ys) ↔ i ∈ c K := by
    intro i
    rw [hc]
    simp only [List.mem_cons, List.mem_append]
    tauto
  have hnotmem : current ∉ xs ++ previous :: ys := by
    have hperm : (xs ++ previous :: current :: ys).Perm (current :: (xs ++ previous :: ys)) := by
      have h : (xs ++ [previous] ++ current :: ys).Perm (current :: (xs ++ [previous] ++ ys)) :=
        List.perm_middle
      simpa using h
    exact (List.nodup_cons.mp (hperm.nodup_iff.mp hnodup)).1
  have hne : previous ≠ current := by
    rintro rfl
    exact hnotmem (by simp)
  have hmem' : ∀ K' i, i ∈ update c K (current :: (xs ++ previous :: ys)) K' ↔ i ∈ c K' := by
    intro K' i
    rcases eq_or_ne K' K with rfl | hK
    · rw [update_self]
      exact hmem i
    · rw [update_of_ne hK]
  constructor
  · intro K'
    rw [link_moveToFront s K hne]
    change Segment _ (update s.baseblock K (some current) K') _ none
    rcases eq_or_ne K' K with rfl | hK
    · rw [update_self, update_self]
      refine ⟨rfl, ?_⟩
      rw [update_self, segment_update_of_notMem hnotmem]
      exact hseg.bypass
    · rw [update_of_ne hK, update_of_ne hK]
      have hcurrent : current ∉ c K' := fun hi =>
        hK (h.disjoint K' K current hi ((hmem current).mp List.mem_cons_self))
      have hprevious : previous ∉ c K' := fun hi =>
        hK (h.disjoint K' K previous hi ((hmem previous).mp (by simp)))
      rw [segment_update_of_notMem hcurrent, segment_update_of_notMem hprevious]
      exact h.segment K'
  · intro K' i hi
    exact h.lt K' i ((hmem' K' i).mp hi)
  · intro i hi
    obtain ⟨K', hK'⟩ := h.covers i hi
    exact ⟨K', (hmem' K' i).mpr hK'⟩
  · intro K₁ K₂ i h₁ h₂
    exact h.disjoint K₁ K₂ i ((hmem' K₁ i).mp h₁) ((hmem' K₂ i).mp h₂)
  · exact h.pool

end Chained

/-! ## New blocks -/

structure Allocated (s s' : REXXAPIDATA) : Prop where
  count : s'.count = s.count + 1
  base : s'.baseblock = s.baseblock
  old : ∀ i < s.count, s'.SEDATA i = s.SEDATA i
  pool : s'.sebase = true

section Allocation

variable {sys : System} {s s' : REXXAPIDATA} {c : RegType → List ℕ} {n : ℕ}

theorem createPool_spec (h : Chained s c) (hs : createPool sys s = some s') :
    s'.count = s.count ∧ s'.baseblock = s.baseblock ∧ (∀ i < s.count, s'.SEDATA i = s.SEDATA i) ∧
      s'.sebase = true := by
  rw [createPool] at hs
  split at hs
  · rename_i hpool
    obtain rfl := Option.some.inj hs
    exact ⟨rfl, rfl, fun _ _ => rfl, hpool⟩
  · rename_i hpool
    have hcount := h.pool (Bool.not_eq_true _ ▸ hpool)
    split at hs
    · obtain rfl := Option.some.inj hs
      refine ⟨hcount.symm, ?_, fun i hi => absurd hi (by omega), rfl⟩
      funext K
      have hnil : c K = [] := List.length_eq_zero_iff.mp
        (Nat.le_zero.mp (hcount ▸ h.length_le K))
      exact (h.base_eq_none.mpr hnil).symm
    · cases hs

theorem RxAllocMem_spec (h : Chained s c) (hs : RxAllocMem sys s = some (n, s')) :
    n = s.count ∧ Allocated s s' := by
  rw [RxAllocMem] at hs
  split at hs
  · cases hs
  · rename_i s₀ hcreate
    obtain ⟨hcount, hbase, hold, hpool⟩ := createPool_spec h hcreate
    split at hs
    · split at hs
      · cases hs
      · cases hs
        exact ⟨hcount, congrArg (· + 1) hcount, hbase, hold, hpool⟩
    · cases hs
      exact ⟨hcount, congrArg (· + 1) hcount, hbase, hold, hpool⟩

theorem RxAllocAPIBlock_spec (h : Chained s c) {name : PSZ} {dll proc : Option PSZ}
    (hs : RxAllocAPIBlock sys s name dll proc = some (n, s')) :
    n = s.count ∧ Allocated s s' ∧ (s'.SEDATA n).apiname = name ∧
      (s'.SEDATA n).apidll_name = dll.getD emptyString ∧
      (s'.SEDATA n).apidll_proc = proc.getD emptyString := by
  rw [RxAllocAPIBlock] at hs
  split at hs
  · split at hs
    · cases hs
    · rename_i block s₁ halloc
      cases hs
      obtain ⟨rfl, hnew⟩ := RxAllocMem_spec h halloc
      refine ⟨rfl, ⟨hnew.count, hnew.base, fun i hi => ?_, hnew.pool⟩, ?_⟩
      · exact (update_of_ne (Nat.ne_of_lt hi) ..).trans (hnew.old i hi)
      · simp only [REXXAPIDATA.setBlock, update_self, and_self]
  · cases hs

theorem Allocated.push (halloc : Allocated s s') (h : Chained s c) (K : RegType) {b : APIBLOCK}
    (hb : b.next = s'.baseblock K) :
    Chained ((s'.setBlock s.count b).setBase K (some s.count))
      (update c K (s.count :: c K)) := by
  rw [halloc.base] at hb
  refine h.push hb halloc.count (update_self ..) (fun i hi => ?_) ?_ halloc.pool
  · change (update s'.SEDATA s.count b i).next = (s.SEDATA i).next
    rw [update_of_ne (Nat.ne_of_lt hi), halloc.old i hi]
  · exact congrArg (update · K (some s.count)) halloc.base

theorem Allocated.push_mem (halloc : Allocated s s') (h : Chained s c) {K K' : RegType}
    (b : APIBLOCK) {i : ℕ} (hi : i ∈ update c K (s.count :: c K) K') :
    (i ∈ c K' ∧
      ((s'.setBlock s.count b).setBase K (some s.count)).SEDATA i = s.SEDATA i) ∨
    (K' = K ∧ ((s'.setBlock s.count b).setBase K (some s.count)).SEDATA i = b) := by
  change (i ∈ c K' ∧ update s'.SEDATA s.count b i = s.SEDATA i) ∨
    (K' = K ∧ update s'.SEDATA s.count b i = b)
  have hold : i ∈ c K' → update s'.SEDATA s.count b i = s.SEDATA i := by
    intro hi
    have hlt := h.lt K' i hi
    rw [update_of_ne (Nat.ne_of_lt hlt), halloc.old i hlt]
  rcases eq_or_ne K' K with rfl | hK
  · rw [update_self, List.mem_cons] at hi
    rcases hi with rfl | hi
    · exact .inr ⟨rfl, update_self ..⟩
    · exact .inl ⟨hi, hold hi⟩
  · rw [update_of_ne hK] at hi
    exact .inl ⟨hi, hold hi⟩

end Allocation

/-! ## Searches -/

def APIBLOCK.names (b : APIBLOCK) : PSZ × PSZ × PSZ := (b.apiname, b.apidll_name, b.apidll_proc)

def SameNames (s : REXXAPIDATA) (c : RegType → List ℕ) (s' : REXXAPIDATA)
    (c' : RegType → List ℕ) : Prop :=
  ∀ K, ∀ i ∈ c' K, ∃ j ∈ c K, (s'.SEDATA i).names = (s.SEDATA j).names

structure Searched (s : REXXAPIDATA) (c : RegType → List ℕ) (name : PSZ) (K : RegType)
    (found : Option ℕ) (s' : REXXAPIDATA) (c' : RegType → List ℕ) : Prop where
  chained : Chained s' c'
  sameNames : SameNames s c s' c'
  found : ∀ i, found = some i → i ∈ c' K ∧ sameName (s'.SEDATA i).apiname name = true

section Search

variable {sys : System} {s : REXXAPIDATA} {p : Process} {c : RegType → List ℕ} {name : PSZ}
  {K : RegType}

theorem SameNames.refl (s : REXXAPIDATA) (c : RegType → List ℕ) : SameNames s c s c :=
  fun _ i hi => ⟨i, hi, rfl⟩

theorem SameNames.of_names {s' : REXXAPIDATA} {c' : RegType → List ℕ}
    (hmem : ∀ K, ∀ i ∈ c' K, i ∈ c K) (hnames : ∀ i, (s'.SEDATA i).names = (s.SEDATA i).names) :
    SameNames s c s' c' :=
  fun K i hi => ⟨i, hmem K i hi, hnames i⟩

theorem Searched.refl (h : Chained s c) : Searched s c name K none s c where
  chained := h
  sameNames := SameNames.refl s c
  found _ hi := nomatch hi

theorem names_update {f : ℕ → APIBLOCK} {i : ℕ} {b : APIBLOCK} (hb : b.names = (f i).names)
    (j : ℕ) : (update f i b j).names = (f j).names := by
  rcases eq_or_ne j i with rfl | hj
  · rwa [update_self]
  · rw [update_of_ne hj]

theorem names_moveToFront (s : REXXAPIDATA) (K : RegType) (previous current i : ℕ) :
    ((moveToFront s K previous current).SEDATA i).names = (s.SEDATA i).names := by
  simp only [moveToFront, setBase, REXXAPIDATA.setBlock]
  rw [names_update, names_update]
  · rfl
  · rfl

theorem names_takeOwn (s : REXXAPIDATA) (p : Process) (K : RegType) (previous : Option ℕ)
    (current i : ℕ) :
    ((takeOwn s p K previous current).SEDATA i).names = (s.SEDATA i).names := by
  have htaken : ∀ j, ((s.setBlock current
      { s.SEDATA current with apiownpid := p.getpid }).SEDATA j).names =
      (s.SEDATA j).names := names_update rfl
  cases previous with
  | none => exact htaken i
  | some previous =>
      have hmoved := names_moveToFront (s.setBlock current
        { s.SEDATA current with apiownpid := p.getpid }) K previous current
      rw [takeOwn, ← htaken i, ← hmoved i]
      exact names_update (by rfl) i

theorem names_takeExe (s : REXXAPIDATA) (K : RegType) (previous : Option ℕ) (current i : ℕ) :
    ((takeExe s K previous current).SEDATA i).names = (s.SEDATA i).names := by
  cases previous with
  | none => rfl
  | some previous =>
      exact (names_update (by rfl) i).trans (names_moveToFront s K previous current i)

def moved (c : RegType → List ℕ) (K : RegType) (xs : List ℕ) (j : ℕ) (ys : List ℕ) :
    RegType → List ℕ :=
  update c K (j :: (xs ++ ys))

theorem mem_moved {xs ys : List ℕ} {j : ℕ} (hc : c K = xs ++ j :: ys) (K' : RegType) (i : ℕ) :
    i ∈ moved c K xs j ys K' ↔ i ∈ c K' := by
  rw [moved]
  rcases eq_or_ne K' K with rfl | hK
  · rw [update_self, hc]
    simp only [List.mem_cons, List.mem_append]
    tauto
  · rw [update_of_ne hK]

theorem found_moved {xs ys : List ℕ} {j : ℕ} (hc : c K = xs ++ j :: ys)
    {s' : REXXAPIDATA}
    (hfront : xs = [] → Chained s' c)
    (hbehind : ∀ zs previous, xs = zs ++ [previous] →
      Chained s' (update c K (j :: (zs ++ previous :: ys))))
    (hnames : ∀ i, (s'.SEDATA i).names = (s.SEDATA i).names)
    (hname : sameName (s.SEDATA j).apiname name = true) :
    Searched s c name K (some j) s' (moved c K xs j ys) := by
  refine ⟨?_, SameNames.of_names (fun K' i => (mem_moved hc K' i).mp) hnames, ?_⟩
  · rcases xs.eq_nil_or_concat with rfl | ⟨zs, previous, rfl⟩
    · have heq : moved c K [] j ys = c := by
        rw [moved, List.nil_append, ← List.nil_append (j :: ys), ← hc, update_eq_self]
      rw [heq]
      exact hfront rfl
    · have hchained := hbehind zs previous (List.concat_eq_append ..)
      rw [moved, List.concat_eq_append, List.append_assoc]
      exact hchained
  · intro i hi
    obtain rfl := Option.some.inj hi
    refine ⟨(mem_moved hc K j).mpr (hc ▸ by simp), ?_⟩
    have h := congrArg Prod.fst (hnames j)
    change (s'.SEDATA j).apiname = (s.SEDATA j).apiname at h
    rwa [h]

theorem takeOwn_searched (h : Chained s c) {xs ys : List ℕ} {j : ℕ} (hc : c K = xs ++ j :: ys)
    (hname : sameName (s.SEDATA j).apiname name = true) :
    Searched s c name K (some j) (takeOwn s p K xs.getLast? j) (moved c K xs j ys) := by
  apply found_moved hc _ _ (names_takeOwn s p K _ j) hname
  · rintro rfl
    exact h.setBlock rfl
  · rintro zs previous rfl
    rw [List.getLast?_concat]
    rw [List.append_assoc] at hc
    exact ((h.setBlock (by rfl)).moveToFront hc).setBlock (by rfl)

theorem takeExe_searched (h : Chained s c) {xs ys : List ℕ} {j : ℕ} (hc : c K = xs ++ j :: ys)
    (hname : sameName (s.SEDATA j).apiname name = true) :
    Searched s c name K (some j) (takeExe s K xs.getLast? j) (moved c K xs j ys) := by
  apply found_moved hc _ _ (names_takeExe s K _ j) hname
  · rintro rfl
    exact h
  · rintro zs previous rfl
    rw [List.getLast?_concat]
    rw [List.append_assoc] at hc
    exact (h.moveToFront hc).setBlock (by rfl)

theorem mainLoop_spec (p : Process) (name : PSZ) (sblock : Option ℕ) {l : List ℕ}
    {base : Option ℕ} {fuel : ℕ} (h : Segment s.link base l none) (hfuel : l.length ≤ fuel) :
    ∃ r, mainLoop s p name fuel base sblock = some r ∧
      ∀ i, r = some i → sblock = some i ∨ (i ∈ l ∧ isMain name (s.SEDATA i) = true) := by
  induction l generalizing base sblock fuel with
  | nil =>
      obtain rfl : base = none := h
      refine ⟨sblock, ?_, fun i hi => .inl hi⟩
      cases fuel <;> rfl
  | cons j js ih =>
      obtain ⟨rfl, hjs⟩ := h
      cases fuel with
      | zero => exact absurd hfuel (by simp)
      | succ fuel =>
          have hfuel' : js.length ≤ fuel := Nat.le_of_succ_le_succ hfuel
          simp only [mainLoop]
          split
          · rename_i hmain
            split
            · refine ⟨some j, rfl, fun i hi => ?_⟩
              obtain rfl := Option.some.inj hi
              exact .inr ⟨List.mem_cons_self, hmain⟩
            · obtain ⟨r, hr, hfound⟩ := ih (some j) hjs hfuel'
              refine ⟨r, hr, fun i hi => .inr ?_⟩
              rcases hfound i hi with hij | ⟨hi, hmain⟩
              · obtain rfl := Option.some.inj hij
                exact ⟨List.mem_cons_self, hmain⟩
              · exact ⟨List.mem_cons_of_mem j hi, hmain⟩
          · obtain ⟨r, hr, hfound⟩ := ih sblock hjs hfuel'
            refine ⟨r, hr, fun i hi => ?_⟩
            rcases hfound i hi with hsblock | ⟨hi, hmain⟩
            · exact .inl hsblock
            · exact .inr ⟨List.mem_cons_of_mem j hi, hmain⟩

theorem cloneMain_spec (sys : System) (p : Process) (h : Chained s c) {sblock : ℕ}
    (hmem : sblock ∈ c K)
    (hname : sameName (s.SEDATA sblock).apiname name = true) :
    ∃ c', Searched s c name K (cloneMain sys s p K name sblock).1
      (cloneMain sys s p K name sblock).2 c' := by
  rw [cloneMain]
  cases halloc : RxAllocAPIBlock sys s name none none with
  | none => exact ⟨c, Searched.refl h⟩
  | some r =>
      obtain ⟨n, s₁⟩ := r
      obtain ⟨rfl, hnew, -⟩ := RxAllocAPIBlock_spec h halloc
      have hold := hnew.old sblock (h.lt K sblock hmem)
      refine ⟨update c K (s.count :: c K), hnew.push h K rfl, ?_, ?_⟩
      · intro K' i hi
        rcases hnew.push_mem h (clonedBlock s₁ p K (s₁.SEDATA sblock)) hi with
          ⟨hi, hsame⟩ | ⟨rfl, hcloned⟩
        · exact ⟨i, hi, congrArg APIBLOCK.names hsame⟩
        · refine ⟨sblock, hmem, ?_⟩
          have hnames := congrArg APIBLOCK.names hcloned
          rw [← hold]
          exact hnames
      · intro i hi
        obtain rfl := Option.some.inj hi
        refine ⟨?_, ?_⟩
        · rw [update_self]
          exact List.mem_cons_self
        · simp only [setBase, REXXAPIDATA.setBlock, update_self]
          rw [hold]
          exact hname

theorem searchMain_spec (sys : System) (p : Process) (name : PSZ) (K : RegType)
    (h : Chained s c) :
    ∃ r s' c', searchMain sys s p name K = some (r, s') ∧ Searched s c name K r s' c' := by
  obtain ⟨r, hr, hfound⟩ := mainLoop_spec p name none (h.segment K) (h.length_le K)
  rw [searchMain, hr]
  cases r with
  | none => exact ⟨none, s, c, rfl, Searched.refl h⟩
  | some sblock =>
      rcases hfound sblock rfl with hnone | ⟨hmem, hmain⟩
      · cases hnone
      · have hname : sameName (s.SEDATA sblock).apiname name = true := by
          simp only [isMain, Bool.and_eq_true] at hmain
          exact hmain.1.2
        simp only
        split
        · obtain ⟨c', hc'⟩ := cloneMain_spec sys p h hmem hname
          exact ⟨_, _, c', rfl, hc'⟩
        · refine ⟨_, s, c, rfl, h, SameNames.refl s c, fun i hi => ?_⟩
          obtain rfl := Option.some.inj hi
          exact ⟨hmem, hname⟩

theorem RegSearch_spec (sys : System) (p : Process) (name : PSZ) (K : RegType) (all : Bool)
    (h : Chained s c) :
    ∃ r s' c', RegSearch sys s p name K all = some (r, s') ∧ Searched s c name K r s' c' := by
  have hmain := searchMain_spec sys p name K h
  simp only [RegSearch]
  split
  · rename_i base hbase
    have hseg := h.segment K
    rw [hbase] at hseg
    rcases search_cases (fun c => isOwnOrFree p name (s.SEDATA c) ||
      isOwnExe p name (s.SEDATA c)) hseg (h.length_le K) with
      ⟨xs, j, ys, hc, htest, hsearch⟩ | ⟨-, hsearch⟩
    · rw [hsearch]
      simp only
      split
      · rename_i hown
        have hname : sameName (s.SEDATA j).apiname name = true := by
          simp only [isOwnOrFree, Bool.and_eq_true] at hown
          exact hown.1.2
        exact ⟨_, _, _, rfl, takeOwn_searched h hc hname⟩
      · rename_i hown
        have hexe : isOwnExe p name (s.SEDATA j) = true := by
          simpa only [hown, Bool.false_or] using htest
        have hname : sameName (s.SEDATA j).apiname name = true := by
          simp only [isOwnExe, Bool.and_eq_true] at hexe
          exact hexe.1.2
        exact ⟨_, _, _, rfl, takeExe_searched h hc hname⟩
    · rw [hsearch]
      exact hmain
  · exact hmain

end Search

end LeooRexx.SubcommandAPI
