import LeooRexx.Rexxapi.SubcommandTable

/-!
# Runs of calls on the registration table

A block that is freed leaves all other blocks on one chain that all three kinds start, so
the table is sound as long as a block is freed only with all the others.
-/

namespace LeooRexx.SubcommandAPI

open Chain REXXAPIDATA Function

/-! ## What is promised -/

def Registers (e : Event) (K : RegType) (names : PSZ × PSZ × PSZ) : Prop :=
  match e.call with
  | .registerDll name dll proc _ _ type =>
    type = K ∧ names = (name, dll.getD emptyString, proc.getD emptyString)
  | .registerExe name _ _ type _ => type = K ∧ names = (name, emptyString, emptyString)
  | _ => False

/-- The chains end, and each block of the pool is on exactly one of them, once.  A search
ends, and what it finds was registered as a handler of the kind searched for. -/
structure Sound (history : List Event) (s : REXXAPIDATA) : Prop where
  chains : ∃ c : RegType → List ℕ,
    (∀ K, Segment s.link (s.baseblock K) (c K) none ∧ (c K).Nodup) ∧
    (∀ i, i < s.count ↔ ∃ K, i ∈ c K) ∧ ∀ K K' i, i ∈ c K → i ∈ c K' → K = K'
  found : ∀ sys p name K all, ∃ r s', RegSearch sys s p name K all = some (r, s') ∧
    ∀ i, r = some i → sameName (s'.SEDATA i).apiname name = true ∧
      ∃ e ∈ history, Registers e K (s'.SEDATA i).names

def OnChain (s : REXXAPIDATA) (K : RegType) (i : ℕ) : Prop :=
  ∃ l, Segment s.link (s.baseblock K) l none ∧ i ∈ l

def Unchanged (b b' : APIBLOCK) : Prop := { b' with next := b.next } = b

def Stands (s : REXXAPIDATA) (K : RegType) (b : APIBLOCK) : Prop :=
  ∃ i, OnChain s K i ∧ Unchanged b (s.SEDATA i)

def KeepsBlock (e : Event) (s' : REXXAPIDATA) (K : RegType) (b : APIBLOCK) : Prop :=
  match e.call with
  | .drop _ _ type =>
    (K ≠ type ∨ (b.apiownpid ≠ e.process.getpid ∧ b.apiownpid ≠ 0)) → Stands s' K b
  | .exitClearNormal =>
    (b.apiownpid ≠ e.process.getpid → b.apiownpid ≠ 0 →
      e.system.running b.apiownpid = true → Stands s' K b) ∧
    (b.apiownpid = 0 → b.apiFunRegFlag = 0 → Stands s' K b ∨ Stands s' K (resetMain b))
  | .exitClear => Stands s' K b
  | _ => True

def KeepsOthers (s : REXXAPIDATA) (e : Event) (s' : REXXAPIDATA) : Prop :=
  ∀ K i, OnChain s K i → KeepsBlock e s' K (s.SEDATA i)

/-! ## When calls do no harm -/

def Granted (sys : System) (s : REXXAPIDATA) : Prop :=
  ∀ k, SESTDSIZE < s.sememsize / 2 ^ k → sys.getshmem (s.sememsize / 2 ^ (k + 1)) = true

def loads (sys : System) (ext : List UInt8) (b : APIBLOCK) : Bool :=
  b.apiaddr != 0 || libraryAddress sys ext b != 0

/-- The call frees no block, or it frees the whole pool; and it drops or resets no
registration of another kind or of another process. -/
def Harmless (s : REXXAPIDATA) (e : Event) : Prop :=
  let p := e.process
  let sys := e.system
  match e.call with
  | .load ext name type =>
    ∀ i s', RegSearch sys s p name type true = some (some i, s') →
      loads sys ext (s'.SEDATA i) = true ∨ (s'.count = 1 ∧ Granted sys s')
  | .drop name dll type =>
    ∀ i < s.count, isDropped name dll (s.SEDATA i) = true → (s.SEDATA i).apiFunRegFlag ≠ 1 →
      OnChain s type i ∧
        ((s.SEDATA i).apiownpid = p.getpid ∨ (s.SEDATA i).apiownpid = 0)
  | .exitClearNormal =>
    (∀ i < s.count, isCleaned sys p (s.SEDATA i) = true →
      (s.SEDATA i).apiownpid = p.getpid ∨ (s.SEDATA i).apiownpid = 0 ∨
        sys.running (s.SEDATA i).apiownpid = false) ∧
    ((∀ i < s.count, isCleaned sys p (s.SEDATA i) = true → (s.SEDATA i).apiFunRegFlag = 0) ∨
      ((∀ i < s.count, isCleaned sys p (s.SEDATA i) = true ∧
        (s.SEDATA i).apiFunRegFlag ≠ 0) ∧ Granted sys s))
  | _ => True

/-! ## Blocks on the chains -/

section Blocks

variable {s s' : REXXAPIDATA} {c c' : RegType → List ℕ} {K : RegType} {i : ℕ}
  {history : List Event} {e : Event}

theorem Chained.onChain_iff (h : Chained s c) : OnChain s K i ↔ i ∈ c K := by
  constructor
  · rintro ⟨l, hl, hi⟩
    rwa [hl.unique (h.segment K)] at hi
  · intro hi
    exact ⟨c K, h.segment K, hi⟩

theorem Unchanged.refl (b : APIBLOCK) : Unchanged b b := rfl

theorem Chained.stands (h : Chained s c) {b : APIBLOCK} (hi : i ∈ c K)
    (hb : Unchanged b (s.SEDATA i)) : Stands s K b :=
  ⟨i, h.onChain_iff.mpr hi, hb⟩

def RegisteredAs (history : List Event) (s : REXXAPIDATA) (c : RegType → List ℕ) : Prop :=
  ∀ K, ∀ i ∈ c K, ∃ e ∈ history, Registers e K (s.SEDATA i).names

theorem RegisteredAs.of_sameNames (h : RegisteredAs history s c) (hsame : SameNames s c s' c') :
    RegisteredAs history s' c' := by
  intro K i hi
  obtain ⟨j, hj, hnames⟩ := hsame K i hi
  rw [hnames]
  exact h K j hj

theorem RegisteredAs.concat (h : RegisteredAs history s c) (e : Event) :
    RegisteredAs (history ++ [e]) s c := by
  intro K i hi
  obtain ⟨e', he', hregisters⟩ := h K i hi
  exact ⟨e', List.mem_append_left [e] he', hregisters⟩

theorem RegisteredAs.empty (history : List Event) (s : REXXAPIDATA) :
    RegisteredAs history s fun _ => [] :=
  fun _ _ hi => absurd hi List.not_mem_nil

theorem RegisteredAs.push (h : RegisteredAs history s c) (hchained : Chained s c)
    (halloc : Allocated s s') (b : APIBLOCK) (hb : Registers e K b.names) :
    RegisteredAs (history ++ [e]) ((s'.setBlock s.count b).setBase K (some s.count))
      (update c K (s.count :: c K)) := by
  intro K' i hi
  rcases halloc.push_mem hchained b hi with ⟨hi, hsame⟩ | ⟨rfl, hnew⟩
  · rw [hsame]
    exact h.concat e K' i hi
  · rw [hnew]
    exact ⟨e, by simp, hb⟩

theorem Chained.removePool (h : Chained s c) : Chained (removePool s) c := by
  rw [SubcommandAPI.removePool]
  split
  · rename_i hbase
    refine ⟨h.segment, h.lt, h.covers, h.disjoint, fun _ => ?_⟩
    by_contra hcount
    obtain ⟨K, hK⟩ := h.covers 0 (Nat.pos_of_ne_zero hcount)
    have hnil : c K = [] := by
      cases K with
      | REGSUBCOMM => exact h.base_eq_none.mp hbase.1
      | REGSYSEXIT => exact h.base_eq_none.mp hbase.2.1
      | REGFUNCTION => exact h.base_eq_none.mp hbase.2.2
    rw [hnil] at hK
    cases hK
  · exact h

theorem sound_of_chained (h : Chained s c) (hreg : RegisteredAs history s c) :
    Sound history s where
  chains := by
    refine ⟨c, fun K => ⟨h.segment K, (h.segment K).nodup⟩, fun i => ?_, h.disjoint⟩
    constructor
    · exact h.covers i
    · rintro ⟨K, hi⟩
      exact h.lt K i hi
  found := by
    intro sys p name K all
    obtain ⟨r, s', c', hsearch, hfound⟩ := RegSearch_spec sys p name K all h
    refine ⟨r, s', hsearch, fun i hi => ?_⟩
    obtain ⟨hmem, hname⟩ := hfound.found i hi
    exact ⟨hname, hreg.of_sameNames hfound.sameNames K i hmem⟩

end Blocks

/-! ## Freeing -/

section Free

variable {sys : System} {s : REXXAPIDATA} {p : Process} {K : RegType}

theorem shrink_size (sys : System) (top fuel size : ℕ) :
    ∃ m, (shrink sys top fuel size).1 = size / 2 ^ m := by
  induction fuel generalizing size with
  | zero => exact ⟨0, (Nat.div_one size).symm⟩
  | succ fuel ih =>
      rw [shrink]
      split
      · split
        · obtain ⟨m, hm⟩ := ih (size / 2)
          refine ⟨m + 1, ?_⟩
          rw [hm, Nat.div_div_eq_div_mul, Nat.pow_succ']
        · exact ⟨0, (Nat.div_one size).symm⟩
      · exact ⟨0, (Nat.div_one size).symm⟩

theorem shrink_granted (top fuel : ℕ) {size : ℕ}
    (h : ∀ k, SESTDSIZE < size / 2 ^ k → sys.getshmem (size / 2 ^ (k + 1)) = true) :
    (shrink sys top fuel size).2 = true := by
  induction fuel generalizing size with
  | zero => rfl
  | succ fuel ih =>
      rw [shrink]
      split
      · rename_i hsize
        have hget : sys.getshmem (size / 2) = true := by
          simpa using h 0 (by simpa using hsize.2)
        rw [if_pos hget]
        apply ih
        intro k hk
        have hdiv : ∀ m, size / 2 / 2 ^ m = size / 2 ^ (m + 1) := fun m => by
          rw [Nat.div_div_eq_div_mul, Nat.pow_succ']
        rw [hdiv] at hk ⊢
        exact h (k + 1) hk
      · rfl

theorem RxFreeAPIBlock_below (sys : System) (s : REXXAPIDATA) (n : ℕ) :
    (RxFreeAPIBlock sys s n).count = s.count - 1 ∧
      (∃ m, (RxFreeAPIBlock sys s n).sememsize = s.sememsize / 2 ^ m) ∧
      ∀ i < n, Unchanged (s.SEDATA i) ((RxFreeAPIBlock sys s n).SEDATA i) := by
  have hsize := shrink_size sys (closeGap s n).sememtop s.sememsize s.sememsize
  have hbelow : ∀ i < n, (closeGap s n).SEDATA i = s.SEDATA i := fun i hi => if_pos hi
  simp only [RxFreeAPIBlock]
  split
  · refine ⟨rfl, hsize, fun i hi => ?_⟩
    simp only [repairChain, hbelow i hi]
    split
    · exact Unchanged.refl _
    · exact Unchanged.refl _
  · refine ⟨rfl, hsize, fun i hi => ?_⟩
    simp only [hbelow i hi]
    exact Unchanged.refl _

theorem RxFreeAPIBlock_last (hcount : s.count = 1) (hgranted : Granted sys s) (n : ℕ) :
    ∀ K, (RxFreeAPIBlock sys s n).baseblock K = none := by
  intro K
  have hzero : s.count - 1 = 0 := by rw [hcount]
  have h := shrink_granted (closeGap s n).sememtop s.sememsize hgranted
  simp only [RxFreeAPIBlock]
  rw [if_pos (show (shrink sys (closeGap s n).sememtop (closeGap s n).sememsize
    (closeGap s n).sememsize).2 = true from h)]
  exact if_pos hzero

theorem deregLoop_all (rc : ℤ) {n : ℕ} (hcount : s.count = n)
    (hall : ∀ i < n, isCleaned sys p (s.SEDATA i) = true ∧ (s.SEDATA i).apiFunRegFlag ≠ 0)
    (hgranted : Granted sys s) (hempty : n = 0 → ∀ K, s.baseblock K = none) :
    (deregLoop sys p K n s rc).2.count = 0 ∧
      ∀ K', (deregLoop sys p K n s rc).2.baseblock K' = none := by
  induction n generalizing s rc with
  | zero => exact ⟨hcount, hempty rfl⟩
  | succ n ih =>
      obtain ⟨hcleaned, hflag⟩ := hall n (Nat.lt_succ_self n)
      obtain ⟨hless, ⟨m, hsize⟩, hbelow⟩ := RxFreeAPIBlock_below sys s n
      rw [deregLoop, if_pos hcleaned, if_pos hflag]
      apply ih
      · exact hless.trans (by rw [hcount]; rfl)
      · intro i hi
        obtain ⟨hcleaned, hflag⟩ := hall i (Nat.lt_succ_of_lt hi)
        have hb := hbelow i hi
        rw [← hb] at hcleaned hflag
        exact ⟨hcleaned, hflag⟩
      · intro k hk
        change SESTDSIZE < (RxFreeAPIBlock sys s n).sememsize / 2 ^ k at hk
        change sys.getshmem ((RxFreeAPIBlock sys s n).sememsize / 2 ^ (k + 1)) = true
        have hdiv : ∀ j, (RxFreeAPIBlock sys s n).sememsize / 2 ^ j =
            s.sememsize / 2 ^ (m + j) := fun j => by
          rw [hsize, Nat.div_div_eq_div_mul, Nat.pow_add]
        rw [hdiv] at hk ⊢
        exact hgranted (m + k) hk
      · rintro rfl K'
        have hlast := RxFreeAPIBlock_last hcount hgranted 0
        have hnew : newBase (RxFreeAPIBlock sys s 0) = none :=
          if_pos (hless.trans (by rw [hcount]))
        change update (RxFreeAPIBlock sys s 0).baseblock K _ K' = none
        rcases eq_or_ne K' K with rfl | hK
        · rw [update_self, hnew]
        · rw [update_of_ne hK, hlast]

theorem deregLoop_none (rc : ℤ) {n : ℕ}
    (h : ∀ i < n, isCleaned sys p (s.SEDATA i) = true → (s.SEDATA i).apiFunRegFlag = 0) :
    (deregLoop sys p K n s rc).2 = { s with
      SEDATA := fun i =>
        if i < n ∧ isCleaned sys p (s.SEDATA i) = true then resetMain (s.SEDATA i)
        else s.SEDATA i } := by
  induction n generalizing s rc with
  | zero => simp [deregLoop]
  | succ n ih =>
      have hsplit : ∀ i, i < n + 1 ↔ i < n ∨ i = n := fun i => Nat.lt_succ_iff_lt_or_eq
      rw [deregLoop]
      split
      · rename_i hcleaned
        rw [if_neg (by simp [h n (Nat.lt_succ_self n) hcleaned])]
        have hother : ∀ i, i ≠ n →
            (s.setBlock n (resetMain (s.SEDATA n))).SEDATA i = s.SEDATA i :=
          fun i hi => update_of_ne hi ..
        rw [ih _ fun i hi => by
          rw [hother i (Nat.ne_of_lt hi)]
          exact h i (Nat.lt_succ_of_lt hi)]
        simp only [REXXAPIDATA.setBlock]
        congr 1
        funext i
        rcases eq_or_ne i n with rfl | hi
        · simp [hcleaned]
        · simp [hsplit, hi]
      · rename_i hcleaned
        rw [ih _ fun i hi => h i (Nat.lt_succ_of_lt hi)]
        congr 1
        funext i
        rcases eq_or_ne i n with rfl | hi
        · simp [hcleaned]
        · simp [hsplit, hi]

end Free

/-! ## Single calls -/

section Step

variable {s : REXXAPIDATA} {c : RegType → List ℕ} {history : List Event} {e : Event}

def Leaves (history : List Event) (s' : REXXAPIDATA) : Prop :=
  ∃ c', Chained s' c' ∧ RegisteredAs history s' c'

theorem RegRegisterDll_spec (h : Chained s c) (hreg : RegisteredAs history s c) {name : PSZ}
    {dll proc : Option PSZ} {user : Option (List.Vector UInt8 USERLENGTH)} {auth : ℕ}
    {K : RegType} (he : e.call = .registerDll name dll proc user auth K) (sys : System)
    (p : Process) :
    ∃ r, RegRegisterDll sys s p name dll proc user auth K = some r ∧
      Leaves (history ++ [e]) r.2 := by
  obtain ⟨found, s', c', hsearch, hfound⟩ := RegSearch_spec sys p name K false h
  have hreg' := hreg.of_sameNames hfound.sameNames
  rw [RegRegisterDll, hsearch]
  cases found with
  | some i => exact ⟨_, rfl, c', hfound.chained, hreg'.concat e⟩
  | none =>
      simp only
      cases halloc : RxAllocAPIBlock sys s' name dll proc with
      | none => exact ⟨_, rfl, c', hfound.chained, hreg'.concat e⟩
      | some r =>
          obtain ⟨n, s₁⟩ := r
          obtain ⟨rfl, hnew, hname, hdll, hproc⟩ := RxAllocAPIBlock_spec hfound.chained halloc
          refine ⟨_, rfl, _, hnew.push hfound.chained K rfl,
            hreg'.push hfound.chained hnew _ ?_⟩
          rw [Registers, he]
          refine ⟨rfl, ?_⟩
          rw [← hname, ← hdll, ← hproc]
          rfl

theorem RegRegisterExe_spec (h : Chained s c) (hreg : RegisteredAs history s c) {name : PSZ}
    {address : ℕ} {user : Option (List.Vector UInt8 USERLENGTH)} {calltype : ℤ} {K : RegType}
    (he : e.call = .registerExe name address user K calltype) (sys : System) (p : Process) :
    ∃ r, RegRegisterExe sys s p name address user K calltype = some r ∧
      Leaves (history ++ [e]) r.2 := by
  have hstay : Leaves (history ++ [e]) s := ⟨c, h, hreg.concat e⟩
  have hcheck : ∃ rc, execheck s p name K = some rc := by
    rw [execheck]
    cases hbase : s.baseblock K with
    | none => exact ⟨_, rfl⟩
    | some base =>
        have hseg := h.segment K
        rw [hbase] at hseg
        rcases search_cases (fun i => isOwnExe p name (s.SEDATA i)) hseg (h.length_le K) with
          ⟨_, _, _, -, -, hsearch⟩ | ⟨-, hsearch⟩
        · simp only [hsearch]
          exact ⟨_, rfl⟩
        · simp only [hsearch]
          exact ⟨_, rfl⟩
  obtain ⟨rc, hrc⟩ := hcheck
  rw [RegRegisterExe, hrc]
  simp only
  split
  · cases halloc : RxAllocAPIBlock sys s name none none with
    | none => exact ⟨_, rfl, hstay⟩
    | some r =>
        obtain ⟨n, s₁⟩ := r
        obtain ⟨rfl, hnew, hname, hdll, hproc⟩ := RxAllocAPIBlock_spec h halloc
        refine ⟨_, rfl, _, hnew.push h K rfl, hreg.push h hnew _ ?_⟩
        rw [Registers, he]
        refine ⟨rfl, ?_⟩
        rw [← hname]
        exact congrArg₂ (fun d q => ((s₁.SEDATA s.count).apiname, d, q)) hdll hproc
  · exact ⟨_, rfl, hstay⟩

theorem RegQuery_spec (h : Chained s c) (hreg : RegisteredAs history s c) (sys : System)
    (p : Process) (name : PSZ) (dll : Option PSZ) (K : RegType) :
    ∃ r, RegQuery sys s p name dll K = some r ∧ Leaves history r.2 := by
  obtain ⟨found, s', c', hsearch, hfound⟩ := RegSearch_spec sys p name K dll.isNone h
  have hleaves : Leaves history s' :=
    ⟨c', hfound.chained, hreg.of_sameNames hfound.sameNames⟩
  rw [RegQuery, hsearch]
  cases found with
  | none => exact ⟨_, rfl, hleaves⟩
  | some i => exact ⟨_, rfl, hleaves⟩

theorem leaves_empty {s' : REXXAPIDATA} (history : List Event) (hcount : s'.count = 0)
    (hbase : ∀ K, s'.baseblock K = none) : Leaves history (removePool s') :=
  ⟨_, (Chained.empty hcount hbase).removePool, RegisteredAs.empty history _⟩

theorem loads_iff {sys : System} {ext : List UInt8} {b : APIBLOCK} (h : b.apiaddr = 0) :
    loads sys ext b = true ↔ libraryAddress sys ext b ≠ 0 := by
  simp [loads, h]

theorem RegLoad_spec (h : Chained s c) (hreg : RegisteredAs history s c) (sys : System)
    (ext : List UInt8) (p : Process) (name : PSZ) (K : RegType)
    (hload : ∀ i s', RegSearch sys s p name K true = some (some i, s') →
      loads sys ext (s'.SEDATA i) = true ∨ (s'.count = 1 ∧ Granted sys s')) :
    ∃ r, RegLoad sys ext s p name K = some r ∧ Leaves history r.2 := by
  obtain ⟨found, s', c', hsearch, hfound⟩ := RegSearch_spec sys p name K true h
  have hreg' := hreg.of_sameNames hfound.sameNames
  have hleaves : Leaves history s' := ⟨c', hfound.chained, hreg'⟩
  rw [RegLoad, hsearch]
  cases found with
  | none => exact ⟨_, rfl, hleaves⟩
  | some i =>
      have hi := (hfound.found i rfl).1
      simp only
      split
      · exact ⟨_, rfl, hleaves⟩
      · rename_i haddr
        rw [not_not] at haddr
        have hloads := @loads_iff sys ext _ haddr
        split
        · rename_i haddress
          rcases hload i s' hsearch with hloaded | ⟨hcount, hgranted⟩
          · exact absurd haddress (hloads.mp hloaded)
          · refine ⟨_, rfl, ?_⟩
            rw [dropUnloaded]
            cases hbase : s'.baseblock K with
            | none =>
                rw [hfound.chained.base_eq_none.mp hbase] at hi
                cases hi
            | some base =>
                apply leaves_empty history _ (RxFreeAPIBlock_last hcount hgranted base)
                rw [(RxFreeAPIBlock_below sys s' base).1, hcount]
        · refine ⟨_, rfl, c', ?_, ?_⟩
          · exact (hfound.chained.setBlock (by rfl)).congr (fun _ _ => rfl) rfl rfl rfl
          · exact hreg'.of_sameNames (SameNames.of_names (fun _ _ hi => hi)
              (names_update (by rfl)))

theorem leaves_contents (h : Chained s c) (hreg : RegisteredAs history s c) {s' : REXXAPIDATA}
    (hlink : ∀ i, s'.link i = s.link i) (hnames : ∀ i, (s'.SEDATA i).names = (s.SEDATA i).names)
    (hbase : s'.baseblock = s.baseblock) (hcount : s'.count = s.count)
    (hpool : s'.sebase = s.sebase) : Chained s' c ∧ RegisteredAs history s' c :=
  ⟨h.congr (fun i _ => hlink i) hbase hcount hpool,
    hreg.of_sameNames (SameNames.of_names (fun _ _ hi => hi) hnames)⟩

theorem RegDrop_spec (h : Chained s c) (hreg : RegisteredAs history s c) {name : PSZ}
    {dll : Option PSZ} {K : RegType} (he : e.call = .drop name dll K) (hsafe : Harmless s e) :
    Leaves history (RegDrop s name dll).2 ∧ KeepsOthers s e (RegDrop s name dll).2 := by
  rw [Harmless, he] at hsafe
  have hcontents : Chained (RegDrop s name dll).2 c ∧
      RegisteredAs history (RegDrop s name dll).2 c := by
    refine leaves_contents h hreg (fun i => ?_) (fun i => ?_) rfl rfl rfl
    · simp only [RegDrop, link]
      split
      · rfl
      · rfl
    · simp only [RegDrop]
      split
      · rfl
      · rfl
  refine ⟨⟨c, hcontents⟩, fun K' i hi => ?_⟩
  rw [KeepsBlock, he]
  intro hother
  apply hcontents.1.stands (h.onChain_iff.mp hi)
  have hlt := h.lt K' i (h.onChain_iff.mp hi)
  simp only [RegDrop]
  split
  · rename_i hdropped
    by_cases hflag : (s.SEDATA i).apiFunRegFlag = 1
    · rw [← hflag]
      exact Unchanged.refl _
    · obtain ⟨hon, howner⟩ := hsafe i hlt hdropped.2 hflag
      have hK : K' = K :=
        h.disjoint K' K i (h.onChain_iff.mp hi) (h.onChain_iff.mp hon)
      rcases hother with hne | ⟨hself, hzero⟩
      · exact absurd hK hne
      · exact absurd howner (not_or.mpr ⟨hself, hzero⟩)
  · exact Unchanged.refl _

theorem RxSubcomExitList_spec (h : Chained s c) : RxSubcomExitList s = some s := by
  have hloop : ∀ K, exitListLoop s K = some () := by
    intro K
    rw [exitListLoop]
    cases hbase : s.baseblock K with
    | none => rfl
    | some base =>
        have hseg := h.segment K
        rw [hbase] at hseg
        have hsearch : search s.link (fun _ => false) s.count none base = some none :=
          search_eq_none hseg (h.length_le K) fun _ _ => rfl
        simp only [hsearch]
        rfl
  rw [RxSubcomExitList]
  split
  · simp only [hloop, Option.bind_eq_bind, Option.bind_some]
    rfl
  · rfl

theorem removePool_SEDATA (s : REXXAPIDATA) : (removePool s).SEDATA = s.SEDATA := by
  rw [removePool]
  split
  · rfl
  · rfl

theorem dereg_none (h : Chained s c) (hreg : RegisteredAs history s c) (sys : System)
    (p : Process) (K : RegType)
    (hnone : ∀ i < s.count, isCleaned sys p (s.SEDATA i) = true →
      (s.SEDATA i).apiFunRegFlag = 0) :
    Chained (RegDeregFunc sys s p K).2 c ∧ RegisteredAs history (RegDeregFunc sys s p K).2 c ∧
      ∀ i < s.count, (RegDeregFunc sys s p K).2.SEDATA i =
        if isCleaned sys p (s.SEDATA i) = true then resetMain (s.SEDATA i) else s.SEDATA i := by
  have hloop := deregLoop_none (K := K) RXSUBCOM_NOTREG hnone
  simp only [RegDeregFunc, hloop]
  have hreset : ∀ i, (if i < s.count ∧ isCleaned sys p (s.SEDATA i) = true then
      resetMain (s.SEDATA i) else s.SEDATA i).next = (s.SEDATA i).next ∧
      (if i < s.count ∧ isCleaned sys p (s.SEDATA i) = true then
        resetMain (s.SEDATA i) else s.SEDATA i).names = (s.SEDATA i).names := by
    intro i
    split
    · exact ⟨rfl, rfl⟩
    · exact ⟨rfl, rfl⟩
  have hcontents : Chained { s with
      SEDATA := fun i =>
        if i < s.count ∧ isCleaned sys p (s.SEDATA i) = true then resetMain (s.SEDATA i)
        else s.SEDATA i
      pLibSave := update s.pLibSave p.getpid 0
      szLibName := update s.szLibName p.getpid emptyString } c ∧ RegisteredAs history _ c :=
    leaves_contents h hreg (fun i => (hreset i).1) (fun i => (hreset i).2) rfl rfl rfl
  refine ⟨hcontents.1.removePool, ?_, fun i hi => ?_⟩
  · intro K' i hi
    rw [removePool_SEDATA]
    exact hcontents.2 K' i hi
  · rw [removePool_SEDATA]
    simp only [hi, true_and]

theorem dereg_all (history : List Event) (h : Chained s c) {sys : System} {p : Process}
    {K : RegType}
    (hall : ∀ i < s.count, isCleaned sys p (s.SEDATA i) = true ∧ (s.SEDATA i).apiFunRegFlag ≠ 0)
    (hgranted : Granted sys s) : Leaves history (RegDeregFunc sys s p K).2 := by
  have hempty : s.count = 0 → ∀ K, s.baseblock K = none := by
    intro hcount K
    have hnil : c K = [] := List.length_eq_zero_iff.mp
      (Nat.le_zero.mp (hcount ▸ h.length_le K))
    exact h.base_eq_none.mpr hnil
  obtain ⟨hcount, hbase⟩ := deregLoop_all (K := K) RXSUBCOM_NOTREG rfl hall hgranted hempty
  exact leaves_empty history hcount hbase

theorem RxExitClearNormal_spec (h : Chained s c) (hreg : RegisteredAs history s c)
    (he : e.call = .exitClearNormal) (hsafe : Harmless s e) :
    ∃ s', RxExitClearNormal e.system s e.process = some s' ∧ Leaves history s' ∧
      KeepsOthers s e s' := by
  rw [Harmless, he] at hsafe
  obtain ⟨howner, hnone | ⟨hall, hgranted⟩⟩ := hsafe
  · obtain ⟨hchained, hreg', hblock⟩ := dereg_none h hreg e.system e.process .REGFUNCTION hnone
    refine ⟨_, RxSubcomExitList_spec hchained, ⟨c, hchained, hreg'⟩, fun K i hi => ?_⟩
    have hmem := h.onChain_iff.mp hi
    have hlt := h.lt K i hmem
    have hb := hblock i hlt
    rw [KeepsBlock, he]
    refine ⟨fun hself hzero hrunning => ?_, fun _ _ => ?_⟩
    · have hkept : isCleaned e.system e.process (s.SEDATA i) = false := by
        by_contra hcleaned
        rcases howner i hlt (by simpa using hcleaned) with hown | hfree | hstopped
        · exact hself hown
        · exact hzero hfree
        · rw [hrunning] at hstopped
          cases hstopped
      rw [hkept] at hb
      exact hchained.stands hmem (hb ▸ Unchanged.refl _)
    · cases hcleaned : isCleaned e.system e.process (s.SEDATA i) with
      | false =>
          rw [hcleaned] at hb
          exact .inl (hchained.stands hmem (hb ▸ Unchanged.refl _))
      | true =>
          rw [hcleaned] at hb
          exact .inr (hchained.stands hmem (hb ▸ Unchanged.refl _))
  · obtain ⟨c', hchained, hreg'⟩ := dereg_all history h (K := .REGFUNCTION) hall hgranted
    refine ⟨_, RxSubcomExitList_spec hchained, ⟨c', hchained, hreg'⟩, fun K i hi => ?_⟩
    have hlt := h.lt K i (h.onChain_iff.mp hi)
    obtain ⟨hcleaned, hflag⟩ := hall i hlt
    rw [KeepsBlock, he]
    refine ⟨fun hself hzero hrunning => ?_, fun _ hmain => absurd hmain hflag⟩
    rcases howner i hlt hcleaned with hown | hfree | hstopped
    · exact absurd hown hself
    · exact absurd hfree hzero
    · rw [hrunning] at hstopped
      cases hstopped

theorem step_spec (h : Chained s c) (hreg : RegisteredAs history s c) (hsafe : Harmless s e) :
    ∃ s', step s e = some s' ∧ Leaves (history ++ [e]) s' ∧ KeepsOthers s e s' := by
  have hconcat : ∀ s', Leaves history s' → Leaves (history ++ [e]) s' := by
    rintro s' ⟨c', hchained, hreg'⟩
    exact ⟨c', hchained, hreg'.concat e⟩
  cases he : e.call with
  | registerDll name dll proc user auth K =>
      obtain ⟨r, hr, hleaves⟩ := RegRegisterDll_spec h hreg he e.system e.process
      refine ⟨r.2, by simp only [step, he, hr, Option.map_some], hleaves, fun K i _ => ?_⟩
      rw [KeepsBlock, he]
      trivial
  | registerExe name address user K calltype =>
      obtain ⟨r, hr, hleaves⟩ := RegRegisterExe_spec h hreg he e.system e.process
      refine ⟨r.2, by simp only [step, he, hr, Option.map_some], hleaves, fun K i _ => ?_⟩
      rw [KeepsBlock, he]
      trivial
  | query name dll K =>
      obtain ⟨r, hr, hleaves⟩ := RegQuery_spec h hreg e.system e.process name dll K
      refine ⟨r.2, by simp only [step, he, hr, Option.map_some], hconcat _ hleaves,
        fun K i _ => ?_⟩
      rw [KeepsBlock, he]
      trivial
  | load ext name K =>
      rw [Harmless, he] at hsafe
      obtain ⟨r, hr, hleaves⟩ := RegLoad_spec h hreg e.system ext e.process name K hsafe
      refine ⟨r.2, by simp only [step, he, hr, Option.map_some], hconcat _ hleaves,
        fun K i _ => ?_⟩
      rw [KeepsBlock, he]
      trivial
  | drop name dll K =>
      obtain ⟨hleaves, hkeeps⟩ := RegDrop_spec h hreg he hsafe
      exact ⟨_, by simp only [step, he], hconcat _ hleaves, hkeeps⟩
  | exitClearNormal =>
      obtain ⟨s', hs', hleaves, hkeeps⟩ := RxExitClearNormal_spec h hreg he hsafe
      exact ⟨s', by simp only [step, he, hs'], hconcat _ hleaves, hkeeps⟩
  | exitClear =>
      refine ⟨s, by simp only [step, he, RxSubcomExitList_spec h], hconcat s ⟨c, h, hreg⟩,
        fun K i hi => ?_⟩
      rw [KeepsBlock, he]
      exact h.stands (h.onChain_iff.mp hi) (Unchanged.refl _)

end Step

/-! ## Runs -/

theorem run_concat (s : REXXAPIDATA) (events : List Event) (e : Event) :
    run s (events ++ [e]) = (run s events).bind fun s => step s e := by
  induction events generalizing s with
  | nil =>
      simp only [List.nil_append, run, Option.bind_some]
      cases step s e <;> rfl
  | cons e' events ih =>
      simp only [List.cons_append, run]
      cases step s e' with
      | none => rfl
      | some s => exact ih s

theorem run_leaves (events : List Event)
    (h : ∀ pre e post s, events = pre ++ e :: post → run .start pre = some s → Harmless s e) :
    ∃ s, run .start events = some s ∧ Leaves events s := by
  induction events using List.reverseRecOn with
  | nil =>
      refine ⟨.start, rfl, _, Chained.empty rfl fun _ => rfl, RegisteredAs.empty [] _⟩
  | append_singleton events e ih =>
      obtain ⟨s, hs, c, hchained, hreg⟩ := ih fun pre e' post s hsplit hs =>
        h pre e' (post ++ [e]) s (by rw [hsplit, List.append_assoc, List.cons_append]) hs
      obtain ⟨s', hs', hleaves, -⟩ := step_spec hchained hreg (h events e [] s rfl hs)
      exact ⟨s', by rw [run_concat, hs, Option.bind_some, hs'], hleaves⟩

def generous : System where
  getshmem := fun _ => true
  kill := fun _ => false
  dlopen := fun _ => 0
  dlsym := fun _ _ => 0
  running := fun _ => true

def firstProcess : Process := ⟨1, 1, Nat.one_pos⟩

def secondProcess : Process := ⟨2, 2, Nat.two_pos⟩

def nameS : PSZ := ⟨[83], by decide⟩

def nameF : PSZ := ⟨[70], by decide⟩

def oneFunction : List Event :=
  [⟨secondProcess, generous, .registerExe nameF 200 none .REGFUNCTION 1⟩,
    ⟨secondProcess, generous, .exitClearNormal⟩]

def handlerAndFunction : List Event :=
  ⟨firstProcess, generous, .registerExe nameS 100 none .REGSUBCOMM 1⟩ :: oneFunction

end LeooRexx.SubcommandAPI
