import LeooRexx.Runtime.MemorySegment

/-!
# The look-aside of the free pools

The redirection of a pool may only skip pools that are empty.  The search of an allocation
keeps that; a sweep keeps it when no pool is empty below one that has blocks, since the loop
that looks for a higher pool tests the empty pool itself; and a block that is added keeps it
when no lower pool is redirected beyond it.
-/

namespace LeooRexx.MemorySegment

def FirstRequestPool : ℕ := LengthToDeadPool MinimumObjectSize

/-! ## Operations -/

structure FreePools where
  header : Headers
  chains : NormalChains

inductive PoolOperation where
  | sweep (blocks : List (ℕ × ℕ))
  | add (object length : ℕ)
  | allocate (allocationLength : ℕ)

def addBlocks : List (ℕ × ℕ) → FreePools → Option FreePools
  | [], s => some s
  | (object, length) :: blocks, s => do
      let (header, chains) ← addDeadObject s.header s.chains object length
      addBlocks blocks ⟨header, chains⟩

def perform (s : FreePools) : PoolOperation → Option FreePools
  | .sweep blocks => do
      let s ← addBlocks blocks { s with chains := SegmentSet.prepareForSweep s.chains }
      return { s with chains := SegmentSet.completeSweepOperation s.chains }
  | .add object length => do
      let (header, chains) ← addDeadObject s.header s.chains object length
      return ⟨header, chains⟩
  | .allocate allocationLength => do
      let (header, chains, _) ← allocateNormal s.header s.chains allocationLength
      return ⟨header, chains⟩

def Legal : PoolOperation → Prop
  | .sweep blocks => ∀ b ∈ blocks, MinimumObjectSize ≤ b.2
  | .add _ length => MinimumObjectSize ≤ length
  | .allocate allocationLength => MinimumObjectSize ≤ allocationLength

def FreePools.initial : FreePools := ⟨fun _ => 0, SegmentSet.none⟩

/-! ## The property -/

def NeverSkips (chains : NormalChains) : Prop :=
  ∀ target pool, FirstRequestPool ≤ target → target ≤ pool → pool < DeadPools →
    pool < chains.lastUsedSubpool target → chains.subpools pool = []

/-- A request is served when a pool of sufficient size or the chain of large blocks has a
block for it. -/
def Serves (s : FreePools) : Prop :=
  ∀ allocationLength, MinimumObjectSize ≤ allocationLength →
    ((∃ pool, LengthToDeadPool allocationLength ≤ pool ∧ pool < DeadPools ∧
        s.chains.subpools pool ≠ []) ∨
      ∃ object ∈ s.chains.largeDead, allocationLength ≤ ObjectSize s.header object) →
    ∃ header chains object,
      allocateNormal s.header s.chains allocationLength = some (header, chains, some object)

def Complete (s : FreePools) : Prop := NeverSkips s.chains ∧ Serves s

def Stays (P : FreePools → Prop) : FreePools → List PoolOperation → Prop
  | s, [] => P s
  | s, operation :: operations =>
      P s ∧ ∃ s', perform s operation = some s' ∧ Stays P s' operations

/-! ## The condition -/

def InReach (chains : NormalChains) (length : ℕ) : Prop :=
  length ≤ LargestSubpool → ∀ lower, FirstRequestPool ≤ lower → lower < LengthToDeadPool length →
    chains.lastUsedSubpool lower ≤ LengthToDeadPool length

def HasPool (blocks : List (ℕ × ℕ)) (pool : ℕ) : Prop :=
  ∃ b ∈ blocks, b.2 ≤ LargestSubpool ∧ LengthToDeadPool b.2 = pool

/-- What the operation asks of the state before it: a sweep finds blocks for all the pools
below one that it finds a block for, and a block that is added, or left over when a large
one is split, is reachable from the pools below it. -/
def Keeps (s : FreePools) : PoolOperation → Prop
  | .sweep blocks => ∀ lower pool, FirstRequestPool ≤ lower → lower < pool →
      HasPool blocks pool → HasPool blocks lower
  | .add _ length => InReach s.chains length
  | .allocate allocationLength =>
      (∀ pool, LengthToDeadPool allocationLength ≤ pool → pool < DeadPools →
        s.chains.subpools pool = []) →
      ∀ object realLength largeDead,
        findFit s.header allocationLength s.chains.largeDead =
            some (object, realLength, largeDead) →
          MinimumObjectSize ≤ realLength - allocationLength →
          InReach
            { s.chains with
              lastUsedSubpool := Function.update s.chains.lastUsedSubpool
                (LengthToDeadPool allocationLength) DeadPools }
            (realLength - allocationLength)

def AllKeep : FreePools → List PoolOperation → Prop
  | _, [] => True
  | s, operation :: operations =>
      Keeps s operation ∧ ∀ s', perform s operation = some s' → AllKeep s' operations

/-! ## The search -/

def Ascends (chains : NormalChains) : Prop := ∀ i < DeadPools, i ≤ chains.lastUsedSubpool i

theorem pool_lt {length : ℕ} (h : length ≤ LargestSubpool) :
    LengthToDeadPool length < DeadPools := by
  simp only [LengthToDeadPool, DeadPools, LargestSubpool, ObjectGrain] at h ⊢
  omega

theorem firstRequestPool_le {length : ℕ} (h : MinimumObjectSize ≤ length) :
    FirstRequestPool ≤ LengthToDeadPool length :=
  Nat.div_le_div_right h

section Search

variable {chains : NormalChains}

theorem nextSubpool_spec (hascends : Ascends chains) (hskips : NeverSkips chains) {pool : ℕ}
    (hpool : FirstRequestPool ≤ pool) (hle : pool ≤ DeadPools) :
    pool ≤ nextSubpool chains pool ∧
      ∀ q, pool ≤ q → q < DeadPools → q < nextSubpool chains pool → chains.subpools q = [] := by
  rw [nextSubpool]
  cases hfind : (List.range' pool (DeadPools - pool)).find? fun pool =>
      decide (chains.lastUsedSubpool pool < DeadPools) with
  | none =>
      refine ⟨hle, ?_⟩
      intro q hlow hq _
      have hall := List.find?_eq_none.mp hfind pool
        (List.mem_range'_1.mpr ⟨Nat.le_refl _, by omega⟩)
      have hend : DeadPools ≤ chains.lastUsedSubpool pool := by simpa using hall
      exact hskips pool q hpool hlow hq (Nat.lt_of_lt_of_le hq hend)
  | some found =>
      obtain ⟨hlow, hhigh⟩ := List.mem_range'_1.mp (List.mem_of_find?_eq_some hfind)
      have hbound : found < DeadPools := by omega
      have hup := hascends found hbound
      simp only [Option.map_some, Option.getD_some]
      refine ⟨Nat.le_trans hlow hup, ?_⟩
      intro q hq hlt hnext
      by_cases hbelow : q < found
      · -- the search passed over `pool` itself, which is redirected to the end
        have hend : DeadPools ≤ chains.lastUsedSubpool pool := by
          by_contra hnot
          obtain ⟨n, hn⟩ : ∃ n, DeadPools - pool = n + 1 := ⟨DeadPools - pool - 1, by omega⟩
          have hfirst : chains.lastUsedSubpool pool < DeadPools := Nat.lt_of_not_le hnot
          simp only [hn, List.range'_succ, List.find?_cons, hfirst, decide_true] at hfind
          have hsame : pool = found := Option.some.inj hfind
          omega
        exact hskips pool q hpool hq hlt (Nat.lt_of_lt_of_le hlt hend)
      · exact hskips found q (Nat.le_trans hpool hlow) (Nat.le_of_not_lt hbelow) hlt hnext

def takeFrom (chains : NormalChains) (target pool : ℕ) (rest : List ℕ) : NormalChains :=
  { chains with
    subpools := Function.update chains.subpools pool rest
    lastUsedSubpool := Function.update chains.lastUsedSubpool target pool }

def redirectTo (chains : NormalChains) (target pool : ℕ) : NormalChains :=
  { chains with lastUsedSubpool := Function.update chains.lastUsedSubpool target pool }

theorem Ascends.redirectTo (h : Ascends chains) {target pool : ℕ} (hle : target ≤ pool) :
    Ascends (redirectTo chains target pool) := by
  intro i hi
  by_cases heq : i = target
  · subst heq
    simpa [MemorySegment.redirectTo] using hle
  · simpa [MemorySegment.redirectTo, heq] using h i hi

theorem NeverSkips.redirectTo (h : NeverSkips chains) {target pool : ℕ}
    (hempty : ∀ q, target ≤ q → q < DeadPools → q < pool → chains.subpools q = []) :
    NeverSkips (redirectTo chains target pool) := by
  intro i q hi hle hq hlt
  by_cases heq : i = target
  · subst heq
    exact hempty q hle hq (by simpa [MemorySegment.redirectTo] using hlt)
  · exact h i q hi hle hq (by simpa [MemorySegment.redirectTo, heq] using hlt)

theorem redirectTo_redirectTo (target pool pool' : ℕ) :
    redirectTo (redirectTo chains target pool) target pool' = redirectTo chains target pool' := by
  simp [redirectTo]

theorem takeFrom_redirectTo (target pool pool' : ℕ) (rest : List ℕ) :
    takeFrom (redirectTo chains target pool) target pool' rest =
      takeFrom chains target pool' rest := by
  simp [redirectTo, takeFrom]

theorem searchSubpools_complete {target current fuel : ℕ} (hascends : Ascends chains)
    (hskips : NeverSkips chains) (htarget : FirstRequestPool ≤ target)
    (hle : target ≤ current) (hfuel : DeadPools - current < fuel)
    (hempty : ∀ q, target ≤ q → q < DeadPools → q < current → chains.subpools q = []) :
    (∃ pool object rest, target ≤ pool ∧ pool < DeadPools ∧
        chains.subpools pool = object :: rest ∧
        (∀ q, target ≤ q → q < DeadPools → q < pool → chains.subpools q = []) ∧
        searchSubpools target fuel chains current =
          some (takeFrom chains target pool rest, some object)) ∨
      (∀ q, target ≤ q → q < DeadPools → chains.subpools q = []) ∧
        searchSubpools target fuel chains current =
          some (redirectTo chains target DeadPools, none) := by
  induction fuel generalizing chains current with
  | zero => omega
  | succ fuel ih =>
      by_cases hlt : current < DeadPools
      · cases hpool : chains.subpools current with
        | cons object rest =>
            refine .inl ⟨current, object, rest, hle, hlt, hpool, hempty, ?_⟩
            simp only [searchSubpools, if_pos hlt, hpool, takeFrom]
        | nil =>
            have hcurrent : FirstRequestPool ≤ current + 1 := by omega
            obtain ⟨hnext, hpassed⟩ := nextSubpool_spec hascends hskips hcurrent
              (show current + 1 ≤ DeadPools from hlt)
            have hempty' : ∀ q, target ≤ q → q < DeadPools →
                q < nextSubpool chains (current + 1) → chains.subpools q = [] := by
              intro q hq hend hqnext
              rcases Nat.lt_trichotomy q current with hlow | rfl | hhigh
              · exact hempty q hq hend hlow
              · exact hpool
              · exact hpassed q hhigh hend hqnext
            have hup : target ≤ nextSubpool chains (current + 1) := by omega
            by_cases hredirect : nextSubpool chains (current + 1) < DeadPools
            · have htail := ih (hascends.redirectTo hup) (hskips.redirectTo hempty') hup
                (by omega) hempty'
              simp only [redirectTo_redirectTo, takeFrom_redirectTo] at htail
              simp only [searchSubpools, if_pos hlt, hpool, if_pos hredirect]
              exact htail
            · have htail := ih hascends hskips hup (by omega) hempty'
              simp only [searchSubpools, if_pos hlt, hpool, if_neg hredirect]
              exact htail
      · refine .inr ⟨fun q hq hend => hempty q hq hend (by omega), ?_⟩
        simp only [searchSubpools, if_neg hlt, redirectTo]

end Search

/-! ## Adding a block -/

theorem addNormal_small {chains : NormalChains} {object length : ℕ} (h : length ≤ LargestSubpool) :
    addNormalDeadObject chains object length =
      { chains with
        subpools := Function.update chains.subpools (LengthToDeadPool length)
          (object :: chains.subpools (LengthToDeadPool length))
        lastUsedSubpool := Function.update chains.lastUsedSubpool (LengthToDeadPool length)
          (LengthToDeadPool length) } := by
  rw [addNormalDeadObject, if_neg (Nat.not_lt.mpr h)]

theorem Ascends.add {chains : NormalChains} (h : Ascends chains) (object length : ℕ) :
    Ascends (addNormalDeadObject chains object length) := by
  by_cases hsmall : length ≤ LargestSubpool
  · rw [addNormal_small hsmall]
    exact h.redirectTo (Nat.le_refl _)
  · rw [addNormalDeadObject, if_pos (Nat.lt_of_not_le hsmall)]
    exact h

theorem neverSkips_add_iff {chains : NormalChains} (hskips : NeverSkips chains)
    (object : ℕ) {length : ℕ} (hlength : MinimumObjectSize ≤ length) :
    NeverSkips (addNormalDeadObject chains object length) ↔ InReach chains length := by
  have hfirst := firstRequestPool_le hlength
  by_cases hsmall : length ≤ LargestSubpool
  case neg =>
    rw [addNormalDeadObject, if_pos (Nat.lt_of_not_le hsmall)]
    exact iff_of_true hskips fun h => absurd h hsmall
  case pos =>
    have hpool := pool_lt hsmall
    rw [addNormal_small hsmall]
    constructor
    · intro h _ lower hlower hlt
      by_contra hbeyond
      have hempty := h lower (LengthToDeadPool length) hlower (Nat.le_of_lt hlt) hpool
        (by simpa [Nat.ne_of_lt hlt] using Nat.lt_of_not_le hbeyond)
      simp at hempty
    · intro h target pool htarget hle hend hlt
      by_cases hsame : target = LengthToDeadPool length
      · subst hsame
        simp only [Function.update_self] at hlt
        omega
      · simp only [Function.update_of_ne hsame] at hlt
        by_cases hadded : pool = LengthToDeadPool length
        · subst hadded
          have hbound := h hsmall target htarget (by omega)
          omega
        · simp only [Function.update_of_ne hadded]
          exact hskips target pool htarget hle hend hlt

/-! ## Serving a request -/

theorem firstFit_isSome {header : Headers} {length : ℕ} {chain : List ℕ}
    (h : ∃ object ∈ chain, length ≤ ObjectSize header object) :
    (firstFit header length chain).isSome := by
  induction chain with
  | nil => simp at h
  | cons object chain ih =>
      by_cases hfits : length ≤ ObjectSize header object
      · simp [firstFit, hfits]
      · have htail : ∃ other ∈ chain, length ≤ ObjectSize header other := by
          simpa [hfits] using h
        obtain ⟨found, hfound⟩ := Option.isSome_iff_exists.mp (ih htail)
        simp [firstFit, hfits, hfound]

theorem allocateLargeDead_serves {header : Headers} {chains : NormalChains} {length : ℕ}
    (h : ∃ object ∈ chains.largeDead, length ≤ ObjectSize header object) :
    ∃ header' chains' object,
      allocateLargeDead header chains length = (header', chains', some object) := by
  obtain ⟨⟨before, object, tail⟩, hfound⟩ := Option.isSome_iff_exists.mp (firstFit_isSome h)
  simp only [allocateLargeDead, findFit, hfound]
  split <;> exact ⟨_, _, _, rfl⟩

theorem allocateNormal_cases {s : FreePools} (hascends : Ascends s.chains)
    (hskips : NeverSkips s.chains) {allocationLength : ℕ}
    (hlegal : MinimumObjectSize ≤ allocationLength) :
    (∃ pool object rest, LengthToDeadPool allocationLength ≤ pool ∧ pool < DeadPools ∧
        s.chains.subpools pool = object :: rest ∧
        (∀ q, LengthToDeadPool allocationLength ≤ q → q < DeadPools → q < pool →
          s.chains.subpools q = []) ∧
        allocateNormal s.header s.chains allocationLength =
          some (s.header, takeFrom s.chains (LengthToDeadPool allocationLength) pool rest,
            some object)) ∨
      (∀ q, LengthToDeadPool allocationLength ≤ q → q < DeadPools → s.chains.subpools q = []) ∧
        ∃ chains : NormalChains,
          (chains = redirectTo s.chains (LengthToDeadPool allocationLength) DeadPools ∨
            chains = s.chains ∧ DeadPools ≤ LengthToDeadPool allocationLength) ∧
          allocateNormal s.header s.chains allocationLength =
            some (allocateLargeDead s.header chains allocationLength) := by
  have hfirst := firstRequestPool_le hlegal
  by_cases htarget : LengthToDeadPool allocationLength < DeadPools
  case neg =>
    refine .inr ⟨fun q hq hend => absurd (Nat.lt_of_le_of_lt hq hend) htarget, s.chains,
      .inr ⟨rfl, Nat.le_of_not_lt htarget⟩, ?_⟩
    simp only [allocateNormal, if_neg htarget]
  case pos =>
    have hfuel : DeadPools - s.chains.lastUsedSubpool (LengthToDeadPool allocationLength) <
        DeadPools + 1 := Nat.lt_succ_of_le (Nat.sub_le _ _)
    have hsearch := searchSubpools_complete hascends hskips hfirst (hascends _ htarget) hfuel
      (fun q hq hend hlt => hskips _ q hfirst hq hend hlt)
    rcases hsearch with ⟨pool, object, rest, hle, hend, hpool, hbelow, hfound⟩ | ⟨hall, hnone⟩
    · refine .inl ⟨pool, object, rest, hle, hend, hpool, hbelow, ?_⟩
      simp only [allocateNormal, if_pos htarget, hfound]
    · refine .inr ⟨hall, _, .inl rfl, ?_⟩
      simp only [allocateNormal, if_pos htarget, hnone]

theorem serves_of_neverSkips {s : FreePools} (hascends : Ascends s.chains)
    (hskips : NeverSkips s.chains) : Serves s := by
  intro allocationLength hlegal havailable
  rcases allocateNormal_cases hascends hskips hlegal with
    ⟨pool, object, rest, -, -, -, -, hfound⟩ | ⟨hall, chains, hchains, hlarge⟩
  · exact ⟨_, _, _, hfound⟩
  · rcases havailable with ⟨pool, hle, hend, hpool⟩ | hfits
    · exact absurd (hall pool hle hend) hpool
    · have hsame : chains.largeDead = s.chains.largeDead := by
        rcases hchains with rfl | ⟨rfl, -⟩ <;> rfl
      rw [← hsame] at hfits
      obtain ⟨header', chains', object, hserved⟩ := allocateLargeDead_serves hfits
      exact ⟨header', chains', object, hlarge.trans (congrArg some hserved)⟩

/-! ## Steps -/

theorem add_spec {s : FreePools} (hascends : Ascends s.chains) (hskips : NeverSkips s.chains)
    (object : ℕ) {length : ℕ} (hlegal : MinimumObjectSize ≤ length) :
    ∃ s', perform s (.add object length) = some s' ∧ Ascends s'.chains ∧
      (NeverSkips s'.chains ↔ Keeps s (.add object length)) := by
  have hbuilt : ¬ length < DeadObjectSize := by
    simp only [MinimumObjectSize, DeadObjectSize] at *
    omega
  refine ⟨⟨Function.update s.header object (deadHeader length),
    addNormalDeadObject s.chains object length⟩, ?_, hascends.add object length,
    neverSkips_add_iff hskips object hlegal⟩
  simp only [perform, addDeadObject, if_neg hbuilt]
  rfl

theorem inReach_redirectTo {chains : NormalChains} {target pool length : ℕ}
    (h : DeadPools ≤ target) :
    InReach (redirectTo chains target pool) length ↔ InReach chains length := by
  refine forall_congr' fun hsmall => forall₃_congr fun lower _ hlt => ?_
  have hpool := pool_lt hsmall
  have hne : lower ≠ target := by omega
  simp only [redirectTo, Function.update_of_ne hne]

theorem allocateLargeDead_spec {chains : NormalChains} (hascends : Ascends chains)
    (hskips : NeverSkips chains) (header : Headers) (allocationLength : ℕ) :
    Ascends (allocateLargeDead header chains allocationLength).2.1 ∧
      (NeverSkips (allocateLargeDead header chains allocationLength).2.1 ↔
        ∀ object realLength largeDead,
          findFit header allocationLength chains.largeDead =
              some (object, realLength, largeDead) →
            MinimumObjectSize ≤ realLength - allocationLength →
            InReach chains (realLength - allocationLength)) := by
  rw [allocateLargeDead]
  cases findFit header allocationLength chains.largeDead with
  | none => exact ⟨hascends, iff_of_true hskips (by simp)⟩
  | some found =>
      obtain ⟨object, realLength, largeDead⟩ := found
      have hleft : NeverSkips { chains with largeDead := largeDead } := hskips
      simp only [Option.some.injEq, Prod.mk.injEq, and_imp]
      split
      next hshort =>
        refine ⟨hascends, iff_of_true hskips ?_⟩
        rintro _ _ _ - rfl - hlong
        exact absurd hshort (Nat.not_lt.mpr hlong)
      next hlong =>
        have hminimum := Nat.le_of_not_lt hlong
        have hleft' : Ascends { chains with largeDead := largeDead } := hascends
        refine ⟨hleft'.add _ _, ?_⟩
        refine (neverSkips_add_iff hleft _ hminimum).trans ⟨?_, ?_⟩
        · rintro hreach _ _ _ - rfl - -
          exact hreach
        · intro hall
          exact hall object realLength largeDead rfl rfl rfl hminimum

theorem allocate_spec {s : FreePools} (hascends : Ascends s.chains)
    (hskips : NeverSkips s.chains) {allocationLength : ℕ}
    (hlegal : MinimumObjectSize ≤ allocationLength) :
    ∃ s', perform s (.allocate allocationLength) = some s' ∧ Ascends s'.chains ∧
      (NeverSkips s'.chains ↔ Keeps s (.allocate allocationLength)) := by
  have hfirst := firstRequestPool_le hlegal
  rcases allocateNormal_cases hascends hskips hlegal with
    ⟨pool, object, rest, hle, hend, hpool, hbelow, hfound⟩ | ⟨hall, chains, hchains, hlarge⟩
  · refine ⟨⟨s.header, takeFrom s.chains (LengthToDeadPool allocationLength) pool rest⟩, ?_,
      hascends.redirectTo hle, iff_of_true ?_ ?_⟩
    · simp only [perform, hfound]
      rfl
    · intro target q htarget hq hend hlt
      have hempty := hskips.redirectTo hbelow target q htarget hq hend hlt
      by_cases hsame : q = pool
      · subst hsame
        simp [redirectTo, hpool] at hempty
      · simpa [takeFrom, redirectTo, hsame] using hempty
    · intro hnone
      simp [hnone pool hle hend] at hpool
  · have hkept : Ascends chains ∧ NeverSkips chains ∧ chains.largeDead = s.chains.largeDead ∧
        ∀ length, InReach chains length ↔
          InReach (redirectTo s.chains (LengthToDeadPool allocationLength) DeadPools) length := by
      rcases hchains with rfl | ⟨rfl, hbeyond⟩
      · refine ⟨?_, hskips.redirectTo fun q hq hend _ => hall q hq hend, rfl, fun _ => Iff.rfl⟩
        intro i hi
        by_cases hsame : i = LengthToDeadPool allocationLength
        · subst hsame
          simpa [redirectTo] using Nat.le_of_lt hi
        · simpa [redirectTo, hsame] using hascends i hi
      · exact ⟨hascends, hskips, rfl, fun _ => (inReach_redirectTo hbeyond).symm⟩
    obtain ⟨hascends', hskips', hsame, hreach⟩ := hkept
    have hspec := allocateLargeDead_spec hascends' hskips' s.header allocationLength
    refine ⟨⟨(allocateLargeDead s.header chains allocationLength).1,
      (allocateLargeDead s.header chains allocationLength).2.1⟩, ?_, hspec.1, ?_⟩
    · simp only [perform, hlarge]
      rfl
    · rw [hspec.2, hsame]
      simp only [hreach]
      exact ⟨fun h _ => h, fun h => h hall⟩

theorem addBlocks_spec {blocks : List (ℕ × ℕ)} (hlegal : ∀ b ∈ blocks, MinimumObjectSize ≤ b.2)
    (s : FreePools) (hascends : Ascends s.chains) :
    ∃ s', addBlocks blocks s = some s' ∧ Ascends s'.chains ∧
      ∀ pool, s'.chains.subpools pool ≠ [] ↔
        s.chains.subpools pool ≠ [] ∨ HasPool blocks pool := by
  induction blocks generalizing s with
  | nil => exact ⟨s, rfl, hascends, by simp [HasPool]⟩
  | cons b blocks ih =>
      obtain ⟨object, length⟩ := b
      have hminimum : MinimumObjectSize ≤ length := hlegal (object, length) (by simp)
      have hbuilt : ¬ length < DeadObjectSize := by
        simp only [MinimumObjectSize, DeadObjectSize] at *
        omega
      obtain ⟨s', hadded, hascends', hpools⟩ := ih (fun b hb => hlegal b (by simp [hb]))
        ⟨Function.update s.header object (deadHeader length),
          addNormalDeadObject s.chains object length⟩ (hascends.add object length)
      refine ⟨s', ?_, hascends', ?_⟩
      · simp only [addBlocks, addDeadObject, if_neg hbuilt]
        exact hadded
      · intro pool
        rw [hpools pool]
        have hhead : (addNormalDeadObject s.chains object length).subpools pool ≠ [] ↔
            s.chains.subpools pool ≠ [] ∨ length ≤ LargestSubpool ∧
              LengthToDeadPool length = pool := by
          by_cases hsmall : length ≤ LargestSubpool
          · rw [addNormal_small hsmall]
            by_cases hsame : LengthToDeadPool length = pool
            · subst hsame
              simp [hsmall]
            · simp [hsame, Function.update_of_ne (Ne.symm hsame)]
          · simp [addNormalDeadObject, Nat.lt_of_not_le hsmall, hsmall]
        rw [hhead]
        simp only [HasPool, List.mem_cons, exists_eq_or_imp, or_assoc]

theorem find?_never (pools : List ℕ) : (pools.find? fun _ => false) = none :=
  List.find?_eq_none.mpr fun _ _ => Bool.false_ne_true

theorem sweep_spec {s : FreePools} (hascends : Ascends s.chains) {blocks : List (ℕ × ℕ)}
    (hlegal : ∀ b ∈ blocks, MinimumObjectSize ≤ b.2) :
    ∃ s', perform s (.sweep blocks) = some s' ∧ Ascends s'.chains ∧
      (NeverSkips s'.chains ↔ Keeps s (.sweep blocks)) := by
  obtain ⟨s', hadded, hascends', hpools⟩ :=
    addBlocks_spec hlegal { s with chains := SegmentSet.prepareForSweep s.chains } hascends
  have hswept : ∀ pool, FirstRequestPool ≤ pool → pool < DeadPools →
      (s'.chains.subpools pool ≠ [] ↔ HasPool blocks pool) := by
    intro pool hlow hend
    have hrange : IsSweptPool pool := ⟨Nat.le_trans (by decide) hlow, hend⟩
    simpa [SegmentSet.prepareForSweep, hrange] using hpools pool
  have hlast : ∀ i, FirstRequestPool ≤ i → i < DeadPools →
      (SegmentSet.completeSweepOperation s'.chains).lastUsedSubpool i =
        if s'.chains.subpools i = [] then DeadPools else i := by
    intro i hlow hend
    have hrange : IsSweptPool i := ⟨Nat.le_trans (by decide) hlow, hend⟩
    by_cases hempty : s'.chains.subpools i = [] <;>
      simp [SegmentSet.completeSweepOperation, hrange, hempty, find?_never]
  refine ⟨{ s' with chains := SegmentSet.completeSweepOperation s'.chains }, ?_, ?_, ?_, ?_⟩
  · simp only [perform, hadded]
    rfl
  · intro i hi
    have hold := hascends' i hi
    simp only [SegmentSet.completeSweepOperation]
    split_ifs with hrange hempty
    · exact Nat.le_refl i
    · simpa [hempty, find?_never] using Nat.le_of_lt hi
    · exact hold
  · intro h lower pool hlower hlt hpool
    obtain ⟨_, _, hsmall, hat⟩ := id hpool
    have hend : pool < DeadPools := hat ▸ pool_lt hsmall
    have hlowend := Nat.lt_trans hlt hend
    by_contra hmissing
    have hempty : s'.chains.subpools lower = [] := by
      by_contra hfull
      exact hmissing ((hswept lower hlower hlowend).mp hfull)
    refine (hswept pool (by omega) hend).mpr hpool
      (h lower pool hlower (Nat.le_of_lt hlt) hend ?_)
    rw [hlast lower hlower hlowend, if_pos hempty]
    exact hend
  · intro h target pool htarget hle hend hlt
    have htargetend := Nat.lt_of_le_of_lt hle hend
    rw [hlast target htarget htargetend] at hlt
    split_ifs at hlt with hempty
    · by_contra hfull
      rcases Nat.eq_or_lt_of_le hle with rfl | hhigher
      · exact hfull hempty
      · have hfound := (hswept pool (Nat.le_trans htarget hle) hend).mp hfull
        exact (hswept target htarget htargetend).mpr (h target pool htarget hhigher hfound) hempty
    · omega

theorem perform_spec {s : FreePools} (hascends : Ascends s.chains) (hskips : NeverSkips s.chains)
    {operation : PoolOperation} (hlegal : Legal operation) :
    ∃ s', perform s operation = some s' ∧ Ascends s'.chains ∧
      (NeverSkips s'.chains ↔ Keeps s operation) := by
  cases operation with
  | sweep blocks => exact sweep_spec hascends hlegal
  | add object length => exact add_spec hascends hskips object hlegal
  | allocate allocationLength => exact allocate_spec hascends hskips hlegal

/-! ## Runs -/

theorem Stays.here {P : FreePools → Prop} {s : FreePools} {operations : List PoolOperation}
    (h : Stays P s operations) : P s := by
  cases operations with
  | nil => exact h
  | cons operation operations => exact h.1

theorem stays_iff {s : FreePools} (hascends : Ascends s.chains) (hskips : NeverSkips s.chains)
    {operations : List PoolOperation} (hlegal : ∀ operation ∈ operations, Legal operation) :
    Stays Complete s operations ↔ AllKeep s operations := by
  have hcomplete : Complete s := ⟨hskips, serves_of_neverSkips hascends hskips⟩
  induction operations generalizing s with
  | nil => exact iff_of_true hcomplete trivial
  | cons operation operations ih =>
      obtain ⟨s', hperform, hascends', hkeeps⟩ :=
        perform_spec hascends hskips (hlegal operation (by simp))
      have htail := fun hskips' : NeverSkips s'.chains =>
        ih hascends' hskips' (fun other hother => hlegal other (by simp [hother]))
          ⟨hskips', serves_of_neverSkips hascends' hskips'⟩
      simp only [Stays, AllKeep, hperform, Option.some.injEq, exists_eq_left', forall_eq']
      constructor
      · rintro ⟨-, hstays⟩
        have hskips' := hstays.here.1
        exact ⟨hkeeps.mp hskips', (htail hskips').mp hstays⟩
      · rintro ⟨hkeep, hall⟩
        exact ⟨hcomplete, (htail (hkeeps.mpr hkeep)).mpr hall⟩

/-- The look-aside stays complete over a run exactly when each operation keeps it. -/
theorem lookaside_complete_iff (operations : List PoolOperation)
    (hlegal : ∀ operation ∈ operations, Legal operation) :
    Stays Complete FreePools.initial operations ↔ AllKeep FreePools.initial operations :=
  stays_iff (fun _ hi => Nat.le_of_lt hi) (fun _ _ _ _ _ _ => rfl) hlegal

theorem lookaside_complete_iff_two :
    (∀ operation ∈ [PoolOperation.add 0 24, .allocate 24], Legal operation) ∧
      (Stays Complete FreePools.initial [.add 0 24, .allocate 24] ↔
        AllKeep FreePools.initial [.add 0 24, .allocate 24]) :=
  ⟨by simp [Legal, MinimumObjectSize],
    lookaside_complete_iff _ (by simp [Legal, MinimumObjectSize])⟩

/-- After a sweep that finds one block of 32 bytes, a request for 24 bytes fails. -/
theorem lookaside_incomplete :
    Legal (.sweep [(64, 32)]) ∧ ¬ Stays Complete FreePools.initial [.sweep [(64, 32)]] ∧
      ∃ s, perform FreePools.initial (.sweep [(64, 32)]) = some s ∧ s.chains.subpools 4 = [64] ∧
        (allocateNormal s.header s.chains 24).map (fun r => r.2.2) = some none := by
  refine ⟨by simp [Legal, MinimumObjectSize], ?_, _, rfl, by decide, by decide⟩
  rintro ⟨-, s', hperform, hskips, -⟩
  obtain rfl := Option.some.inj hperform
  have hempty := hskips 3 4 (by decide) (by decide) (by decide) (by decide)
  exact absurd hempty (by decide)

end LeooRexx.MemorySegment
