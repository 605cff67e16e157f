import LeooRexx.Runtime.MemorySegmentChains

/-!
# Allocation from the dead chains

An object is taken from a chain whole or as the front of a block whose rest goes back to a chain.
-/

namespace LeooRexx

namespace MemorySegment

variable {header header' : Headers} {object allocationLength : ℕ}

/-! ## Taking a block -/

section taking

variable {χ : Type} [DeadChains χ] {chains chains' : χ}

open DeadChains

inductive Taken (header : Headers) (chains : χ) (object allocationLength : ℕ) (header' : Headers)
    (chains' : χ) : Prop where
  | whole (hperm : (chained chains).Perm (object :: chained chains'))
      (hproper : Proper header' chains')
      (hsize : ObjectSize header' object = ObjectSize header object)
      (hlength : allocationLength ≤ ObjectSize header object)
      (hother : ∀ x, x ≠ object → header' x = header x)
  | split (rest : List ℕ) (hperm : (chained chains).Perm (object :: rest))
      (hrest : (chained chains').Perm ((object + allocationLength) :: rest))
      (hproper : Proper header' chains')
      (hsize : ObjectSize header' object = allocationLength)
      (hsum : allocationLength + ObjectSize header' (object + allocationLength) =
        ObjectSize header object)
      (hsecond : Grained header' (object + allocationLength))
      (hmarks : header' (object + allocationLength) &&& MarkMask = 0#32)
      (hother : ∀ x, x ≠ object → x ≠ object + allocationLength → header' x = header x)

def Allocates (header : Headers) (chains : χ) (allocationLength : ℕ) (header' : Headers)
    (chains' : χ) : Option ℕ → Prop
  | none => header' = header ∧ (chained chains').Perm (chained chains) ∧ Proper header' chains'
  | some object => Taken header chains object allocationLength header' chains'

structure Separate (header : Headers) (chains : χ) : Prop where
  grained : ∀ b ∈ chained chains, Grained header b
  nodup : (chained chains).Nodup
  apart : ∀ b ∈ chained chains, ∀ c ∈ chained chains, b ≠ c →
    b + ObjectSize header b ≤ c ∨ c + ObjectSize header c ≤ b

variable {rest : χ}

theorem Separate.inside (h : Separate header chains)
    (hperm : (chained chains).Perm (object :: chained rest)) (hpos : 0 < allocationLength)
    (hlt : allocationLength < ObjectSize header object) :
    object + allocationLength ∉ chained rest := by
  intro hin
  have hmem : object ∈ chained chains := hperm.mem_iff.mpr List.mem_cons_self
  have hother := hperm.mem_iff.mpr (List.mem_cons_of_mem object hin)
  have hlength := (h.grained _ hother).1
  have hapart := h.apart object hmem _ hother (by omega)
  simp only [DeadObjectSize] at hlength
  omega

theorem Separate.notMem (h : Separate header chains)
    (hperm : (chained chains).Perm (object :: chained rest)) : object ∉ chained rest :=
  (List.nodup_cons.mp (hperm.nodup_iff.mp h.nodup)).1

theorem Taken.front (h : Separate header chains)
    (hperm : (chained chains).Perm (object :: chained rest))
    (hadds : Adds header rest header' chains' [object + allocationLength])
    (hpos : 0 < allocationLength) (hrecorded : recordedSize allocationLength = allocationLength)
    (hle : allocationLength ≤ ObjectSize header object)
    (hsecond : ObjectSize header' (object + allocationLength) =
      ObjectSize header object - allocationLength) :
    Taken header chains object allocationLength
      (Function.update header' object (SetObjectSizeFunc (header' object) allocationLength))
      chains' := by
  have hother : ∀ x, x ≠ object → Function.update header' object
      (SetObjectSizeFunc (header' object) allocationLength) x = header' x :=
    fun x hx => Function.update_of_ne hx _ _
  have hne : object + allocationLength ≠ object := by omega
  have hword : ObjectSize header object < 2 ^ 32 := objectSize_lt (header object)
  have hnot := h.notMem hperm
  apply Taken.split (chained rest) hperm hadds.chained
  · apply DeadChains.proper_congr hadds.proper
    intro o ho
    rw [ObjectSize, ObjectSize, hother o]
    rintro rfl
    rcases List.mem_append.mp (hadds.chained.mem_iff.mp ho) with hself | hold
    · exact hne (List.mem_singleton.mp hself).symm
    · exact hnot hold
  · rw [ObjectSize, Function.update_self, objectSize_setObjectSize _ (by omega), hrecorded]
  · rw [ObjectSize, hother _ hne]
    change allocationLength + ObjectSize header' _ = _
    omega
  · apply (hadds.grained _ List.mem_cons_self).congr
    rw [ObjectSize, ObjectSize, hother _ hne]
  · rw [hother _ hne]
    exact hadds.unmarked _ List.mem_cons_self
  · intro x hx hxsecond
    rw [hother x hx]
    apply hadds.outside
    simpa using hxsecond

theorem Separate.congr (h : Separate header chains) (heq : chained chains' = chained chains) :
    Separate header chains' := by
  constructor
  · rw [heq]
    exact h.grained
  · rw [heq]
    exact h.nodup
  · rw [heq]
    exact h.apart

theorem Allocates.congr {chains'' : χ} {found : Option ℕ}
    (h : Allocates header chains' allocationLength header' chains'' found)
    (heq : chained chains' = chained chains) :
    Allocates header chains allocationLength header' chains'' found := by
  cases found with
  | none =>
      obtain ⟨hheader, hperm, hproper⟩ := h
      exact ⟨hheader, heq ▸ hperm, hproper⟩
  | some object =>
      cases h with
      | whole hperm hproper hsize hlength hother =>
          exact .whole (heq ▸ hperm) hproper hsize hlength hother
      | split rest hperm hrest hproper hsize hsum hsecond hmarks hother =>
          exact .split rest (heq ▸ hperm) hrest hproper hsize hsum hsecond hmarks hother

end taking

class AllocatingChains (χ : Type) extends DeadChains χ where
  /-- No block is split so that the rest would lose a part of its size. -/
  SplitsExactly : Headers → χ → ℕ → Prop
  allocationLength_spec {n : ℕ} (h : Requests n) :
    roundObjectBoundary n ≤ allocationLength n ∧
      MinimumObjectSize ≤ allocationLength n ∧ allocationLength n % ObjectGrain = 0
  allocate {header : Headers} {chains : χ} {n : ℕ} (h : Requests n)
    (hproper : Proper header chains) (hseparate : Separate header chains)
    (hsplit : SplitsExactly header chains (allocationLength n)) :
    ∃ header' chains' object,
      allocateObject header chains (allocationLength n) = some (header', chains', object) ∧
      Allocates header chains (allocationLength n) header' chains' object

/-! ## The large set -/

theorem roundUp_spec {unit : ℕ} (n : ℕ) (h : 0 < unit) :
    n ≤ roundUp n unit ∧ roundUp n unit % unit = 0 := by
  rw [roundUp]
  refine ⟨?_, Nat.mul_mod_left _ _⟩
  have hdivision := Nat.div_add_mod (n + unit - 1) unit
  have hmod := Nat.mod_lt (n + unit - 1) h
  rw [Nat.mul_comm] at hdivision
  omega

theorem large_rounded (n : ℕ) :
    n ≤ roundLargeObjectAllocation n ∧
      roundLargeObjectAllocation n % LargeAllocationUnit = 0 := by
  rw [roundLargeObjectAllocation]
  split
  · obtain ⟨hle, hmod⟩ := roundUp_spec n (show 0 < VeryLargeAllocationUnit by decide)
    refine ⟨hle, ?_⟩
    simp only [VeryLargeAllocationUnit, LargeAllocationUnit] at hmod ⊢
    omega
  · exact roundUp_spec n (by decide)

theorem large_fits {size length : ℕ} (hsize : LargeObjectMinSize ≤ size → size % 256 = 0)
    (hlength : length % LargeAllocationUnit = 0) (hle : length ≤ size) :
    recordedSize length = length ∧ recordedSize (size - length) = size - length := by
  simp only [LargeObjectMinSize, LargeAllocationUnit] at hsize hlength
  constructor
  · apply recordedSize_of_fits
    omega
  · apply recordedSize_of_fits
    simp only [LargeObjectMinSize]
    omega

theorem splitDeadObject_spec {chains : LargeChains} {rest : List ℕ}
    (hperm : chains.deadCache.Perm (object :: rest)) (hseparate : Separate header chains)
    (hfits : allocationLength ≤ ObjectSize header object)
    (hminimum : MinimumObjectSize ≤ allocationLength)
    (hround : allocationLength % LargeAllocationUnit = 0) :
    ∃ header' chains',
      splitDeadObject header ⟨rest⟩ object allocationLength LargeAllocationUnit =
        some (header', chains') ∧
      Taken header chains object allocationLength header' chains' := by
  have hmem : object ∈ chains.deadCache := hperm.mem_iff.mpr List.mem_cons_self
  have hword : ObjectSize header object < 2 ^ 32 := objectSize_lt (header object)
  obtain ⟨hfirstSize, hsecondSize⟩ := large_fits objectSize_large hround hfits
  obtain ⟨hlengthSize, hgrainSize⟩ := hseparate.grained object hmem
  simp only [MinimumObjectSize] at hminimum
  have hpos : 0 < allocationLength := by omega
  rw [splitDeadObject]
  split
  · refine ⟨_, _, rfl, .whole hperm trivial ?_ hfits ?_⟩
    · have hwhole : allocationLength + (ObjectSize header object - allocationLength) =
          ObjectSize header object := by omega
      rw [hwhole, ObjectSize, Function.update_self, objectSize_setObjectSize _ hword]
      exact recordedSize_objectSize header object
    · intro x hx
      exact Function.update_of_ne hx _ _
  · rename_i hlarge
    simp only [LargeAllocationUnit] at hlarge hround
    have hrestLength : DeadObjectSize ≤ ObjectSize header object - allocationLength := by
      simp only [DeadObjectSize]
      omega
    have hrestGrain : (ObjectSize header object - allocationLength) % ObjectGrain = 0 := by
      simp only [ObjectGrain] at hgrainSize ⊢
      omega
    have hproper : DeadChains.Proper header (⟨rest⟩ : LargeChains) := trivial
    have hnew : object + allocationLength ∉ DeadChains.chained (⟨rest⟩ : LargeChains) :=
      hseparate.inside hperm hpos (by omega)
    obtain ⟨chains', hadd, hadds⟩ :=
      addDeadObject_spec _ hproper hrestLength hrestGrain (by omega) hnew
    refine ⟨_, chains', by rw [hadd]; rfl,
      Taken.front hseparate hperm hadds hpos hfirstSize hfits ?_⟩
    rw [ObjectSize, Function.update_self, deadHeader, objectSize_packedSize (by omega)]
    exact hsecondSize

instance : AllocatingChains LargeChains where
  SplitsExactly _ _ _ := True
  allocationLength_spec {n} h := by
    obtain ⟨hle, hmod⟩ := large_rounded (roundObjectBoundary n)
    have hthreshold := h.1
    change roundObjectBoundary n ≤ roundLargeObjectAllocation (roundObjectBoundary n) ∧
      MinimumObjectSize ≤ roundLargeObjectAllocation (roundObjectBoundary n) ∧
      roundLargeObjectAllocation (roundObjectBoundary n) % ObjectGrain = 0
    simp only [LargeBlockThreshold] at hthreshold
    simp only [LargeAllocationUnit] at hmod
    simp only [MinimumObjectSize, ObjectGrain]
    omega
  allocate {header chains n} h _ hseparate _ := by
    obtain ⟨hle, hmod⟩ := large_rounded (roundObjectBoundary n)
    have hthreshold := h.1
    simp only [LargeBlockThreshold] at hthreshold
    change ∃ header' chains' object, allocateLarge header chains
      (roundLargeObjectAllocation (roundObjectBoundary n)) = some (header', chains', object) ∧ _
    rw [allocateLarge]
    cases hfind : findBestFit header (roundLargeObjectAllocation (roundObjectBoundary n))
      chains.deadCache with
    | none => exact ⟨header, chains, none, rfl, rfl, .refl _, trivial⟩
    | some found =>
        obtain ⟨object, rest⟩ := found
        obtain ⟨hperm, hfits⟩ := findBestFit_eq hfind
        obtain ⟨header', chains', hsplit, htaken⟩ := splitDeadObject_spec hperm hseparate hfits
          (by simp only [MinimumObjectSize]; omega) hmod
        refine ⟨header', chains', some object, ?_, htaken⟩
        simp only [hsplit]
        rfl

/-! ## The normal set -/

namespace NormalChains

variable {chains chains' : NormalChains} {targetPool currentDead pool fuel : ℕ}

theorem Proper.redirectTo (h : Proper header chains) (hpool : targetPool ≤ pool) :
    Proper header { chains with
      lastUsedSubpool := Function.update chains.lastUsedSubpool targetPool pool } where
  pools := h.pools
  unswept := h.unswept
  redirect i hi := by
    rcases eq_or_ne i targetPool with rfl | hne
    · simp only [Function.update_self]
      exact hpool
    · simp only [Function.update_of_ne hne]
      exact h.redirect i hi

theorem nextSubpool_le (h : Proper header chains) (hle : currentDead ≤ DeadPools) :
    currentDead ≤ nextSubpool chains currentDead := by
  rw [nextSubpool]
  cases hfind : (List.range' currentDead (DeadPools - currentDead)).find? fun pool =>
      decide (chains.lastUsedSubpool pool < DeadPools) with
  | none => exact hle
  | some pool =>
      have hmem := List.mem_range'_1.mp (List.mem_of_find?_eq_some hfind)
      have hredirect := h.redirect pool (by omega)
      change currentDead ≤ chains.lastUsedSubpool pool
      omega

theorem Proper.pop (h : Proper header chains) {object : ℕ} {rest : List ℕ}
    (hpool : chains.subpools pool = object :: rest) :
    Proper header { chains with subpools := Function.update chains.subpools pool rest } where
  pools i o ho := by
    rcases eq_or_ne i pool with rfl | hne
    · simp only [Function.update_self] at ho
      apply h.pools i o
      rw [hpool]
      exact List.mem_cons_of_mem object ho
    · simp only [Function.update_of_ne hne] at ho
      exact h.pools i o ho
  unswept i hi := by
    have hne : i ≠ pool := by
      rintro rfl
      rw [h.unswept i hi] at hpool
      cases hpool
    simp only [Function.update_of_ne hne]
    exact h.unswept i hi
  redirect := h.redirect

def Found (chains : NormalChains) (targetPool : ℕ) (chains' : NormalChains) : Option ℕ → Prop
  | none => chains'.subpools = chains.subpools
  | some object => ∃ pool, targetPool ≤ pool ∧ pool < DeadPools ∧
      chains.subpools pool = object :: chains'.subpools pool ∧
      ∀ i, i ≠ pool → chains'.subpools i = chains.subpools i

theorem searchSubpools_spec (h : Proper header chains) (hpools : targetPool < DeadPools)
    (htarget : targetPool ≤ currentDead) (hfuel : DeadPools - currentDead < fuel) :
    ∃ chains' found, searchSubpools targetPool fuel chains currentDead = some (chains', found) ∧
      Proper header chains' ∧ chains'.largeDead = chains.largeDead ∧
      Found chains targetPool chains' found := by
  induction fuel generalizing chains currentDead with
  | zero => omega
  | succ fuel ih =>
      by_cases hlt : currentDead < DeadPools
      · cases hpool : chains.subpools currentDead with
        | nil =>
            have hnext := nextSubpool_le h (Nat.succ_le_of_lt hlt)
            by_cases hredirect : nextSubpool chains (currentDead + 1) < DeadPools
            · have hproper := h.redirectTo (htarget.trans ((Nat.le_succ _).trans hnext))
              obtain ⟨chains', found, hsearch, hrest⟩ := ih hproper
                (htarget.trans ((Nat.le_succ _).trans hnext)) (by omega)
              refine ⟨chains', found, ?_, hrest⟩
              simp only [searchSubpools, if_pos hlt, hpool, if_pos hredirect]
              exact hsearch
            · obtain ⟨chains', found, hsearch, hrest⟩ := ih h
                (htarget.trans ((Nat.le_succ _).trans hnext)) (by omega)
              refine ⟨chains', found, ?_, hrest⟩
              simp only [searchSubpools, if_pos hlt, hpool, if_neg hredirect]
              exact hsearch
        | cons object rest =>
            refine ⟨{ chains with
                subpools := Function.update chains.subpools currentDead rest
                lastUsedSubpool := Function.update chains.lastUsedSubpool targetPool currentDead },
              some object, ?_, (h.pop hpool).redirectTo htarget, rfl,
              currentDead, htarget, hlt, ?_, ?_⟩
            · simp only [searchSubpools, if_pos hlt, hpool]
            · simp only [Function.update_self]
              exact hpool
            · intro i hi
              exact Function.update_of_ne hi _ _
      · refine ⟨{ chains with
            lastUsedSubpool := Function.update chains.lastUsedSubpool targetPool DeadPools },
          none, ?_, h.redirectTo (Nat.le_of_lt hpools), rfl, rfl⟩
        simp only [searchSubpools, if_neg hlt]

theorem Found.perm {object : ℕ} (h : Found chains targetPool chains' (some object))
    (hlarge : chains'.largeDead = chains.largeDead) (hproper : Proper header chains) :
    chains.chained.Perm (object :: chains'.chained) ∧
      targetPool * ObjectGrain ≤ ObjectSize header object := by
  obtain ⟨pool, htarget, hlt, hpool, hother⟩ := h
  have hsubpools : chains.subpools =
      Function.update chains'.subpools pool (object :: chains'.subpools pool) := by
    funext i
    rcases eq_or_ne i pool with rfl | hne
    · rw [Function.update_self, hpool]
    · rw [Function.update_of_ne hne, hother i hne]
  constructor
  · rw [chained, chained, hlarge, hsubpools]
    exact ((perm_flatMap_update List.nodup_range (List.mem_range.mpr hlt)).append_left _).trans
      List.perm_middle
  · rw [hproper.pools pool object (by rw [hpool]; exact List.mem_cons_self)]
    exact Nat.mul_le_mul_right _ htarget

def subpoolBlock (chains : NormalChains) (allocationLength : ℕ) : Option ℕ :=
  let targetPool := LengthToDeadPool allocationLength
  if targetPool < DeadPools then
    (searchSubpools targetPool (DeadPools + 1) chains (chains.lastUsedSubpool targetPool)).bind
      Prod.snd
  else none

/-- A rest of 16 MB or more that goes back to the chain is a multiple of 256 bytes. -/
def SplitsExactly (header : Headers) (chains : NormalChains) (allocationLength : ℕ) : Prop :=
  subpoolBlock chains allocationLength = none →
    ∀ object realLength rest,
      findFit header allocationLength chains.largeDead = some (object, realLength, rest) →
      LargeObjectMinSize ≤ realLength - allocationLength →
      (realLength - allocationLength) % 256 = 0

theorem allocateLargeDead_spec (hproper : Proper header chains) (hseparate : Separate header chains)
    (hminimum : MinimumObjectSize ≤ allocationLength)
    (hthreshold : allocationLength ≤ LargeBlockThreshold)
    (hgrain : allocationLength % ObjectGrain = 0)
    (hsplit : ∀ object realLength rest,
      findFit header allocationLength chains.largeDead = some (object, realLength, rest) →
      LargeObjectMinSize ≤ realLength - allocationLength →
      (realLength - allocationLength) % 256 = 0) :
    ∃ header' chains' object,
      allocateLargeDead header chains allocationLength = (header', chains', object) ∧
      Allocates header chains allocationLength header' chains' object := by
  rw [allocateLargeDead]
  cases hfind : findFit header allocationLength chains.largeDead with
  | none => exact ⟨header, chains, none, rfl, rfl, .refl _, hproper⟩
  | some found =>
      obtain ⟨object, realLength, largeDead⟩ := found
      obtain ⟨hlarge, rfl, hfits⟩ := findFit_eq hfind
      have hexact := hsplit object _ largeDead hfind
      have hperm : chains.chained.Perm
          (object :: { chains with largeDead := largeDead }.chained) :=
        hlarge.append_right _
      have hrest : Proper header { chains with largeDead := largeDead } :=
        ⟨hproper.pools, hproper.unswept, hproper.redirect⟩
      by_cases hsmall : ObjectSize header object - allocationLength < MinimumObjectSize
      · refine ⟨header, { chains with largeDead := largeDead }, some object, ?_, ?_⟩
        · simp only [if_pos hsmall]
        · exact .whole hperm hrest rfl hfits fun x _ => rfl
      · have hword : ObjectSize header object < 2 ^ 32 := objectSize_lt (header object)
        have hmem : object ∈ chains.chained := hperm.mem_iff.mpr List.mem_cons_self
        obtain ⟨-, hgrainSize⟩ := hseparate.grained object hmem
        have hrestMinimum := Nat.not_lt.mp hsmall
        simp only [MinimumObjectSize] at hminimum hrestMinimum
        simp only [LargeBlockThreshold] at hthreshold
        have hnew : object + allocationLength ∉
            DeadChains.chained { chains with largeDead := largeDead } :=
          hseparate.inside hperm (by omega) (by omega)
        have hrestLength : DeadObjectSize ≤ ObjectSize header object - allocationLength := by
          simp only [DeadObjectSize]
          omega
        have hrestGrain : (ObjectSize header object - allocationLength) % ObjectGrain = 0 := by
          simp only [ObjectGrain] at hgrain hgrainSize ⊢
          omega
        obtain ⟨chains', hadd, hadds⟩ :=
          addDeadObject_spec (object + allocationLength) hrest hrestLength hrestGrain (by omega) hnew
        rw [addDeadObject, if_neg (Nat.not_lt.mpr hrestLength)] at hadd
        obtain ⟨-, rfl⟩ := Prod.mk.inj (Option.some.inj hadd)
        have hrecorded : recordedSize allocationLength = allocationLength := by
          apply recordedSize_of_fits
          simp only [LargeObjectMinSize]
          omega
        refine ⟨_, _, some object, ?_,
          Taken.front hseparate hperm hadds (by omega) hrecorded hfits ?_⟩
        · simp only [if_neg hsmall, splitNormalDeadObject]
          rfl
        · rw [ObjectSize, Function.update_self, deadHeader, objectSize_packedSize (by omega)]
          apply recordedSize_of_fits
          rcases Nat.lt_or_ge (ObjectSize header object - allocationLength) LargeObjectMinSize with
            hlt | hge
          · exact .inl hlt
          · exact .inr (hexact hge)

theorem subpoolBlock_spec (hproper : Proper header chains)
    (hpools : LengthToDeadPool allocationLength < DeadPools) :
    ∃ chains', searchSubpools (LengthToDeadPool allocationLength) (DeadPools + 1) chains
        (chains.lastUsedSubpool (LengthToDeadPool allocationLength)) =
          some (chains', subpoolBlock chains allocationLength) ∧
      Proper header chains' ∧ chains'.largeDead = chains.largeDead ∧
      Found chains (LengthToDeadPool allocationLength) chains'
        (subpoolBlock chains allocationLength) := by
  obtain ⟨chains', found, hsearch, hrest⟩ := searchSubpools_spec hproper hpools
    (hproper.redirect _ hpools) (Nat.lt_succ_of_le (Nat.sub_le _ _))
  have hfound : subpoolBlock chains allocationLength = found := by
    rw [subpoolBlock]
    simp only [if_pos hpools, hsearch]
    rfl
  rw [hfound]
  exact ⟨chains', hsearch, hrest⟩

theorem allocateNormal_spec (hproper : Proper header chains) (hseparate : Separate header chains)
    (hminimum : MinimumObjectSize ≤ allocationLength)
    (hthreshold : allocationLength ≤ LargeBlockThreshold)
    (hgrain : allocationLength % ObjectGrain = 0)
    (hsplit : SplitsExactly header chains allocationLength) :
    ∃ header' chains' object,
      allocateNormal header chains allocationLength = some (header', chains', object) ∧
      Allocates header chains allocationLength header' chains' object := by
  by_cases hpools : LengthToDeadPool allocationLength < DeadPools
  · obtain ⟨chains₁, hsearch, hproper₁, hlarge, hfound⟩ := subpoolBlock_spec hproper hpools
    cases hblock : subpoolBlock chains allocationLength with
    | some object =>
        rw [hblock] at hsearch hfound
        obtain ⟨hperm, hsize⟩ := hfound.perm hlarge hproper
        refine ⟨header, chains₁, some object, ?_, .whole hperm hproper₁ rfl ?_ fun x _ => rfl⟩
        · simp only [allocateNormal, if_pos hpools, hsearch]
        · simp only [LengthToDeadPool, ObjectGrain] at hsize hgrain
          omega
    | none =>
        rw [hblock] at hsearch hfound
        have hsame : chains₁.chained = chains.chained := by
          rw [chained, chained, hlarge]
          rw [← hfound]
        have hsplit₁ := hsplit hblock
        rw [← hlarge] at hsplit₁
        obtain ⟨header', chains', object, hallocate, hallocates⟩ := allocateLargeDead_spec
          hproper₁ (hseparate.congr hsame) hminimum hthreshold hgrain hsplit₁
        refine ⟨header', chains', object, ?_, hallocates.congr hsame⟩
        simp only [allocateNormal, if_pos hpools, hsearch, hallocate]
  · have hblock : subpoolBlock chains allocationLength = none := if_neg hpools
    obtain ⟨header', chains', object, hallocate, hallocates⟩ := allocateLargeDead_spec
      hproper hseparate hminimum hthreshold hgrain (hsplit hblock)
    refine ⟨header', chains', object, ?_, hallocates⟩
    simp only [allocateNormal, if_neg hpools, hallocate]

theorem normal_rounded {n : ℕ} (h : roundObjectBoundary n ≤ LargeBlockThreshold) :
    roundObjectBoundary n ≤ max (roundObjectBoundary n) MinimumObjectSize ∧
      MinimumObjectSize ≤ max (roundObjectBoundary n) MinimumObjectSize ∧
      max (roundObjectBoundary n) MinimumObjectSize ≤ LargeBlockThreshold ∧
      max (roundObjectBoundary n) MinimumObjectSize % ObjectGrain = 0 := by
  have hmod : roundObjectBoundary n % ObjectGrain = 0 := (roundUp_spec n (by decide)).2
  simp only [LargeBlockThreshold, MinimumObjectSize, ObjectGrain] at *
  omega

end NormalChains

instance : AllocatingChains NormalChains where
  SplitsExactly := NormalChains.SplitsExactly
  allocationLength_spec h := by
    obtain ⟨hle, hminimum, -, hgrain⟩ := NormalChains.normal_rounded h
    exact ⟨hle, hminimum, hgrain⟩
  allocate h hproper hseparate hsplit := by
    obtain ⟨-, hminimum, hthreshold, hgrain⟩ := NormalChains.normal_rounded h
    exact NormalChains.allocateNormal_spec hproper hseparate hminimum hthreshold hgrain hsplit

end MemorySegment

end LeooRexx
