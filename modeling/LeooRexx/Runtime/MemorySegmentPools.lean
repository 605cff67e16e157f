import Mathlib

/-!
# Segment pools

Where the segments come from: pools obtained from `calloc`, each with a spare segment behind its
header, and committed from both ends of the rest.  Sizes are `size_t`s of 32 bits.
-/

namespace LeooRexx

namespace SegmentPools

def sizeLimit : ℕ := 2 ^ 32

def MEMSIZE : ℕ := 4194304

def PAGESIZE : ℕ := 4096

def SegmentSize : ℕ := 65536

def MemorySegmentOverhead : ℕ := 16

def MemorySegmentPoolOverhead : ℕ := 24

def RXROUNDUP (n unit : ℕ) : ℕ := (n + (unit - 1)) % sizeLimit / unit * unit

def roundSegmentBoundary (n : ℕ) : ℕ := RXROUNDUP n SegmentSize

structure MemorySegment where
  address : ℕ
  segmentSize : ℕ
  deriving DecidableEq

def newSegmentAt (address segSize : ℕ) : MemorySegment :=
  { address := address, segmentSize := segSize - MemorySegmentOverhead }

def MemorySegment.size (segment : MemorySegment) : ℕ := segment.segmentSize

def MemorySegment.realSize (segment : MemorySegment) : ℕ :=
  segment.segmentSize + MemorySegmentOverhead

/-- A pool in the memory of `reserved` bytes from its address on. -/
structure MemorySegmentPool where
  address : ℕ
  reserved : ℕ
  spareSegment : Option MemorySegment
  nextAlloc : ℕ
  nextLargeAlloc : ℕ
  uncommitted : ℕ
  deriving DecidableEq

def createPool (address poolSize initialSegSize : ℕ) : MemorySegmentPool :=
  { address := address
    reserved := poolSize
    spareSegment := some (newSegmentAt (address + MemorySegmentPoolOverhead)
      (initialSegSize - MemorySegmentPoolOverhead))
    nextAlloc := address + initialSegSize
    nextLargeAlloc := address + poolSize
    uncommitted := poolSize - initialSegSize }

def SysAccessPool (address : ℕ) : MemorySegmentPool :=
  createPool address MEMSIZE (RXROUNDUP SegmentSize PAGESIZE)

def poolSize (minSize : ℕ) : ℕ :=
  let minSize := (minSize + MemorySegmentPoolOverhead) % sizeLimit
  if MEMSIZE < minSize then RXROUNDUP ((minSize + MemorySegmentPoolOverhead) % sizeLimit) PAGESIZE
  else MEMSIZE

def initialSegSize (minSize : ℕ) : ℕ :=
  let minSize := (minSize + MemorySegmentPoolOverhead) % sizeLimit
  if minSize < SegmentSize then RXROUNDUP SegmentSize PAGESIZE else RXROUNDUP minSize PAGESIZE

/-- The chain of the pools.  A new pool goes to its end and becomes the current one, so that the
current pool never has a next one. -/
structure Pools where
  earlier : List MemorySegmentPool
  ProcessCurrentPool : MemorySegmentPool

def Pools.all (pools : Pools) : List MemorySegmentPool :=
  pools.earlier ++ [pools.ProcessCurrentPool]

/-- What `calloc` answers while these pools exist; `none` is a null pointer. -/
abbrev Calloc := List MemorySegmentPool → ℕ → Option ℕ

def newPool (calloc : Calloc) (pools : Pools) (minSize : ℕ) : Option Pools :=
  (calloc pools.all (poolSize minSize)).map fun address =>
    { earlier := pools.all
      ProcessCurrentPool := createPool address (poolSize minSize) (initialSegSize minSize) }

def takeSpare (pool : MemorySegmentPool) (minSize : ℕ) :
    Option (MemorySegment × MemorySegmentPool) :=
  match pool.spareSegment with
  | some segment =>
      if minSize ≤ segment.size then some (segment, { pool with spareSegment := none }) else none
  | none => none

abbrev Commit := MemorySegmentPool → ℕ → MemorySegment × MemorySegmentPool

def commitSegment : Commit := fun pool segmentSize =>
  (newSegmentAt pool.nextAlloc segmentSize,
    { pool with
      uncommitted := pool.uncommitted - segmentSize
      nextAlloc := pool.nextAlloc + segmentSize })

def commitLargeSegment : Commit := fun pool segmentSize =>
  let nextLargeAlloc := pool.nextLargeAlloc - segmentSize
  (newSegmentAt nextLargeAlloc segmentSize,
    { pool with
      nextLargeAlloc := nextLargeAlloc
      uncommitted := pool.uncommitted - segmentSize })

inductive Error where
  | Error_System_resources
  deriving DecidableEq

def segmentFrom (commit : Commit) (calloc : Calloc) :
    ℕ → Pools → ℕ → Option (Except Error (MemorySegment × Pools))
  | 0, _, _ => none
  | fuel + 1, pools, minSize =>
      match takeSpare pools.ProcessCurrentPool minSize with
      | some (segment, pool) => some (.ok (segment, { pools with ProcessCurrentPool := pool }))
      | none =>
          let segmentSize := RXROUNDUP minSize PAGESIZE
          if segmentSize ≤ pools.ProcessCurrentPool.uncommitted then
            let (segment, pool) := commit pools.ProcessCurrentPool segmentSize
            some (.ok (segment, { pools with ProcessCurrentPool := pool }))
          else
            match newPool calloc pools minSize with
            | some pools => segmentFrom commit calloc fuel pools minSize
            | none => some (.error .Error_System_resources)

/-- The size that the memory object asks the pool for.  A null segment is asked for once more
with the minimum, which is not reached: the failing `calloc` has raised. -/
def requestSize (requestedBytes : ℕ) : ℕ :=
  roundSegmentBoundary ((requestedBytes + MemorySegmentOverhead) % sizeLimit)

def newSegment (calloc : Calloc) (fuel : ℕ) (pools : Pools) (requestedBytes : ℕ) :
    Option (Except Error (MemorySegment × Pools)) :=
  segmentFrom commitSegment calloc fuel pools (requestSize requestedBytes)

def newLargeSegment (calloc : Calloc) (fuel : ℕ) (pools : Pools) (requestedBytes : ℕ) :
    Option (Except Error (MemorySegment × Pools)) :=
  segmentFrom commitLargeSegment calloc fuel pools (requestSize requestedBytes)

structure Traced where
  pools : Pools
  handedOut : List MemorySegment

def Traced.handOut (t : Traced) (segment : MemorySegment) (pool : MemorySegmentPool) : Traced :=
  { pools := { t.pools with ProcessCurrentPool := pool }
    handedOut := segment :: t.handedOut }

def Traced.initial (address : ℕ) : Traced :=
  { pools := { earlier := [], ProcessCurrentPool := SysAccessPool address }, handedOut := [] }

inductive Request where
  | newSegment (requestedBytes : ℕ)
  | newLargeSegment (requestedBytes : ℕ)

def Request.requestedBytes : Request → ℕ
  | .newSegment requestedBytes => requestedBytes
  | .newLargeSegment requestedBytes => requestedBytes

def serve (calloc : Calloc) (fuel : ℕ) (pools : Pools) :
    Request → Option (Except Error (MemorySegment × Pools))
  | .newSegment requestedBytes => newSegment calloc fuel pools requestedBytes
  | .newLargeSegment requestedBytes => newLargeSegment calloc fuel pools requestedBytes

/-- What `calloc` hands out is addressable and apart from the pools that exist. -/
def CallocSound (calloc : Calloc) : Prop :=
  ∀ pools size address, calloc pools size = some address →
    address + size ≤ sizeLimit ∧
      ∀ pool ∈ pools, address + size ≤ pool.address ∨ pool.address + pool.reserved ≤ address

def Fits (request : Request) : Prop :=
  request.requestedBytes + MemorySegmentOverhead + (SegmentSize - 1) < sizeLimit

inductive Reached : Traced → Prop where
  | initial (address : ℕ) (haddress : address + MEMSIZE ≤ sizeLimit) :
      Reached (Traced.initial address)
  | step {t : Traced} (calloc : Calloc) (fuel : ℕ) (request : Request) {segment : MemorySegment}
      {pools : Pools} (h : Reached t) (hcalloc : CallocSound calloc) (hfits : Fits request)
      (hserve : serve calloc fuel t.pools request = some (.ok (segment, pools))) :
      Reached (Traced.mk pools (segment :: t.handedOut))

variable {t : Traced} {pools pools' : Pools} {pool pool' p q : MemorySegmentPool}
  {segment old a b : MemorySegment} {calloc : Calloc} {n minSize requested address fuel : ℕ}

/-! ## Sizes -/

structure WholeSegments (n : ℕ) : Prop where
  least : SegmentSize ≤ n
  whole : n % SegmentSize = 0
  limit : n < sizeLimit

theorem requestSize_spec (h : requested + MemorySegmentOverhead + (SegmentSize - 1) < sizeLimit) :
    WholeSegments (requestSize requested) ∧
      requested + MemorySegmentOverhead ≤ requestSize requested := by
  have hsum : (requested + MemorySegmentOverhead) % sizeLimit =
      requested + MemorySegmentOverhead := Nat.mod_eq_of_lt (by omega)
  rw [requestSize, hsum, roundSegmentBoundary, RXROUNDUP, Nat.mod_eq_of_lt h]
  simp only [MemorySegmentOverhead, SegmentSize, sizeLimit] at h ⊢
  constructor
  · constructor <;> simp only [SegmentSize, sizeLimit] <;> omega
  · omega

theorem WholeSegments.addHeaders (h : WholeSegments n) :
    (n + MemorySegmentPoolOverhead) % sizeLimit = n + MemorySegmentPoolOverhead ∧
      (n + MemorySegmentPoolOverhead + MemorySegmentPoolOverhead) % sizeLimit =
        n + MemorySegmentPoolOverhead + MemorySegmentPoolOverhead := by
  obtain ⟨hleast, hwhole, hlimit⟩ := h
  simp only [SegmentSize, sizeLimit, MemorySegmentPoolOverhead] at *
  omega

theorem WholeSegments.roundUp (h : WholeSegments n) {headers : ℕ} (hfew : headers ≤ 48)
    (hsome : 1 ≤ headers) : RXROUNDUP (n + headers) PAGESIZE = n + PAGESIZE := by
  obtain ⟨hleast, hwhole, hlimit⟩ := h
  simp only [SegmentSize, sizeLimit, PAGESIZE, RXROUNDUP] at *
  omega

theorem WholeSegments.roundUp_self (h : WholeSegments n) : RXROUNDUP n PAGESIZE = n := by
  obtain ⟨hleast, hwhole, hlimit⟩ := h
  simp only [SegmentSize, sizeLimit, PAGESIZE, RXROUNDUP] at *
  omega

theorem WholeSegments.initialSegSize (h : WholeSegments n) :
    SegmentPools.initialSegSize n = n + PAGESIZE := by
  have hleast := h.least
  rw [SegmentPools.initialSegSize]
  simp only [h.addHeaders.1]
  rw [if_neg (by omega)]
  exact h.roundUp (by decide) (by decide)

theorem WholeSegments.poolSize (h : WholeSegments n) :
    n + PAGESIZE ≤ SegmentPools.poolSize n := by
  have hwhole := h.whole
  rw [SegmentPools.poolSize]
  simp only [h.addHeaders.1, h.addHeaders.2]
  split
  · rw [Nat.add_assoc]
    exact Nat.le_of_eq (h.roundUp (by decide) (by decide)).symm
  · simp only [MEMSIZE, MemorySegmentPoolOverhead, PAGESIZE, SegmentSize] at *
    omega

/-! ## The memory of the pools -/

def Apart (a b : MemorySegment) : Prop :=
  a.address + a.realSize ≤ b.address ∨ b.address + b.realSize ≤ a.address

def PoolsApart (p q : MemorySegmentPool) : Prop :=
  p.address + p.reserved ≤ q.address ∨ q.address + q.reserved ≤ p.address

structure Holds (pool : MemorySegmentPool) (segment : MemorySegment) : Prop where
  start : pool.address + MemorySegmentPoolOverhead ≤ segment.address
  stop : segment.address + segment.realSize ≤ pool.address + pool.reserved
  committed : segment.address + segment.realSize ≤ pool.nextAlloc ∨
    pool.nextLargeAlloc ≤ segment.address

structure PoolSound (pool : MemorySegmentPool) : Prop where
  first : pool.address + MemorySegmentPoolOverhead ≤ pool.nextAlloc
  gap : pool.nextAlloc + pool.uncommitted = pool.nextLargeAlloc
  last : pool.nextLargeAlloc ≤ pool.address + pool.reserved

def spares (pools : List MemorySegmentPool) : List MemorySegment :=
  pools.filterMap (·.spareSegment)

def segments (t : Traced) : List MemorySegment := spares t.pools.all ++ t.handedOut

structure Sound (t : Traced) : Prop where
  pools : ∀ pool ∈ t.pools.all, PoolSound pool
  poolsApart : t.pools.all.Pairwise PoolsApart
  held : ∀ segment ∈ segments t, ∃ pool ∈ t.pools.all, Holds pool segment
  apart : (segments t).Pairwise Apart

theorem Apart.symm (h : Apart a b) : Apart b a := Or.symm h

theorem PoolsApart.symm (h : PoolsApart p q) : PoolsApart q p := Or.symm h

theorem Holds.apart (ha : Holds p a) (hb : Holds q b) (h : PoolsApart p q) : Apart a b := by
  obtain ⟨hastart, hastop, -⟩ := ha
  obtain ⟨hbstart, hbstop, -⟩ := hb
  simp only [PoolsApart, Apart] at *
  omega

theorem realSize_newSegmentAt (h : MemorySegmentOverhead ≤ n) :
    (newSegmentAt address n).realSize = n := Nat.sub_add_cancel h

/-- What committing a segment does: the pool keeps its memory and its spare segment, and the
segment is cut from the uncommitted part. -/
structure Commits (pool : MemorySegmentPool) (segmentSize : ℕ) (segment : MemorySegment)
    (pool' : MemorySegmentPool) : Prop where
  address : pool'.address = pool.address
  reserved : pool'.reserved = pool.reserved
  spareSegment : pool'.spareSegment = pool.spareSegment
  size : segment.realSize = segmentSize
  lower : pool.nextAlloc ≤ segment.address
  upper : segment.address + segment.realSize ≤ pool.nextLargeAlloc
  cut : (segment.address + segment.realSize = pool'.nextAlloc ∧
      pool'.nextLargeAlloc = pool.nextLargeAlloc) ∨
    (pool'.nextLargeAlloc = segment.address ∧ pool'.nextAlloc = pool.nextAlloc)
  gap : pool'.nextAlloc + pool'.uncommitted = pool'.nextLargeAlloc

def CommitSound (commit : Commit) : Prop :=
  ∀ pool n, PoolSound pool → MemorySegmentOverhead ≤ n → n ≤ pool.uncommitted →
    Commits pool n (commit pool n).1 (commit pool n).2

theorem commitSegment_sound : CommitSound commitSegment := by
  intro pool n h hheader hfits
  have hgap := h.gap
  have hsize : (newSegmentAt pool.nextAlloc n).realSize = n := realSize_newSegmentAt hheader
  refine ⟨rfl, rfl, rfl, hsize, Nat.le_refl _, ?_, .inl ⟨?_, rfl⟩, ?_⟩
  · change pool.nextAlloc + (newSegmentAt pool.nextAlloc n).realSize ≤ pool.nextLargeAlloc
    omega
  · change pool.nextAlloc + (newSegmentAt pool.nextAlloc n).realSize = pool.nextAlloc + n
    omega
  · change pool.nextAlloc + n + (pool.uncommitted - n) = pool.nextLargeAlloc
    omega

theorem commitLargeSegment_sound : CommitSound commitLargeSegment := by
  intro pool n h hheader hfits
  have hgap := h.gap
  have hsize : (newSegmentAt (pool.nextLargeAlloc - n) n).realSize = n :=
    realSize_newSegmentAt hheader
  refine ⟨rfl, rfl, rfl, hsize, ?_, ?_, .inr ⟨rfl, rfl⟩, ?_⟩
  · change pool.nextAlloc ≤ pool.nextLargeAlloc - n
    omega
  · change pool.nextLargeAlloc - n + (newSegmentAt (pool.nextLargeAlloc - n) n).realSize ≤
      pool.nextLargeAlloc
    omega
  · change pool.nextAlloc + (pool.uncommitted - n) = pool.nextLargeAlloc - n
    omega

theorem Commits.poolSound {n : ℕ} (h : Commits pool n segment pool') (hpool : PoolSound pool) :
    PoolSound pool' := by
  obtain ⟨hfirst, -, hlast⟩ := hpool
  obtain ⟨haddress, hreserved, -, -, hlower, hupper, hcut, hgap⟩ := h
  refine ⟨?_, hgap, ?_⟩
  · rw [haddress]
    omega
  · rw [haddress, hreserved]
    omega

theorem Commits.holds {n : ℕ} (h : Commits pool n segment pool') (hpool : PoolSound pool) :
    Holds pool' segment := by
  obtain ⟨hfirst, -, hlast⟩ := hpool
  obtain ⟨haddress, hreserved, -, -, hlower, hupper, hcut, -⟩ := h
  refine ⟨?_, ?_, ?_⟩
  · rw [haddress]
    omega
  · rw [haddress, hreserved]
    omega
  · omega

theorem Commits.keeps {n : ℕ} (h : Commits pool n segment pool') (hold : Holds pool old) :
    Holds pool' old ∧ Apart segment old := by
  obtain ⟨hstart, hstop, hcommitted⟩ := hold
  obtain ⟨haddress, hreserved, -, -, hlower, hupper, hcut, -⟩ := h
  refine ⟨⟨?_, ?_, ?_⟩, ?_⟩
  · rwa [haddress]
  · rwa [haddress, hreserved]
  · omega
  · rw [Apart]
    omega

/-! ## The steps of a request -/

theorem mem_all : p ∈ pools.all ↔ p ∈ pools.earlier ∨ p = pools.ProcessCurrentPool := by
  simp [Pools.all]

theorem Sound.current_apart (h : Sound t) (hp : p ∈ t.pools.earlier) :
    PoolsApart p t.pools.ProcessCurrentPool :=
  (List.pairwise_append.mp h.poolsApart).2.2 p hp _ (List.mem_singleton.mpr rfl)

theorem pairwise_insert {front back : List MemorySegment} (h : (front ++ back).Pairwise Apart)
    (hnew : ∀ old ∈ front ++ back, Apart segment old) :
    (front ++ segment :: back).Pairwise Apart := by
  have hperm : (front ++ segment :: back).Perm (segment :: (front ++ back)) := List.perm_middle
  apply (hperm.pairwise_iff Apart.symm).mpr
  exact List.pairwise_cons.mpr ⟨hnew, h⟩

theorem Sound.replace (h : Sound t)
    (haddress : pool.address = t.pools.ProcessCurrentPool.address)
    (hreserved : pool.reserved = t.pools.ProcessCurrentPool.reserved) (hpool : PoolSound pool)
    (hkeeps : ∀ old, Holds t.pools.ProcessCurrentPool old → Holds pool old)
    (hheld : ∀ old ∈ segments (t.handOut segment pool), old ∈ segments t ∨ Holds pool old)
    (hapart : (segments (t.handOut segment pool)).Pairwise Apart) :
    Sound (t.handOut segment pool) := by
  refine ⟨?_, ?_, ?_, hapart⟩
  · intro p hp
    rcases mem_all.mp hp with hearlier | rfl
    · exact h.pools p (mem_all.mpr (.inl hearlier))
    · exact hpool
  · apply List.pairwise_append.mpr
    refine ⟨(List.pairwise_append.mp h.poolsApart).1, List.pairwise_singleton _ _, ?_⟩
    intro p hp q hq
    rw [List.mem_singleton.mp hq, PoolsApart]
    change p.address + p.reserved ≤ pool.address ∨ pool.address + pool.reserved ≤ p.address
    rw [haddress, hreserved]
    exact h.current_apart hp
  · intro old hold
    rcases hheld old hold with hmem | hholds
    · obtain ⟨p, hp, hholds⟩ := h.held old hmem
      rcases mem_all.mp hp with hearlier | rfl
      · exact ⟨p, mem_all.mpr (.inl hearlier), hholds⟩
      · exact ⟨pool, mem_all.mpr (.inr rfl), hkeeps old hholds⟩
    · exact ⟨pool, mem_all.mpr (.inr rfl), hholds⟩

theorem takeSpare_eq (h : takeSpare pool minSize = some (segment, pool')) :
    pool.spareSegment = some segment ∧ minSize ≤ segment.size ∧
      pool' = { pool with spareSegment := none } := by
  rw [takeSpare] at h
  split at h
  next found hfound =>
    split at h
    next hbig =>
      obtain ⟨rfl, rfl⟩ := Prod.mk.inj (Option.some.inj h)
      exact ⟨hfound, hbig, rfl⟩
    next => cases h
  next => cases h

theorem Sound.spare (h : Sound t)
    (htake : takeSpare t.pools.ProcessCurrentPool minSize = some (segment, pool)) :
    Sound (t.handOut segment pool) := by
  obtain ⟨hspare, -, rfl⟩ := takeSpare_eq htake
  have hsame : segments (t.handOut segment
      { t.pools.ProcessCurrentPool with spareSegment := none }) = segments t := by
    simp [segments, spares, Pools.all, Traced.handOut, hspare]
  have hpool := h.pools _ (mem_all.mpr (.inr rfl))
  refine h.replace rfl rfl ⟨hpool.first, hpool.gap, hpool.last⟩ ?_ ?_ ?_
  · intro old hold
    exact ⟨hold.start, hold.stop, hold.committed⟩
  · intro old hold
    exact .inl (hsame ▸ hold)
  · rw [hsame]
    exact h.apart

theorem Sound.commit (h : Sound t)
    (hcommits : Commits t.pools.ProcessCurrentPool n segment pool) :
    Sound (t.handOut segment pool) := by
  have hpool := h.pools _ (mem_all.mpr (.inr rfl))
  have hspares : spares (t.pools.earlier ++ [pool]) = spares t.pools.all := by
    simp only [Pools.all, spares, List.filterMap_append, List.filterMap_cons,
      hcommits.spareSegment, List.filterMap_nil]
  have hsegments : segments (t.handOut segment pool) =
      spares t.pools.all ++ segment :: t.handedOut := by
    rw [segments, ← hspares]
    rfl
  have hnew : ∀ old ∈ spares t.pools.all ++ t.handedOut, Apart segment old := by
    intro old hold
    obtain ⟨p, hp, hholds⟩ := h.held old hold
    rcases mem_all.mp hp with hearlier | rfl
    · apply (hcommits.holds hpool).apart hholds
      rw [PoolsApart, hcommits.address, hcommits.reserved]
      exact (h.current_apart hearlier).symm
    · exact (hcommits.keeps hholds).2
  refine h.replace hcommits.address hcommits.reserved (hcommits.poolSound hpool)
    (fun old hold => (hcommits.keeps hold).1) ?_ ?_
  · intro old hold
    rw [hsegments] at hold
    rcases List.mem_append.mp hold with hspare | hgiven
    · exact .inl (List.mem_append.mpr (.inl hspare))
    · rcases List.mem_cons.mp hgiven with rfl | hearlier
      · exact .inr (hcommits.holds hpool)
      · exact .inl (List.mem_append.mpr (.inr hearlier))
  · rw [hsegments]
    exact pairwise_insert h.apart hnew

theorem createPool_sound {size initial : ℕ} (hheader : MemorySegmentPoolOverhead ≤ initial)
    (hfits : initial ≤ size) : PoolSound (createPool address size initial) := by
  refine ⟨?_, ?_, Nat.le_refl _⟩
  · change address + MemorySegmentPoolOverhead ≤ address + initial
    omega
  · change address + initial + (size - initial) = address + size
    omega

theorem createPool_holds {size initial : ℕ}
    (hheader : MemorySegmentPoolOverhead + MemorySegmentOverhead ≤ initial)
    (hfits : initial ≤ size) :
    Holds (createPool address size initial) (newSegmentAt (address + MemorySegmentPoolOverhead)
      (initial - MemorySegmentPoolOverhead)) := by
  have hsize : (newSegmentAt (address + MemorySegmentPoolOverhead)
      (initial - MemorySegmentPoolOverhead)).realSize = initial - MemorySegmentPoolOverhead :=
    realSize_newSegmentAt (by omega)
  refine ⟨Nat.le_refl _, ?_, .inl ?_⟩
  · rw [hsize]
    change address + MemorySegmentPoolOverhead + (initial - MemorySegmentPoolOverhead) ≤
      address + size
    omega
  · rw [hsize]
    change address + MemorySegmentPoolOverhead + (initial - MemorySegmentPoolOverhead) ≤
      address + initial
    omega

theorem Sound.newPool (h : Sound t) (hn : WholeSegments n) (hcalloc : CallocSound calloc)
    (hnew : newPool calloc t.pools n = some pools) :
    Sound { t with pools := pools } ∧
      pools.all.length = t.pools.all.length + 1 ∧
      ∃ segment pool, takeSpare pools.ProcessCurrentPool n = some (segment, pool) := by
  obtain ⟨address, haddress, rfl⟩ := Option.map_eq_some_iff.mp hnew
  obtain ⟨-, hfresh⟩ := hcalloc _ _ _ haddress
  have hfits : initialSegSize n ≤ poolSize n := hn.initialSegSize ▸ hn.poolSize
  have hleast := hn.least
  have hinitial := hn.initialSegSize
  simp only [SegmentSize, PAGESIZE] at hleast hinitial
  generalize hsizes : initialSegSize n = initial at *
  generalize hspare : newSegmentAt (address + MemorySegmentPoolOverhead)
    (initial - MemorySegmentPoolOverhead) = spare
  have hheader : MemorySegmentPoolOverhead + MemorySegmentOverhead ≤ initial := by
    simp only [MemorySegmentPoolOverhead, MemorySegmentOverhead]
    omega
  have hpool : PoolSound (createPool address (poolSize n) initial) :=
    createPool_sound (by omega) hfits
  have hholds : Holds (createPool address (poolSize n) initial) spare :=
    hspare ▸ createPool_holds hheader hfits
  have hpools : ∀ p ∈ t.pools.all, PoolsApart p (createPool address (poolSize n) initial) :=
    fun p hp => Or.symm (hfresh p hp)
  have hsegments : segments (Traced.mk (Pools.mk t.pools.all
      (createPool address (poolSize n) initial)) t.handedOut) =
        spares t.pools.all ++ spare :: t.handedOut := by
    have hfilled : (createPool address (poolSize n) initial).spareSegment = some spare :=
      congrArg some hspare
    change (t.pools.all ++ [createPool address (poolSize n) initial]).filterMap _ ++
      t.handedOut = _
    rw [List.filterMap_append, List.filterMap_cons_some hfilled, List.append_assoc]
    rfl
  refine ⟨⟨?_, ?_, ?_, ?_⟩, ?_, ?_⟩
  · intro p hp
    rcases mem_all.mp hp with hearlier | rfl
    · exact h.pools p hearlier
    · exact hpool
  · apply List.pairwise_append.mpr
    refine ⟨h.poolsApart, List.pairwise_singleton _ _, ?_⟩
    intro p hp q hq
    rw [List.mem_singleton.mp hq]
    exact hpools p hp
  · intro old hold
    rw [hsegments] at hold
    have hcases : old = spare ∨ old ∈ segments t := by
      simp only [List.mem_append, List.mem_cons] at hold
      simp only [segments, List.mem_append]
      tauto
    rcases hcases with rfl | hmem
    · exact ⟨_, mem_all.mpr (.inr rfl), hholds⟩
    · obtain ⟨p, hp, hheld⟩ := h.held old hmem
      exact ⟨p, mem_all.mpr (.inl hp), hheld⟩
  · rw [hsegments]
    apply pairwise_insert h.apart
    intro old hold
    obtain ⟨p, hp, hheld⟩ := h.held old hold
    exact hholds.apart hheld (hpools p hp).symm
  · exact List.length_append
  · refine ⟨spare, { createPool address (poolSize n) initial with spareSegment := none }, ?_⟩
    have hbig : n ≤ spare.size := by
      rw [← hspare]
      change n ≤ initial - MemorySegmentPoolOverhead - MemorySegmentOverhead
      simp only [MemorySegmentPoolOverhead, MemorySegmentOverhead]
      omega
    simp only [takeSpare, createPool, hspare]
    exact if_pos hbig

/-! ## Requests -/

/-- A request is refused when `calloc` fails; otherwise its segment is big enough, and at most
one pool is new. -/
def Served (calloc : Calloc) (t : Traced) (n : ℕ) :
    Except Error (MemorySegment × Pools) → Prop
  | .error _ => ∃ size, calloc t.pools.all size = none
  | .ok (segment, pools) => n ≤ segment.realSize ∧
      pools.all.length ≤ t.pools.all.length + 1 ∧
      Sound (Traced.mk pools (segment :: t.handedOut))

theorem WholeSegments.header_le (h : WholeSegments n) : MemorySegmentOverhead ≤ n := by
  have hleast := h.least
  simp only [MemorySegmentOverhead, SegmentSize] at *
  omega

theorem segmentFrom_spare {commit : Commit}
    (htake : takeSpare pools.ProcessCurrentPool n = some (segment, pool)) :
    segmentFrom commit calloc (fuel + 1) pools n =
      some (.ok (segment, { pools with ProcessCurrentPool := pool })) := by
  rw [segmentFrom, htake]

theorem segmentFrom_served {commit : Commit} (h : Sound t) (hcommit : CommitSound commit)
    (hcalloc : CallocSound calloc) (hn : WholeSegments n) :
    ∃ result, Served calloc t n result ∧
      (∀ fuel, segmentFrom commit calloc (fuel + 2) t.pools n = some result) ∧
      (segmentFrom commit calloc 1 t.pools n = none ∨
        segmentFrom commit calloc 1 t.pools n = some result) := by
  have hcurrent := h.pools _ (mem_all.mpr (.inr rfl))
  cases htake : takeSpare t.pools.ProcessCurrentPool n with
  | some taken =>
      obtain ⟨segment, pool⟩ := taken
      have hbig := (takeSpare_eq htake).2.1
      have hlength : n ≤ segment.realSize := Nat.le_trans hbig (Nat.le_add_right _ _)
      have hresult : ∀ fuel, segmentFrom commit calloc (fuel + 1) t.pools n =
          some (.ok (segment, { t.pools with ProcessCurrentPool := pool })) :=
        fun _ => segmentFrom_spare htake
      refine ⟨.ok (segment, { t.pools with ProcessCurrentPool := pool }),
        ⟨hlength, ?_, h.spare htake⟩, fun fuel => hresult (fuel + 1), .inr (hresult 0)⟩
      simp [Pools.all]
  | none =>
      by_cases hfits : n ≤ t.pools.ProcessCurrentPool.uncommitted
      · have hcommits := hcommit _ n hcurrent hn.header_le hfits
        have hresult : ∀ fuel, segmentFrom commit calloc (fuel + 1) t.pools n =
            some (.ok ((commit t.pools.ProcessCurrentPool n).1,
              { t.pools with
                ProcessCurrentPool := (commit t.pools.ProcessCurrentPool n).2 })) := by
          intro fuel
          rw [segmentFrom, htake]
          simp only [hn.roundUp_self]
          exact if_pos hfits
        refine ⟨.ok ((commit t.pools.ProcessCurrentPool n).1,
              { t.pools with
                ProcessCurrentPool := (commit t.pools.ProcessCurrentPool n).2 }),
          ⟨Nat.le_of_eq hcommits.size.symm, ?_, h.commit hcommits⟩,
          fun fuel => hresult (fuel + 1), .inr (hresult 0)⟩
        simp [Pools.all]
      · have hresult : ∀ fuel, segmentFrom commit calloc (fuel + 1) t.pools n =
            match newPool calloc t.pools n with
            | some pools => segmentFrom commit calloc fuel pools n
            | none => some (.error .Error_System_resources) := by
          intro fuel
          rw [segmentFrom, htake]
          simp only [hn.roundUp_self]
          exact if_neg hfits
        cases hnew : newPool calloc t.pools n with
        | none =>
            simp only [hnew] at hresult
            exact ⟨.error .Error_System_resources, ⟨poolSize n, Option.map_eq_none_iff.mp hnew⟩,
              fun fuel => hresult (fuel + 1), .inr (hresult 0)⟩
        | some pools =>
            simp only [hnew] at hresult
            obtain ⟨hsound, hlength, segment, pool, hspare⟩ := h.newPool hn hcalloc hnew
            have hbig := (takeSpare_eq hspare).2.1
            have hsegment : n ≤ segment.realSize := Nat.le_trans hbig (Nat.le_add_right _ _)
            refine ⟨.ok (segment, { pools with ProcessCurrentPool := pool }),
              ⟨hsegment, ?_, hsound.spare hspare⟩, ?_, .inl (hresult 0)⟩
            · rw [← hlength]
              simp [Pools.all]
            · intro fuel
              rw [hresult (fuel + 1)]
              exact segmentFrom_spare hspare

theorem Sound.initial : Sound (Traced.initial address) := by
  have hinitial : RXROUNDUP SegmentSize PAGESIZE = 65536 := by decide
  have hpool : PoolSound (SysAccessPool address) := by
    rw [SysAccessPool, hinitial]
    exact createPool_sound (by decide) (by decide)
  refine ⟨?_, List.pairwise_singleton _ _, ?_, List.pairwise_singleton _ _⟩
  · intro pool hmem
    rw [List.mem_singleton.mp hmem]
    exact hpool
  · intro segment hmem
    rw [List.mem_singleton.mp hmem]
    refine ⟨SysAccessPool address, List.mem_singleton.mpr rfl, ?_⟩
    rw [SysAccessPool, hinitial]
    exact createPool_holds (by decide) (by decide)

theorem serve_served (h : Sound t) (hcalloc : CallocSound calloc) {request : Request}
    (hfits : Fits request) :
    ∃ result, Served calloc t (requestSize request.requestedBytes) result ∧
      (∀ fuel, serve calloc (fuel + 2) t.pools request = some result) ∧
      (serve calloc 1 t.pools request = none ∨ serve calloc 1 t.pools request = some result) := by
  have hwhole := (requestSize_spec hfits).1
  cases request with
  | newSegment requested => exact segmentFrom_served h commitSegment_sound hcalloc hwhole
  | newLargeSegment requested =>
      exact segmentFrom_served h commitLargeSegment_sound hcalloc hwhole

theorem serve_zero (request : Request) : serve calloc 0 pools request = none := by
  cases request <;> rfl

theorem Reached.sound (h : Reached t) : Sound t := by
  induction h with
  | initial address haddress => exact .initial
  | @step t calloc fuel request segment pools h hcalloc hfits hserve ih =>
      obtain ⟨result, hserved, henough, hone⟩ := serve_served ih hcalloc hfits
      have hresult : result = .ok (segment, pools) := by
        rcases fuel with - | - | fuel
        · rw [serve_zero] at hserve
          cases hserve
        · rcases hone with hnone | hsome
          · rw [hnone] at hserve
            cases hserve
          · exact Option.some.inj (hsome.symm.trans hserve)
        · exact Option.some.inj ((henough fuel).symm.trans hserve)
      rw [hresult] at hserved
      exact hserved.2.2

structure LaidOut (t : Traced) : Prop where
  uncommitted : ∀ pool ∈ t.pools.all, pool.nextAlloc ≤ pool.nextLargeAlloc ∧
    pool.nextLargeAlloc - pool.nextAlloc = pool.uncommitted
  inside : ∀ segment ∈ segments t, ∃ pool ∈ t.pools.all,
    pool.address + MemorySegmentPoolOverhead ≤ segment.address ∧
      segment.address + segment.realSize ≤ pool.address + pool.reserved
  apart : (segments t).Pairwise Apart

theorem Sound.laidOut (h : Sound t) : LaidOut t := by
  refine ⟨?_, ?_, h.apart⟩
  · intro pool hmem
    have hgap := (h.pools pool hmem).gap
    omega
  · intro segment hmem
    obtain ⟨pool, hpool, hholds⟩ := h.held segment hmem
    exact ⟨pool, hpool, hholds.start, hholds.stop⟩

/-- After every sequence of requests the segments lie apart in their pools, and the next request
gets a segment that is big enough, with at most one new pool, unless `calloc` fails. -/
theorem pools_disjoint (t : Traced) (h : Reached t) :
    LaidOut t ∧
      ∀ (calloc : Calloc) (request : Request), CallocSound calloc → Fits request →
        ∃ result, (∀ fuel, serve calloc (fuel + 2) t.pools request = some result) ∧
          match result with
          | .error _ => ∃ size, calloc t.pools.all size = none
          | .ok (segment, pools) =>
              request.requestedBytes + MemorySegmentOverhead ≤ segment.realSize ∧
                pools.all.length ≤ t.pools.all.length + 1 ∧
                LaidOut (Traced.mk pools (segment :: t.handedOut)) := by
  refine ⟨h.sound.laidOut, ?_⟩
  intro calloc request hcalloc hfits
  obtain ⟨result, hserved, henough, -⟩ := serve_served h.sound hcalloc hfits
  refine ⟨result, henough, ?_⟩
  match result, hserved with
  | .error _, hserved => exact hserved
  | .ok (segment, pools), ⟨hsize, hlength, hsound⟩ =>
      exact ⟨Nat.le_trans (requestSize_spec hfits).2 hsize, hlength, hsound.laidOut⟩

/-- A `calloc` that takes the memory behind all pools. -/
def callocBehind : Calloc := fun pools size =>
  let address := pools.foldr (fun pool address => max (pool.address + pool.reserved) address) 0
  if address + size ≤ sizeLimit then some address else none

theorem callocBehind_sound : CallocSound callocBehind := by
  intro pools size address haddress
  rw [callocBehind] at haddress
  split at haddress
  next hfits =>
    obtain rfl := Option.some.inj haddress
    refine ⟨hfits, ?_⟩
    clear haddress hfits
    intro pool hmem
    apply Or.inr
    induction pools with
    | nil => cases hmem
    | cons first pools ih =>
        rcases List.mem_cons.mp hmem with rfl | hmem
        · exact Nat.le_max_left _ _
        · exact Nat.le_trans (ih hmem) (Nat.le_max_right _ _)
  next => cases haddress

/-- A request larger than a pool of the default size. -/
theorem pools_disjoint_first : LaidOut (Traced.initial 0x10000) ∧
    ∃ result, (∀ fuel, serve callocBehind (fuel + 2) (Traced.initial 0x10000).pools
      (.newLargeSegment 5000000) = some result) ∧
        match result with
        | .error _ => ∃ size, callocBehind (Traced.initial 0x10000).pools.all size = none
        | .ok (segment, pools) =>
            5000000 + MemorySegmentOverhead ≤ segment.realSize ∧
              pools.all.length ≤ (Traced.initial 0x10000).pools.all.length + 1 ∧
              LaidOut (Traced.mk pools (segment :: (Traced.initial 0x10000).handedOut)) :=
  let h := pools_disjoint (Traced.initial 0x10000) (.initial 0x10000 (by decide))
  ⟨h.1, h.2 callocBehind (.newLargeSegment 5000000) callocBehind_sound (by rw [Fits]; decide)⟩

end SegmentPools

end LeooRexx
