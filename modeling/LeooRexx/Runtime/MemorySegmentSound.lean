import Mathlib
import LeooRexx.Runtime.MemorySegmentAllocation

/-!
# The blocks of a segment set

The blocks tile the segments, and the blocks without a mark are those on the dead chains.  A
segment that is added keeps this where the sizes of its dead blocks can be recorded.
-/

namespace LeooRexx

namespace MemorySegment

open DeadChains

variable {χ : Type} [AllocatingChains χ] {m m' : Memory χ} {header header' : Headers}
  {chains chains' : χ} {mark : HEADINFO} {blocks blocks' dead kept : List ℕ}
  {segments : List Segment} {segment : Segment} {object : ℕ}

def range (segment : Segment) : ℕ × ℕ := (segment.start, segment.endAddr)

def unmarked (header : Headers) (b : ℕ) : Bool := header b &&& MarkMask = 0#32

structure Sound (m : Memory χ) (blocks : List ℕ) : Prop where
  tiles : TilesAll (ObjectSize m.header) (m.segments.map range) blocks
  apart : (m.segments.map range).Pairwise Apart
  free : (blocks.filter (unmarked m.header)).Perm (chained m.chains)
  grained : ∀ b ∈ blocks, Grained m.header b
  proper : Proper m.header m.chains
  mark : IsMark m.markWord

theorem Sound.initial : Sound (Memory.initial : Memory χ) [] where
  tiles := .nil
  apart := .nil
  free := by
    change ([] : List ℕ).Perm (chained (SegmentSet.none : χ))
    rw [chained_none]
  grained b hb := by cases hb
  proper := proper_none
  mark := .inl rfl

theorem Sound.nodup (h : Sound m blocks) : blocks.Nodup := h.tiles.nodup h.apart

theorem Sound.mem_chained (h : Sound m blocks) {b : ℕ} :
    b ∈ chained m.chains ↔ b ∈ blocks ∧ unmarked m.header b = true := by
  rw [← h.free.mem_iff, List.mem_filter]

theorem Sound.separate (h : Sound m blocks) : Separate m.header m.chains where
  grained b hb := h.grained b (h.mem_chained.mp hb).1
  nodup := (h.free.nodup_iff).mp (h.nodup.filter _)
  apart _ hb _ hc hne :=
    h.tiles.disjoint h.apart (h.mem_chained.mp hb).1 (h.mem_chained.mp hc).1 hne

theorem unmarked_congr {b : ℕ} (h : header' b = header b) :
    unmarked header' b = unmarked header b := by
  rw [unmarked, unmarked, h]

theorem Sound.of_adds (hadds : Adds header chains header' chains' dead)
    (htiles : TilesAll (ObjectSize header') (segments.map range) blocks')
    (hapart : (segments.map range).Pairwise Apart) (hperm : blocks'.Perm (dead ++ kept))
    (hgrained : ∀ b ∈ kept, Grained header b)
    (hfree : (kept.filter (unmarked header)).Perm (chained chains)) (hmark : IsMark mark) :
    Sound ⟨header', chains', segments, mark⟩ blocks' := by
  have hnodup := hperm.nodup_iff.mp (htiles.nodup hapart)
  have hkept : ∀ b ∈ kept, header' b = header b := by
    intro b hb
    apply hadds.outside
    intro hdead
    exact List.disjoint_of_nodup_append hnodup hdead hb
  refine ⟨htiles, hapart, ?_, ?_, hadds.proper, hmark⟩
  · have hdead : dead.filter (unmarked header') = dead := by
      rw [List.filter_eq_self]
      intro b hb
      exact decide_eq_true (hadds.unmarked b hb)
    have hsame : kept.filter (unmarked header') = kept.filter (unmarked header) := by
      apply List.filter_congr
      intro b hb
      exact unmarked_congr (hkept b hb)
    apply (hperm.filter _).trans
    rw [List.filter_append, hdead, hsame]
    exact (hfree.append_left dead).trans hadds.chained.symm
  · intro b hb
    rcases List.mem_append.mp (hperm.mem_iff.mp hb) with hdead | hold
    · exact hadds.grained b hdead
    · apply (hgrained b hold).congr
      change ObjectSizeFunc (header' b) = ObjectSizeFunc (header b)
      rw [hkept b hold]

/-! ## Adding a segment -/

def SegmentApart (segment other : Segment) : Prop :=
  other.endAddr + MemorySegmentOverhead ≤ segment.start ∨
    segment.endAddr + MemorySegmentOverhead ≤ other.start

theorem SegmentApart.apart {other : Segment} (h : SegmentApart segment other) :
    Apart (range segment) (range other) := by
  rcases h with h | h
  · exact .inr ((Nat.le_add_right _ _).trans h)
  · exact .inl ((Nat.le_add_right _ _).trans h)

theorem Sound.block_apart (h : Sound m blocks) (hapart : ∀ s ∈ m.segments, SegmentApart segment s)
    {b : ℕ} (hb : b ∈ blocks) :
    0 < ObjectSize m.header b ∧
      (b + ObjectSize m.header b + MemorySegmentOverhead ≤ segment.start ∨ segment.endAddr ≤ b) := by
  obtain ⟨r, hr, hstart, hpos, hend⟩ := h.tiles.mem hb
  obtain ⟨s, hs, rfl⟩ := List.mem_map.mp hr
  refine ⟨hpos, ?_⟩
  have hs := hapart s hs
  simp only [SegmentApart, range] at hs hstart hend
  omega

theorem addDeadSpace_eq
    (hadjust : adjustLargeObject
      (Function.update header segment.start (deadHeader segment.segmentSize)) chains
      segment.start segment.segmentSize = some (header', chains')) :
    addDeadSpace header chains segment = some (header',
      SegmentSet.addDeadObject header' chains' segment.start
        (ObjectSize header' segment.start)) := by
  by_cases hlarge : LargeObjectMinSize < segment.segmentSize
  · simp only [addDeadSpace, if_pos hlarge, hadjust]
    rfl
  · have hword := segment.addressable
    have hsize : ObjectSize (Function.update header segment.start (deadHeader segment.segmentSize))
        segment.start = recordedSize segment.segmentSize := by
      rw [ObjectSize, Function.update_self, deadHeader, objectSize_packedSize (by omega)]
    have hfits : recordedSize segment.segmentSize = segment.segmentSize := by
      apply recordedSize_of_fits
      simp only [LargeObjectMinSize] at hlarge ⊢
      omega
    rw [adjustLargeObject, if_neg (by rw [hsize, hfits]; omega)] at hadjust
    obtain ⟨rfl, rfl⟩ := Prod.mk.inj (Option.some.inj hadjust)
    simp only [addDeadSpace, if_neg hlarge]
    rfl

theorem Adds.first {header₁ : Headers} {size : ℕ} {chains₂ : χ}
    (hadds : Adds header₁ chains header' chains₂ dead)
    (hother : ∀ x, x ≠ object → header₁ x = header x)
    (hself : header' object = deadHeader size) (hgrained : Grained header' object) :
    Adds header chains header'
      (SegmentSet.addDeadObject header' chains₂ object (ObjectSize header' object))
      (object :: dead) := by
  obtain ⟨hperm, hproper⟩ :=
    DeadChains.add object hadds.proper hgrained.1 hgrained.2 fun _ => rfl
  refine ⟨hperm.trans (hadds.chained.cons object), hproper, ?_, ?_, ?_⟩
  · intro x hx
    obtain ⟨hne, hdead⟩ := not_or.mp (mt List.mem_cons.mpr hx)
    rw [hadds.outside x hdead, hother x hne]
  · intro x hx
    rcases List.mem_cons.mp hx with rfl | hx
    · rw [hself]
      exact marks_packedSize size
    · exact hadds.unmarked x hx
  · intro x hx
    rcases List.mem_cons.mp hx with rfl | hx
    · exact hgrained
    · exact hadds.grained x hx

theorem adjustLargeObject_spec {start size : ℕ} (hproper : Proper header chains)
    (hlength : DeadObjectSize ≤ size) (hgrain : size % ObjectGrain = 0)
    (hword : start + size < 2 ^ 32) (hnew : ∀ b ∈ chained chains, b < start ∨ start + size ≤ b)
    (hrest : LargeObjectMinSize ≤ size → size % 256 ≠ 8) :
    ∃ header' chains' dead,
      adjustLargeObject (Function.update header start (deadHeader size)) chains start size =
        some (header', chains') ∧
      Adds header chains header'
        (SegmentSet.addDeadObject header' chains' start (ObjectSize header' start))
        (start :: dead) ∧
      Tiles (ObjectSize header') start (start + size) (start :: dead) := by
  simp only [DeadObjectSize, ObjectGrain] at hlength hgrain
  generalize hheader : Function.update header start (deadHeader size) = header₁
  have hother : ∀ x, x ≠ start → header₁ x = header x := by
    rw [← hheader]
    exact fun x hx => Function.update_of_ne hx _ _
  have hself : header₁ start = deadHeader size := by
    rw [← hheader, Function.update_self]
  have hsize : ObjectSize header₁ start = recordedSize size := by
    rw [ObjectSize, hself, deadHeader, objectSize_packedSize (by omega)]
  have hgrained : Grained header₁ start := by
    rw [Grained, hsize]
    exact ⟨deadSize_le_recordedSize hlength, recordedSize_grained hgrain⟩
  have hproper₁ : Proper header₁ chains := by
    apply proper_congr hproper
    intro o ho
    rw [ObjectSize, ObjectSize, hother o]
    rintro rfl
    have := hnew _ ho
    omega
  by_cases hwhole : size < LargeObjectMinSize ∨ size % 256 = 0
  · have hfits := recordedSize_of_fits hwhole
    refine ⟨header₁, chains, [], ?_, (Adds.nil hproper₁).first hother hself hgrained, ?_⟩
    · rw [adjustLargeObject, if_neg]
      rw [hsize, hfits]
      omega
    · apply Tiles.cons
      · rw [hsize, hfits]
        omega
      · rw [hsize, hfits]
        exact .nil _
  · obtain ⟨hlarge, hmod⟩ := not_or.mp hwhole
    have hrecorded : recordedSize size = size - size % 256 := if_neg hlarge
    have hneq := hrest (Nat.not_lt.mp hlarge)
    simp only [LargeObjectMinSize] at hlarge
    have hrestSize : size - recordedSize size = size % 256 := by omega
    have hrestLength : DeadObjectSize ≤ size % 256 := by
      simp only [DeadObjectSize]
      omega
    have hrestGrain : size % 256 % ObjectGrain = 0 := by
      simp only [ObjectGrain]
      omega
    have hrestNew : start + recordedSize size ∉ chained chains := by
      intro hmem
      have := hnew _ hmem
      omega
    obtain ⟨chains', hadd, hadds⟩ := addDeadObject_spec (start + recordedSize size) hproper₁
      hrestLength hrestGrain (by omega) hrestNew
    have hne : start ∉ [start + recordedSize size] := by
      rw [List.mem_singleton]
      omega
    have hkept := hadds.outside start hne
    refine ⟨_, chains', [start + recordedSize size], ?_,
      hadds.first hother (hkept.trans hself) ?_, ?_⟩
    · rw [adjustLargeObject, hsize, hrestSize, if_pos ⟨by simp only [LargeObjectMinSize]; omega,
        by omega⟩]
      exact hadd
    · apply hgrained.congr
      exact hadds.size_outside hne
    · apply Tiles.cons
      · rw [hadds.size_outside hne, hsize]
        omega
      · rw [hadds.size_outside hne, hsize]
        have hsecond : ObjectSize (Function.update header₁ (start + recordedSize size)
            (deadHeader (size % 256))) (start + recordedSize size) = size % 256 := by
          rw [ObjectSize, Function.update_self, deadHeader, objectSize_packedSize (by omega)]
          exact recordedSize_of_fits (.inl (by simp only [LargeObjectMinSize]; omega))
        apply Tiles.cons
        · rw [hsecond]
          omega
        · rw [hsecond]
          have hend : start + recordedSize size + size % 256 = start + size := by omega
          rw [hend]
          exact .nil _

theorem addDeadSpace_spec (hproper : Proper header chains)
    (hnew : ∀ b ∈ chained chains, b < segment.start ∨ segment.endAddr ≤ b)
    (hrest : LargeObjectMinSize ≤ segment.segmentSize → segment.segmentSize % 256 ≠ 8) :
    ∃ header' chains' dead, addDeadSpace header chains segment = some (header', chains') ∧
      Adds header chains header' chains' dead ∧
      Tiles (ObjectSize header') segment.start segment.endAddr dead := by
  have hlength : DeadObjectSize ≤ segment.segmentSize := by
    have hminimum := segment.minimum
    simp only [MinimumObjectSize] at hminimum
    simp only [DeadObjectSize]
    omega
  obtain ⟨header', chains', dead, hadjust, hadds, htiles⟩ :=
    adjustLargeObject_spec hproper hlength segment.grained segment.addressable hnew hrest
  exact ⟨header', _, _, addDeadSpace_eq hadjust, hadds, htiles⟩

def previousSegment (segments : List Segment) (segment : Segment) : Option Segment :=
  (segments.takeWhile fun other => !decide (segment.start < other.start)).getLast?

def AddsExactly (segments : List Segment) (segment : Segment) : Prop :=
  if ∃ previous ∈ previousSegment segments segment, previous.isAdjacentTo segment then
    LargeObjectMinSize ≤ segment.realSize → segment.realSize % 256 = 0
  else LargeObjectMinSize ≤ segment.segmentSize → segment.segmentSize % 256 ≠ 8

theorem addSegment_inserted (h : Sound m blocks) (hadd : ∀ s ∈ m.segments, SegmentApart segment s)
    {before after : List Segment} (hsplit : before ++ after = m.segments)
    (hrest : LargeObjectMinSize ≤ segment.segmentSize → segment.segmentSize % 256 ≠ 8) :
    ∃ header' chains' blocks', addDeadSpace m.header m.chains segment = some (header', chains') ∧
      Sound { m with
        header := header'
        chains := chains'
        segments := before ++ segment :: after } blocks' := by
  have hnew : ∀ b ∈ chained m.chains, b < segment.start ∨ segment.endAddr ≤ b := by
    intro b hb
    have := h.block_apart hadd (h.mem_chained.mp hb).1
    omega
  obtain ⟨header', chains', dead, hspace, hadds, htiles⟩ :=
    addDeadSpace_spec h.proper hnew hrest
  have hold : ∀ b ∈ blocks, b ∉ dead := by
    intro b hb hdead
    have hin := htiles.mem hdead
    have hout := h.block_apart hadd hb
    omega
  have hkept : TilesAll (ObjectSize header') (before.map range ++ after.map range) blocks := by
    rw [← List.map_append, hsplit]
    exact h.tiles.congr fun b hb => hadds.size_outside (hold b hb)
  obtain ⟨blocks', htiles', hperm⟩ := hkept.insert htiles
  refine ⟨header', chains', blocks', hspace, Sound.of_adds hadds ?_ ?_ hperm h.grained h.free h.mark⟩
  · rw [List.map_append, List.map_cons]
    exact htiles'
  · rw [List.map_append, List.map_cons, List.pairwise_middle fun hxy => Apart.symm hxy,
      ← List.map_append, hsplit, List.pairwise_cons]
    refine ⟨?_, h.apart⟩
    intro r hr
    obtain ⟨s, hs, rfl⟩ := List.mem_map.mp hr
    exact (hadd s hs).apart

theorem Segment.endAddr_combine {previous : Segment} (h : previous.isAdjacentTo segment) :
    (previous.combine segment h).endAddr = segment.endAddr := by
  simp only [Segment.isAdjacentTo, Segment.endAddr, MemorySegmentOverhead] at h
  simp only [Segment.endAddr, Segment.combine, Segment.realSize, MemorySegmentOverhead]
  omega

theorem Sound.combine_apart (h : Sound m blocks)
    (hadd : ∀ s ∈ m.segments, SegmentApart segment s)
    {before after : List Segment} {previous : Segment}
    (hsplit : before ++ previous :: after = m.segments)
    (hadjacent : previous.isAdjacentTo segment) :
    ((before ++ previous.combine segment hadjacent :: after).map range).Pairwise Apart := by
  have hapart := h.apart
  rw [← hsplit, List.map_append, List.map_cons,
    List.pairwise_middle fun hxy => Apart.symm hxy, List.pairwise_cons] at hapart
  rw [List.map_append, List.map_cons, List.pairwise_middle fun hxy => Apart.symm hxy,
    List.pairwise_cons]
  refine ⟨?_, hapart.2⟩
  intro r hr
  have hprevious := hapart.1 r hr
  rw [← List.map_append] at hr
  obtain ⟨s, hs, rfl⟩ := List.mem_map.mp hr
  have hmem : s ∈ m.segments := by
    rw [← hsplit]
    rcases List.mem_append.mp hs with hs | hs
    · exact List.mem_append_left _ hs
    · exact List.mem_append_right _ (List.mem_cons_of_mem _ hs)
  have hsegment := hadd s hmem
  have hminimum := s.minimum
  have hend := Segment.endAddr_combine hadjacent
  have hstart : (previous.combine segment hadjacent).start = previous.start := rfl
  have hfollows : previous.endAddr + MemorySegmentOverhead = segment.start := hadjacent
  simp only [MinimumObjectSize] at hminimum
  simp only [Apart, range, SegmentApart, MemorySegmentOverhead, hend, hstart] at *
  simp only [Segment.endAddr] at *
  omega

theorem addSegment_combined (h : Sound m blocks)
    (hadd : ∀ s ∈ m.segments, SegmentApart segment s)
    {before after : List Segment} {previous : Segment}
    (hsplit : before ++ previous :: after = m.segments)
    (hadjacent : previous.isAdjacentTo segment)
    (hexact : LargeObjectMinSize ≤ segment.realSize → segment.realSize % 256 = 0) :
    ∃ header' chains' blocks',
      addDeadObject m.header m.chains previous.endAddr segment.realSize =
        some (header', chains') ∧
      Sound { m with
        header := header'
        chains := chains'
        segments := before ++ previous.combine segment hadjacent :: after } blocks' := by
  have hstart : previous.endAddr + MemorySegmentOverhead = segment.start := hadjacent
  have hend : previous.endAddr + segment.realSize = segment.endAddr := by
    simp only [Segment.realSize, Segment.endAddr] at hstart ⊢
    omega
  have hminimum := segment.minimum
  have hgrain := segment.grained
  have hword := segment.addressable
  change segment.endAddr < 2 ^ 32 at hword
  simp only [MinimumObjectSize] at hminimum
  have hlength : DeadObjectSize ≤ segment.realSize := by
    simp only [DeadObjectSize, Segment.realSize]
    omega
  have hrealGrain : segment.realSize % ObjectGrain = 0 := by
    simp only [ObjectGrain, Segment.realSize, MemorySegmentOverhead] at hgrain ⊢
    omega
  have hapart : ∀ b ∈ blocks, b < previous.endAddr ∨ segment.endAddr ≤ b := by
    intro b hb
    have := h.block_apart hadd hb
    omega
  have hnew : previous.endAddr ∉ chained m.chains := by
    intro hin
    have := hapart _ (h.mem_chained.mp hin).1
    simp only [DeadObjectSize] at hlength
    omega
  obtain ⟨chains', hobject, hadds⟩ :=
    addDeadObject_spec previous.endAddr h.proper hlength hrealGrain (by omega) hnew
  have hsize : ObjectSize (Function.update m.header previous.endAddr (deadHeader segment.realSize))
      previous.endAddr = segment.realSize := by
    rw [ObjectSize, Function.update_self, deadHeader, objectSize_packedSize (by omega)]
    apply recordedSize_of_fits
    rcases Nat.lt_or_ge segment.realSize LargeObjectMinSize with hlt | hge
    · exact .inl hlt
    · exact .inr (hexact hge)
  generalize Function.update m.header previous.endAddr (deadHeader segment.realSize) =
    header' at *
  have htiles : Tiles (ObjectSize header') previous.endAddr segment.endAddr
      [previous.endAddr] := by
    simp only [DeadObjectSize] at hlength
    apply Tiles.cons
    · omega
    · rw [hsize, hend]
      exact .nil _
  have hkept : TilesAll (ObjectSize header')
      (before.map range ++ (previous.start, previous.endAddr) :: after.map range) blocks := by
    have hranges : before.map range ++ (previous.start, previous.endAddr) :: after.map range =
        m.segments.map range := by
      rw [← hsplit, List.map_append, List.map_cons]
      rfl
    rw [hranges]
    apply h.tiles.congr
    intro b hb
    apply hadds.size_outside
    intro hin
    have := hapart b hb
    have := List.mem_singleton.mp hin
    simp only [DeadObjectSize] at hlength
    omega
  obtain ⟨blocks', htiles', hperm⟩ := hkept.extend htiles
  refine ⟨header', chains', blocks', hobject, Sound.of_adds hadds ?_
    (h.combine_apart hadd hsplit hadjacent) hperm h.grained h.free h.mark⟩
  rw [List.map_append, List.map_cons, range, Segment.endAddr_combine hadjacent]
  exact htiles'

theorem addSegment_sound (h : Sound m blocks) (hadd : ∀ s ∈ m.segments, SegmentApart segment s)
    (hexact : AddsExactly m.segments segment) :
    ∃ m' blocks', addSegment m segment = some m' ∧ Sound m' blocks' := by
  have hsplit : (m.segments.takeWhile fun other => !decide (segment.start < other.start)) ++
      (m.segments.dropWhile fun other => !decide (segment.start < other.start)) = m.segments :=
    List.takeWhile_append_dropWhile
  rw [AddsExactly] at hexact
  rw [addSegment]
  cases hlast : (m.segments.takeWhile fun other =>
      !decide (segment.start < other.start)).getLast? with
  | none =>
      have hprevious : previousSegment m.segments segment = none := hlast
      rw [hprevious, if_neg (by simp)] at hexact
      obtain ⟨header', chains', blocks', hspace, hsound⟩ :=
        addSegment_inserted h hadd hsplit hexact
      refine ⟨_, blocks', ?_, hsound⟩
      simp only [hspace]
      rfl
  | some previous =>
      have hprevious : previousSegment m.segments segment = some previous := hlast
      by_cases hadjacent : previous.isAdjacentTo segment
      · rw [hprevious, if_pos ⟨previous, rfl, hadjacent⟩] at hexact
        have hbefore := List.dropLast_append_getLast? previous hlast
        rw [← hbefore, List.append_assoc] at hsplit
        obtain ⟨header', chains', blocks', hobject, hsound⟩ :=
          addSegment_combined h hadd hsplit hadjacent hexact
        refine ⟨_, blocks', ?_, hsound⟩
        simp only [dif_pos hadjacent, hobject]
        rfl
      · rw [hprevious, if_neg (by simpa using hadjacent)] at hexact
        obtain ⟨header', chains', blocks', hspace, hsound⟩ :=
          addSegment_inserted h hadd hsplit hexact
        refine ⟨_, blocks', ?_, hsound⟩
        simp only [dif_neg hadjacent, hspace]
        rfl

end MemorySegment

end LeooRexx
