import LeooRexx.Runtime.MemorySegmentSound

/-!
# Runs of a segment set

Whatever segments are added, objects allocated, marked and swept, the blocks tile the segments
and the blocks without a mark are those on the dead chains, as long as every block keeps its
size when it is recorded in a header.
-/

namespace LeooRexx

namespace MemorySegment

open DeadChains

variable {χ : Type} [AllocatingChains χ] {m m' : Memory χ} {header header' : Headers}
  {chains chains' : χ} {mark : HEADINFO} {blocks blocks' dead kept : List ℕ}
  {segments : List Segment} {segment : Segment} {object request : ℕ}

/-! ## Allocation -/

theorem unmarked_setObjectLive {b : ℕ} (h : IsMark mark)
    (hself : header b = SetObjectLive (header' b) mark) : unmarked header b = false := by
  rw [unmarked, hself, marks_setObjectLive h]
  rcases h with rfl | rfl <;> decide

theorem perm_filter_marked (hnodup : blocks.Nodup) (hmem : object ∈ blocks)
    (hold : unmarked header object = true) (hnew : unmarked header' object = false)
    (hother : ∀ b ∈ blocks, b ≠ object → unmarked header' b = unmarked header b) :
    (blocks.filter (unmarked header)).Perm (object :: blocks.filter (unmarked header')) := by
  have hin : object ∈ blocks.filter (unmarked header) := List.mem_filter.mpr ⟨hmem, hold⟩
  have herase : (blocks.filter (unmarked header)).erase object =
      blocks.filter (unmarked header') := by
    rw [(hnodup.filter _).erase_eq_filter, List.filter_filter]
    apply List.filter_congr
    intro b hb
    rcases eq_or_ne b object with rfl | hne
    · simp [hnew]
    · simp [hother b hb hne, hne]
  rw [← herase]
  exact List.perm_cons_erase hin

structure HandedOut (m : Memory χ) (blocks : List ℕ) (m' : Memory χ) (request object : ℕ) :
    Prop where
  chained : object ∈ chained m.chains
  taken : object ∉ DeadChains.chained m'.chains
  length : roundObjectBoundary request ≤ ObjectSize m'.header object
  live : objectIsLive (m'.header object) m'.markWord = true
  apart : ∀ b ∈ blocks, unmarked m.header b = false →
    m'.header b = m.header b ∧
      (b + ObjectSize m.header b ≤ object ∨ object + ObjectSize m'.header object ≤ b)

theorem unmarked_update {b : ℕ} (word : HEADINFO) (h : b ≠ object) :
    unmarked (Function.update header object word) b = unmarked header b :=
  unmarked_congr (Function.update_of_ne h _ _)

theorem size_setLive (h : IsMark mark) (b : ℕ) :
    ObjectSize (Function.update header object (SetObjectLive (header object) mark)) b =
      ObjectSize header b := by
  rcases eq_or_ne b object with rfl | hne
  · rw [ObjectSize, Function.update_self, objectSize_setObjectLive h]
    rfl
  · rw [ObjectSize, ObjectSize, Function.update_of_ne hne]

theorem taken_sound (h : Sound m blocks) {length : ℕ} (hlength : MinimumObjectSize ≤ length)
    (hgrain : length % ObjectGrain = 0)
    (htaken : Taken m.header m.chains object length header' chains') :
    ∃ blocks', Sound { m with
      header := Function.update header' object (SetObjectLive (header' object) m.markWord)
      chains := chains' } blocks' := by
  have hmark := h.mark
  have hnew : unmarked (Function.update header' object (SetObjectLive (header' object) m.markWord))
      object = false := unmarked_setObjectLive hmark (Function.update_self ..)
  cases htaken with
  | whole hperm hproper hsize hfits hother =>
      have hmem := h.mem_chained.mp (hperm.mem_iff.mpr List.mem_cons_self)
      have hsizes : ∀ b, ObjectSize (Function.update header' object
          (SetObjectLive (header' object) m.markWord)) b = ObjectSize m.header b := by
        intro b
        rw [size_setLive hmark]
        rcases eq_or_ne b object with rfl | hne
        · exact hsize
        · rw [ObjectSize, ObjectSize, hother b hne]
      refine ⟨blocks, h.tiles.congr fun b _ => hsizes b, h.apart, ?_, ?_, ?_, hmark⟩
      · have hsame : ∀ b ∈ blocks, b ≠ object → unmarked (Function.update header' object
            (SetObjectLive (header' object) m.markWord)) b = unmarked m.header b := by
          intro b _ hne
          rw [unmarked_update _ hne]
          exact unmarked_congr (hother b hne)
        have hfiltered := perm_filter_marked h.nodup hmem.1 hmem.2 hnew hsame
        exact (hfiltered.symm.trans (h.free.trans hperm)).cons_inv
      · intro b hb
        exact (h.grained b hb).congr (hsizes b)
      · apply proper_congr hproper
        intro b _
        exact size_setLive hmark b
  | split rest hperm hrest hproper hsize hsum hsecond hmarks hother =>
      have hmem := h.mem_chained.mp (hperm.mem_iff.mpr List.mem_cons_self)
      have hsizes : ∀ b, ObjectSize (Function.update header' object
          (SetObjectLive (header' object) m.markWord)) b = ObjectSize header' b :=
        fun b => size_setLive hmark b
      generalize hheader : Function.update header' object
        (SetObjectLive (header' object) m.markWord) = header'' at *
      have hkept : ∀ b, b ≠ object → header'' b = header' b := by
        intro b hb
        rw [← hheader, Function.update_of_ne hb]
      have hlengthSecond := hsecond.1
      simp only [DeadObjectSize] at hlengthSecond
      simp only [MinimumObjectSize] at hlength
      have hne : object + length ≠ object := by omega
      have houtside : object + length ∉ blocks := by
        intro hin
        have := h.tiles.disjoint h.apart hmem.1 hin (Ne.symm hne)
        omega
      have hold : ∀ b ∈ blocks, b ≠ object → header'' b = m.header b := by
        intro b hb hbne
        have hbsecond : b ≠ object + length := by
          rintro rfl
          exact houtside hb
        rw [hkept b hbne, hother b hbne hbsecond]
      have hfirstSize : ObjectSize header'' object = length := (hsizes object).trans hsize
      have hsecondSize : 0 < ObjectSize header'' (object + length) := by
        rw [hsizes]
        omega
      have hblocksSplit : ∃ blocks', TilesAll (ObjectSize header'') (m.segments.map range) blocks' ∧
          blocks'.Perm ((object + ObjectSize header'' object) :: blocks) := by
        apply h.tiles.split hmem.1 h.nodup
        · omega
        · rw [hfirstSize]
          exact hsecondSize
        · rw [hfirstSize, hsizes]
          exact hsum
        · intro b hb hbne
          rw [ObjectSize, ObjectSize, hold b hb hbne]
      obtain ⟨blocks', htiles, hblocks⟩ := hblocksSplit
      rw [hfirstSize] at hblocks
      refine ⟨blocks', htiles, h.apart, ?_, ?_, ?_, hmark⟩
      · have hsecondFree : unmarked header'' (object + length) = true := by
          rw [unmarked_congr (hkept _ hne)]
          exact decide_eq_true hmarks
        have hfiltered := perm_filter_marked h.nodup hmem.1 hmem.2 hnew
          fun b hb hbne => unmarked_congr (hold b hb hbne)
        have hothers := (hfiltered.symm.trans (h.free.trans hperm)).cons_inv
        apply (hblocks.filter _).trans
        rw [List.filter_cons_of_pos hsecondFree]
        exact (hothers.cons _).trans hrest.symm
      · intro b hb
        rcases List.mem_cons.mp (hblocks.mem_iff.mp hb) with rfl | hb
        · exact hsecond.congr (hsizes _)
        · rcases eq_or_ne b object with rfl | hbne
          · change DeadObjectSize ≤ ObjectSize header'' b ∧ ObjectSize header'' b % ObjectGrain = 0
            rw [hfirstSize]
            simp only [DeadObjectSize]
            exact ⟨by omega, hgrain⟩
          · apply (h.grained b hb).congr
            change ObjectSizeFunc (header'' b) = ObjectSizeFunc (m.header b)
            rw [hold b hb hbne]
      · apply proper_congr hproper
        intro b _
        exact hsizes b

theorem taken_handedOut (hsound : Sound m blocks) {length : ℕ}
    (hrequest : roundObjectBoundary request ≤ length) (hpos : 0 < length)
    (htaken : Taken m.header m.chains object length header' chains') :
    HandedOut m blocks { m with
      header := Function.update header' object (SetObjectLive (header' object) m.markWord)
      chains := chains' } request object := by
  have hmark := hsound.mark
  have hseparate := hsound.separate
  have hlive : objectIsLive (Function.update header' object
      (SetObjectLive (header' object) m.markWord) object) m.markWord = true := by
    rw [Function.update_self]
    exact decide_eq_true (marks_setObjectLive hmark)
  have hsize : ObjectSize (Function.update header' object
      (SetObjectLive (header' object) m.markWord)) object = ObjectSize header' object :=
    size_setLive hmark object
  cases htaken with
  | whole hperm hproper hsame hfits hother =>
      have hmem : object ∈ chained m.chains := hperm.mem_iff.mpr List.mem_cons_self
      refine ⟨hmem, (List.nodup_cons.mp (hperm.nodup_iff.mp hseparate.nodup)).1, ?_, hlive, ?_⟩
      · rw [hsize, hsame]
        omega
      · intro b hb hmarked
        have hobject := hsound.mem_chained.mp hmem
        have hne : b ≠ object := by
          rintro rfl
          rw [hobject.2] at hmarked
          cases hmarked
        refine ⟨?_, ?_⟩
        · exact (Function.update_of_ne hne _ _).trans (hother b hne)
        · rw [hsize, hsame]
          exact hsound.tiles.disjoint hsound.apart hb hobject.1 hne
  | split rest hperm hrest hproper hfirst hsum hsecond hmarks hother =>
      have hmem : object ∈ chained m.chains := hperm.mem_iff.mpr List.mem_cons_self
      refine ⟨hmem, ?_, ?_, hlive, ?_⟩
      · intro hin
        rcases List.mem_cons.mp (hrest.mem_iff.mp hin) with heq | hin
        · omega
        · exact (List.nodup_cons.mp (hperm.nodup_iff.mp hseparate.nodup)).1 hin
      · rw [hsize, hfirst]
        exact hrequest
      · intro b hb hmarked
        have hobject := hsound.mem_chained.mp hmem
        have hne : b ≠ object := by
          rintro rfl
          rw [hobject.2] at hmarked
          cases hmarked
        have hdisjoint := hsound.tiles.disjoint hsound.apart hb hobject.1 hne
        have hlength := hsecond.1
        have hbsize := (hsound.grained b hb).1
        simp only [DeadObjectSize] at hlength hbsize
        have hneSecond : b ≠ object + length := by omega
        refine ⟨?_, ?_⟩
        · exact (Function.update_of_ne hne _ _).trans (hother b hne hneSecond)
        · rw [hsize, hfirst]
          omega

theorem newObject_sound (h : Sound m blocks) (hrequest : AllocatingSet.Requests χ request)
    (hexact : AllocatingChains.SplitsExactly m.header m.chains
      (AllocatingSet.allocationLength χ request)) :
    ∃ m' found blocks', newObject m request = some (m', found) ∧ Sound m' blocks' ∧
      ∀ object ∈ found, HandedOut m blocks m' request object := by
  obtain ⟨hround, hminimum, hgrain⟩ := AllocatingChains.allocationLength_spec hrequest
  obtain ⟨header', chains', found, hallocate, hallocates⟩ :=
    AllocatingChains.allocate hrequest h.proper h.separate hexact
  cases found with
  | none =>
      obtain ⟨rfl, hperm, hproper⟩ := hallocates
      refine ⟨{ m with header := m.header, chains := chains' }, none, blocks, ?_,
        ⟨h.tiles, h.apart, h.free.trans hperm.symm, h.grained, hproper, h.mark⟩, by simp⟩
      simp only [newObject, hallocate]
      rfl
  | some object =>
      obtain ⟨blocks', hsound⟩ := taken_sound h hminimum hgrain hallocates
      simp only [MinimumObjectSize] at hminimum
      refine ⟨_, some object, blocks', ?_, hsound, ?_⟩
      · simp only [newObject, hallocate]
        rfl
      · rintro _ ⟨⟩
        exact taken_handedOut h hround (by omega) hallocates

/-! ## Marking -/

theorem markPhase_sound (h : Sound m blocks) {live : ℕ → Bool}
    (hlive : ∀ o, live o = true → unmarked m.header o = false) :
    Sound (markPhase m live) blocks := by
  have hmark := h.mark.bump
  have hsizes : ∀ b, ObjectSize (markPhase m live).header b = ObjectSize m.header b := by
    intro b
    change ObjectSizeFunc (if live b then SetObjectLive (m.header b) _ else m.header b) = _
    split
    · exact objectSize_setObjectLive hmark
    · rfl
  have hunmarked : ∀ b, unmarked (markPhase m live).header b = unmarked m.header b := by
    intro b
    cases hb : live b with
    | false =>
        apply unmarked_congr
        change (if live b then _ else m.header b) = m.header b
        rw [hb, if_neg (by simp)]
    | true =>
        rw [hlive b hb]
        apply unmarked_setObjectLive hmark
        change (if live b then _ else m.header b) = _
        rw [hb, if_pos rfl]
  refine ⟨h.tiles.congr fun b _ => hsizes b, h.apart, ?_, ?_, ?_, hmark⟩
  · have hfilter : blocks.filter (unmarked (markPhase m live).header) =
        blocks.filter (unmarked m.header) := List.filter_congr fun b _ => hunmarked b
    rw [hfilter]
    exact h.free
  · intro b hb
    exact (h.grained b hb).congr (hsizes b)
  · exact proper_congr h.proper fun b _ => hsizes b

/-! ## Sweeping -/

def SweepsExactly (header : Headers) (mark : HEADINFO) (segments : List Segment) : Prop :=
  ∀ segment ∈ segments, ∀ blocks,
    Tiles (ObjectSize header) segment.start segment.endAddr blocks →
    ∀ n ∈ deadRuns (isDead header mark) (ObjectSize header) blocks,
      LargeObjectMinSize ≤ n → n % 256 ≠ 8

theorem SweepsExactly.congr {header₁ : Headers} (h : SweepsExactly header mark segments)
    (hkept : ∀ segment ∈ segments, ∀ b, segment.start ≤ b → b < segment.endAddr →
      header₁ b = header b) : SweepsExactly header₁ mark segments := by
  intro s hs tiling htiling
  have hsame : ∀ b ∈ tiling, header₁ b = header b := by
    intro b hb
    obtain ⟨hstart, hpos, hend⟩ := htiling.mem hb
    exact hkept s hs b hstart (by omega)
  have hsameSize : ∀ b ∈ tiling, ObjectSize header b = ObjectSize header₁ b := by
    intro b hb
    rw [ObjectSize, ObjectSize, hsame b hb]
  have hsameDead : ∀ b ∈ tiling, isDead header mark b = isDead header₁ mark b := by
    intro b hb
    rw [isDead, isDead, hsame b hb]
  rw [← deadRuns_congr hsameDead hsameSize]
  exact h s hs tiling (htiling.congr hsameSize)

theorem sweepSegments_spec
    (htiles : TilesAll (ObjectSize header) (segments.map range) blocks)
    (hapart : (segments.map range).Pairwise Apart) (hgrain : ∀ b ∈ blocks, Grained header b)
    (hproper : Proper header chains)
    (hnew : ∀ b ∈ chained chains, ∀ r ∈ segments.map range, b < r.1 ∨ r.2 ≤ b)
    (hruns : SweepsExactly header mark segments) :
    ∃ header' chains' dead blocks',
      sweepSegments mark segments header chains = some (header', chains') ∧
      Adds header chains header' chains' dead ∧
      (∀ x ∈ dead, ∃ r ∈ segments.map range, r.1 ≤ x ∧ x < r.2) ∧
      TilesAll (ObjectSize header') (segments.map range) blocks' ∧
      blocks'.Perm (dead ++ blocks.filter fun b => !isDead header mark b) := by
  induction segments generalizing header chains blocks with
  | nil =>
      cases htiles
      exact ⟨header, chains, [], [], rfl, .nil hproper, by simp, .nil, by simp⟩
  | cons segment segments ih =>
      rw [List.map_cons] at htiles hapart hnew
      obtain ⟨hfirst, hapart⟩ := List.pairwise_cons.mp hapart
      cases htiles with
      | @cons _ _ _ left right hleft hright =>
          have hlength : left.length < segment.segmentSize + 1 := by
            have := hleft.length_le
            simp only [Segment.endAddr] at this
            omega
          have hgrainLeft : ∀ b ∈ left, Grained header b :=
            fun b hb => hgrain b (List.mem_append_left _ hb)
          have hnewLeft : ∀ b ∈ chained chains, b < segment.start ∨ segment.endAddr ≤ b :=
            fun b hb => hnew b hb _ List.mem_cons_self
          obtain ⟨header₁, chains₁, dead₁, left', hsweep, hadds, hrange, htiles₁, hperm⟩ :=
            sweepSegment_spec hleft hlength hgrainLeft segment.addressable hproper hnewLeft
              (hruns segment List.mem_cons_self left hleft)
          have hkept : ∀ b, b < segment.start ∨ segment.endAddr ≤ b → header₁ b = header b := by
            intro b hb
            apply hadds.outside
            intro hdead
            have := hrange b hdead
            omega
          have hinside : ∀ r ∈ segments.map range, ∀ b, r.1 ≤ b → b < r.2 →
              b < segment.start ∨ segment.endAddr ≤ b := by
            intro r hr b hstart hend
            have := hfirst r hr
            simp only [Apart, range] at this
            omega
          have hright₁ : ∀ b ∈ right, header₁ b = header b := by
            intro b hb
            obtain ⟨r, hr, hstart, hpos, hend⟩ := hright.mem hb
            exact hkept b (hinside r hr b hstart (by omega))
          have hsizes : ∀ b ∈ right, ObjectSize header₁ b = ObjectSize header b := by
            intro b hb
            rw [ObjectSize, ObjectSize, hright₁ b hb]
          have hgrainRight : ∀ b ∈ right, Grained header₁ b := fun b hb =>
            (hgrain b (List.mem_append_right _ hb)).congr (hsizes b hb)
          have hnewRight : ∀ b ∈ chained chains₁, ∀ r ∈ segments.map range, b < r.1 ∨ r.2 ≤ b := by
            intro b hb r hr
            rcases List.mem_append.mp (hadds.chained.mem_iff.mp hb) with hdead | hold
            · have hin := hrange b hdead
              have := hfirst r hr
              simp only [Apart, range] at this
              omega
            · exact hnew b hold r (List.mem_cons_of_mem _ hr)
          have hrunsRight : SweepsExactly header₁ mark segments :=
            SweepsExactly.congr (fun s hs => hruns s (List.mem_cons_of_mem _ hs))
              fun s hs b hstart hend =>
                hkept b (hinside (range s) (List.mem_map_of_mem hs) b hstart hend)
          obtain ⟨header', chains', dead₂, right', hsweeps, hadds₂, hrange₂, htiles₂, hperm₂⟩ :=
            ih (hright.congr hsizes) hapart hgrainRight hadds.proper hnewRight hrunsRight
          have hdisjoint : ∀ x, segment.start ≤ x → x < segment.endAddr → x ∉ dead₂ := by
            intro x hstart hend hdead
            obtain ⟨r, hr, hstart', hend'⟩ := hrange₂ x hdead
            have := hinside r hr x hstart' hend'
            omega
          refine ⟨header', chains', dead₁ ++ dead₂, left' ++ right', ?_, ?_, ?_, ?_, ?_⟩
          · simp only [sweepSegments, hsweep]
            exact hsweeps
          · exact hadds.trans hadds₂ fun x hx => hdisjoint x (hrange x hx).1 (hrange x hx).2
          · intro x hx
            rcases List.mem_append.mp hx with hx | hx
            · exact ⟨range segment, List.mem_cons_self, hrange x hx⟩
            · obtain ⟨r, hr, hin⟩ := hrange₂ x hx
              exact ⟨r, List.mem_cons_of_mem _ hr, hin⟩
          · apply TilesAll.cons _ htiles₂
            apply htiles₁.congr
            intro b hb
            have hin := htiles₁.mem hb
            exact hadds₂.size_outside (hdisjoint b hin.1 (by omega))
          · have hfilter : right.filter (fun b => !isDead header₁ mark b) =
                right.filter fun b => !isDead header mark b := by
              apply List.filter_congr
              intro b hb
              rw [isDead, isDead, hright₁ b hb]
            rw [List.filter_append, ← hfilter]
            apply (hperm.append hperm₂).trans
            rw [List.append_assoc, List.append_assoc]
            apply List.Perm.append_left
            rw [← List.append_assoc, ← List.append_assoc]
            exact List.perm_append_comm.append_right _

structure Swept (m : Memory χ) (blocks : List ℕ) (m' : Memory χ) (blocks' : List ℕ) : Prop where
  live : ∀ b ∈ blocks, objectIsLive (m.header b) m.markWord = true →
    b ∈ blocks' ∧ m'.header b = m.header b
  rest : ∀ b ∈ blocks', objectIsLive (m'.header b) m'.markWord = true ∨ b ∈ chained m'.chains

theorem sweep_sound (h : Sound m blocks)
    (hexact : SweepsExactly m.header m.markWord m.segments) :
    ∃ m' blocks', sweep m = some m' ∧ Sound m' blocks' ∧ Swept m blocks m' blocks' := by
  obtain ⟨hempty, hprepared⟩ := prepare h.proper
  obtain ⟨header', chains', dead, blocks', hsweep, hadds, -, htiles, hperm⟩ :=
    sweepSegments_spec h.tiles h.apart h.grained hprepared (by simp [hempty]) hexact
  obtain ⟨hcomplete, hcompleted⟩ := complete hadds.proper
  have hadds' : Adds m.header (SegmentSet.prepareForSweep m.chains) header'
      (SegmentSet.completeSweepOperation chains') dead :=
    ⟨hcomplete ▸ hadds.chained, hcompleted, hadds.outside, hadds.unmarked, hadds.grained⟩
  have hlive : ∀ b, (!isDead m.header m.markWord b) = true →
      objectIsLive (m.header b) m.markWord = true := by
    intro b hb
    simpa [isDead] using hb
  have hkept : ∀ b ∈ blocks.filter fun b => !isDead m.header m.markWord b,
      header' b = m.header b := by
    intro b hb
    apply hadds.outside
    intro hdead
    have hnodup := hperm.nodup_iff.mp (htiles.nodup h.apart)
    exact List.disjoint_of_nodup_append hnodup hdead hb
  have hfree : ((blocks.filter fun b => !isDead m.header m.markWord b).filter
      (unmarked m.header)).Perm (chained (SegmentSet.prepareForSweep m.chains)) := by
    rw [hempty, List.filter_eq_nil_iff.mpr]
    intro b hb
    have hmarks := of_decide_eq_true (hlive b (List.mem_filter.mp hb).2)
    rw [unmarked, hmarks]
    rcases h.mark with hmark | hmark <;> rw [hmark] <;> decide
  have hsound := Sound.of_adds hadds' htiles h.apart hperm
    (fun b hb => h.grained b (List.mem_filter.mp hb).1) hfree h.mark
  refine ⟨_, blocks', ?_, hsound, ?_, ?_⟩
  · simp only [sweep, hsweep]
    rfl
  · intro b hb hblive
    have hmem : b ∈ blocks.filter fun b => !isDead m.header m.markWord b :=
      List.mem_filter.mpr ⟨hb, by simp [isDead, hblive]⟩
    exact ⟨hperm.mem_iff.mpr (List.mem_append_right dead hmem), hkept b hmem⟩
  · intro b hb
    rcases List.mem_append.mp (hperm.mem_iff.mp hb) with hdead | hold
    · apply Or.inr
      change b ∈ chained (SegmentSet.completeSweepOperation chains')
      exact hadds'.chained.mem_iff.mpr (List.mem_append_left _ hdead)
    · apply Or.inl
      change objectIsLive (header' b) m.markWord = true
      rw [hkept b hold]
      exact hlive b (List.mem_filter.mp hold).2

/-! ## Runs -/

inductive Operation where
  | addSegment (segment : Segment)
  | newObject (requestLength : ℕ)
  | markPhase (live : ℕ → Bool)
  | sweep

def apply (m : Memory χ) : Operation → Option (Memory χ × Option ℕ)
  | .addSegment segment => (addSegment m segment).map fun m' => (m', none)
  | .newObject requestLength => newObject m requestLength
  | .markPhase live => some (markPhase m live, none)
  | .sweep => (sweep m).map fun m' => (m', none)

/-- What the callers assure: new memory, a request for this set, live objects that were handed
out. -/
def Admissible (m : Memory χ) : Operation → Prop
  | .addSegment segment => ∀ s ∈ m.segments, SegmentApart segment s
  | .newObject requestLength => AllocatingSet.Requests χ requestLength
  | .markPhase live => ∀ o, live o = true → unmarked m.header o = false
  | .sweep => True

/-- No dead block of 16 MB or more gets a size that its header does not keep. -/
def SizesKept (m : Memory χ) : Operation → Prop
  | .addSegment segment => AddsExactly m.segments segment
  | .newObject requestLength => AllocatingChains.SplitsExactly m.header m.chains
      (AllocatingSet.allocationLength χ requestLength)
  | .markPhase _ => True
  | .sweep => SweepsExactly m.header m.markWord m.segments

def Outcome (m : Memory χ) (blocks : List ℕ) (m' : Memory χ) (blocks' : List ℕ) :
    Operation → Option ℕ → Prop
  | .newObject requestLength, some object => HandedOut m blocks m' requestLength object
  | .sweep, _ => Swept m blocks m' blocks'
  | _, _ => True

theorem apply_sound (h : Sound m blocks) {operation : Operation} (hop : Admissible m operation)
    (hkept : SizesKept m operation) :
    ∃ m' found blocks', apply m operation = some (m', found) ∧ Sound m' blocks' ∧
      Outcome m blocks m' blocks' operation found := by
  cases operation with
  | addSegment segment =>
      obtain ⟨m', blocks', hadd, hsound⟩ := addSegment_sound h hop hkept
      refine ⟨m', none, blocks', ?_, hsound, trivial⟩
      rw [apply, hadd]
      rfl
  | newObject requestLength =>
      obtain ⟨m', found, blocks', hnew, hsound, hhanded⟩ := newObject_sound h hop hkept
      refine ⟨m', found, blocks', hnew, hsound, ?_⟩
      cases found with
      | none => trivial
      | some object => exact hhanded object rfl
  | markPhase live => exact ⟨_, none, blocks, rfl, markPhase_sound h hop, trivial⟩
  | sweep =>
      obtain ⟨m', blocks', hsweep, hsound, hswept⟩ := sweep_sound h hkept
      refine ⟨m', none, blocks', ?_, hsound, hswept⟩
      rw [apply, hsweep]
      rfl

inductive Reached : Memory χ → Prop where
  | initial : Reached Memory.initial
  | step {m m' : Memory χ} {operation : Operation} {found : Option ℕ} (h : Reached m)
      (hop : Admissible m operation) (hkept : SizesKept m operation)
      (happly : apply m operation = some (m', found)) : Reached m'

theorem Reached.sound (h : Reached m) : ∃ blocks, Sound m blocks := by
  induction h with
  | initial => exact ⟨[], .initial⟩
  | step h hop hkept happly ih =>
      obtain ⟨blocks, hsound⟩ := ih
      obtain ⟨m', found, blocks', happly', hsound', -⟩ := apply_sound hsound hop hkept
      rw [happly] at happly'
      obtain ⟨rfl, -⟩ := Prod.mk.inj (Option.some.inj happly')
      exact ⟨blocks', hsound'⟩

/-- The blocks tile the segments, and the unmarked ones are each on one dead chain. -/
structure HeapTiled (m : Memory χ) (blocks : List ℕ) : Prop where
  tiles : TilesAll (ObjectSize m.header) (m.segments.map range) blocks
  disjoint : ∀ b ∈ blocks, ∀ c ∈ blocks, b ≠ c →
    b + ObjectSize m.header b ≤ c ∨ c + ObjectSize m.header c ≤ b
  dead : ∀ b, b ∈ chained m.chains ↔ b ∈ blocks ∧ unmarked m.header b = true
  once : (chained m.chains).Nodup
  proper : Proper m.header m.chains

theorem Sound.heapTiled (h : Sound m blocks) : HeapTiled m blocks where
  tiles := h.tiles
  disjoint _ hb _ hc hne := h.tiles.disjoint h.apart hb hc hne
  dead _ := h.mem_chained
  once := h.separate.nodup
  proper := h.proper

def KeepsTiling (m : Memory χ) : Prop :=
  ∃ blocks, HeapTiled m blocks ∧
    ∀ operation, Admissible m operation → SizesKept m operation →
      ∃ m' found blocks', apply m operation = some (m', found) ∧ HeapTiled m' blocks' ∧
        Outcome m blocks m' blocks' operation found

theorem Reached.keepsTiling (h : Reached m) : KeepsTiling m := by
  obtain ⟨blocks, hsound⟩ := h.sound
  refine ⟨blocks, hsound.heapTiled, ?_⟩
  intro operation hop hkept
  obtain ⟨m', found, blocks', happly, hsound', houtcome⟩ := apply_sound hsound hop hkept
  exact ⟨m', found, blocks', happly, hsound'.heapTiled, houtcome⟩

def firstSegment : Segment where
  start := 0x10000010
  segmentSize := 15728624
  minimum := by decide
  grained := by decide
  addressable := by decide

def secondSegment : Segment where
  start := 0x10F00010
  segmentSize := 15728624
  minimum := by decide
  grained := by decide
  addressable := by decide

def afterSegment : Memory NormalChains :=
  (addSegment Memory.initial firstSegment).getD Memory.initial

theorem addSegment_first :
    apply Memory.initial (.addSegment firstSegment) = some (afterSegment, none) := rfl

inductive Reachable : Memory χ → Prop where
  | initial : Reachable Memory.initial
  | step {m m' : Memory χ} {operation : Operation} {found : Option ℕ} (h : Reachable m)
      (hop : Admissible m operation) (happly : apply m operation = some (m', found)) :
      Reachable m'

def combinedMemory : Memory NormalChains :=
  (addSegment afterSegment secondSegment).getD Memory.initial

def sweptMemory : Memory NormalChains :=
  (sweep (markPhase combinedMemory fun _ => false)).getD Memory.initial

def splitMemory : Memory NormalChains :=
  ((newObject sweptMemory 24).map Prod.fst).getD Memory.initial

theorem reachable_splitMemory : Reachable splitMemory := by
  have hone : Reachable afterSegment := by
    apply Reachable.step .initial _ addSegment_first
    intro s hs
    cases hs
  have htwo : Reachable combinedMemory := by
    have happly : apply afterSegment (.addSegment secondSegment) = some (combinedMemory, none) := by
      rfl
    apply Reachable.step hone _ happly
    intro s hs
    have hsegments : afterSegment.segments = [firstSegment] := rfl
    rw [hsegments, List.mem_singleton] at hs
    subst hs
    exact .inl (by decide)
  have hmarked : Reachable (markPhase combinedMemory fun _ => false) := by
    have happly : apply combinedMemory (.markPhase fun _ => false) =
        some (markPhase combinedMemory fun _ => false, none) := rfl
    apply Reachable.step htwo _ happly
    intro o ho
    cases ho
  have hswept : Reachable sweptMemory := by
    have hsome : (sweep (markPhase combinedMemory fun _ => false)).isSome = true := by
      decide +kernel
    obtain ⟨m, hm⟩ := Option.isSome_iff_exists.mp hsome
    have happly : apply (markPhase combinedMemory fun _ => false) .sweep =
        some (sweptMemory, none) := by
      rw [apply, sweptMemory, hm]
      rfl
    apply Reachable.step hmarked _ happly
    exact trivial
  have hsome : (newObject sweptMemory 24).isSome = true := by decide +kernel
  obtain ⟨⟨m, found⟩, hm⟩ := Option.isSome_iff_exists.mp hsome
  have happly : apply sweptMemory (.newObject 24) = some (splitMemory, found) := by
    rw [apply, splitMemory, hm]
    rfl
  apply Reachable.step hswept _ happly
  change roundObjectBoundary 24 ≤ LargeBlockThreshold
  decide

end MemorySegment

end LeooRexx
