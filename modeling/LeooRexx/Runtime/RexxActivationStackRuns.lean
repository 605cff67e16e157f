import LeooRexx.Runtime.RexxActivationStack
import Mathlib.Data.List.Infix
import Mathlib.Logic.Function.Basic
import Mathlib.Logic.Relation

/-!
# Frames stay apart

The live frames lie in the chain like layers: the latest one at the top of the current
buffer, the next one below it or in a buffer before.  Allocation adds a layer and a release
takes off the layers down to the frame, so that frames never meet and the spare buffer has
none.
-/

namespace LeooRexx.RexxActivationStack

open RexxActivationFrameBuffer

structure LiveFrame (V : Type) where
  frame : FramePointer
  contents : List V

variable {V : Type}

def LiveFrame.slot (f : LiveFrame V) (i : ℕ) : FramePointer :=
  ⟨f.frame.buffer, f.frame.offset + i⟩

def chain (s : RexxActivationStack) : List RexxActivationFrameBuffer := s.current :: s.previous

/-- A stack, the slots of all buffers, and the live frames with the latest first. -/
structure Run (V : Type) where
  stack : RexxActivationStack
  memory : FramePointer → V
  live : List (LiveFrame V)

def contentsAt (memory : FramePointer → V) (frame : FramePointer) (entries : ℕ) : List V :=
  (List.range entries).map fun i => memory ⟨frame.buffer, frame.offset + i⟩

/-- A frame of any size is allocated, a live frame is released with all that came later, or
a slot of a live frame is set. -/
inductive Step : Run V → Run V → Prop where
  | allocate (r : Run V) (entries : ℕ) :
      Step r
        { r with
          stack := (r.stack.allocateFrame entries).2
          live := ⟨(r.stack.allocateFrame entries).1,
            contentsAt r.memory (r.stack.allocateFrame entries).1 entries⟩ :: r.live }
  | release (r : Run V) (newer older : List (LiveFrame V)) (f : LiveFrame V)
      (stack : RexxActivationStack) :
      r.live = newer ++ f :: older → r.stack.releaseFrame f.frame = some stack →
      Step r { r with stack := stack, live := older }
  | store (r : Run V) (newer older : List (LiveFrame V)) (f : LiveFrame V) (i : ℕ) (v : V) :
      r.live = newer ++ f :: older → i < f.contents.length →
      Step r
        { r with
          memory := Function.update r.memory (f.slot i) v
          live := newer ++ { f with contents := f.contents.set i v } :: older }

inductive Layered : List RexxActivationFrameBuffer → List (LiveFrame V) → Prop where
  | empty (chain : List RexxActivationFrameBuffer) : Layered chain []
  | frame {b : RexxActivationFrameBuffer} {rest : List RexxActivationFrameBuffer}
      {f : LiveFrame V} {live : List (LiveFrame V)} :
      f.frame.buffer = b.name → f.frame.offset + f.contents.length ≤ b.next →
      Layered (b.releaseFrame f.frame :: rest) live → Layered (b :: rest) (f :: live)
  | lower {b : RexxActivationFrameBuffer} {rest : List RexxActivationFrameBuffer}
      {live : List (LiveFrame V)} : Layered rest live → Layered (b :: rest) live

def Fits (chain : List RexxActivationFrameBuffer) : Prop := ∀ b ∈ chain, b.next ≤ b.size

def Names (chain : List RexxActivationFrameBuffer) : List ℕ := chain.map (·.name)

theorem Fits.released {b : RexxActivationFrameBuffer} {rest : List RexxActivationFrameBuffer}
    (h : Fits (b :: rest)) {frame : FramePointer} (hle : frame.offset ≤ b.next) :
    Fits (b.releaseFrame frame :: rest) := by
  intro c hc
  rcases List.mem_cons.mp hc with rfl | hc
  · exact Nat.le_trans hle (h b List.mem_cons_self)
  · exact h c (List.mem_cons_of_mem b hc)

/-! ## Layers -/

section Layers

variable {buffers : List RexxActivationFrameBuffer} {live : List (LiveFrame V)}

theorem Layered.inside (h : Layered buffers live) {f : LiveFrame V} (hf : f ∈ live) :
    ∃ b ∈ buffers, f.frame.buffer = b.name ∧ f.frame.offset + f.contents.length ≤ b.next := by
  induction h with
  | empty _ => exact absurd hf List.not_mem_nil
  | @frame b rest g live hname hend _ ih =>
      rcases List.mem_cons.mp hf with rfl | hf
      · exact ⟨b, List.mem_cons_self, hname, hend⟩
      · obtain ⟨c, hc, hcname, hcend⟩ := ih hf
        rcases List.mem_cons.mp hc with rfl | hc
        · refine ⟨b, List.mem_cons_self, hcname, Nat.le_trans hcend ?_⟩
          exact Nat.le_trans (Nat.le_add_right _ _) hend
        · exact ⟨c, List.mem_cons_of_mem b hc, hcname, hcend⟩
  | lower _ ih =>
      obtain ⟨c, hc, hcname, hcend⟩ := ih hf
      exact ⟨c, List.mem_cons_of_mem _ hc, hcname, hcend⟩

def Apart (f g : LiveFrame V) : Prop :=
  ∀ i < f.contents.length, ∀ j < g.contents.length, f.slot i ≠ g.slot j

theorem Layered.disjoint (h : Layered buffers live) (hnames : (Names buffers).Nodup) :
    live.Pairwise Apart := by
  induction h with
  | empty _ => exact List.Pairwise.nil
  | @frame b rest f live hname hend hrest ih =>
      refine List.pairwise_cons.mpr ⟨?_, ih hnames⟩
      intro g hg i hi j hj heq
      obtain ⟨c, hc, hcname, hcend⟩ := hrest.inside hg
      obtain ⟨hbuffer, hoffset⟩ := FramePointer.mk.inj heq
      rcases List.mem_cons.mp hc with rfl | hc
      · have hbelow : g.frame.offset + g.contents.length ≤ f.frame.offset := hcend
        omega
      · have hdiffer : b.name ∉ Names rest := (List.nodup_cons.mp hnames).1
        refine hdiffer ?_
        rw [← hname, hbuffer, hcname]
        exact List.mem_map_of_mem hc
  | lower _ ih => exact ih (List.nodup_cons.mp hnames).2

theorem Layered.pop (h : Layered buffers live) {newer older : List (LiveFrame V)}
    {f : LiveFrame V} (hlive : live = newer ++ f :: older) (hnames : (Names buffers).Nodup)
    (hfits : Fits buffers) {current : RexxActivationFrameBuffer}
    {previous : List RexxActivationFrameBuffer} (hbuffers : buffers = current :: previous)
    (top : RexxActivationFrameBuffer) (hname : top.name = current.name)
    (hsize : top.size = current.size) (unused : Option RexxActivationFrameBuffer) :
    ∃ b rest spare, popBuffers f.frame top unused previous = some (b, rest, spare) ∧
      Layered (b.releaseFrame f.frame :: rest) older ∧ b :: rest <:+ top :: previous ∧
      f.frame.offset ≤ b.size ∧
      (spare = unused ∨ ∃ u ∈ top :: previous, spare = some u ∧ u.name ∉ Names (b :: rest)) := by
  induction h generalizing newer current previous top unused with
  | empty _ => simp at hlive
  | @frame b rest g live hbuffer hend hrest ih =>
      obtain ⟨rfl, rfl⟩ := List.cons.inj hbuffers
      have hoffset : g.frame.offset ≤ b.next := Nat.le_trans (Nat.le_add_right _ _) hend
      cases newer with
      | nil =>
          obtain ⟨rfl, rfl⟩ := List.cons.inj hlive
          have hbound : g.frame.offset ≤ top.size := by
            rw [hsize]
            exact Nat.le_trans hoffset (hfits b List.mem_cons_self)
          have hcontains : top.contains g.frame = true := by
            simp [contains, hname, hbuffer, hbound]
          have hsame : top.releaseFrame g.frame = b.releaseFrame g.frame := by
            rw [RexxActivationFrameBuffer.releaseFrame, RexxActivationFrameBuffer.releaseFrame,
              hname, hsize]
          refine ⟨top, rest, unused, ?_, hsame ▸ hrest, List.suffix_refl _, hbound, .inl rfl⟩
          cases rest <;> simp [popBuffers, hcontains]
      | cons g' newer =>
          obtain ⟨rfl, htail⟩ := List.cons.inj hlive
          exact ih htail hnames (hfits.released hoffset) rfl top hname hsize unused
  | @lower b rest live hrest ih =>
      obtain ⟨rfl, rfl⟩ := List.cons.inj hbuffers
      have hdiffer : b.name ∉ Names rest := (List.nodup_cons.mp hnames).1
      have hnames : (Names rest).Nodup := (List.nodup_cons.mp hnames).2
      have hmem : f ∈ live := by simp [hlive]
      obtain ⟨c, hc, hcname, -⟩ := hrest.inside hmem
      have hnot : top.contains f.frame = false := by
        have hother : f.frame.buffer ≠ top.name := by
          rw [hname, hcname]
          intro heq
          refine hdiffer ?_
          rw [← heq]
          exact List.mem_map_of_mem hc
        simp [contains, hother]
      obtain ⟨before, previous, rfl⟩ := List.exists_cons_of_ne_nil (List.ne_nil_of_mem hc)
      obtain ⟨b', rest', spare, hpop, hlayers, hsuffix, hbound, hspare⟩ :=
        ih hlive hnames (fun d hd => hfits d (List.mem_cons_of_mem b hd)) rfl before rfl rfl
          (unused.or (some top))
      have htop : top.name ∉ Names (b' :: rest') := by
        intro hin
        rw [hname] at hin
        exact hdiffer ((hsuffix.map (·.name)).subset hin)
      refine ⟨b', rest', spare, ?_, hlayers, hsuffix.trans (List.suffix_cons _ _), hbound, ?_⟩
      · simp only [popBuffers, hnot, Bool.false_eq_true, if_false]
        exact hpop
      · rcases hspare with hspare | ⟨u, hu, hspare, hout⟩
        · cases unused with
          | none => exact .inr ⟨top, List.mem_cons_self, hspare, htop⟩
          | some v => exact .inl hspare
        · exact .inr ⟨u, List.mem_cons_of_mem _ hu, hspare, hout⟩

end Layers

/-! ## The invariant -/

structure Sound (r : Run V) : Prop where
  layered : Layered (chain r.stack) r.live
  fits : Fits (chain r.stack)
  nodup : (Names (chain r.stack)).Nodup
  made : ∀ b ∈ chain r.stack, b.name < r.stack.made
  unused : ∀ u ∈ r.stack.unused, u.name ∉ Names (chain r.stack) ∧ u.name < r.stack.made
  contents : ∀ f ∈ r.live, ∀ i (h : i < f.contents.length), r.memory (f.slot i) = f.contents[i]

theorem Sound.ensure {r : Run V} (h : Sound r) (entries : ℕ) :
    Sound { r with stack := r.stack.ensureCapacity entries } ∧
      (r.stack.ensureCapacity entries).current.next + entries ≤
        (r.stack.ensureCapacity entries).current.size := by
  have hcurrent : r.stack.current.next ≤ r.stack.current.size := h.fits _ List.mem_cons_self
  have hnew : Sound { r with stack := newBuffer r.stack (max entries DefaultFrameBufferSize) } := by
    refine ⟨.lower h.layered, ?_, ?_, ?_, ?_, h.contents⟩
    · intro b hb
      rcases List.mem_cons.mp hb with rfl | hb
      · exact Nat.zero_le _
      · exact h.fits b hb
    · refine List.nodup_cons.mpr ⟨?_, h.nodup⟩
      intro hin
      obtain ⟨b, hb, hname⟩ := List.mem_map.mp hin
      have hmade : b.name = r.stack.made := hname
      exact Nat.lt_irrefl _ (hmade ▸ h.made b hb)
    · intro b hb
      rcases List.mem_cons.mp hb with rfl | hb
      · exact Nat.lt_succ_self _
      · exact Nat.lt_succ_of_lt (h.made b hb)
    · intro u hu
      obtain ⟨hout, hmade⟩ := h.unused u hu
      refine ⟨?_, Nat.lt_succ_of_lt hmade⟩
      intro hin
      rcases List.mem_cons.mp hin with heq | hin
      · have hsame : u.name = r.stack.made := heq
        exact Nat.lt_irrefl _ (hsame ▸ hmade)
      · exact hout hin
  rw [ensureCapacity]
  split
  case isTrue hroom =>
    have hroom : entries ≤ r.stack.current.size - r.stack.current.next := by
      simpa [hasCapacity] using hroom
    exact ⟨h, by omega⟩
  case isFalse _ =>
    rw [expandCapacity]
    split
    case h_1 _ =>
      refine ⟨hnew, ?_⟩
      simp only [newBuffer, Nat.zero_add]
      exact Nat.le_max_left _ _
    case h_2 unused hunused =>
      split
      case isFalse _ =>
        refine ⟨hnew, ?_⟩
        simp only [newBuffer, Nat.zero_add]
        exact Nat.le_max_left _ _
      case isTrue hroom =>
        obtain ⟨hout, hmade⟩ := h.unused unused hunused
        refine ⟨⟨.lower h.layered, ?_, List.nodup_cons.mpr ⟨hout, h.nodup⟩, ?_,
          fun u hu => absurd hu (by simp), h.contents⟩, ?_⟩
        · intro b hb
          rcases List.mem_cons.mp hb with rfl | hb
          · exact Nat.zero_le _
          · exact h.fits b hb
        · intro b hb
          rcases List.mem_cons.mp hb with rfl | hb
          · exact hmade
          · exact h.made b hb
        · simp only [Nat.zero_add]
          exact Nat.le_trans (Nat.le_max_left _ _) hroom

theorem Sound.release {r : Run V} (h : Sound r) {newer older : List (LiveFrame V)}
    {f : LiveFrame V} (hlive : r.live = newer ++ f :: older) :
    ∃ stack, r.stack.releaseFrame f.frame = some stack ∧
      Sound { r with stack := stack, live := older } := by
  obtain ⟨b, rest, spare, hpop, hlayers, hsuffix, hbound, hspare⟩ :=
    h.layered.pop hlive h.nodup h.fits rfl r.stack.current rfl rfl r.stack.unused
  have hkept : ∀ c ∈ b.releaseFrame f.frame :: rest, ∃ d ∈ chain r.stack, c.name = d.name := by
    intro c hc
    rcases List.mem_cons.mp hc with rfl | hc
    · exact ⟨b, hsuffix.subset List.mem_cons_self, rfl⟩
    · exact ⟨c, hsuffix.subset (List.mem_cons_of_mem b hc), rfl⟩
  have hnames : Names (b.releaseFrame f.frame :: rest) <:+ Names (chain r.stack) :=
    hsuffix.map RexxActivationFrameBuffer.name
  refine ⟨⟨b.releaseFrame f.frame, rest, spare, r.stack.made⟩,
    by rw [RexxActivationStack.releaseFrame, hpop]; rfl, hlayers, ?_, ?_, ?_, ?_, ?_⟩
  · intro c hc
    rcases List.mem_cons.mp hc with rfl | hc
    · exact hbound
    · exact h.fits c (hsuffix.subset (List.mem_cons_of_mem b hc))
  · exact h.nodup.sublist hnames.sublist
  · intro c hc
    obtain ⟨d, hd, hname⟩ := hkept c hc
    exact hname ▸ h.made d hd
  · intro u hu
    rcases hspare with hspare | ⟨v, hv, hspare, hout⟩
    · obtain ⟨hout, hmade⟩ := h.unused u (hspare ▸ hu)
      exact ⟨fun hin => hout (hnames.subset hin), hmade⟩
    · obtain rfl : v = u := Option.some.inj (hspare.symm.trans hu)
      exact ⟨hout, h.made v hv⟩
  · intro g hg i hi
    exact h.contents g (by rw [hlive]; simp [hg]) i hi

theorem getElem_contentsAt (memory : FramePointer → V) (frame : FramePointer) (entries i : ℕ)
    (h : i < (contentsAt memory frame entries).length) :
    (contentsAt memory frame entries)[i] = memory ⟨frame.buffer, frame.offset + i⟩ := by
  simp [contentsAt]

theorem Sound.allocate {r : Run V} (h : Sound r) (entries : ℕ) :
    Sound { r with
      stack := (r.stack.allocateFrame entries).2
      live := ⟨(r.stack.allocateFrame entries).1,
        contentsAt r.memory (r.stack.allocateFrame entries).1 entries⟩ :: r.live } := by
  obtain ⟨hsound, hroom⟩ := h.ensure entries
  refine ⟨.frame rfl ?_ hsound.layered, ?_, hsound.nodup, ?_, hsound.unused, ?_⟩
  · simp only [contentsAt, List.length_map, List.length_range]
    exact Nat.le_refl _
  · intro b hb
    rcases List.mem_cons.mp hb with rfl | hb
    · exact hroom
    · exact hsound.fits b (List.mem_cons_of_mem _ hb)
  · intro b hb
    rcases List.mem_cons.mp hb with rfl | hb
    · exact hsound.made (r.stack.ensureCapacity entries).current List.mem_cons_self
    · exact hsound.made b (List.mem_cons_of_mem _ hb)
  · intro f hf i hi
    rcases List.mem_cons.mp hf with rfl | hf
    · exact (getElem_contentsAt r.memory _ entries i hi).symm
    · exact h.contents f hf i hi

theorem Layered.set {buffers : List RexxActivationFrameBuffer} {newer older : List (LiveFrame V)}
    {f g : LiveFrame V} (h : Layered buffers (newer ++ f :: older)) (hframe : g.frame = f.frame)
    (hlen : g.contents.length = f.contents.length) : Layered buffers (newer ++ g :: older) := by
  generalize hlive : newer ++ f :: older = live at h
  induction h generalizing newer with
  | empty _ => simp at hlive
  | @frame b rest e live hname hend hrest ih =>
      cases newer with
      | nil =>
          obtain ⟨rfl, rfl⟩ := List.cons.inj hlive
          exact .frame (hframe ▸ hname) (by rw [hframe, hlen]; exact hend) (hframe ▸ hrest)
      | cons d newer =>
          obtain ⟨rfl, htail⟩ := List.cons.inj hlive
          exact .frame hname hend (ih htail)
  | lower _ ih => exact .lower (ih hlive)

theorem Sound.store {r : Run V} (h : Sound r) {newer older : List (LiveFrame V)}
    {f : LiveFrame V} (hlive : r.live = newer ++ f :: older) {i : ℕ} (hi : i < f.contents.length)
    (v : V) :
    Sound { r with
      memory := Function.update r.memory (f.slot i) v
      live := newer ++ { f with contents := f.contents.set i v } :: older } := by
  have hlayers := h.layered
  rw [hlive] at hlayers
  have hapart := h.layered.disjoint h.nodup
  rw [hlive, List.pairwise_append, List.pairwise_cons] at hapart
  obtain ⟨-, ⟨holder, -⟩, hnewer⟩ := hapart
  refine ⟨hlayers.set rfl (by simp), h.fits, h.nodup, h.made, h.unused, ?_⟩
  have hother : ∀ g ∈ r.live, (∀ j < g.contents.length, f.slot i ≠ g.slot j) →
      ∀ j (hj : j < g.contents.length),
        Function.update r.memory (f.slot i) v (g.slot j) = g.contents[j] := by
    intro g hg hdiffer j hj
    rw [Function.update_of_ne (hdiffer j hj).symm]
    exact h.contents g hg j hj
  intro g hg j hj
  rcases List.mem_append.mp hg with hg | hg
  · have hmem : g ∈ r.live := by simp [hlive, hg]
    exact hother g hmem (fun k hk => (hnewer g hg f List.mem_cons_self k hk i hi).symm) j hj
  · rcases List.mem_cons.mp hg with rfl | hg
    · by_cases hsame : j = i
      · subst hsame
        simp [LiveFrame.slot]
      · have hslot : (LiveFrame.slot { f with contents := f.contents.set i v } j) ≠ f.slot i := by
          intro heq
          have hoffset := (FramePointer.mk.inj heq).2
          simp only [Nat.add_left_cancel_iff] at hoffset
          exact hsame hoffset
        have hlen : j < f.contents.length := by simpa using hj
        have hkept := h.contents f (by simp [hlive]) j hlen
        simp only [ne_eq, hslot, not_false_eq_true, Function.update_of_ne,
          List.getElem_set_of_ne (Ne.symm hsame)]
        exact hkept
    · have hmem : g ∈ r.live := by simp [hlive, hg]
      exact hother g hmem (fun k hk => holder g hg i hi k hk) j hj

theorem Sound.step {r r' : Run V} (h : Sound r) (hstep : Step r r') : Sound r' := by
  cases hstep with
  | allocate entries => exact h.allocate entries
  | release newer older f stack hlive hrelease =>
      obtain ⟨stack', hrelease', hsound⟩ := h.release hlive
      obtain rfl := Option.some.inj (hrelease.symm.trans hrelease')
      exact hsound
  | store newer older f i v hlive hi => exact h.store hlive hi v

def start (memory : FramePointer → V) : Run V := ⟨init, memory, []⟩

theorem sound_start (memory : FramePointer → V) : Sound (start memory) := by
  refine ⟨.empty _, ?_, ?_, ?_, fun u hu => absurd hu (by simp [start, init]),
    fun f hf => absurd hf List.not_mem_nil⟩
  all_goals simp [Fits, Names, chain, start, init]

theorem sound_of_run {memory : FramePointer → V} {r : Run V}
    (h : Relation.ReflTransGen Step (start memory) r) : Sound r := by
  induction h with
  | refl => exact sound_start memory
  | tail _ hstep ih => exact ih.step hstep

/-- In every run the live frames are disjoint, lie inside buffers of the chain and hold what
was stored in them, none lies in the spare buffer, and each of them can be released. -/
theorem frames_sound (memory : FramePointer → V) (r : Run V)
    (h : Relation.ReflTransGen Step (start memory) r) :
    r.live.Pairwise Apart ∧
      (∀ f ∈ r.live, ∃ b ∈ chain r.stack, f.frame.buffer = b.name ∧
        f.frame.offset + f.contents.length ≤ b.size) ∧
      (∀ f ∈ r.live, ∀ i (hi : i < f.contents.length), r.memory (f.slot i) = f.contents[i]) ∧
      (∀ u ∈ r.stack.unused, ∀ f ∈ r.live, f.frame.buffer ≠ u.name) ∧
      ∀ newer f older, r.live = newer ++ f :: older →
        ∃ stack, r.stack.releaseFrame f.frame = some stack := by
  have hsound := sound_of_run h
  refine ⟨hsound.layered.disjoint hsound.nodup, ?_, hsound.contents, ?_, ?_⟩
  · intro f hf
    obtain ⟨b, hb, hname, hend⟩ := hsound.layered.inside hf
    exact ⟨b, hb, hname, Nat.le_trans hend (hsound.fits b hb)⟩
  · intro u hu f hf heq
    obtain ⟨b, hb, hname, -⟩ := hsound.layered.inside hf
    refine (hsound.unused u hu).1 ?_
    rw [← heq, hname]
    exact List.mem_map_of_mem hb
  · intro newer f older hlive
    obtain ⟨stack, hrelease, -⟩ := hsound.release hlive
    exact ⟨stack, hrelease⟩

/-- A frame that does not fit opens a second buffer; it and the first frame are released. -/
theorem frames_sound_two : ∃ r : Run ℕ,
    Relation.ReflTransGen Step (start fun _ => 0) r ∧ r.live.length = 2 ∧
      r.live.Pairwise Apart := by
  have hfirst := Relation.ReflTransGen.single (Step.allocate (start fun _ => 0) 2000)
  have hrun := hfirst.tail (Step.allocate _ 3000)
  exact ⟨_, hrun, rfl, (frames_sound (fun _ => 0) _ hrun).1⟩

end LeooRexx.RexxActivationStack
