import Mathlib
import LeooRexx.Runtime.MemorySegmentHeaders

/-!
# The sweep of a segment

What the dead chains of a segment set are, whichever set it is, and what the loop of `sweep`
makes of a tiled segment: the live blocks stay, each run of dead blocks becomes one dead block
or two, and exactly these are added to the chains.
-/

namespace LeooRexx

namespace MemorySegment

variable {header header' : Headers} {mark : HEADINFO} {a b e m : ℕ} {blocks : List ℕ}

/-! ## Chains -/

class DeadChains (χ : Type) extends AllocatingSet χ where
  chained : χ → List ℕ
  Proper : Headers → χ → Prop
  chained_none : chained none = []
  proper_none : Proper (fun _ => 0) none
  proper_congr {header header' : Headers} {chains : χ} (h : Proper header chains)
    (hsize : ∀ o ∈ chained chains, ObjectSize header' o = ObjectSize header o) :
    Proper header' chains
  prepare {header : Headers} {chains : χ} (h : Proper header chains) :
    chained (prepareForSweep chains) = [] ∧ Proper header (prepareForSweep chains)
  complete {header : Headers} {chains : χ} (h : Proper header chains) :
    chained (completeSweepOperation chains) = chained chains ∧
      Proper header (completeSweepOperation chains)
  add {header : Headers} {chains : χ} (object : ℕ) {length : ℕ} (h : Proper header chains)
    (hlength : DeadObjectSize ≤ length) (hgrain : length % ObjectGrain = 0)
    (hsize : length < LargeObjectMinSize → ObjectSize header object = length) :
    (chained (addDeadObject header chains object length)).Perm (object :: chained chains) ∧
      Proper header (addDeadObject header chains object length)

def Grained (header : Headers) (b : ℕ) : Prop :=
  DeadObjectSize ≤ ObjectSize header b ∧ ObjectSize header b % ObjectGrain = 0

theorem Grained.congr (h : Grained header b) (hsize : ObjectSize header' b = ObjectSize header b) :
    Grained header' b := by
  rw [Grained, hsize]
  exact h

section sweep

variable {χ : Type} [DeadChains χ] {chains chains' : χ} {dead : List ℕ}

open DeadChains

structure Adds (header : Headers) (chains : χ) (header' : Headers) (chains' : χ)
    (dead : List ℕ) : Prop where
  chained : (chained chains').Perm (dead ++ chained chains)
  proper : Proper header' chains'
  outside : ∀ x, x ∉ dead → header' x = header x
  unmarked : ∀ x ∈ dead, header' x &&& MarkMask = 0#32
  grained : ∀ x ∈ dead, Grained header' x

theorem Adds.nil (h : Proper header chains) : Adds header chains header chains [] where
  chained := .refl _
  proper := h
  outside _ _ := rfl
  unmarked x hx := by cases hx
  grained x hx := by cases hx

theorem Adds.trans {header'' : Headers} {chains'' : χ} {dead' : List ℕ}
    (h : Adds header chains header' chains' dead)
    (h' : Adds header' chains' header'' chains'' dead') (hdisjoint : ∀ x ∈ dead, x ∉ dead') :
    Adds header chains header'' chains'' (dead ++ dead') where
  chained := by
    have hswap : (dead' ++ (dead ++ DeadChains.chained chains)).Perm
        (dead ++ dead' ++ DeadChains.chained chains) := by
      rw [← List.append_assoc]
      exact List.perm_append_comm.append_right _
    exact (h'.chained.trans (h.chained.append_left dead')).trans hswap
  proper := h'.proper
  outside x hx := by
    rw [List.mem_append, not_or] at hx
    rw [h'.outside x hx.2, h.outside x hx.1]
  unmarked x hx := by
    rcases List.mem_append.mp hx with hx | hx
    · rw [h'.outside x (hdisjoint x hx)]
      exact h.unmarked x hx
    · exact h'.unmarked x hx
  grained x hx := by
    rcases List.mem_append.mp hx with hx | hx
    · apply (h.grained x hx).congr
      rw [ObjectSize, ObjectSize, h'.outside x (hdisjoint x hx)]
    · exact h'.grained x hx

theorem addDeadObject_spec (object : ℕ) {length : ℕ} (h : Proper header chains)
    (hlength : DeadObjectSize ≤ length) (hgrain : length % ObjectGrain = 0)
    (hword : length < 2 ^ 32) (hnew : object ∉ chained chains) :
    ∃ chains', addDeadObject header chains object length =
        some (Function.update header object (deadHeader length), chains') ∧
      Adds header chains (Function.update header object (deadHeader length)) chains' [object] := by
  have hself : ObjectSize (Function.update header object (deadHeader length)) object =
      recordedSize length := by
    rw [ObjectSize, Function.update_self, deadHeader, objectSize_packedSize hword]
  have hother : ∀ x, x ≠ object →
      Function.update header object (deadHeader length) x = header x :=
    fun x hx => Function.update_of_ne hx _ _
  have hproper : Proper (Function.update header object (deadHeader length)) chains := by
    apply proper_congr h
    intro o ho
    rw [ObjectSize, ObjectSize, hother o (fun heq => hnew (heq ▸ ho))]
  obtain ⟨hperm, hproper'⟩ := add object hproper hlength hgrain (by
    intro hsmall
    rw [hself, recordedSize_of_fits (.inl hsmall)])
  refine ⟨_, by rw [addDeadObject, if_neg (Nat.not_lt.mpr hlength)], hperm, hproper', ?_, ?_, ?_⟩
  · intro x hx
    exact hother x (by simpa using hx)
  · intro x hx
    obtain rfl := List.mem_singleton.mp hx
    rw [Function.update_self]
    exact marks_packedSize length
  · intro x hx
    obtain rfl := List.mem_singleton.mp hx
    rw [Grained, hself]
    exact ⟨deadSize_le_recordedSize hlength, recordedSize_grained hgrain⟩

/-! ## Runs of dead blocks -/

def isDead (header : Headers) (mark : HEADINFO) (b : ℕ) : Bool :=
  !objectIsLive (header b) mark

def deadRuns (dead : ℕ → Bool) (size : ℕ → ℕ) : List ℕ → List ℕ
  | [] => []
  | b :: blocks =>
      if dead b then
        (size b + ((blocks.takeWhile dead).map size).sum) ::
          deadRuns dead size (blocks.dropWhile dead)
      else deadRuns dead size blocks
  termination_by blocks => blocks.length
  decreasing_by
    · have := List.length_dropWhile_le dead blocks
      simp only [List.length_cons]
      omega
    · simp

theorem while_congr {p q : ℕ → Bool} {l : List ℕ} (h : ∀ b ∈ l, q b = p b) :
    l.takeWhile q = l.takeWhile p ∧ l.dropWhile q = l.dropWhile p := by
  induction l with
  | nil => exact ⟨rfl, rfl⟩
  | cons b l ih =>
      obtain ⟨htake, hdrop⟩ := ih fun c hc => h c (List.mem_cons_of_mem b hc)
      have hb := h b List.mem_cons_self
      cases hp : p b with
      | true => simp [hb, hp, htake, hdrop]
      | false => simp [hb, hp]

theorem deadRuns_congr {p q : ℕ → Bool} {size size' : ℕ → ℕ} {blocks : List ℕ}
    (hdead : ∀ b ∈ blocks, q b = p b) (hsize : ∀ b ∈ blocks, size' b = size b) :
    deadRuns q size' blocks = deadRuns p size blocks := by
  fun_induction deadRuns p size blocks with
  | case1 => rw [deadRuns]
  | case2 b blocks hb ih =>
      obtain ⟨htake, hdrop⟩ := while_congr fun c hc => hdead c (List.mem_cons_of_mem b hc)
      have hqb : q b = true := (hdead b List.mem_cons_self).trans hb
      have hsum : (blocks.takeWhile p).map size' = (blocks.takeWhile p).map size := by
        apply List.map_congr_left
        intro c hc
        exact hsize c (List.mem_cons_of_mem b ((List.takeWhile_sublist p).subset hc))
      have htail : ∀ c ∈ blocks.dropWhile p, c ∈ b :: blocks := fun c hc =>
        List.mem_cons_of_mem b ((List.dropWhile_sublist p).subset hc)
      rw [deadRuns, if_pos hqb, htake, hdrop, hsum, hsize b List.mem_cons_self,
        ih (fun c hc => hdead c (htail c hc)) (fun c hc => hsize c (htail c hc))]
  | case3 b blocks hb ih =>
      have hqb : ¬ q b = true := by
        rw [hdead b List.mem_cons_self]
        exact hb
      rw [deadRuns, if_neg hqb]
      exact ih (fun c hc => hdead c (List.mem_cons_of_mem b hc))
        (fun c hc => hsize c (List.mem_cons_of_mem b hc))

theorem deadRun_spec {fuel : ℕ} (h : Tiles (ObjectSize header) a e blocks)
    (hfuel : blocks.length < fuel) :
    deadRun header mark e fuel a =
      some ((blocks.takeWhile (isDead header mark)).map (ObjectSize header)).sum := by
  induction blocks generalizing a fuel with
  | nil =>
      obtain ⟨fuel, rfl⟩ : ∃ k, fuel = k + 1 := ⟨fuel - 1, by omega⟩
      cases h
      rw [deadRun, if_neg (by simp)]
      rfl
  | cons b blocks ih =>
      obtain ⟨fuel, rfl⟩ : ∃ k, fuel = k + 1 := ⟨fuel - 1, by simp at hfuel; omega⟩
      obtain ⟨rfl, hpos, hrest⟩ := h.of_cons
      have hlt : b < e := by
        have := hrest.le
        omega
      rw [List.length_cons] at hfuel
      rw [deadRun]
      cases hlive : objectIsLive (header b) mark with
      | true =>
          rw [if_neg (by simp), List.takeWhile_cons_of_neg (by simp [isDead, hlive])]
          rfl
      | false =>
          rw [if_pos ⟨hlt, rfl⟩, List.takeWhile_cons_of_pos (by simp [isDead, hlive])]
          change (deadRun header mark e fuel (b + ObjectSize header b)).map _ = _
          rw [ih hrest (by omega)]
          rfl

/-! ## The loop over a segment -/

theorem Adds.size_outside (h : Adds header chains header' chains' dead) {x : ℕ} (hx : x ∉ dead) :
    ObjectSize header' x = ObjectSize header x := by
  rw [ObjectSize, ObjectSize, h.outside x hx]

theorem addRun_spec {length : ℕ} (h : Proper header chains) (hlength : DeadObjectSize ≤ length)
    (hgrain : length % ObjectGrain = 0) (hword : a + length < 2 ^ 32)
    (hnew : ∀ b ∈ chained chains, b < a ∨ a + length ≤ b)
    (hrest : LargeObjectMinSize ≤ length → length % 256 ≠ 8) :
    ∃ header₁ chains₁ header' chains' dead,
      addDeadObject header chains a length = some (header₁, chains₁) ∧
      adjustLargeObject header₁ chains₁ a length = some (header', chains') ∧
      Adds header chains header' chains' dead ∧
      Tiles (ObjectSize header') a (a + length) dead := by
  simp only [DeadObjectSize, ObjectGrain] at hlength hgrain
  have hfresh : a ∉ chained chains := by
    intro hmem
    have := hnew a hmem
    omega
  obtain ⟨chains₁, hadd, hadds⟩ :=
    addDeadObject_spec a h hlength hgrain (by omega) hfresh
  have hsize : ObjectSize (Function.update header a (deadHeader length)) a =
      recordedSize length := by
    rw [ObjectSize, Function.update_self, deadHeader, objectSize_packedSize (by omega)]
  have hpos : 0 < recordedSize length := recordedSize_pos (by omega)
  by_cases hwhole : length < LargeObjectMinSize ∨ length % 256 = 0
  · have hfits := recordedSize_of_fits hwhole
    refine ⟨_, chains₁, _, chains₁, [a], hadd, ?_, hadds, ?_⟩
    · rw [adjustLargeObject, if_neg]
      rw [hsize, hfits]
      omega
    · apply Tiles.cons
      · rw [hsize]
        exact hpos
      · rw [hsize, hfits]
        exact .nil _
  · obtain ⟨hlarge, hmod⟩ := not_or.mp hwhole
    have hrecorded : recordedSize length = length - length % 256 := if_neg hlarge
    have hneq := hrest (Nat.not_lt.mp hlarge)
    simp only [LargeObjectMinSize] at hlarge
    have hadjust : length - recordedSize length = length % 256 := by omega
    have hrestLength : DeadObjectSize ≤ length % 256 := by
      simp only [DeadObjectSize]
      omega
    have hrestGrain : length % 256 % ObjectGrain = 0 := by
      simp only [ObjectGrain]
      omega
    have hrestNew : a + recordedSize length ∉ chained chains₁ := by
      intro hmem
      rcases List.mem_append.mp (hadds.chained.mem_iff.mp hmem) with hself | hold
      · have := List.mem_singleton.mp hself
        omega
      · have := hnew _ hold
        omega
    obtain ⟨chains', hadd', hadds'⟩ := addDeadObject_spec (a + recordedSize length)
      hadds.proper hrestLength hrestGrain (by omega) hrestNew
    have hne : a ∉ [a + recordedSize length] := by
      rw [List.mem_singleton]
      omega
    refine ⟨_, chains₁, _, chains', [a] ++ [a + recordedSize length], hadd, ?_,
      hadds.trans hadds' (by simpa using hne), ?_⟩
    · rw [adjustLargeObject, hsize, hadjust, if_pos ⟨by simp only [LargeObjectMinSize]; omega,
        by omega⟩]
      exact hadd'
    · apply Tiles.cons
      · rw [hadds'.size_outside hne, hsize]
        exact hpos
      · have hsecond : ObjectSize (Function.update (Function.update header a (deadHeader length))
            (a + recordedSize length) (deadHeader (length % 256))) (a + recordedSize length) =
            length % 256 := by
          rw [ObjectSize, Function.update_self, deadHeader, objectSize_packedSize (by omega)]
          exact recordedSize_of_fits (.inl (by simp only [LargeObjectMinSize]; omega))
        rw [hadds'.size_outside hne, hsize]
        apply Tiles.cons
        · rw [hsecond]
          omega
        · rw [hsecond]
          have hend : a + recordedSize length + length % 256 = a + length := by omega
          rw [hend]
          exact .nil _

theorem sum_grained {l : List ℕ} (h : ∀ c ∈ l, ObjectSize header c % ObjectGrain = 0) :
    (l.map (ObjectSize header)).sum % ObjectGrain = 0 := by
  induction l with
  | nil => rfl
  | cons c l ih =>
      have hc := h c List.mem_cons_self
      have hl := ih fun d hd => h d (List.mem_cons_of_mem c hd)
      simp only [ObjectGrain, List.map_cons, List.sum_cons] at *
      omega

variable (mark e) in
def SegmentSwept (fuel : ℕ) (header : Headers) (chains : χ) (a : ℕ) (blocks : List ℕ) : Prop :=
  ∃ header' chains' dead blocks',
    sweepSegment mark e fuel header chains a = some (header', chains') ∧
    Adds header chains header' chains' dead ∧ (∀ x ∈ dead, a ≤ x ∧ x < e) ∧
    Tiles (ObjectSize header') a e blocks' ∧
    blocks'.Perm (dead ++ blocks.filter fun b => !isDead header mark b)

theorem SegmentSwept.kept {fuel : ℕ} (hlive : objectIsLive (header b) mark = true)
    (hpos : 0 < ObjectSize header b) (hbe : b < e)
    (h : SegmentSwept mark e fuel header chains (b + ObjectSize header b) blocks) :
    SegmentSwept mark e (fuel + 1) header chains b (b :: blocks) := by
  obtain ⟨header', chains', dead, blocks', hsweep, hadds, hrange, htiles, hperm⟩ := h
  have hb : b ∉ dead := by
    intro hmem
    have hle := hrange b hmem
    omega
  have hsize := hadds.size_outside hb
  refine ⟨header', chains', dead, b :: blocks', ?_, hadds, fun x hx => ?_, ?_, ?_⟩
  · rw [sweepSegment, if_pos hbe]
    simp only [hlive, if_true]
    exact hsweep
  · have hx' := hrange x hx
    omega
  · apply Tiles.cons
    · rw [hsize]
      exact hpos
    · rw [hsize]
      exact htiles
  · rw [List.filter_cons_of_pos (by simp [isDead, hlive])]
    exact (hperm.cons b).trans List.perm_middle.symm

theorem SegmentSwept.replaced {fuel : ℕ} {header₂ : Headers} {chains₂ : χ} {dead₁ run tail : List ℕ}
    (hsweep₁ : sweepSegment mark e (fuel + 1) header chains b =
      sweepSegment mark e fuel header₂ chains₂ m)
    (hbm : b < m) (hme : m ≤ e) (hadds : Adds header chains header₂ chains₂ dead₁)
    (htiles₁ : Tiles (ObjectSize header₂) b m dead₁)
    (hrun : ∀ c ∈ run, isDead header mark c = true) (hkept : ∀ c ∈ tail, header₂ c = header c)
    (h : SegmentSwept mark e fuel header₂ chains₂ m tail) :
    SegmentSwept mark e (fuel + 1) header chains b (run ++ tail) := by
  obtain ⟨header', chains', dead₂, blocks₂, hsweep, hadds₂, hrange₂, htiles₂, hperm⟩ := h
  have hdisjoint : ∀ x ∈ dead₁, x ∉ dead₂ := by
    intro x hx hmem
    have hle₁ := htiles₁.mem hx
    have hle₂ := hrange₂ x hmem
    omega
  refine ⟨header', chains', dead₁ ++ dead₂, dead₁ ++ blocks₂, hsweep₁.trans hsweep,
    hadds.trans hadds₂ hdisjoint, fun x hx => ?_, ?_, ?_⟩
  · rcases List.mem_append.mp hx with hx | hx
    · have hle₁ := htiles₁.mem hx
      omega
    · have hle₂ := hrange₂ x hx
      omega
  · apply (htiles₁.congr fun x hx => hadds₂.size_outside (hdisjoint x hx)).append
    exact htiles₂
  · have hfilterRun : run.filter (fun c => !isDead header mark c) = [] := by
      rw [List.filter_eq_nil_iff]
      intro c hc
      simp [hrun c hc]
    have hfilterTail : tail.filter (fun c => !isDead header₂ mark c) =
        tail.filter fun c => !isDead header mark c := by
      apply List.filter_congr
      intro c hc
      rw [isDead, isDead, hkept c hc]
    rw [List.filter_append, hfilterRun, List.nil_append, List.append_assoc, ← hfilterTail]
    exact hperm.append_left dead₁

theorem sweepSegment_spec {fuel : ℕ} (h : Tiles (ObjectSize header) a e blocks)
    (hfuel : blocks.length < fuel) (hgrain : ∀ b ∈ blocks, Grained header b) (hword : e < 2 ^ 32)
    (hproper : Proper header chains) (hnew : ∀ b ∈ chained chains, b < a ∨ e ≤ b)
    (hruns : ∀ n ∈ deadRuns (isDead header mark) (ObjectSize header) blocks,
      LargeObjectMinSize ≤ n → n % 256 ≠ 8) : SegmentSwept mark e fuel header chains a blocks := by
  induction fuel generalizing header chains a blocks with
  | zero => omega
  | succ fuel ih =>
      cases blocks with
      | nil =>
          cases h
          refine ⟨header, chains, [], [], ?_, .nil hproper, by simp, .nil e, by simp⟩
          rw [sweepSegment, if_neg (lt_irrefl e)]
      | cons b blocks =>
          obtain ⟨rfl, hpos, hrest⟩ := h.of_cons
          have hle := hrest.le
          rw [List.length_cons] at hfuel
          obtain ⟨hgrainHead, hgrain⟩ := List.forall_mem_cons.mp hgrain
          cases hlive : objectIsLive (header b) mark with
          | true =>
              rw [deadRuns, if_neg (by simp [isDead, hlive])] at hruns
              refine .kept hlive hpos (by omega) (ih hrest (by omega) hgrain hproper ?_ hruns)
              intro c hc
              have hc' := hnew c hc
              omega
          | false =>
              have hdead : isDead header mark b = true := by rw [isDead, hlive]; rfl
              rw [deadRuns, if_pos hdead] at hruns
              have hsplit : blocks.takeWhile (isDead header mark) ++
                  blocks.dropWhile (isDead header mark) = blocks :=
                List.takeWhile_append_dropWhile
              generalize hrunEq : blocks.takeWhile (isDead header mark) = run at *
              generalize htailEq : blocks.dropWhile (isDead header mark) = tail at *
              have htailLength : tail.length ≤ blocks.length := by
                rw [← hsplit, List.length_append]
                omega
              have hmemRun : ∀ c ∈ run, c ∈ blocks := fun c hc =>
                hsplit ▸ List.mem_append_left tail hc
              have hmemTail : ∀ c ∈ tail, c ∈ blocks := fun c hc =>
                hsplit ▸ List.mem_append_right run hc
              obtain ⟨m, htilesRun, htilesTail⟩ := Tiles.of_append (hsplit.symm ▸ hrest)
              have hend := htilesRun.length_eq
              have hmle := htilesTail.le
              have hsum := sum_grained fun c hc => (hgrain c (hmemRun c hc)).2
              obtain ⟨hbLength, hbGrain⟩ := hgrainHead
              simp only [DeadObjectSize, ObjectGrain] at hbLength hbGrain hsum
              generalize hlengthEq :
                ObjectSize header b + (run.map (ObjectSize header)).sum = deadLength at *
              have hdeadLength : DeadObjectSize ≤ deadLength := by
                simp only [DeadObjectSize]
                omega
              have hdeadGrain : deadLength % ObjectGrain = 0 := by
                simp only [ObjectGrain]
                omega
              have hdeadNew : ∀ c ∈ chained chains, c < b ∨ b + deadLength ≤ c := by
                intro c hc
                have hc' := hnew c hc
                omega
              obtain ⟨header₁, chains₁, header₂, chains₂, dead₁, hadd, hadjust, hadds, htiles₁⟩ :=
                addRun_spec hproper hdeadLength hdeadGrain (by omega) hdeadNew
                  (hruns _ List.mem_cons_self)
              have hm : b + deadLength = m := by omega
              rw [hm] at htiles₁
              have hkept : ∀ c ∈ tail, header₂ c = header c := by
                intro c hc
                apply hadds.outside
                intro hmem
                have hle₁ := htiles₁.mem hmem
                have hle₂ := (htilesTail.mem hc).1
                omega
              have hsizes : ∀ c ∈ tail, ObjectSize header₂ c = ObjectSize header c := by
                intro c hc
                rw [ObjectSize, ObjectSize, hkept c hc]
              have hdeads : ∀ c ∈ tail, isDead header₂ mark c = isDead header mark c := by
                intro c hc
                rw [isDead, isDead, hkept c hc]
              have hsweep₁ : sweepSegment mark e (fuel + 1) header chains b =
                  sweepSegment mark e fuel header₂ chains₂ m := by
                rw [sweepSegment, if_pos (by omega)]
                simp only [hlive, Bool.false_eq_true, if_false]
                rw [deadRun_spec hrest (by omega), hrunEq]
                simp only [Option.bind_eq_bind, Option.bind_some]
                rw [hlengthEq, hadd]
                simp only [Option.bind_some]
                rw [hadjust]
                simp only [Option.bind_some]
                rw [hm]
              have hrun : ∀ c ∈ b :: run, isDead header mark c = true :=
                List.forall_mem_cons.mpr
                  ⟨hdead, fun c hc => List.mem_takeWhile_imp (hrunEq ▸ hc)⟩
              rw [← hsplit, ← List.cons_append]
              refine .replaced hsweep₁ (by omega) hmle hadds htiles₁ hrun hkept
                (ih (htilesTail.congr hsizes) (by omega)
                  (fun c hc => (hgrain c (hmemTail c hc)).congr (hsizes c hc)) hadds.proper ?_ ?_)
              · intro c hc
                rcases List.mem_append.mp (hadds.chained.mem_iff.mp hc) with hc | hc
                · have hle := htiles₁.mem hc
                  omega
                · have hc' := hnew c hc
                  omega
              · rw [deadRuns_congr hdeads hsizes]
                exact fun n hn => hruns n (List.mem_cons_of_mem _ hn)

end sweep

end MemorySegment

end LeooRexx
