import LeooRexx.Rexxapi.MacroSpace
import Mathlib.Algebra.Order.Group.Nat

/-!
# What a macro file gives back

A file that was saved and is loaded again, in whole or cut off after some of its bytes.
A cut is noticed by `file_read` when it falls inside a piece that is read; a cut between
two pieces leaves the buffers as they were.
-/

namespace LeooRexx

open ReturnCode ByteStream

/-! ## Reads of a file that was cut off -/

variable {w x y z b : List UInt8} {k p l : ℕ}

theorem fileRead_end (f : ByteStream) (h : f.bytes.length ≤ f.pos) (b : List UInt8) (l : ℕ) :
    fileRead f b l = ⟨false, b, f⟩ := by
  simp [fileRead, fread_end f h]

theorem fileRead_cut_end (h : k ≤ p) (b : List UInt8) (l : ℕ) :
    fileRead (cut w k p) b l = ⟨false, b, cut w k p⟩ := by
  simp [fileRead, fread_cut_end h]

theorem fileRead_cut_piece (hb : x.length = p) (hl : y.length = l)
    (hbuf : b.length = l) (hk : p + l ≤ k) :
    fileRead (cut (x ++ y ++ z) k p) b l =
      ⟨false, y, cut (x ++ y ++ z) k (p + l)⟩ := by
  simp only [fileRead, fread_cut_piece hb hl hbuf hk]
  simp

theorem fileRead_cut_inside (hk : k ≤ w.length) (hp : p < k) (hl : k < p + l)
    (b : List UInt8) : (fileRead (cut w k p) b l).rc = true := by
  have h := fread_cut_inside hk hp hl b
  simp only [fileRead, decide_eq_true_eq]
  omega

/-! ## The headers -/

theorem drop_flatMap_bytes (ms : List MACRO) (i : ℕ) :
    (ms.flatMap MACRO.bytes).drop (i * MACROSIZE) = (ms.drop i).flatMap MACRO.bytes := by
  induction ms generalizing i with
  | nil => simp
  | cons m ms ih =>
    cases i with
    | zero => simp
    | succ i =>
      rw [List.flatMap_cons, Nat.add_mul, Nat.one_mul, Nat.add_comm, ← List.drop_drop,
        List.drop_left' m.length_bytes, ih, List.drop_succ_cons]

theorem headersOf_flatMap (ms : List MACRO) :
    headersOf ms.length (ms.flatMap MACRO.bytes) = ms := by
  apply List.ext_getElem
  · simp [headersOf]
  · intro i h₁ h₂
    have hdrop : ms.drop i = ms[i] :: ms.drop (i + 1) := List.drop_eq_getElem_cons h₂
    simp only [headersOf, List.getElem_map, List.getElem_range, drop_flatMap_bytes, hdrop,
      List.flatMap_cons, MACRO.ofBytes_bytes_append]

theorem length_flatMap_bytes (ms : List MACRO) :
    (ms.flatMap MACRO.bytes).length = ms.length * MACROSIZE := by
  induction ms with
  | nil => rfl
  | cons m ms ih =>
    rw [List.flatMap_cons, List.length_append, MACRO.length_bytes, ih, List.length_cons,
      Nat.add_mul, Nat.one_mul, Nat.add_comm]

/-! ## Names -/

theorem refusal_congr (s : APIDATA) (av : List PSZ) {ms ms' : List MACRO}
    (h : ms.map MACRO.cname = ms'.map MACRO.cname) : refusal s av ms = refusal s av ms' := by
  have hany : ∀ q : PSZ → Bool,
      (ms.any fun w => q w.cname) = ms'.any fun w => q w.cname := by
    intro q
    have hmap : ∀ xs : List MACRO, (xs.any fun w => q w.cname) = (xs.map MACRO.cname).any q := by
      intro xs
      rw [List.any_map]
      rfl
    rw [hmap, hmap, h]
  have hargs : checkArguments s ms av = checkArguments s ms' av := by
    induction av with
    | nil => rfl
    | cons name av ih =>
      have hsaved : savedMacro name ms = savedMacro name ms' := hany fun c => sameName c name
      simp only [checkArguments, hsaved, ih]
  simp only [refusal, hany fun c => (doesExist s c).isSome, hargs]

theorem checkArguments_ne_ok {s : APIDATA} {ms : List MACRO} {av : List PSZ} {rc : ReturnCode}
    (h : checkArguments s ms av = some rc) : rc ≠ RXMACRO_OK := by
  induction av with
  | nil => cases h
  | cons name av ih =>
    simp only [checkArguments] at h
    split at h
    · cases h
      decide
    · split at h
      · cases h
        decide
      · exact ih h

theorem refusal_ne_ok {s : APIDATA} {ms : List MACRO} {av : List PSZ} {rc : ReturnCode}
    (h : refusal s av ms = some rc) : rc ≠ RXMACRO_OK := by
  simp only [refusal] at h
  split at h
  · split at h
    · cases h
      decide
    · cases h
  · exact checkArguments_ne_ok h

theorem refusal_mcount (s : APIDATA) (n : UInt32) (av : List PSZ) (ms : List MACRO) :
    refusal { s with mcount := n } av ms = refusal s av ms := by
  have hargs : checkArguments { s with mcount := n } ms av = checkArguments s ms av := by
    induction av with
    | nil => rfl
    | cons name av ih =>
      simp only [checkArguments, ih]
      rfl
  simp only [refusal, hargs]
  rfl

/-! ## The images -/

def Skippable (ms : List MACRO) : Prop := ∀ m ∈ ms, m.i_size.toNat < 2 ^ 31

theorem toLong_eq {n : UInt32} (h : n.toNat < 2 ^ 31) : toLong n = (n.toNat : ℤ) := by
  rw [toLong, if_pos h]

def Sized (ms : List Macro) : Prop := ∀ m ∈ ms, m.header.i_size.toNat = m.img.length

theorem readImages_end (u : Uninitialised) (av : List PSZ) (i : ℕ) (ms : List MACRO)
    (hskip : Skippable ms) (f : ByteStream) (hf : f.bytes.length ≤ f.pos) :
    ∃ bufs, readImages u av i ms f = .ok bufs := by
  induction ms generalizing i f with
  | nil => exact ⟨[], rfl⟩
  | cons w ws ih =>
    have hws : Skippable ws := fun m hm => hskip m (List.mem_cons_of_mem _ hm)
    by_cases hw : wanted av w
    · obtain ⟨bufs, hbufs⟩ := ih (i + 1) hws f hf
      refine ⟨malloc (u.strptr i) w.i_size.toNat :: bufs, ?_⟩
      simp only [readImages, hw, if_true, fileRead_end f hf, hbufs]
      rfl
    · have hseek := fseek_ofNat f w.i_size.toNat
      rw [← toLong_eq (hskip w List.mem_cons_self)] at hseek
      obtain ⟨bufs, hbufs⟩ := ih (i + 1) hws { f with pos := f.pos + w.i_size.toNat }
        (Nat.le_trans hf (Nat.le_add_right _ _))
      refine ⟨[] :: bufs, ?_⟩
      simp only [readImages, hw, hseek, hbufs]
      rfl

/-- The cut at `k` falls inside an image that is read, the first one starting at `p`. -/
def CutsImage (av : List PSZ) : ℕ → List Macro → ℕ → Prop
  | _, [], _ => False
  | p, m :: ms, k => wanted av m.header = true ∧ p < k ∧ k < p + m.img.length ∨
      CutsImage av (p + m.img.length) ms k

instance CutsImage.decidable (av : List PSZ) (p : ℕ) (ms : List Macro) (k : ℕ) :
    Decidable (CutsImage av p ms k) := by
  induction ms generalizing p with
  | nil => exact inferInstanceAs (Decidable False)
  | cons m ms ih => exact @instDecidableOr _ _ inferInstance (ih _)

theorem CutsImage.lt {av : List PSZ} {p k : ℕ} {ms : List Macro} (h : CutsImage av p ms k) :
    p < k := by
  induction ms generalizing p with
  | nil => exact h.elim
  | cons m ms ih =>
    rcases h with h | h
    · exact h.2.1
    · exact Nat.lt_of_le_of_lt (Nat.le_add_right _ _) (ih h)

def kept (av : List PSZ) (m : Macro) : List UInt8 := if wanted av m.header then m.img else []

theorem readImages_cons (u : Uninitialised) (av : List PSZ) (i : ℕ) (m : Macro)
    (ms : List MACRO) (before after : List UInt8) (hsize : m.header.i_size.toNat = m.img.length)
    (hskip : m.header.i_size.toNat < 2 ^ 31) (hk : k ≤ (before ++ m.img ++ after).length)
    (hp : before.length = p) :
    let next := readImages u av (i + 1) ms (cut (before ++ m.img ++ after) k (p + m.img.length))
    let here := readImages u av i (m.header :: ms) (cut (before ++ m.img ++ after) k p)
    (wanted av m.header = true → p < k → k < p + m.img.length →
      here = .error RXMACRO_NO_STORAGE) ∧
    (wanted av m.header = true → p + m.img.length ≤ k → here = next.map (m.img :: ·)) ∧
    (wanted av m.header = false → here = next.map ([] :: ·)) := by
  refine ⟨?_, ?_, ?_⟩
  · intro hw hlt hlt'
    have hrc := fileRead_cut_inside (l := m.img.length) hk hlt hlt'
      (malloc (u.strptr i) m.img.length)
    simp only [readImages, hw, if_true, hsize, hrc]
  · intro hw hle
    have hread := fileRead_cut_piece (z := after) hp rfl
      (length_malloc (u.strptr i) m.img.length) hle
    simp only [readImages, hw, if_true, hsize, hread, Bool.false_eq_true, if_false]
  · intro hw
    have hseek := fseek_ofNat (cut (before ++ m.img ++ after) k p) m.header.i_size.toNat
    rw [← toLong_eq hskip, hsize] at hseek
    simp only [readImages, hw, hseek, Bool.false_eq_true, if_false]
    rfl

theorem readImages_cut (u : Uninitialised) (av : List PSZ) (i : ℕ) (ms : List Macro)
    (before : List UInt8) (hsized : Sized ms) (hskip : Skippable (ms.map Macro.header))
    (hk : k ≤ (before ++ ms.flatMap Macro.img).length) (hp : before.length = p) :
    (CutsImage av p ms k →
      ∃ rc, rc ≠ RXMACRO_OK ∧ readImages u av i (ms.map Macro.header)
        (cut (before ++ ms.flatMap Macro.img) k p) = .error rc) ∧
    (¬ CutsImage av p ms k →
      ∃ bufs, readImages u av i (ms.map Macro.header)
        (cut (before ++ ms.flatMap Macro.img) k p) = .ok bufs) := by
  induction ms generalizing i before p with
  | nil => exact ⟨fun h => h.elim, fun _ => ⟨[], rfl⟩⟩
  | cons m ms ih =>
    have hsize := hsized m List.mem_cons_self
    have hlong := hskip m.header List.mem_cons_self
    have hms : Skippable (ms.map Macro.header) := fun w hw => hskip w (List.mem_cons_of_mem _ hw)
    rw [List.flatMap_cons, ← List.append_assoc] at hk ⊢
    have hnext := ih (p := p + m.img.length) (i + 1) (before ++ m.img)
      (fun w hw => hsized w (List.mem_cons_of_mem _ hw)) hms hk
      (by rw [List.length_append, hp])
    obtain ⟨hcut, hwhole, hskipped⟩ := readImages_cons u av i m (ms.map Macro.header) before
      (ms.flatMap Macro.img) hsize hlong hk hp
    rw [List.map_cons]
    by_cases hw : wanted av m.header
    · rcases Nat.lt_or_ge k (p + m.img.length) with hlt | hle
      · rcases Nat.lt_or_ge p k with hpk | hkp
        · constructor
          · intro _
            exact ⟨RXMACRO_NO_STORAGE, by decide, hcut hw hpk hlt⟩
          · intro h
            exact absurd (Or.inl ⟨hw, hpk, hlt⟩) h
        · -- the file ends before the image: the read leaves the buffer and goes on
          constructor
          · intro h
            exact absurd h.lt (Nat.not_lt.mpr hkp)
          · intro _
            apply readImages_end u av i _ hskip
            rw [cut_bytes, cut_pos, List.length_take]
            omega
      · rw [hwhole hw hle]
        have hiff : CutsImage av p (m :: ms) k ↔ CutsImage av (p + m.img.length) ms k := by
          exact or_iff_right fun h => by omega
        rw [hiff]
        refine ⟨fun h => ?_, fun h => ?_⟩
        · obtain ⟨rc, hrc, heq⟩ := hnext.1 h
          exact ⟨rc, hrc, by rw [heq]; rfl⟩
        · obtain ⟨bufs, heq⟩ := hnext.2 h
          exact ⟨m.img :: bufs, by rw [heq]; rfl⟩
    · rw [Bool.not_eq_true] at hw
      rw [hskipped hw]
      have hiff : CutsImage av p (m :: ms) k ↔ CutsImage av (p + m.img.length) ms k := by
        simp [CutsImage, hw]
      rw [hiff]
      refine ⟨fun h => ?_, fun h => ?_⟩
      · obtain ⟨rc, hrc, heq⟩ := hnext.1 h
        exact ⟨rc, hrc, by rw [heq]; rfl⟩
      · obtain ⟨bufs, heq⟩ := hnext.2 h
        exact ⟨[] :: bufs, by rw [heq]; rfl⟩

theorem readImages_whole (u : Uninitialised) (av : List PSZ) (i : ℕ) (ms : List Macro)
    (before : List UInt8) (hsized : Sized ms) (hskip : Skippable (ms.map Macro.header))
    (hp : before.length = p) (hk : k = (before ++ ms.flatMap Macro.img).length) :
    readImages u av i (ms.map Macro.header) (cut (before ++ ms.flatMap Macro.img) k p) =
      .ok (ms.map (kept av)) := by
  induction ms generalizing i before p with
  | nil => rfl
  | cons m ms ih =>
    rw [List.flatMap_cons, ← List.append_assoc] at hk ⊢
    have hnext := ih (p := p + m.img.length) (i + 1) (before ++ m.img)
      (fun w hw => hsized w (List.mem_cons_of_mem _ hw))
      (fun w hw => hskip w (List.mem_cons_of_mem _ hw)) (by rw [List.length_append, hp]) hk
    obtain ⟨-, hwhole, hskipped⟩ := readImages_cons u av i m (ms.map Macro.header) before
      (ms.flatMap Macro.img) (hsized m List.mem_cons_self) (hskip m.header List.mem_cons_self)
      (Nat.le_of_eq hk) hp
    have hle : p + m.img.length ≤ k := by
      rw [hk, List.length_append, List.length_append, hp]
      omega
    rw [List.map_cons, List.map_cons, kept]
    by_cases hw : wanted av m.header
    · rw [hwhole hw hle, hnext, if_pos hw]
      rfl
    · rw [if_neg hw]
      rw [Bool.not_eq_true] at hw
      rw [hskipped hw, hnext]
      rfl

/-! ## The entry -/

def Refused (s : APIDATA) (r : ReturnCode × APIDATA) : Prop :=
  r.1 ≠ RXMACRO_OK ∧ r.2.chain = s.chain ∧ r.2.macrocount = s.macrocount

theorem ldmacro_unchanged (u : Uninitialised) (o : Addresses) (s : APIDATA) (av : List PSZ)
    (f : ByteStream) (h : ( ldmacro u o s av f).1 ≠ RXMACRO_OK) :
    Refused s ( ldmacro u o s av f) := by
  refine ⟨h, ?_⟩
  revert h
  simp only [ ldmacro]
  split
  · exact fun _ => ⟨rfl, rfl⟩
  · split
    · exact fun h => absurd rfl h
    · split
      · exact fun _ => ⟨rfl, rfl⟩
      · split
        · exact fun _ => ⟨rfl, rfl⟩
        · split
          · exact fun _ => ⟨rfl, rfl⟩
          · exact fun h => absurd rfl h

theorem macrofileOpen_ne_ok {u : Uninitialised} {file : List UInt8} {rc : ReturnCode}
    (h : macrofileOpen u file = .error rc) : rc ≠ RXMACRO_OK := by
  revert h
  simp only [macrofileOpen]
  intro h
  split at h
  · cases h
    decide
  · split at h
    · cases h
      decide
    · split at h
      · cases h
        decide
      · split at h
        · cases h
          decide
        · cases h

theorem load_unchanged (u : Uninitialised) (o : Addresses) (s : APIDATA) (av : List PSZ)
    (file : List UInt8) (h : (RexxLoadMacroSpace u o s av file).1 ≠ RXMACRO_OK) :
    Refused s (RexxLoadMacroSpace u o s av file) := by
  revert h
  simp only [RexxLoadMacroSpace]
  cases macrofileOpen u file with
  | error rc => exact fun h => ⟨h, rfl, rfl⟩
  | ok f => exact ldmacro_unchanged u o s av f

section Opening

variable (version flag rest : List UInt8)

theorem fileRead_version (buf : List.Vector UInt8 RXVERSIZE) (hversion : version.length = 12)
    (hk : 12 ≤ k) :
    fileRead ⟨(version ++ flag ++ rest).take k, 0⟩ buf.toList RXVERSIZE =
      ⟨false, version, cut (version ++ flag ++ rest) k 12⟩ := by
  have h := fileRead_cut_piece (x := []) (z := flag ++ rest) (p := 0) rfl hversion
    buf.toList_length hk
  rw [List.nil_append, ← List.append_assoc] at h
  exact h

theorem fileRead_flag (i : UInt32) (hversion : version.length = 12) (hflag : flag.length = 4)
    (hk : 16 ≤ k) :
    fileRead (cut (version ++ flag ++ rest) k 12) (ULONG.bytes i) 4 =
      ⟨false, flag, cut (version ++ flag ++ rest) k 16⟩ :=
  fileRead_cut_piece hversion hflag rfl hk

end Opening

theorem load_signature (u : Uninitialised) (o : Addresses) (s : APIDATA) (av : List PSZ)
    (version flag rest : List UInt8) (hversion : version.length = RXVERSIZE)
    (hflag : flag.length = 4) (hother : version ≠ RXVERSION ∨ ULONG.ofBytes flag ≠ SIGNATURE) :
    RexxLoadMacroSpace u o s av (version ++ flag ++ rest) = (RXMACRO_SIGNATURE_ERROR, s) := by
  have hall : (version ++ flag ++ rest).take (16 + rest.length) = version ++ flag ++ rest := by
    apply List.take_of_length_le
    simp only [List.length_append, hversion, hflag]
    exact Nat.le_refl _
  have hread := fileRead_version version flag rest u.buf hversion
    (show 12 ≤ 16 + rest.length by omega)
  rw [hall] at hread
  have hread' := fileRead_flag version flag rest u.i hversion hflag
    (show 16 ≤ 16 + rest.length by omega)
  have hopen : macrofileOpen u (version ++ flag ++ rest) = .error RXMACRO_SIGNATURE_ERROR := by
    simp only [macrofileOpen, hread, Bool.false_eq_true, if_false]
    by_cases hv : version = RXVERSION
    · have hf : ULONG.ofBytes flag ≠ SIGNATURE := hother.resolve_left fun h => h hv
      simp only [hv, ne_eq, not_true_eq_false, if_false, hv ▸ hread', Bool.false_eq_true, hf,
        not_false_eq_true, if_true]
    · rw [if_pos hv]
  rw [RexxLoadMacroSpace, hopen]

/-! ## A file that was saved -/

def fileStart (list : List Macro) : List UInt8 :=
  RXVERSION ++ ULONG.bytes SIGNATURE ++ ULONG.bytes (.ofNat list.length)

def imagesAt (list : List Macro) : ℕ := 20 + list.length * MACROSIZE

theorem opens_cut (u : Uninitialised) (rest : List UInt8) (hk : 16 ≤ k) :
    macrofileOpen u ((RXVERSION ++ ULONG.bytes SIGNATURE ++ rest).take k) =
      .ok (cut (RXVERSION ++ ULONG.bytes SIGNATURE ++ rest) k 16) := by
  have hread := fileRead_version RXVERSION (ULONG.bytes SIGNATURE) rest
    u.buf rfl (show 12 ≤ k by omega)
  have hread' := fileRead_flag RXVERSION (ULONG.bytes SIGNATURE) rest
    u.i rfl rfl hk
  simp only [macrofileOpen, hread, hread', ULONG.ofBytes_bytes, ne_eq, not_true_eq_false,
    Bool.false_eq_true, if_false]

theorem opens_inside (u : Uninitialised) (rest : List UInt8) (h0 : 0 < k) (hk : k < 16)
    (h12 : k ≠ 12) :
    macrofileOpen u ((RXVERSION ++ ULONG.bytes SIGNATURE ++ rest).take k) =
      .error RXMACRO_FILE_ERROR := by
  have hlength : k ≤ (RXVERSION ++ ULONG.bytes SIGNATURE ++ rest).length := by
    simp only [List.length_append, ULONG.length_bytes, RXVERSION, List.length_cons,
      List.length_nil]
    omega
  rcases Nat.lt_or_ge k 12 with hlt | hge
  · have hread := fileRead_cut_inside (p := 0) (l := 12) hlength h0 hlt u.buf.toList
    rw [cut] at hread
    simp only [macrofileOpen, RXVERSIZE, hread, if_true]
  · have hread := fileRead_version RXVERSION (ULONG.bytes SIGNATURE) rest
      u.buf rfl hge
    have hread' := fileRead_cut_inside (p := 12) (l := 4) hlength (by omega) (by omega)
      (ULONG.bytes u.i)
    simp only [macrofileOpen, hread, hread', ne_eq, not_true_eq_false, Bool.false_eq_true,
      if_false, if_true]

theorem opens_stale (u : Uninitialised) (rest : List UInt8) (hbuf : u.buf.toList = RXVERSION)
    (hi : u.i = SIGNATURE) (hk : k = 0 ∨ k = 12) :
    macrofileOpen u ((RXVERSION ++ ULONG.bytes SIGNATURE ++ rest).take k) =
      .ok (cut (RXVERSION ++ ULONG.bytes SIGNATURE ++ rest) k k) := by
  rcases hk with rfl | rfl
  · have hread := fileRead_end ⟨[], 0⟩ (Nat.le_refl _) RXVERSION RXVERSIZE
    have hread' := fileRead_end ⟨[], 0⟩ (Nat.le_refl _) (ULONG.bytes SIGNATURE) 4
    rw [macrofileOpen, List.take_zero, hbuf, hi, hread, hread']
    rfl
  · have hread := fileRead_version RXVERSION (ULONG.bytes SIGNATURE) rest
      u.buf rfl (Nat.le_refl 12)
    have hread' := fileRead_cut_end (w := RXVERSION ++ ULONG.bytes SIGNATURE ++ rest)
      (Nat.le_refl 12) (ULONG.bytes SIGNATURE) 4
    simp only [macrofileOpen, hread, hi, hread', ULONG.ofBytes_bytes, ne_eq,
      not_true_eq_false, Bool.false_eq_true, if_false]

theorem ldmacro_headers (u : Uninitialised) (o : Addresses) (s : APIDATA) (av : List PSZ)
    {f f' f'' : ByteStream} {c : UInt32} {tb : List UInt8} {ms : List MACRO}
    (hcount : fileRead f (ULONG.bytes s.mcount) 4 = ⟨false, ULONG.bytes c, f'⟩)
    (hc : c ≠ 0)
    (hread : fileRead f' (malloc u.tbase (c.toNat * MACROSIZE)) (c.toNat * MACROSIZE) =
      ⟨false, tb, f''⟩)
    (hms : headersOf c.toNat tb = ms) :
    ldmacro u o s av f =
      match refusal s av ms with
      | some rc => (rc, { s with mcount := c })
      | none =>
        match readImages u av 0 ms f'' with
        | .error rc => (rc, { s with mcount := c })
        | .ok bufs =>
          (RXMACRO_OK,
            { s with
              chain := dupList o 0 o.mbase (ms.zip bufs) s.chain
              mcount := .ofNat (newMcount (ms.zip bufs))
              macrocount := s.macrocount + newMcount (ms.zip bufs) }) := by
  have hne : c.toNat ≠ 0 := fun h => hc (UInt32.toNat_inj.mp h)
  have hsize : ¬ c.toNat * MACROSIZE = 0 := by
    rw [Nat.mul_eq_zero]
    rintro (h | h)
    · exact hne h
    · exact absurd h (by decide)
  simp only [ ldmacro, hcount, Bool.false_eq_true, if_false, ULONG.ofBytes_bytes, hsize, hread,
    hms, refusal_mcount]
  all_goals rfl

theorem ldmacro_none (u : Uninitialised) (o : Addresses) (s : APIDATA) (av : List PSZ)
    {f f' : ByteStream}
    (hcount : fileRead f (ULONG.bytes s.mcount) 4 = ⟨false, ULONG.bytes 0, f'⟩) :
    ( ldmacro u o s av f).1 = RXMACRO_OK := by
  simp only [ ldmacro, hcount, Bool.false_eq_true, if_false, ULONG.ofBytes_bytes]
  rfl

def garbageOf (bs : List UInt8) (n : ℕ) : UInt8 := bs.getD n 0

theorem malloc_garbageOf (bs : List UInt8) : malloc (garbageOf bs) bs.length = bs := by
  apply List.ext_getElem
  · simp
  · intro i h₁ h₂
    simp [malloc, garbageOf, h₂]

def emptied (ms : List MACRO) : List MACRO := ms.map fun m => { m with i_size := 0 }

theorem refusal_emptied (s : APIDATA) (av : List PSZ) (ms : List MACRO) :
    refusal s av (emptied ms) = refusal s av ms := by
  apply refusal_congr
  rw [emptied, List.map_map]
  rfl

theorem ldmacro_end_iff (o : Addresses) (s : APIDATA) (av : List PSZ) {f f' : ByteStream}
    {c : UInt32} (hcount : fileRead f (ULONG.bytes s.mcount) 4 = ⟨false, ULONG.bytes c, f'⟩)
    (hf : f'.bytes.length ≤ f'.pos) (version : List.Vector UInt8 RXVERSIZE) (flag : UInt32) :
    (∀ u : Uninitialised, u.buf = version → u.i = flag →
      ( ldmacro u o s av f).1 ≠ RXMACRO_OK) ↔
      c ≠ 0 ∧ ∀ ms : List MACRO, ms.length = c.toNat → (refusal s av ms).isSome := by
  constructor
  · intro h
    have hc : c ≠ 0 := by
      rintro rfl
      exact h ⟨version, flag, fun _ => 0, fun _ _ => 0⟩ rfl rfl (ldmacro_none _ o s av hcount)
    refine ⟨hc, fun ms hlength => ?_⟩
    by_contra hsome
    have hnone : refusal s av (emptied ms) = none := by
      rw [refusal_emptied]
      simpa using hsome
    have hlen : (emptied ms).length = c.toNat := by
      rw [emptied, List.length_map, hlength]
    let tb := (emptied ms).flatMap MACRO.bytes
    let u : Uninitialised := ⟨version, flag, garbageOf tb, fun _ _ => 0⟩
    have htb : malloc u.tbase (c.toNat * MACROSIZE) = tb := by
      rw [← hlen, ← length_flatMap_bytes]
      exact malloc_garbageOf tb
    have hread := fileRead_end f' hf (malloc u.tbase (c.toNat * MACROSIZE))
      (c.toNat * MACROSIZE)
    have hheaders : headersOf c.toNat (malloc u.tbase (c.toNat * MACROSIZE)) = emptied ms := by
      rw [htb, ← hlen]
      exact headersOf_flatMap _
    have hskip : Skippable (emptied ms) := by
      intro m hm
      obtain ⟨w, -, rfl⟩ := List.mem_map.mp hm
      exact Nat.two_pow_pos 31
    obtain ⟨bufs, hbufs⟩ := readImages_end u av 0 (emptied ms) hskip f' hf
    apply h u rfl rfl
    rw [ldmacro_headers u o s av hcount hc hread hheaders, hnone, hbufs]
  · rintro ⟨hc, hall⟩ u - -
    have hread := fileRead_end f' hf (malloc u.tbase (c.toNat * MACROSIZE))
      (c.toNat * MACROSIZE)
    have hlen : (headersOf c.toNat (malloc u.tbase (c.toNat * MACROSIZE))).length = c.toNat := by
      simp [headersOf]
    obtain ⟨rc, hrc⟩ := Option.isSome_iff_exists.mp (hall _ hlen)
    rw [ldmacro_headers u o s av hcount hc hread rfl, hrc]
    exact refusal_ne_ok hrc

/-! ## Names without case -/

theorem tolower_ne_zero {c : UInt8} (h : c ≠ 0) : (tolower c).toNat ≠ 0 := by
  have hc : c.toNat ≠ 0 := fun h0 => h (UInt8.toNat_inj.mp h0)
  rw [tolower]
  split
  · rename_i hcase
    have hle : c.toNat ≤ 90 := UInt8.le_iff_toNat_le.mp hcase.2
    rw [UInt8.toNat_add, show (32 : UInt8).toNat = 32 from rfl]
    omega
  · exact hc

theorem rxstricmp_eq_zero_iff {s1 s2 : List UInt8} (h1 : 0 ∉ s1) (h2 : 0 ∉ s2) :
    rxstricmp s1 s2 = 0 ↔ s1.map tolower = s2.map tolower := by
  induction s1 generalizing s2 with
  | nil =>
    cases s2 with
    | nil => simp [rxstricmp]
    | cons b s2 =>
      have hb := tolower_ne_zero (fun h => h2 (h ▸ List.mem_cons_self) : b ≠ 0)
      simp only [rxstricmp, List.map_nil, List.map_cons, reduceCtorEq, iff_false]
      omega
  | cons a s1 ih =>
    cases s2 with
    | nil =>
      have ha := tolower_ne_zero (fun h => h1 (h ▸ List.mem_cons_self) : a ≠ 0)
      simp only [rxstricmp, List.map_nil, List.map_cons, reduceCtorEq, iff_false]
      omega
    | cons b s2 =>
      have htail := ih (fun h => h1 (List.mem_cons_of_mem _ h))
        (fun h => h2 (List.mem_cons_of_mem _ h))
      by_cases hab : tolower a = tolower b
      · simp [rxstricmp, hab, htail]
      · have hne : (tolower a).toNat ≠ (tolower b).toNat := fun h => hab (UInt8.toNat_inj.mp h)
        simp only [rxstricmp, ne_eq, hab, not_false_eq_true, if_true, List.map_cons,
          List.cons.injEq, false_and, iff_false]
        omega

theorem sameName_iff {s1 s2 : PSZ} :
    sameName s1 s2 = true ↔ s1.val.map tolower = s2.val.map tolower := by
  rw [sameName, beq_iff_eq, rxstricmp_eq_zero_iff s1.property s2.property]

theorem sameName_congr {s1 s2 : PSZ} (h : sameName s1 s2 = true) (s3 : PSZ) :
    sameName s3 s1 = sameName s3 s2 := by
  rw [Bool.eq_iff_iff, sameName_iff, sameName_iff, sameName_iff.mp h]

theorem doesExist_congr (s : APIDATA) {s1 s2 : PSZ} (h : sameName s1 s2 = true) :
    doesExist s s1 = doesExist s s2 := by
  simp only [doesExist, sameName_congr h]

/-! ## The copied list -/

def Macro.view (m : Macro) : PSZ × List UInt8 × UInt32 :=
  (m.header.cname, m.img, m.header.srch_pos)

theorem dupList_view (o : Addresses) (av : List PSZ) (j : ℕ) (mbase : UInt32)
    (ms chain : List Macro) (himg : ∀ m ∈ ms, m.img ≠ []) :
    (dupList o j mbase ((ms.map Macro.header).zip (ms.map (kept av))) chain).map Macro.view =
      ((ms.filter fun m => wanted av m.header).map Macro.view).reverse ++
        chain.map Macro.view := by
  induction ms generalizing j mbase chain with
  | nil => rfl
  | cons m ms ih =>
    have hms := fun w hw => himg w (List.mem_cons_of_mem _ hw)
    rw [List.map_cons, List.map_cons, List.zip_cons_cons, dupList]
    by_cases hw : wanted av m.header
    · have hne : ¬ m.img.length = 0 := by
        rw [List.length_eq_zero_iff]
        exact himg m List.mem_cons_self
      simp only [kept, hw, if_true, ne_eq, hne, not_false_eq_true]
      rw [ih _ _ _ hms, List.filter_cons_of_pos (p := fun m : Macro => wanted av m.header) hw]
      simp [Macro.view, MACRO.cname]
    · simp only [kept, hw, Bool.false_eq_true, if_false, List.length_nil, ne_eq,
        not_true_eq_false]
      rw [ih _ _ _ hms, List.filter_cons_of_neg (p := fun m : Macro => wanted av m.header) hw]

theorem newMcount_kept (av : List PSZ) (ms : List Macro) (himg : ∀ m ∈ ms, m.img ≠ []) :
    newMcount ((ms.map Macro.header).zip (ms.map (kept av))) =
      (ms.filter fun m => wanted av m.header).length := by
  induction ms with
  | nil => rfl
  | cons m ms ih =>
    have hms := ih fun w hw => himg w (List.mem_cons_of_mem _ hw)
    rw [newMcount] at hms ⊢
    rw [List.map_cons, List.map_cons, List.zip_cons_cons]
    by_cases hw : wanted av m.header
    · have hne : m.img ≠ [] := himg m List.mem_cons_self
      rw [List.countP_cons_of_pos (by simpa [kept, hw] using hne), hms,
        List.filter_cons_of_pos (p := fun m : Macro => wanted av m.header) hw, List.length_cons]
    · rw [List.countP_cons_of_neg (by simp [kept, hw]), hms,
        List.filter_cons_of_neg (p := fun m : Macro => wanted av m.header) hw]

/-! ## The law -/

/-- What holds of every macro space in its pool: the count, the sizes, and a segment whose
size an `int` holds. -/
structure APIDATA.Valid (s : APIDATA) : Prop where
  count : s.macrocount = s.chain.length
  sized : ∀ m ∈ s.chain, m.header.i_size.toNat = m.img.length
  fits : (s.chain.map fun m => MACROSIZE + m.img.length).sum < 2 ^ 31

/-- No table of `n` headers passes the checks of the names. -/
def AlwaysRefused (s : APIDATA) (av : List PSZ) (n : ℕ) : Prop :=
  ∀ ms : List MACRO, ms.length = n → (refusal s av ms).isSome

/-- The cut after `k` bytes is noticed: it falls inside a piece that is read, or the names
are refused whatever the buffers hold. -/
def Noticed (s : APIDATA) (av : List PSZ) (list : List Macro) (k : ℕ) : Prop :=
  (0 < k ∧ k < 12) ∨ (12 < k ∧ k < 16) ∨ (16 < k ∧ k < 20) ∨ (20 < k ∧ k < imagesAt list) ∨
  ((k = 0 ∨ k = 12 ∨ k = 16) ∧ s.mcount ≠ 0 ∧ AlwaysRefused s av s.mcount.toNat) ∨
  (k = 20 ∧ AlwaysRefused s av list.length) ∨
  (imagesAt list ≤ k ∧
    ((refusal s av (list.map Macro.header)).isSome ∨ CutsImage av (imagesAt list) list k))

section Saved

variable {s : APIDATA} {names : List PSZ} {file : List UInt8}

theorem length_chain_lt (hs : s.Valid) : s.chain.length < 2 ^ 31 := by
  have hle : s.chain.length ≤ (s.chain.map fun m => MACROSIZE + m.img.length).sum := by
    have h : ∀ chain : List Macro,
        chain.length ≤ (chain.map fun m => MACROSIZE + m.img.length).sum := by
      intro chain
      induction chain with
      | nil => exact Nat.le_refl _
      | cons m chain ih =>
        rw [List.length_cons, List.map_cons, List.sum_cons]
        simp only [MACROSIZE] at ih ⊢
        omega
    exact h s.chain
  exact Nat.lt_of_le_of_lt hle hs.fits

theorem img_lt (hs : s.Valid) {m : Macro} (hm : m ∈ s.chain) : m.img.length < 2 ^ 31 := by
  have hle : MACROSIZE + m.img.length ≤ (s.chain.map fun m => MACROSIZE + m.img.length).sum :=
    List.le_sum_of_mem (List.mem_map_of_mem (f := fun m => MACROSIZE + m.img.length) hm)
  have hfits := hs.fits
  omega

theorem save_eq (hs : s.Valid) (hsave : (RexxSaveMacroSpace s names).2.1 = some file) :
    ∃ list, list = (makelst s names).1 ∧ list ≠ [] ∧ list.Sublist s.chain ∧
      list.length < 2 ^ 31 ∧
      file = fileStart list ++ (list.map Macro.header).flatMap MACRO.bytes ++
        list.flatMap Macro.img := by
  let list := (makelst s names).1
  have hsub : list.Sublist s.chain := by
    simp only [list, makelst]
    split
    · exact List.nil_sublist _
    · exact List.filter_sublist
  have hlt : list.length < 2 ^ 31 := Nat.lt_of_le_of_lt hsub.length_le (length_chain_lt hs)
  simp only [RexxSaveMacroSpace] at hsave
  change (if UInt32.ofNat list.length = 0 then _ else _ : ReturnCode × Option (List UInt8) ×
    APIDATA).2.1 = some file at hsave
  split at hsave
  · cases hsave
  · rename_i hne
    refine ⟨list, rfl, ?_, hsub, hlt, ?_⟩
    · intro hnil
      rw [hnil] at hne
      exact hne rfl
    · have hfile := (Option.some.inj hsave).symm
      rw [hfile, List.flatMap_map]
      rfl

theorem length_fileStart (list : List Macro) : (fileStart list).length = 20 := rfl

theorem length_fileHead (list : List Macro) :
    (fileStart list ++ (list.map Macro.header).flatMap MACRO.bytes).length = imagesAt list := by
  rw [List.length_append, length_fileStart, length_flatMap_bytes, List.length_map, imagesAt]

end Saved

/-! ### The stages of a load from a file that was cut off -/

section Stages

variable {list : List Macro} (u : Uninitialised) (o : Addresses) (t : APIDATA) (av : List PSZ)

def savedBytes (list : List Macro) : List UInt8 :=
  fileStart list ++ (list.map Macro.header).flatMap MACRO.bytes ++ list.flatMap Macro.img

def afterFlag (list : List Macro) : List UInt8 :=
  ULONG.bytes (.ofNat list.length) ++ (list.map Macro.header).flatMap MACRO.bytes ++
    list.flatMap Macro.img

theorem savedBytes_eq (list : List Macro) :
    savedBytes list = RXVERSION ++ ULONG.bytes SIGNATURE ++ afterFlag list := by
  simp only [savedBytes, fileStart, afterFlag, List.append_assoc]

theorem length_savedBytes (list : List Macro) :
    (savedBytes list).length = imagesAt list + (list.flatMap Macro.img).length := by
  rw [savedBytes, List.length_append, length_fileHead]

variable (list) in
theorem read_count (c : UInt32) (hk : 20 ≤ k) :
    fileRead (cut (savedBytes list) k 16) (ULONG.bytes c) 4 =
      ⟨false, ULONG.bytes (.ofNat list.length), cut (savedBytes list) k 20⟩ := by
  have h := fileRead_cut_piece (x := RXVERSION ++ ULONG.bytes SIGNATURE) (p := 16)
    (y := ULONG.bytes (.ofNat list.length)) (k := k) (l := 4) (b := ULONG.bytes c)
    (z := (list.map Macro.header).flatMap MACRO.bytes ++ list.flatMap Macro.img)
    rfl rfl rfl hk
  rw [savedBytes, List.append_assoc]
  exact h

variable (list) in
theorem read_headers (b : List UInt8) (hb : b.length = list.length * MACROSIZE)
    (hk : imagesAt list ≤ k) :
    fileRead (cut (savedBytes list) k 20) b (list.length * MACROSIZE) =
      ⟨false, (list.map Macro.header).flatMap MACRO.bytes,
        cut (savedBytes list) k (imagesAt list)⟩ := by
  apply fileRead_cut_piece (length_fileStart list) _ hb hk
  rw [length_flatMap_bytes, List.length_map]

theorem read_count_end (c : UInt32) (whole : List UInt8) (hk : k ≤ p) :
    fileRead (cut whole k p) (ULONG.bytes c) 4 = ⟨false, ULONG.bytes c, cut whole k p⟩ :=
  fileRead_cut_end hk _ _

theorem cut_at_end {whole : List UInt8} (hk : k ≤ p) :
    (cut whole k p).bytes.length ≤ (cut whole k p).pos := by
  rw [cut_bytes, cut_pos, List.length_take]
  omega

theorem opens_early (rest : List UInt8) (hk : k = 0 ∨ k = 12) {f : ByteStream}
    (h : macrofileOpen u ((RXVERSION ++ ULONG.bytes SIGNATURE ++ rest).take k) = .ok f) :
    f = cut (RXVERSION ++ ULONG.bytes SIGNATURE ++ rest) k k := by
  rcases hk with rfl | rfl
  · simp only [macrofileOpen, List.take_zero, fileRead_end ⟨[], 0⟩ (Nat.le_refl _),
      Bool.false_eq_true, if_false] at h
    split at h
    · cases h
    · split at h
      · cases h
      · exact (Except.ok.inj h).symm
  · have hread := fileRead_version RXVERSION (ULONG.bytes SIGNATURE) rest
      u.buf rfl (Nat.le_refl 12)
    simp only [macrofileOpen, hread, fileRead_cut_end (Nat.le_refl 12), Bool.false_eq_true,
      if_false, ne_eq, not_true_eq_false] at h
    split at h
    · cases h
    · exact (Except.ok.inj h).symm

def AlwaysFails (bytes : List UInt8) : Prop :=
  ∀ u : Uninitialised, (RexxLoadMacroSpace u o t av bytes).1 ≠ RXMACRO_OK

theorem alwaysFails_early (hk : k = 0 ∨ k = 12 ∨ k = 16) :
    AlwaysFails o t av ((savedBytes list).take k) ↔
      t.mcount ≠ 0 ∧ AlwaysRefused t av t.mcount.toNat := by
  have hend := fun v i => ldmacro_end_iff o t av (read_count_end (k := k) (p := k) t.mcount
    (savedBytes list) (Nat.le_refl k)) (cut_at_end (Nat.le_refl k)) v i
  have hversion : List.Vector.toList (⟨RXVERSION, rfl⟩ : List.Vector UInt8 RXVERSIZE) =
      RXVERSION := rfl
  constructor
  · intro h
    apply (hend ⟨RXVERSION, rfl⟩ SIGNATURE).mp
    intro u hbuf hi
    have hopen : macrofileOpen u ((savedBytes list).take k) = .ok (cut (savedBytes list) k k) := by
      rw [savedBytes_eq]
      rcases hk with hk | hk | hk
      · exact opens_stale u _ (hbuf ▸ hversion) hi (Or.inl hk)
      · exact opens_stale u _ (hbuf ▸ hversion) hi (Or.inr hk)
      · rw [hk]
        exact opens_cut u _ (Nat.le_refl 16)
    have hu := h u
    rw [RexxLoadMacroSpace, hopen] at hu
    exact hu
  · intro h u
    rw [RexxLoadMacroSpace]
    cases hopen : macrofileOpen u ((savedBytes list).take k) with
    | error rc => exact macrofileOpen_ne_ok hopen
    | ok f =>
      have hf : f = cut (savedBytes list) k k := by
        rw [savedBytes_eq] at hopen ⊢
        rcases hk with hk | hk | hk
        · exact opens_early u _ (Or.inl hk) hopen
        · exact opens_early u _ (Or.inr hk) hopen
        · rw [hk] at hopen ⊢
          exact (Except.ok.inj ((opens_cut u _ (Nat.le_refl 16)).symm.trans hopen)).symm
      rw [hf]
      exact (hend u.buf u.i).mpr h u rfl rfl

theorem alwaysFails_inside (hne : list ≠ []) (hlt : list.length < 2 ^ 31)
    (hk : (0 < k ∧ k < 12) ∨ (12 < k ∧ k < 16) ∨ (16 < k ∧ k < 20) ∨
      (20 < k ∧ k < imagesAt list)) :
    AlwaysFails o t av ((savedBytes list).take k) := by
  intro u
  have hlength : imagesAt list ≤ (savedBytes list).length := by
    rw [length_savedBytes]
    exact Nat.le_add_right _ _
  have h20 : 20 ≤ imagesAt list := Nat.le_add_right _ _
  rw [RexxLoadMacroSpace]
  rcases Nat.lt_or_ge k 16 with hlt16 | hge16
  · rw [savedBytes_eq, opens_inside u _ (by omega) hlt16 (by omega)]
    change RXMACRO_FILE_ERROR ≠ RXMACRO_OK
    decide
  · rw [savedBytes_eq, opens_cut u _ hge16, ← savedBytes_eq]
    rcases Nat.lt_or_ge k 20 with hlt20 | hge20
    · have hread := fileRead_cut_inside (w := savedBytes list) (p := 16) (l := 4) (k := k)
        (by omega) (by omega) (by omega) (ULONG.bytes t.mcount)
      simp only [ ldmacro, hread, if_true]
      exact ReturnCode.noConfusion
    · have hcount := read_count list t.mcount hge20
      have hn : (UInt32.ofNat list.length).toNat = list.length := by
        rw [UInt32.toNat_ofNat']
        omega
      have hpos : 0 < list.length := List.length_pos_iff.mpr hne
      have hsize : ¬ list.length * MACROSIZE = 0 := by
        simp only [MACROSIZE]
        omega
      have hread := fileRead_cut_inside (w := savedBytes list) (p := 20)
        (l := list.length * MACROSIZE) (k := k) (by omega) (by omega)
        (by rw [imagesAt] at hk; omega) (malloc u.tbase (list.length * MACROSIZE))
      simp only [ ldmacro, hcount, Bool.false_eq_true, if_false, ULONG.ofBytes_bytes, hn, hsize,
        hread, if_true]
      exact ReturnCode.noConfusion

theorem alwaysFails_noHeaders (hlt : list.length < 2 ^ 31) (hne : list ≠ []) :
    AlwaysFails o t av ((savedBytes list).take 20) ↔ AlwaysRefused t av list.length := by
  have hn : (UInt32.ofNat list.length).toNat = list.length := by
    rw [UInt32.toNat_ofNat']
    omega
  have hc : UInt32.ofNat list.length ≠ 0 := by
    intro h
    have h0 := congrArg UInt32.toNat h
    rw [hn] at h0
    exact hne (List.length_eq_zero_iff.mp h0)
  have hend := fun v i => ldmacro_end_iff o t av (read_count list t.mcount
    (Nat.le_refl 20)) (cut_at_end (Nat.le_refl 20)) v i
  rw [hn] at hend
  have hload : ∀ u, RexxLoadMacroSpace u o t av ((savedBytes list).take 20) =
      ldmacro u o t av (cut (savedBytes list) 20 16) := by
    intro u
    rw [RexxLoadMacroSpace, savedBytes_eq, opens_cut u _ (by decide)]
  constructor
  · intro h
    refine ((hend ⟨RXVERSION, rfl⟩ SIGNATURE).mp fun u _ _ => ?_).2
    rw [← hload u]
    exact h u
  · intro h u
    rw [hload u]
    exact (hend u.buf u.i).mpr ⟨hc, h⟩ u rfl rfl

theorem load_behindHeaders (hne : list ≠ []) (hlt : list.length < 2 ^ 31)
    (hk : imagesAt list ≤ k) :
    RexxLoadMacroSpace u o t av ((savedBytes list).take k) =
      match refusal t av (list.map Macro.header) with
      | some rc => (rc, { t with mcount := .ofNat list.length })
      | none =>
        match readImages u av 0 (list.map Macro.header)
          (cut (savedBytes list) k (imagesAt list)) with
        | .error rc => (rc, { t with mcount := .ofNat list.length })
        | .ok bufs =>
          let copied := (list.map Macro.header).zip bufs
          (RXMACRO_OK,
            { t with
              chain := dupList o 0 o.mbase copied t.chain
              mcount := .ofNat (newMcount copied)
              macrocount := t.macrocount + newMcount copied }) := by
  have hn : (UInt32.ofNat list.length).toNat = list.length := by
    rw [UInt32.toNat_ofNat']
    omega
  have hc : UInt32.ofNat list.length ≠ 0 := by
    intro h
    have h0 := congrArg UInt32.toNat h
    rw [hn] at h0
    exact hne (List.length_eq_zero_iff.mp h0)
  have h20 : 20 ≤ imagesAt list := Nat.le_add_right _ _
  have hopen := opens_cut u (afterFlag list) (show 16 ≤ k by omega)
  rw [← savedBytes_eq] at hopen
  have hread := read_headers list (k := k)
    (malloc u.tbase (list.length * MACROSIZE)) (length_malloc _ _) hk
  have hheaders := headersOf_flatMap (list.map Macro.header)
  rw [List.length_map] at hheaders
  rw [RexxLoadMacroSpace, hopen]
  exact ldmacro_headers u o t av (read_count list t.mcount (by omega)) hc (by rw [hn]; exact hread)
    (by rw [hn]; exact hheaders)

theorem alwaysFails_behindHeaders (hne : list ≠ []) (hlt : list.length < 2 ^ 31)
    (hsized : Sized list) (hskip : Skippable (list.map Macro.header))
    (hk : imagesAt list ≤ k) (hk' : k ≤ (savedBytes list).length) :
    AlwaysFails o t av ((savedBytes list).take k) ↔
      (refusal t av (list.map Macro.header)).isSome ∨ CutsImage av (imagesAt list) list k := by
  have himages := fun u => readImages_cut u av 0 list
    (fileStart list ++ (list.map Macro.header).flatMap MACRO.bytes) hsized hskip hk'
    (length_fileHead list)
  rw [← savedBytes] at himages
  have hload := fun u => load_behindHeaders u o t av hne hlt hk
  cases href : refusal t av (list.map Macro.header) with
  | some rc =>
    refine iff_of_true (fun u => ?_) (Or.inl rfl)
    rw [hload u, href]
    exact refusal_ne_ok href
  | none =>
    constructor
    · intro h
      right
      by_contra hcut
      let u : Uninitialised := ⟨⟨RXVERSION, rfl⟩, SIGNATURE, fun _ => 0, fun _ _ => 0⟩
      obtain ⟨bufs, hbufs⟩ := (himages u).2 hcut
      apply h u
      rw [hload u, href, hbufs]
    · intro h u
      obtain ⟨rc, hrc, hbufs⟩ := (himages u).1 (h.resolve_left Bool.false_ne_true)
      rw [hload u, href, hbufs]
      exact hrc

theorem alwaysFails_iff (hne : list ≠ []) (hlt : list.length < 2 ^ 31) (hsized : Sized list)
    (hskip : Skippable (list.map Macro.header)) (hk : k ≤ (savedBytes list).length) :
    AlwaysFails o t av ((savedBytes list).take k) ↔ Noticed t av list k := by
  have h20 : 20 ≤ imagesAt list := Nat.le_add_right _ _
  have h20' : 20 < imagesAt list := by
    have hpos : 0 < list.length := List.length_pos_iff.mpr hne
    simp only [imagesAt, MACROSIZE]
    omega
  by_cases hinside : (0 < k ∧ k < 12) ∨ (12 < k ∧ k < 16) ∨ (16 < k ∧ k < 20) ∨
      (20 < k ∧ k < imagesAt list)
  · refine iff_of_true (alwaysFails_inside o t av hne hlt hinside) ?_
    rcases hinside with h | h | h | h
    · exact Or.inl h
    · exact Or.inr (Or.inl h)
    · exact Or.inr (Or.inr (Or.inl h))
    · exact Or.inr (Or.inr (Or.inr (Or.inl h)))
  · have hnoticed : Noticed t av list k ↔
        ((k = 0 ∨ k = 12 ∨ k = 16) ∧ t.mcount ≠ 0 ∧ AlwaysRefused t av t.mcount.toNat) ∨
        (k = 20 ∧ AlwaysRefused t av list.length) ∨
        (imagesAt list ≤ k ∧ ((refusal t av (list.map Macro.header)).isSome ∨
          CutsImage av (imagesAt list) list k)) := by
      simp only [not_or] at hinside
      rw [Noticed, or_iff_right hinside.1, or_iff_right hinside.2.1,
        or_iff_right hinside.2.2.1, or_iff_right hinside.2.2.2]
    rw [hnoticed]
    clear hnoticed
    rcases Nat.lt_or_ge k (imagesAt list) with hlt' | hge
    · by_cases hk20 : k = 20
      · subst hk20
        rw [alwaysFails_noHeaders o t av hlt hne]
        constructor
        · exact fun h => Or.inr (Or.inl ⟨rfl, h⟩)
        · rintro (h | h | h)
          · omega
          · exact h.2
          · omega
      · have hearly : k = 0 ∨ k = 12 ∨ k = 16 := by omega
        rw [alwaysFails_early o t av hearly]
        constructor
        · exact fun h => Or.inl ⟨hearly, h⟩
        · rintro (h | h | h)
          · exact h.2
          · exact absurd h.1 hk20
          · omega
    · rw [alwaysFails_behindHeaders o t av hne hlt hsized hskip hge hk]
      constructor
      · exact fun h => Or.inr (Or.inr ⟨hge, h⟩)
      · rintro (h | h | h)
        · omega
        · omega
        · exact h.2

theorem refusal_none (hsaved : ∀ a ∈ av, ∃ m ∈ list, sameName m.header.cname a = true)
    (hnew : ∀ m ∈ list, wanted av m.header = true → doesExist t m.header.cname = none) :
    refusal t av (list.map Macro.header) = none := by
  by_cases hav : av.isEmpty = true
  · have hany : ((list.map Macro.header).any fun w => (doesExist t w.cname).isSome) = false := by
      rw [List.any_map, List.any_eq_false]
      intro m hm
      have hw : wanted av m.header = true := by rw [wanted, hav, Bool.true_or]
      simp [hnew m hm hw]
    simp [refusal, hav, hany]
  · have hargs : ∀ bv : List PSZ, bv ⊆ av →
        checkArguments t (list.map Macro.header) bv = none := by
      intro bv
      induction bv with
      | nil => exact fun _ => rfl
      | cons name bv ih =>
        intro hsub
        have hname : name ∈ av := hsub List.mem_cons_self
        obtain ⟨m, hm, hsame⟩ := hsaved name hname
        have hsavedMacro : savedMacro name (list.map Macro.header) = true := by
          rw [savedMacro, List.any_map, List.any_eq_true]
          exact ⟨m, hm, hsame⟩
        have hw : wanted av m.header = true := by
          rw [wanted, request, Bool.or_eq_true, List.any_eq_true]
          exact Or.inr ⟨name, hname, hsame⟩
        have hnone : doesExist t name = none := by
          rw [← doesExist_congr t hsame]
          exact hnew m hm hw
        simp only [checkArguments, hsavedMacro, not_true_eq_false, if_false, hnone,
          Option.isSome_none, Bool.false_eq_true]
        exact ih fun x hx => hsub (List.mem_cons_of_mem _ hx)
    rw [refusal, if_neg hav]
    exact hargs av (List.Subset.refl _)

theorem load_whole (hne : list ≠ []) (hlt : list.length < 2 ^ 31) (hsized : Sized list)
    (hskip : Skippable (list.map Macro.header)) (himg : ∀ m ∈ list, m.img ≠ [])
    (hrefusal : refusal t av (list.map Macro.header) = none) :
    let r := RexxLoadMacroSpace u o t av (savedBytes list)
    r.1 = RXMACRO_OK ∧
      r.2.chain.map Macro.view =
        ((list.filter fun m => wanted av m.header).map Macro.view).reverse ++
          t.chain.map Macro.view ∧
      r.2.macrocount = t.macrocount + (list.filter fun m => wanted av m.header).length := by
  have hload := load_behindHeaders (k := (savedBytes list).length) u o t av hne
    hlt (by rw [length_savedBytes]; exact Nat.le_add_right _ _)
  have himages := readImages_whole u av 0 list
    (fileStart list ++ (list.map Macro.header).flatMap MACRO.bytes) hsized hskip
    (length_fileHead list) rfl
  rw [List.take_length, hrefusal] at hload
  rw [← savedBytes] at himages
  simp only [himages] at hload
  intro r
  have hr : r = _ := hload
  rw [hr]
  exact ⟨rfl, dupList_view o av 0 o.mbase list t.chain himg,
    congrArg (t.macrocount + ·) (newMcount_kept av list himg)⟩

end Stages

def oneMacro : Macro :=
  ⟨⟨0, .cons 65 (.replicate 254 0), 0, 0, 0, 300, 1, 1⟩, [7]⟩

def oneMacroSpace : APIDATA := ⟨[oneMacro], 1, 0⟩

theorem oneMacroSpace_valid : oneMacroSpace.Valid where
  count := rfl
  sized := by
    intro m hm
    rw [List.mem_singleton.mp hm]
    rfl
  fits := by
    change 280 + 1 + 0 < 2 ^ 31
    omega

theorem oneMacroSpace_images : ∀ m ∈ oneMacroSpace.chain, m.img ≠ [] := by
  intro m hm
  rw [List.mem_singleton.mp hm]
  exact List.cons_ne_nil _ _

theorem makelst_oneMacro : (makelst oneMacroSpace []).1 = [oneMacro] := rfl

theorem save_oneMacro :
    (RexxSaveMacroSpace oneMacroSpace []).2.1 = some (savedBytes [oneMacro]) := by
  rw [savedBytes, List.flatMap_map]
  rfl

def emptySpace : APIDATA := ⟨[], 0, 0⟩

def nines : Uninitialised := ⟨.replicate _ 9, 9, fun _ => 9, fun _ _ => 9⟩

def someAddresses : Addresses := ⟨0, fun _ => 8, fun _ => 288, fun _ => 4096⟩

end LeooRexx
