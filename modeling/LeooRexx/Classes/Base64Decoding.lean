import LeooRexx.Classes.Base64

/-!
# Strings that are not Base64

`decodeBase64` checks the characters of a string as it reads them.  It stops at the first pad of
the last group, wherever that pad is, and has already stored the start of the next byte there.
-/

namespace LeooRexx

namespace Base64

/-- Groups of four characters, where only the last one may have pads at its end. -/
def WellFormed : List UInt8 → Prop
  | [] => True
  | [a, b, c, d] =>
      a ∈ cb64 ∧ b ∈ cb64 ∧ (c ∈ cb64 ∧ (d ∈ cb64 ∨ d = pad) ∨ c = pad ∧ d = pad)
  | a :: b :: c :: d :: source =>
      a ∈ cb64 ∧ b ∈ cb64 ∧ c ∈ cb64 ∧ d ∈ cb64 ∧ WellFormed source
  | _ => False

/-- The string without the low bits that its last data character has before a pad. -/
def clearLowBits : List UInt8 → List UInt8
  | [a, b, c, d] =>
      if d ≠ pad then [a, b, c, d]
      else if c ≠ pad then [a, b, digit (cb64.idxOf c &&& 0x3c), d]
      else [a, digit (cb64.idxOf b &&& 0x30), c, d]
  | a :: b :: c :: d :: source => a :: b :: c :: d :: clearLowBits source
  | source => source

/--
What is decoded is just what is well formed, the length that was computed is the length that is
written, and encoding the result again gives the string.
-/
def DecodesStrictly (source : List UInt8) : Prop :=
  ((∃ w, decodeBase64 source = .ok w) ↔ WellFormed source) ∧
    ∀ w, decodeBase64 source = .ok w →
      w.Exact ∧ (encodeBase64 w.string).string = clearLowBits source

def PadRead (source : List UInt8) : Prop :=
  source.length % 4 = 0 ∧ ∃ before after, source = before ++ pad :: after ∧
    (∀ ch ∈ before, ch ∈ cb64) ∧ after.length < 4

/-! ## Characters of the alphabet -/

theorem exists_digit {ch : UInt8} (h : ch ∈ cb64) : ∃ k < 64, ch = digit k := by
  have hlt : cb64.idxOf ch < cb64.length := List.idxOf_lt_length_of_mem h
  refine ⟨cb64.idxOf ch, hlt, ?_⟩
  rw [digit, List.getD_eq_getElem?_getD, List.getElem?_eq_getElem hlt, List.getElem_idxOf]
  rfl

theorem idxOf_eq_iff {ch : UInt8} : cb64.idxOf ch = 64 ↔ ch ∉ cb64 :=
  List.idxOf_eq_length_iff

theorem pad_notMem : pad ∉ cb64 := by decide

theorem sextets (i : Nat) (hi : i < 64) (j : Nat) (hj : j < 64) :
    (UInt8.ofNat (i <<< 2) ||| UInt8.ofNat (j >>> 4)).toNat >>> 2 = i ∧
    (UInt8.ofNat (i <<< 2) ||| UInt8.ofNat (j >>> 4)).toNat &&& 0x03 = j >>> 4 ∧
    ((UInt8.ofNat (i <<< 4) ||| UInt8.ofNat (j >>> 2)).toNat &&& 0xf0) >>> 4 = i &&& 0x0f ∧
    (UInt8.ofNat (i <<< 4) ||| UInt8.ofNat (j >>> 2)).toNat &&& 0x0f = j >>> 2 ∧
    ((UInt8.ofNat (i <<< 6) ||| UInt8.ofNat j).toNat &&& 0xc0) >>> 6 = i &&& 0x03 ∧
    (UInt8.ofNat (i <<< 6) ||| UInt8.ofNat j).toNat &&& 0x3f = j := by
  have hshift : ∀ n, n >>> 2 = n / 2 ^ 2 := fun n => Nat.shiftRight_eq_div_pow n 2
  have hlow₂ : ∀ n, n &&& 0x03 = n % 2 ^ 2 := fun n => Nat.and_two_pow_sub_one_eq_mod n 2
  have hhigh₄ : ∀ n, (n &&& 0xf0) >>> 4 = n / 2 ^ 4 % 2 ^ 4 := fun n => Bits.high_bits n 4 4
  have hlow₄ : ∀ n, n &&& 0x0f = n % 2 ^ 4 := fun n => Nat.and_two_pow_sub_one_eq_mod n 4
  have hhigh₆ : ∀ n, (n &&& 0xc0) >>> 6 = n / 2 ^ 6 % 2 ^ 2 := fun n => Bits.high_bits n 6 2
  have hlow₆ : ∀ n, n &&& 0x3f = n % 2 ^ 6 := fun n => Nat.and_two_pow_sub_one_eq_mod n 6
  rw [Bits.toNat_join i (m := 6) rfl (by omega : j >>> 4 < 2 ^ 2),
    Bits.toNat_join i (m := 4) rfl (by omega : j >>> 2 < 2 ^ 4),
    Bits.toNat_join i (m := 2) rfl (by omega : j < 2 ^ 6)]
  simp only [hshift, hlow₂, hhigh₄, hlow₄, hhigh₆, hlow₆]
  omega

theorem sextet_halves : ∀ j < 64, (j >>> 4) <<< 4 ||| (j &&& 0x0f) = j ∧
    (j >>> 2) <<< 2 ||| (j &&& 0x03) = j := by
  decide

theorem decodeGroup_alphabet {a b c d : UInt8} (ha : a ∈ cb64) (hb : b ∈ cb64) (hc : c ∈ cb64)
    (hd : d ∈ cb64) (bytes : List UInt8) :
    ∃ x y z, encodeGroup x.toNat y.toNat z.toNat 3 = [a, b, c, d] ∧
      ∀ inputLength, decodeGroup inputLength 0 [a, b, c, d] (.closed bytes) =
        .ok (.closed (bytes ++ [x, y, z])) := by
  obtain ⟨i, hi, rfl⟩ := exists_digit ha
  obtain ⟨j, hj, rfl⟩ := exists_digit hb
  obtain ⟨k, hk, rfl⟩ := exists_digit hc
  obtain ⟨l, hl, rfl⟩ := exists_digit hd
  refine ⟨UInt8.ofNat (i <<< 2) ||| UInt8.ofNat (j >>> 4),
    UInt8.ofNat (j <<< 4) ||| UInt8.ofNat (k >>> 2), UInt8.ofNat (k <<< 6) ||| UInt8.ofNat l,
    ?_, fun inputLength => ?_⟩
  · obtain ⟨hfirst, hlow, -⟩ := sextets i hi j hj
    obtain ⟨-, -, hhigh, hlow', -⟩ := sextets j hj k hk
    obtain ⟨-, -, -, -, hhigh', hlast⟩ := sextets k hk l hl
    simp only [encodeGroup, hfirst, hlow, hhigh, hlow', hhigh', hlast, (sextet_halves j hj).1,
      (sextet_halves k hk).2, gt_iff_lt, Nat.reduceLT, if_true]
  · rw [decodeGroup_digit _ 0 hi, decodeGroup_digit _ 1 hj, decodeGroup_digit _ 2 hk,
      decodeGroup_digit _ 3 hl, decodeDigit_zero, decodeDigit_one, decodeDigit_two,
      decodeDigit_three]
    simp [decodeGroup]

theorem decodeLoop_alphabet (source : List UInt8) (hfour : source.length % 4 = 0)
    (halphabet : ∀ ch ∈ source, ch ∈ cb64) (bytes : List UInt8) :
    ∃ out, out.length = source.length / 4 * 3 ∧ encodeLoop out = source ∧
      ∀ rest, decodeLoop (source ++ rest) (.closed bytes) =
        decodeLoop rest (.closed (bytes ++ out)) := by
  match source, hfour with
  | [], _ => exact ⟨[], rfl, rfl, fun rest => by rw [List.append_nil]; rfl⟩
  | [_], h => simp at h
  | [_, _], h => simp at h
  | [_, _, _], h => simp at h
  | a :: b :: c :: d :: source, hfour =>
      obtain ⟨x, y, z, hencode, hgroup⟩ := decodeGroup_alphabet (halphabet a (by simp))
        (halphabet b (by simp)) (halphabet c (by simp)) (halphabet d (by simp)) bytes
      have hrest : source.length % 4 = 0 := by
        simp only [List.length_cons] at hfour
        omega
      obtain ⟨out, hlength, hloop, hdecode⟩ := decodeLoop_alphabet source hrest
        (fun ch hch => halphabet ch (by simp [hch])) (bytes ++ [x, y, z])
      refine ⟨x :: y :: z :: out, ?_, ?_, fun rest => ?_⟩
      · simp only [List.length_cons]
        omega
      · rw [encodeLoop, hencode, hloop]
        rfl
      · rw [List.cons_append, List.cons_append, List.cons_append, List.cons_append, decodeLoop,
          hgroup]
        change decodeLoop (source ++ rest) _ = _
        rw [hdecode, List.append_assoc]
        rfl

/-! ## The first character outside the alphabet -/

theorem decodeGroup_outside {inputLength : Nat} {ch : UInt8} (hch : ch ∉ cb64) (i : Nat)
    (source : List UInt8) (o : Output) :
    decodeGroup inputLength i (ch :: source) o =
      if ch = pad ∧ inputLength ≤ 4 then .ok o else .error .invbase64 := by
  simp only [decodeGroup, idxOf_eq_iff.2 hch, if_true]

theorem decodeGroup_before (before : List UInt8) (halphabet : ∀ ch ∈ before, ch ∈ cb64)
    (hshort : before.length < 4) (bytes : List UInt8) :
    ∃ o : Output, o.bytes.length = bytes.length + before.length ∧
      ∀ inputLength rest, decodeGroup inputLength 0 (before ++ rest) (.closed bytes) =
        decodeGroup inputLength before.length rest o := by
  match before, hshort with
  | [], _ => exact ⟨.closed bytes, rfl, fun _ _ => rfl⟩
  | [a], _ =>
      obtain ⟨i, hi, rfl⟩ := exists_digit (halphabet a (by simp))
      refine ⟨.opened bytes (UInt8.ofNat (i <<< 2)), by simp [Output.opened], fun n rest => ?_⟩
      rw [List.singleton_append, decodeGroup_digit n 0 hi, decodeDigit_zero]
      rfl
  | [a, b], _ =>
      obtain ⟨i, hi, rfl⟩ := exists_digit (halphabet a (by simp))
      obtain ⟨j, hj, rfl⟩ := exists_digit (halphabet b (by simp))
      refine ⟨.opened (bytes ++ [UInt8.ofNat (i <<< 2) ||| UInt8.ofNat (j >>> 4)])
        (UInt8.ofNat (j <<< 4)), by simp [Output.opened], fun n rest => ?_⟩
      rw [List.cons_append, List.singleton_append, decodeGroup_digit n 0 hi,
        decodeGroup_digit n 1 hj, decodeDigit_zero, decodeDigit_one]
      rfl
  | [a, b, c], _ =>
      obtain ⟨i, hi, rfl⟩ := exists_digit (halphabet a (by simp))
      obtain ⟨j, hj, rfl⟩ := exists_digit (halphabet b (by simp))
      obtain ⟨k, hk, rfl⟩ := exists_digit (halphabet c (by simp))
      refine ⟨.opened (bytes ++ [UInt8.ofNat (i <<< 2) ||| UInt8.ofNat (j >>> 4)] ++
        [UInt8.ofNat (j <<< 4) ||| UInt8.ofNat (k >>> 2)]) (UInt8.ofNat (k <<< 6)),
        by simp [Output.opened], fun n rest => ?_⟩
      rw [List.cons_append, List.cons_append, List.singleton_append,
        decodeGroup_digit n 0 hi, decodeGroup_digit n 1 hj, decodeGroup_digit n 2 hk,
        decodeDigit_zero, decodeDigit_one, decodeDigit_two]
      rfl
  | _ :: _ :: _ :: _ :: before, h =>
      simp only [List.length_cons] at h
      omega

theorem alphabet_or_outside (source : List UInt8) : (∀ ch ∈ source, ch ∈ cb64) ∨
    ∃ before ch after, source = before ++ ch :: after ∧ (∀ ch ∈ before, ch ∈ cb64) ∧
      ch ∉ cb64 := by
  induction source with
  | nil => exact .inl fun ch hch => absurd hch List.not_mem_nil
  | cons a source ih =>
      by_cases ha : a ∈ cb64
      · rcases ih with hall | ⟨before, ch, after, rfl, hbefore, hch⟩
        · exact .inl fun ch hch => (List.mem_cons.1 hch).elim (fun heq => heq ▸ ha) (hall ch)
        · exact .inr ⟨a :: before, ch, after, rfl,
            fun x hx => (List.mem_cons.1 hx).elim (fun heq => heq ▸ ha) (hbefore x), hch⟩
      · exact .inr ⟨[], a, source, rfl, fun ch hch => absurd hch List.not_mem_nil, ha⟩

theorem WellFormed.length_mod (source : List UInt8) (h : WellFormed source) :
    source.length % 4 = 0 := by
  fun_induction WellFormed source with
  | case1 => rfl
  | case2 => simp
  | case3 a b c d source _ ih =>
      have := ih h.2.2.2.2
      simp only [List.length_cons]
      omega
  | case4 => exact h.elim

theorem wellFormed_alphabet (source : List UInt8) (hfour : source.length % 4 = 0)
    (halphabet : ∀ ch ∈ source, ch ∈ cb64) :
    WellFormed source ∧ clearLowBits source = source := by
  match source, hfour with
  | [], _ => exact ⟨trivial, rfl⟩
  | [_], h => simp at h
  | [_, _], h => simp at h
  | [_, _, _], h => simp at h
  | [a, b, c, d], _ =>
      have hd := halphabet d (by simp)
      refine ⟨⟨halphabet a (by simp), halphabet b (by simp),
        .inl ⟨halphabet c (by simp), .inl hd⟩⟩, ?_⟩
      rw [clearLowBits, if_pos fun heq : d = pad => pad_notMem (heq ▸ hd)]
  | a :: b :: c :: d :: e :: source, hfour =>
      have hrest : (e :: source).length % 4 = 0 := by
        simp only [List.length_cons] at hfour ⊢
        omega
      have ih := wellFormed_alphabet (e :: source) hrest fun ch hch =>
        halphabet ch (by simp only [List.mem_cons] at hch ⊢; tauto)
      refine ⟨⟨halphabet a (by simp), halphabet b (by simp), halphabet c (by simp),
        halphabet d (by simp), ih.1⟩, ?_⟩
      simp only [clearLowBits]
      rw [ih.2]

/-! ## The whole string -/

theorem exists_group {source before after : List UInt8} {ch : UInt8}
    (hfour : source.length % 4 = 0) (hsource : source = before ++ ch :: after)
    (halphabet : ∀ x ∈ before, x ∈ cb64) :
    ∃ whole part, source = whole ++ (part ++ ch :: after) ∧ whole.length % 4 = 0 ∧
      (∀ x ∈ whole, x ∈ cb64) ∧ (∀ x ∈ part, x ∈ cb64) ∧ part.length < 4 ∧
      (part.length + 1 + after.length) % 4 = 0 := by
  have hlength : before.length / 4 * 4 ≤ before.length := Nat.div_mul_le_self _ 4
  have hwhole : (before.take (before.length / 4 * 4)).length = before.length / 4 * 4 :=
    List.length_take_of_le hlength
  have hpart : (before.drop (before.length / 4 * 4)).length = before.length % 4 := by
    rw [List.length_drop]
    omega
  refine ⟨before.take (before.length / 4 * 4), before.drop (before.length / 4 * 4), ?_, ?_,
    fun x hx => halphabet x (List.mem_of_mem_take hx),
    fun x hx => halphabet x (List.mem_of_mem_drop hx), ?_, ?_⟩
  · rw [← List.append_assoc, List.take_append_drop, hsource]
  · rw [hwhole]
    exact Nat.mul_mod_left _ 4
  · rw [hpart]
    exact Nat.mod_lt _ (by decide)
  · rw [hsource, List.length_append, List.length_cons] at hfour
    rw [hpart]
    omega

def outputLength (source : List UInt8) : Nat :=
  source.length / 4 * 3 - (if source.getD (source.length - 1) 0 = pad then 1 else 0) -
    (if source.getD (source.length - 2) 0 = pad then 1 else 0)

theorem decodeBase64_eq {source : List UInt8} (hne : source ≠ [])
    (hfour : source.length % 4 = 0) :
    decodeBase64 source =
      (decodeLoop source (.closed [])).map fun o => ⟨outputLength source, o.bytes⟩ := by
  have hpos : source.length ≠ 0 := fun h => hne (List.length_eq_zero_iff.1 h)
  have hmod : ¬ source.length % 4 > 0 := by omega
  have hlength : (if source.getD (source.length - 2) 0 = pad then
      (if source.getD (source.length - 1) 0 = pad then source.length / 4 * 3 - 1
        else source.length / 4 * 3) - 1
      else if source.getD (source.length - 1) 0 = pad then source.length / 4 * 3 - 1
        else source.length / 4 * 3) = outputLength source := by
    rw [outputLength]
    split <;> split <;> rfl
  simp only [decodeBase64, hpos, hmod, if_false, hlength]
  change (decodeLoop source (.closed [])).bind _ = _
  cases decodeLoop source (.closed []) <;> rfl

theorem decodeLoop_length {source : List UInt8} (hfour : source.length % 4 ≠ 0) :
    decodeBase64 source = .error .invbase64 := by
  have hpos : source.length ≠ 0 := fun h => hfour (by rw [h])
  have hmod : source.length % 4 > 0 := by omega
  simp only [decodeBase64, hpos, hmod, if_false, if_true]

theorem decodeBase64_outside {whole part after : List UInt8} {ch : UInt8}
    (hwhole : whole.length % 4 = 0) (hwholeAlphabet : ∀ x ∈ whole, x ∈ cb64)
    (halphabet : ∀ x ∈ part, x ∈ cb64) (hshort : part.length < 4)
    (hfour : (part.length + 1 + after.length) % 4 = 0) (hch : ch ∉ cb64) :
    if ch = pad ∧ after.length < 4 then
      ∃ w, decodeBase64 (whole ++ (part ++ ch :: after)) = .ok w ∧
        w.allocated = outputLength (whole ++ (part ++ ch :: after)) ∧
        w.bytes.length = whole.length / 4 * 3 + part.length
    else decodeBase64 (whole ++ (part ++ ch :: after)) = .error .invbase64 := by
  have hne : whole ++ (part ++ ch :: after) ≠ [] := by simp
  have hlength : (whole ++ (part ++ ch :: after)).length % 4 = 0 := by
    simp only [List.length_append, List.length_cons]
    omega
  obtain ⟨out, hout, -, hloop⟩ := decodeLoop_alphabet whole hwhole hwholeAlphabet []
  rw [decodeBase64_eq hne hlength, hloop]
  obtain ⟨o, hbytes, hgroup⟩ := decodeGroup_before part halphabet hshort ([] ++ out)
  -- the group is the characters before, the outside one and some of those after it
  obtain ⟨group, rest, hafter, hfull⟩ : ∃ group rest, after = group ++ rest ∧
      part.length + 1 + group.length = 4 :=
    ⟨after.take (3 - part.length), after.drop (3 - part.length),
      (List.take_append_drop _ after).symm, by rw [List.length_take]; omega⟩
  have hstep : decodeLoop (part ++ ch :: after) (.closed ([] ++ out)) =
      (decodeGroup (rest.length + 4) part.length (ch :: group) o).bind (decodeLoop rest) := by
    rw [hafter, ← hgroup]
    have hlist : part ++ ch :: (group ++ rest) = (part ++ ch :: group) ++ rest := by simp
    have hcount : (part ++ ch :: group).length = 4 := by
      simp only [List.length_append, List.length_cons]
      omega
    rw [hlist]
    match part ++ ch :: group, hcount with
    | [a, b, c, d], _ => rfl
  rw [hstep, decodeGroup_outside hch]
  have hlast : rest.length + 4 ≤ 4 ↔ after.length < 4 := by
    rw [hafter, List.length_append]
    rw [hafter, List.length_append] at hfour
    omega
  simp only [hlast]
  split
  · next hpad =>
    have hrest : rest = [] := List.length_eq_zero_iff.1 (by have := hlast.2 hpad.2; omega)
    subst hrest
    refine ⟨_, rfl, rfl, ?_⟩
    change o.bytes.length = _
    rw [hbytes, List.nil_append, hout]
  · rfl

theorem WellFormed.outside (source before after : List UInt8) (ch : UInt8)
    (h : WellFormed source) (hsource : source = before ++ ch :: after) (hch : ch ∉ cb64) :
    ch = pad ∧ (after = [] ∨ after = [pad]) := by
  fun_induction WellFormed source generalizing before with
  | case1 => simp at hsource
  | case2 a b c d =>
      obtain ⟨ha, hb, hpads⟩ := h
      match before with
      | [] =>
          obtain ⟨rfl, -⟩ := List.cons_eq_cons.1 hsource
          exact absurd ha hch
      | [_] =>
          obtain ⟨-, rfl, -⟩ : _ ∧ b = ch ∧ _ := by simpa using hsource
          exact absurd hb hch
      | [_, _] =>
          obtain ⟨-, -, rfl, rfl⟩ : _ ∧ _ ∧ c = ch ∧ [d] = after := by simpa using hsource
          rcases hpads with ⟨hc, -⟩ | ⟨hc, hd⟩
          · exact absurd hc hch
          · exact ⟨hc, .inr (by rw [hd])⟩
      | [_, _, _] =>
          obtain ⟨-, -, -, rfl, hafter⟩ : _ ∧ _ ∧ _ ∧ d = ch ∧ after = [] := by
            simpa using hsource
          rw [hafter]
          rcases hpads with ⟨-, hd | hd⟩ | ⟨-, hd⟩
          · exact absurd hd hch
          · exact ⟨hd, .inl rfl⟩
          · exact ⟨hd, .inl rfl⟩
      | _ :: _ :: _ :: _ :: before =>
          have := congrArg List.length hsource
          simp only [List.length_cons, List.length_append, List.length_nil] at this
          omega
  | case3 a b c d source _ ih =>
      obtain ⟨ha, hb, hc, hd, hrest⟩ := h
      match before with
      | [] =>
          obtain ⟨rfl, -⟩ := List.cons_eq_cons.1 hsource
          exact absurd ha hch
      | [_] =>
          obtain ⟨-, rfl, -⟩ : _ ∧ b = ch ∧ _ := by simpa using hsource
          exact absurd hb hch
      | [_, _] =>
          obtain ⟨-, -, rfl, -⟩ : _ ∧ _ ∧ c = ch ∧ _ := by simpa using hsource
          exact absurd hc hch
      | [_, _, _] =>
          obtain ⟨-, -, -, rfl, -⟩ : _ ∧ _ ∧ _ ∧ d = ch ∧ _ := by simpa using hsource
          exact absurd hd hch
      | _ :: _ :: _ :: _ :: before =>
          obtain ⟨-, -, -, -, hrestSource⟩ : _ ∧ _ ∧ _ ∧ _ ∧ source = before ++ ch :: after := by
            simpa using hsource
          exact ih before hrest hrestSource
  | case4 => exact h.elim

theorem outputLength_append (whole : List UInt8) {group : List UInt8} (hfour : group.length = 4) :
    outputLength (whole ++ group) = (whole.length + 4) / 4 * 3 -
      (if group.getD 3 0 = pad then 1 else 0) - (if group.getD 2 0 = pad then 1 else 0) := by
  have hlast := getD_append_sub whole group (k := 1) (by omega)
  have hbefore := getD_append_sub whole group (k := 2) (by omega)
  rw [hfour] at hlast hbefore
  rw [outputLength, hlast, hbefore, List.length_append, hfour]

theorem not_exact_padded {whole part after : List UInt8} (hwhole : whole.length % 4 = 0)
    (hfull : part.length + 1 + after.length = 4) {n : Nat}
    (hpad : after = [] ∨ after = [pad]) (hn : n = whole.length / 4 * 3 + part.length)
    (hpart : ∀ x ∈ part, x ∈ cb64) :
    n ≠ outputLength (whole ++ (part ++ pad :: after)) := by
  rw [outputLength_append whole (by simp; omega), hn]
  rcases hpad with rfl | rfl
  · match part, hfull with
    | [a, b, c], _ =>
        have hc : c ≠ pad := fun heq => pad_notMem (heq ▸ hpart c (by simp))
        simp [hc]
        omega
  · match part, hfull with
    | [a, b], _ =>
        simp
        omega

theorem outside_unique {before before' after after' : List UInt8} {ch ch' : UInt8}
    (hbefore : ∀ x ∈ before, x ∈ cb64) (hbefore' : ∀ x ∈ before', x ∈ cb64) (hch : ch ∉ cb64)
    (hch' : ch' ∉ cb64) (h : before ++ ch :: after = before' ++ ch' :: after') :
    ch = ch' ∧ after = after' := by
  induction before generalizing before' with
  | nil =>
      cases before' with
      | nil => exact List.cons_eq_cons.1 h
      | cons x before' =>
          obtain ⟨rfl, -⟩ := List.cons_eq_cons.1 h
          exact absurd (hbefore' ch List.mem_cons_self) hch
  | cons y before ih =>
      cases before' with
      | nil =>
          obtain ⟨rfl, -⟩ := List.cons_eq_cons.1 h
          exact absurd (hbefore y List.mem_cons_self) hch'
      | cons x before' =>
          exact ih (fun z hz => hbefore z (List.mem_cons_of_mem y hz))
            (fun z hz => hbefore' z (List.mem_cons_of_mem x hz)) (List.cons_eq_cons.1 h).2

theorem decodesStrictly_alphabet {source : List UInt8} (hfour : source.length % 4 = 0)
    (halphabet : ∀ ch ∈ source, ch ∈ cb64) : DecodesStrictly source := by
  obtain ⟨hformed, hclear⟩ := wellFormed_alphabet source hfour halphabet
  obtain ⟨out, hout, hencode, hloop⟩ := decodeLoop_alphabet source hfour halphabet []
  have hpads (k : Nat) (hk : 0 < k) (hlength : source ≠ []) (hle : k ≤ source.length) :
      source.getD (source.length - k) 0 ≠ pad := by
    have hlt : source.length - k < source.length := by omega
    rw [List.getD_eq_getElem?_getD, List.getElem?_eq_getElem hlt]
    exact fun heq : source[source.length - k] = pad =>
      pad_notMem (heq ▸ halphabet _ (List.getElem_mem hlt))
  have hdecode : decodeBase64 source = .ok ⟨out.length, out⟩ := by
    by_cases hne : source = []
    · subst hne
      cases List.length_eq_zero_iff.1 hout
      rfl
    · have hpos := List.length_pos_iff.2 hne
      have hlength : outputLength source = out.length := by
        rw [outputLength, if_neg (hpads 1 (by decide) hne (by omega)),
          if_neg (hpads 2 (by decide) hne (by omega)), hout]
        rfl
      have hend := hloop []
      rw [List.append_nil] at hend
      rw [decodeBase64_eq hne hfour, hend, hlength]
      rfl
  refine ⟨⟨fun _ => hformed, fun _ => ⟨_, hdecode⟩⟩, fun w hw => ?_⟩
  rw [hdecode] at hw
  cases hw
  have hstring : (Written.mk out.length out).string = out := List.take_length
  refine ⟨rfl, ?_⟩
  rw [hstring, string_encodeBase64, hencode, hclear]

theorem decodesStrictly_rejected {source : List UInt8}
    (herror : decodeBase64 source = .error .invbase64) (hformed : ¬ WellFormed source) :
    DecodesStrictly source := by
  refine ⟨⟨fun ⟨w, hw⟩ => ?_, fun h => absurd h hformed⟩, fun w hw => ?_⟩ <;>
    rw [herror] at hw <;> cases hw

/-- Decoding is strict but for a pad in the last group. -/
theorem decodesStrictly_iff (source : List UInt8) :
    DecodesStrictly source ↔ ¬ PadRead source := by
  by_cases hfour : source.length % 4 = 0
  · rcases alphabet_or_outside source with halphabet | ⟨before, ch, after, hsource, hbefore, hch⟩
    · refine ⟨?_, fun _ => decodesStrictly_alphabet hfour halphabet⟩
      rintro - ⟨-, before, after, rfl, -, -⟩
      exact pad_notMem (halphabet pad (by simp))
    · obtain ⟨whole, part, hcut, hwhole, hwholeAlphabet, hpart, hshort, hgroup⟩ :=
        exists_group hfour hsource hbefore
      have hdecode := decodeBase64_outside hwhole hwholeAlphabet hpart hshort hgroup hch
      rw [← hcut] at hdecode
      by_cases hpad : ch = pad ∧ after.length < 4
      · rw [if_pos hpad] at hdecode
        obtain ⟨w, hw, hallocated, hbytes⟩ := hdecode
        obtain ⟨rfl, hlast⟩ := hpad
        refine ⟨fun hstrict => ?_, fun h => absurd ⟨hfour, before, after, hsource, hbefore, hlast⟩ h⟩
        have hformed := hstrict.1.1 ⟨w, hw⟩
        have hend := (hformed.outside source before after pad hsource hch).2
        have hexact := (hstrict.2 w hw).1
        refine absurd (hexact.trans hallocated) ?_
        rw [hcut]
        exact not_exact_padded hwhole (by omega) hend hbytes hpart
      · rw [if_neg hpad] at hdecode
        refine ⟨?_, fun _ => decodesStrictly_rejected hdecode fun hformed => hpad ?_⟩
        · rintro - ⟨-, before', after', hsource', hbefore', hlast⟩
          obtain ⟨rfl, rfl⟩ :=
            outside_unique hbefore hbefore' hch pad_notMem (hsource.symm.trans hsource')
          exact hpad ⟨rfl, hlast⟩
        · obtain ⟨rfl, hend⟩ := hformed.outside source before after ch hsource hch
          refine ⟨rfl, ?_⟩
          rcases hend with rfl | rfl <;> decide
  · exact ⟨fun _ h => hfour h.1, fun _ => decodesStrictly_rejected (decodeLoop_length hfour)
      fun hformed => hfour hformed.length_mod⟩

/-- The two characters after `"QQ"` are not checked when the first one is a pad. -/
theorem decodesStrictly_unchecked : ¬ DecodesStrictly [81, 81, 61, 81] := by
  rintro ⟨hformed, -⟩
  have hdecode : decodeBase64 [81, 81, 61, 81] = .ok ⟨2, [65, 0]⟩ := rfl
  have hpads := (hformed.1 ⟨_, hdecode⟩).2.2
  revert hpads
  decide

end Base64

end LeooRexx
