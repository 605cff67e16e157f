import LeooRexx.Parser.LiteralPacking

/-!
# What a packed literal denotes

The literal `'s'x` or `'s'b` is accepted, and denotes the bytes, that `X2C` or `B2X` accept
and give for the text with its tabs made blanks.  So the literals and the methods part
exactly on the texts with a tab that are well grouped otherwise.
-/

namespace LeooRexx.RexxSource

open StringConversion Groups

/-! ## One byte -/

theorem toNat_packDigits {base m : ℕ} (hbase : 1 < base) (hpow : base ^ m ≤ 256)
    {group : List UInt8} (hlen : group.length = m)
    (hgroup : ∀ c ∈ group, hexDigitToInt c < base) :
    (packDigits base group).toNat = Positional.value base (group.map hexDigitToInt) := by
  have hdigits : Positional.IsDigits base (group.map hexDigitToInt) := by
    intro d hd
    obtain ⟨c, hc, rfl⟩ := List.mem_map.mp hd
    exact hgroup c hc
  have hlt := Positional.value_lt hbase hdigits
  rw [List.length_map, hlen] at hlt
  rw [packDigits, UInt8.toNat_ofNat']
  exact Nat.mod_eq_of_lt (by omega)

theorem hexDigitToInt_lt_two : ∀ c ∈ binSet, hexDigitToInt c < 2 := by decide +kernel

theorem packByte2_eq {group : List UInt8} (hlen : group.length = 2)
    (hgroup : ∀ c ∈ group, c ∈ hexSet) : packDigits (2 ^ 4) group = packByte2 group := by
  obtain ⟨a, b, rfl⟩ := List.length_eq_two.mp hlen
  rw [packDigits, packByte2]
  simp only [List.getD_cons_zero, List.getD_cons_succ]
  rw [Bits.shiftLeft_or _ (hexDigitToInt_lt b (hgroup b (by simp)))]
  simp [Positional.value_cons]

theorem hexDigitToInt_packNibble {group : List UInt8} (hlen : group.length = 4)
    (hgroup : ∀ c ∈ group, c ∈ binSet) :
    hexDigitToInt (packNibble group) = Positional.value 2 (group.map hexDigitToInt) := by
  have table : ∀ a ∈ binSet, ∀ b ∈ binSet, ∀ c ∈ binSet, ∀ d ∈ binSet,
      hexDigitToInt (packNibble [a, b, c, d]) = hexDigitToInt a * 8 + (hexDigitToInt b * 4 +
        (hexDigitToInt c * 2 + hexDigitToInt d)) := by
    decide +kernel
  obtain ⟨a, b, c, d, rfl⟩ : ∃ a b c d, group = [a, b, c, d] := by
    match group, hlen with
    | [a, b, c, d], _ => exact ⟨a, b, c, d, rfl⟩
  rw [table a (hgroup a (by simp)) b (hgroup b (by simp)) c (hgroup c (by simp))
    d (hgroup d (by simp))]
  simp [Positional.value_cons]

theorem packNibble_mem {bits : List UInt8} (hbits : ∀ c ∈ bits, c ∈ binSet) :
    ∀ c ∈ packGroups 4 zero packNibble bits, c ∈ hexSet := by
  intro c hc
  have hzero : zero ∈ binSet := by decide
  obtain ⟨group, hlen, hgroup, rfl⟩ := mem_packGroups hzero hbits hc
  exact (unpackNibble_packNibble hlen hgroup).1

theorem packGroups_bits {bits : List UInt8} (hbits : ∀ c ∈ bits, c ∈ binSet) :
    packGroups 8 zero (packDigits (2 ^ 1)) bits =
      packGroups 2 zero packByte2 (packGroups 4 zero packNibble bits) := by
  have hbin : zero ∈ binSet := by decide
  have hhex : zero ∈ hexSet := by decide
  have hzero : hexDigitToInt zero = 0 := rfl
  have hnibbles := packNibble_mem hbits
  have hdirect : Positional.value (2 ^ 8)
      ((packGroups 8 zero (packDigits (2 ^ 1)) bits).map UInt8.toNat) =
        Positional.value 2 (bits.map hexDigitToInt) := by
    refine value_packGroups (by decide) hbin hzero ?_ hbits
    intro group hlen hgroup
    exact toNat_packDigits (m := 8) (by decide) (by decide) hlen
      fun c hc => hexDigitToInt_lt_two c (hgroup c hc)
  have hbytes : Positional.value (16 ^ 2)
      ((packGroups 2 zero packByte2 (packGroups 4 zero packNibble bits)).map UInt8.toNat) =
        Positional.value 16 ((packGroups 4 zero packNibble bits).map hexDigitToInt) := by
    refine value_packGroups (by decide) hhex hzero ?_ hnibbles
    intro group hlen hgroup
    rw [← packByte2_eq hlen hgroup]
    exact toNat_packDigits (m := 2) (by decide) (by decide) hlen
      fun c hc => hexDigitToInt_lt c (hgroup c hc)
  have hdigits : Positional.value (2 ^ 4)
      ((packGroups 4 zero packNibble bits).map hexDigitToInt) =
        Positional.value 2 (bits.map hexDigitToInt) :=
    value_packGroups (by decide) hbin hzero
      (fun _ hlen hgroup => hexDigitToInt_packNibble hlen hgroup) hbits
  have hvalue : Positional.value 256
      ((packGroups 8 zero (packDigits (2 ^ 1)) bits).map UInt8.toNat) =
      Positional.value 256
        ((packGroups 2 zero packByte2 (packGroups 4 zero packNibble bits)).map UInt8.toNat) :=
    hdirect.trans (hdigits.symm.trans hbytes.symm)
  have hlen : (packGroups 8 zero (packDigits (2 ^ 1)) bits).length =
      (packGroups 2 zero packByte2 (packGroups 4 zero packNibble bits)).length := by
    rw [length_packGroups (by decide), length_packGroups (by decide),
      length_packGroups (by decide)]
    omega
  have hbyte : ∀ bytes : List UInt8, ∀ n ∈ (bytes.map UInt8.toNat).reverse, n < 256 := by
    intro bytes n hn
    obtain ⟨c, -, rfl⟩ := List.mem_map.mp (List.mem_reverse.mp hn)
    exact c.toNat_lt
  have hsame := Nat.ofDigits_inj_of_len_eq (by decide : 1 < 256) (by simpa using hlen)
    (hbyte _) (hbyte _) hvalue
  exact List.map_injective_iff.mpr (fun _ _ => UInt8.toNat_inj.mp) (List.reverse_injective hsame)

/-! ## The literal -/

namespace LiteralType

def nibbleOf : LiteralType → UInt8 → Except LiteralError ℕ
  | hex => hexNibble
  | bin => binNibble

def shift : LiteralType → ℕ
  | hex => 4
  | bin => 1

def width : LiteralType → ℕ
  | hex => 2
  | bin => 8

theorem digits (type : LiteralType) : Digits type.digitSet type.nibbleOf := by
  cases type with
  | hex => exact hexNibble_digits
  | bin => exact binNibble_digits

def converted : LiteralType → List UInt8 → Except ConversionError Written
  | hex, s => x2c s
  | bin, s => do x2c (← b2x s).string

end LiteralType

theorem packLiteral_scanned {current : List UInt8} {start length : ℕ} {type : LiteralType}
    {g : Grouping} (hlength : length ≠ 0)
    (hloop : groupLoop type 0 ⟨true, false, 0, length⟩ ((current.drop start).take length) = .ok g)
    (hend : ¬ (g.blanks = true ∨ misplaced type g = true)) :
    ∃ odd < type.width, ∃ i, g.real_length + odd = i * type.width ∧
      packLiteral current start length type =
        (byteLoop type.nibbleOf type.shift type.width i odd (current.drop start)).map
          (⟨i, ·⟩) := by
  cases type with
  | hex =>
      refine ⟨g.real_length &&& 1, ?_, (g.real_length >>> 1) + (g.real_length &&& 1), ?_, ?_⟩
      · rw [Nat.and_one_is_mod]
        exact Nat.mod_lt _ (by decide)
      · rw [Nat.and_one_is_mod, Nat.shiftRight_eq_div_pow, LiteralType.width]
        omega
      · simp only [packLiteral, hlength, if_false, hloop, bind, Except.bind, hend]
        rfl
  | bin =>
      have hmod : g.real_length &&& 7 = g.real_length % 8 :=
        Nat.and_two_pow_sub_one_eq_mod g.real_length 3
      refine ⟨if g.real_length &&& 7 ≠ 0 then 8 - (g.real_length &&& 7) else 0, ?_,
        (g.real_length + (if g.real_length &&& 7 ≠ 0 then 8 - (g.real_length &&& 7) else 0)) >>> 3,
        ?_, ?_⟩
      · rw [hmod, LiteralType.width]
        split <;> omega
      · rw [hmod, Nat.shiftRight_eq_div_pow, LiteralType.width]
        split <;> omega
      · simp only [packLiteral, hlength, if_false, hloop, bind, Except.bind, hend]
        rfl

theorem packLiteral_not_scanned {current : List UInt8} {start length : ℕ} {type : LiteralType}
    (hlength : length ≠ 0)
    (h : ¬ Scanned type 0 ⟨true, false, 0, length⟩ ((current.drop start).take length)) :
    (packLiteral current start length type).toOption = none := by
  cases hloop : groupLoop type 0 ⟨true, false, 0, length⟩ ((current.drop start).take length) with
  | error e => simp [packLiteral, hlength, hloop, bind, Except.bind, Except.toOption]
  | ok g =>
      have hend : g.blanks = true ∨ misplaced type g = true := by
        by_contra hends
        exact h ⟨g, hloop, hends⟩
      simp [packLiteral, hlength, hloop, bind, Except.bind, Except.toOption, hend]

theorem converted_of_wellGrouped {type : LiteralType} {s : List UInt8}
    (h : WellGrouped type.digitSet type.group s) :
    type.converted s = .ok ⟨((digits s).length + (type.width - 1)) / type.width,
      packGroups type.width zero (packDigits (2 ^ type.shift)) (digits s)⟩ := by
  have hmem : ∀ c ∈ digits s, c ∈ type.digitSet := by
    intro c hc
    obtain ⟨hc, hne⟩ := List.mem_filter.mp hc
    exact (h.chars c hc).resolve_right (by simpa using hne)
  cases type with
  | hex =>
      have hzero : zero ∈ hexSet := by decide
      have hpack := packGroups_congr (m := 2) (by decide) hzero
        (fun _ hlen hgroup => packByte2_eq hlen hgroup) hmem
      rw [LiteralType.converted, x2c_eq h, LiteralType.width, LiteralType.shift, hpack]
  | bin =>
      have hhex := packNibble_mem hmem
      have hlen : (packGroups 4 zero packNibble (digits s)).length = ((digits s).length + 3) / 4 :=
        length_packGroups (by decide) _
      have hstring : (packGroups 4 zero packNibble (digits s)).take (((digits s).length + 3) / 4) =
          packGroups 4 zero packNibble (digits s) := by
        rw [← hlen, List.take_length]
      have hhalf : (((digits s).length + 3) / 4 + 1) / 2 = ((digits s).length + 7) / 8 := by omega
      rw [LiteralType.converted, b2x_eq h]
      simp only [bind, Except.bind, Written.string, hstring]
      rw [x2c_eq (wellGrouped_of_digits hexSet_digitSet hhex),
        digits_eq_self hexSet_digitSet hhex, hlen, hhalf, LiteralType.width, LiteralType.shift,
        packGroups_bits hmem]

theorem wellGrouped_of_converted {type : LiteralType} {s : List UInt8} {w : Written}
    (h : type.converted s = .ok w) : WellGrouped type.digitSet type.group s := by
  cases type with
  | hex => exact wellGrouped_of_x2c h
  | bin =>
      cases hbits : b2x s with
      | error e => simp [LiteralType.converted, hbits, bind, Except.bind] at h
      | ok digits => exact wellGrouped_of_b2x hbits

theorem toOption_eq_none {ε α : Type} {x : Except ε α} (h : ∀ a, x ≠ .ok a) :
    x.toOption = none := by
  obtain ⟨e, rfl⟩ := exists_error h
  rfl

theorem packLiteral_eq {current text : List UInt8} {start : ℕ} (type : LiteralType)
    (htext : text <+: current.drop start) :
    (packLiteral current start text.length type).toOption =
      (type.converted (expandTabs text)).toOption := by
  obtain ⟨rest, hrest⟩ := htext
  have htake : (current.drop start).take text.length = text := by
    rw [← hrest, List.take_left]
  by_cases hnil : text = []
  · subst hnil
    cases type <;> rfl
  have hlength : text.length ≠ 0 := by simpa using hnil
  by_cases hscan : Scanned type 0 ⟨true, false, 0, text.length⟩ text
  case neg =>
    have hmethod : ∀ w, type.converted (expandTabs text) ≠ .ok w := by
      intro w hw
      have hwell := wellGrouped_of_converted hw
      exact hscan ((scanned_text_iff type hnil).mpr
        ⟨hwell.no_leading, hwell.no_trailing, hwell.groups⟩)
    rw [packLiteral_not_scanned hlength (by rwa [htake]), toOption_eq_none hmethod]
  case pos =>
    obtain ⟨hhead, hlast, hgroups⟩ := (scanned_text_iff type hnil).mp hscan
    obtain ⟨g, hloop, hend⟩ := hscan
    have hreal : g.real_length = (literalDigits text).length := by
      have h := groupLoop_real_length type (le_refl text.length) hloop
      simp only at h
      omega
    have hfound : groupLoop type 0 ⟨true, false, 0, text.length⟩
        ((current.drop start).take text.length) = .ok g := by
      rw [htake]
      exact hloop
    obtain ⟨odd, hodd, i, hi, hpack⟩ := packLiteral_scanned hlength hfound hend
    rw [hreal] at hi
    have hsource :
        literalDigits (current.drop start) = literalDigits text ++ literalDigits rest := by
      rw [← hrest, literalDigits_append]
    by_cases hchars : ∀ c ∈ literalDigits text, c ∈ type.digitSet
    · have hwell : WellGrouped type.digitSet type.group (expandTabs text) := by
        refine ⟨?_, hhead, hlast, hgroups⟩
        intro c hc
        by_cases hspace : c = space
        · exact .inr hspace
        · exact .inl (hchars c (List.mem_filter.mpr ⟨hc, by simpa using hspace⟩))
      have hbytes : (literalDigits text).length + (type.width - 1) =
          type.width - 1 - odd + type.width * i := by
        rw [Nat.mul_comm]
        omega
      have hallocated : ((literalDigits text).length + (type.width - 1)) / type.width = i := by
        rw [hbytes, Nat.add_mul_div_left _ _ (by omega), Nat.div_eq_of_lt (by omega), Nat.zero_add]
      rw [hpack, byteLoop_ok type.digits hodd hi hsource hchars, converted_of_wellGrouped hwell]
      rw [← literalDigits, hallocated]
      rfl
    · have hbad : ∃ c ∈ literalDigits text, c ∉ type.digitSet := by
        push Not at hchars
        exact hchars
      obtain ⟨e, he⟩ := byteLoop_error type.digits type.shift hodd hi hsource hbad
      have hmethod : ∀ w, type.converted (expandTabs text) ≠ .ok w := by
        intro w hw
        obtain ⟨c, hc, hnot⟩ := hbad
        obtain ⟨hmem, hne⟩ := List.mem_filter.mp hc
        exact hnot (((wellGrouped_of_converted hw).chars c hmem).resolve_right (by simpa using hne))
      rw [hpack, he, toOption_eq_none hmethod]
      rfl

/-! ## The token -/

def doubled (delimiter : UInt8) (s : List UInt8) : List UInt8 :=
  s.flatMap fun c => if c = delimiter then [c, c] else [c]

theorem literalLoop_other {delimiter inch : UInt8} (h : inch ≠ delimiter)
    (start dot_count line_offset : ℕ) (rest : List UInt8) :
    literalLoop delimiter start dot_count line_offset (inch :: rest) =
      literalLoop delimiter start dot_count (line_offset + 1) rest := by
  cases rest <;> simp [literalLoop, h]

theorem literalLoop_doubled {delimiter : UInt8} {s rest : List UInt8}
    (hrest : rest.head? ≠ some delimiter) (start dot_count line_offset : ℕ) :
    ∃ dots, literalLoop delimiter start dot_count line_offset
        (doubled delimiter s ++ delimiter :: rest) =
      .ok ⟨start, line_offset + (doubled delimiter s).length - start, dots,
        line_offset + (doubled delimiter s).length + 1⟩ := by
  induction s generalizing dot_count line_offset with
  | nil =>
      cases rest with
      | nil => exact ⟨dot_count, by simp [doubled, literalLoop]⟩
      | cons next rest =>
          have hnext : next ≠ delimiter := by simpa using hrest
          exact ⟨dot_count, by simp [doubled, literalLoop, hnext]⟩
  | cons c s ih =>
      by_cases hc : c = delimiter
      · subst hc
        obtain ⟨dots, hloop⟩ := ih (dot_count + 1) (line_offset + 2)
        refine ⟨dots, ?_⟩
        have htwo : doubled c (c :: s) = c :: c :: doubled c s := by simp [doubled]
        have hlen : line_offset + ((doubled c s).length + 1 + 1) =
            line_offset + 2 + (doubled c s).length := by omega
        rw [htwo, List.length_cons, List.length_cons, hlen, ← hloop]
        simp [literalLoop]
      · obtain ⟨dots, hloop⟩ := ih dot_count (line_offset + 1)
        refine ⟨dots, ?_⟩
        have hone : doubled delimiter (c :: s) = c :: doubled delimiter s := by
          simp [doubled, hc]
        have hlen : line_offset + ((doubled delimiter s).length + 1) =
            line_offset + 1 + (doubled delimiter s).length := by omega
        rw [hone, List.length_cons, hlen, ← hloop, List.cons_append, literalLoop_other hc]

theorem doubled_of_not_mem {delimiter : UInt8} {s : List UInt8} (h : delimiter ∉ s) :
    doubled delimiter s = s := by
  induction s with
  | nil => rfl
  | cons c s ih =>
      have hc : c ≠ delimiter := fun heq => h (heq ▸ List.mem_cons_self)
      have hs : s.flatMap (fun c => if c = delimiter then [c, c] else [c]) = s :=
        ih fun hmem => h (List.mem_cons_of_mem c hmem)
      rw [doubled, List.flatMap_cons, if_neg hc, hs, List.singleton_append]

theorem mem_doubled {delimiter : UInt8} {s : List UInt8} (h : delimiter ∈ s) :
    delimiter ∈ doubled delimiter s :=
  List.mem_flatMap.mpr ⟨delimiter, h, by simp⟩

def LiteralType.letters : LiteralType → List UInt8
  | hex => [120, 88]
  | bin => [98, 66]

/-- `'` and `"`. -/
def quotes : List UInt8 := [39, 34]

theorem literalType_letter {type : LiteralType} {letter : UInt8} (hletter : letter ∈ type.letters)
    {before after : List UInt8} (hafter : ∀ c ∈ after.head?, lookup c = 0) :
    literalType (before ++ letter :: after) before.length = (some type, before.length + 1) := by
  have hnext : (before ++ letter :: after)[before.length + 1]? = after.head? := by
    rw [List.getElem?_append_right (Nat.le_succ _), Nat.succ_sub (Nat.le_refl _), Nat.sub_self,
      List.getElem?_cons_succ, List.head?_eq_getElem?]
  have hsymbol : (after.head?.any fun c => !decide (lookup c = 0)) = false := by
    cases hhead : after.head? with
    | none => rfl
    | some c => simp [hafter c (by rw [hhead]; rfl)]
  cases type with
  | hex =>
      rcases (by simpa [LiteralType.letters] using hletter : letter = 120 ∨ letter = 88) with
        rfl | rfl <;> simp [literalType, hnext, hsymbol]
  | bin =>
      rcases (by simpa [LiteralType.letters] using hletter : letter = 98 ∨ letter = 66) with
        rfl | rfl <;> simp [literalType, hnext, hsymbol]

theorem letters_not_quotes (type : LiteralType) : ∀ c ∈ quotes, c ∉ type.letters := by
  cases type <;> simp [quotes, LiteralType.letters]

theorem literalToken_written {type : LiteralType} {delimiter letter : UInt8}
    (hdelimiter : delimiter ∈ quotes) (hletter : letter ∈ type.letters)
    {before after s : List UInt8} (hafter : ∀ c ∈ after.head?, lookup c = 0) :
    (literalToken (before ++ delimiter :: (doubled delimiter s ++ delimiter :: letter :: after))
        before.length).toOption =
      (type.converted (expandTabs (doubled delimiter s))).toOption.map
        fun w => (w, before.length + (doubled delimiter s).length + 3) := by
  have hdiffer : letter ≠ delimiter := by
    rintro rfl
    exact letters_not_quotes type _ hdelimiter hletter
  set raw := doubled delimiter s with hraw
  set current := before ++ delimiter :: (raw ++ delimiter :: letter :: after) with hcurrent
  have hfirst : current.getD before.length 0 = delimiter := by simp [hcurrent]
  have hopen : current = (before ++ [delimiter]) ++ (raw ++ delimiter :: letter :: after) := by
    simp [hcurrent]
  have hclose : current = (before ++ delimiter :: (raw ++ [delimiter])) ++ letter :: after := by
    simp [hcurrent]
  have hdrop : current.drop (before.length + 1) = raw ++ delimiter :: letter :: after := by
    rw [hopen]
    exact List.drop_left' (by simp)
  obtain ⟨dots, hloop⟩ := literalLoop_doubled (s := s) (by simpa using hdiffer :
    (letter :: after).head? ≠ some delimiter) (before.length + 1) 0 (before.length + 1)
  have hlength : before.length + 1 + raw.length - (before.length + 1) = raw.length := by omega
  have hoffset : before.length + 1 + raw.length + 1 =
      (before ++ delimiter :: (raw ++ [delimiter])).length := by
    simp only [List.length_append, List.length_cons, List.length_nil]
    omega
  have htype : literalType current (before.length + 1 + raw.length + 1) =
      (some type, before.length + 1 + raw.length + 1 + 1) := by
    rw [hclose, hoffset]
    exact literalType_letter hletter hafter
  have hprefix : raw <+: current.drop (before.length + 1) := by
    rw [hdrop]
    exact List.prefix_append raw _
  have hpack := packLiteral_eq type hprefix
  rw [← hraw, hlength] at hloop
  rw [← hpack]
  simp only [literalToken, hfirst, hdrop, hloop, htype, bind, Except.bind]
  cases packLiteral current (before.length + 1) raw.length type with
  | error e => rfl
  | ok value =>
      simp only [pure, Except.pure, Except.toOption, Option.map_some, Option.some.injEq,
        Prod.mk.injEq, true_and]
      omega

/-! ## The literals and the methods -/

/-- `X2C` or `B2X` does not raise a condition. -/
def LiteralType.methodAccepts : LiteralType → List UInt8 → Prop
  | hex, s => ∃ w, x2c s = .ok w
  | bin, s => ∃ w, b2x s = .ok w

/-- The literal is accepted exactly when the method accepts its text, and then it ends at
`stop` and denotes the bytes that the methods give. -/
def Agrees (type : LiteralType) (s : List UInt8) (stop : ℕ)
    (token : Except LiteralError (Written × ℕ)) : Prop :=
  ((∃ t, token = .ok t) ↔ type.methodAccepts s) ∧
  ∀ t, token = .ok t → t.2 = stop ∧ ∃ w, type.converted s = .ok w ∧ t.1.string = w.string

theorem methodAccepts_iff (type : LiteralType) (s : List UInt8) :
    type.methodAccepts s ↔ ∃ w, type.converted s = .ok w := by
  cases type with
  | hex => rfl
  | bin =>
      constructor
      · rintro ⟨w, hw⟩
        have hwell : WellGrouped LiteralType.bin.digitSet LiteralType.bin.group s :=
          wellGrouped_of_b2x hw
        exact ⟨_, converted_of_wellGrouped hwell⟩
      · rintro ⟨w, hw⟩
        exact ⟨_, b2x_eq (wellGrouped_of_converted hw)⟩

theorem converted_accepts_iff {type : LiteralType} {s : List UInt8} :
    (∃ w, type.converted s = .ok w) ↔ WellGrouped type.digitSet type.group s :=
  ⟨fun ⟨_, hw⟩ => wellGrouped_of_converted hw, fun h => ⟨_, converted_of_wellGrouped h⟩⟩

theorem not_mem_digitSet (type : LiteralType) :
    tab ∉ type.digitSet ∧ ∀ c ∈ quotes, c ∉ type.digitSet ∧ c ≠ space ∧ c ≠ tab := by
  cases type <;> decide +kernel

theorem toOption_eq_some {ε α : Type} {x : Except ε α} {a : α} :
    x.toOption = some a ↔ x = .ok a := by
  cases x <;> simp [Except.toOption]

theorem not_wellGrouped_of_quote (type : LiteralType) {delimiter : UInt8} {s : List UInt8}
    (hdelimiter : delimiter ∈ quotes) (hmem : delimiter ∈ s) :
    ¬ WellGrouped type.digitSet type.group (expandTabs s) := by
  obtain ⟨hset, hspace, htab⟩ := (not_mem_digitSet type).2 delimiter hdelimiter
  intro hwell
  have hkept : delimiter ∈ expandTabs s := List.mem_map.mpr ⟨delimiter, hmem, if_neg htab⟩
  exact (hwell.chars delimiter hkept).elim hset hspace

/-- The literal of a text agrees with the methods unless the text has a tab and is well
grouped when its tabs are taken for blanks. -/
theorem packed_literal_agrees_iff {type : LiteralType} {delimiter letter : UInt8}
    (hdelimiter : delimiter ∈ quotes) (hletter : letter ∈ type.letters)
    {before after : List UInt8} (hafter : ∀ c ∈ after.head?, lookup c = 0) (s : List UInt8) :
    Agrees type s (before.length + (doubled delimiter s).length + 3)
        (literalToken (before ++ delimiter :: (doubled delimiter s ++ delimiter :: letter :: after))
          before.length) ↔
      ¬ (tab ∈ s ∧ WellGrouped type.digitSet type.group (expandTabs s)) := by
  have htoken : (literalToken (before ++ delimiter :: (doubled delimiter s ++ delimiter :: letter ::
      after)) before.length).toOption = _ := literalToken_written hdelimiter hletter hafter
  generalize literalToken (before ++ delimiter :: (doubled delimiter s ++ delimiter :: letter ::
    after)) before.length = token at htoken ⊢
  rw [Agrees, methodAccepts_iff, converted_accepts_iff]
  by_cases hquote : delimiter ∈ s
  case pos =>
    have hs := not_wellGrouped_of_quote type hdelimiter hquote
    have hraw := not_wellGrouped_of_quote type hdelimiter (mem_doubled hquote)
    have hplain : ¬ WellGrouped type.digitSet type.group s := by
      obtain ⟨hset, hspace, -⟩ := (not_mem_digitSet type).2 delimiter hdelimiter
      exact fun hwell => (hwell.chars delimiter hquote).elim hset hspace
    have hnone : ∀ t, token ≠ .ok t := by
      intro t ht
      rw [ht] at htoken
      obtain ⟨w, hw, -⟩ := Option.map_eq_some_iff.mp htoken.symm
      exact hraw (wellGrouped_of_converted (toOption_eq_some.mp hw))
    simp [hs, hplain, hnone]
  case neg =>
    rw [doubled_of_not_mem hquote] at htoken ⊢
    have haccepts : (∃ t, token = .ok t) ↔ WellGrouped type.digitSet type.group (expandTabs s) := by
      rw [← converted_accepts_iff]
      simp only [← toOption_eq_some, htoken, Option.map_eq_some_iff]
      exact ⟨fun ⟨_, w, hw, _⟩ => ⟨w, hw⟩, fun ⟨w, hw⟩ => ⟨_, w, hw, rfl⟩⟩
    rw [haccepts]
    by_cases htab : tab ∈ s
    case pos =>
      have hplain : ¬ WellGrouped type.digitSet type.group s := by
        intro hwell
        exact (hwell.chars tab htab).elim (not_mem_digitSet type).1 (by decide)
      constructor
      · rintro ⟨hiff, -⟩ ⟨-, hwell⟩
        exact hplain (hiff.mp hwell)
      · intro hnot
        have hbad : ¬ WellGrouped type.digitSet type.group (expandTabs s) :=
          fun hwell => hnot ⟨htab, hwell⟩
        refine ⟨iff_of_false hbad hplain, ?_⟩
        intro t ht
        exact absurd (haccepts.mp ⟨t, ht⟩) hbad
    case neg =>
      rw [expandTabs_of_no_tab htab] at htoken haccepts ⊢
      refine iff_of_true ⟨Iff.rfl, ?_⟩ fun hboth => htab hboth.1
      intro t ht
      rw [ht] at htoken
      obtain ⟨w, hw, hpair⟩ := Option.map_eq_some_iff.mp htoken.symm
      rw [← hpair]
      exact ⟨rfl, w, toOption_eq_some.mp hw, rfl⟩

theorem packed_literal_agrees_iff_blank :
    Agrees .hex [52, 70, 32, 52, 66] 8 (literalToken [39, 52, 70, 32, 52, 66, 39, 120] 0) ↔
      ¬ (tab ∈ [52, 70, 32, 52, 66] ∧
        WellGrouped LiteralType.hex.digitSet LiteralType.hex.group
          (expandTabs [52, 70, 32, 52, 66])) := by
  have hquote : (39 : UInt8) ∈ quotes := by decide
  have hletter : (120 : UInt8) ∈ LiteralType.hex.letters := by decide
  have hnothing : ∀ c ∈ ([] : List UInt8).head?, lookup c = 0 := by simp
  have hplain : doubled 39 [52, 70, 32, 52, 66] = [52, 70, 32, 52, 66] :=
    doubled_of_not_mem (by decide)
  have h : Agrees .hex _ (([] : List UInt8).length + _ + 3) _ ↔ _ :=
    packed_literal_agrees_iff hquote hletter hnothing [52, 70, 32, 52, 66]
  rw [hplain] at h
  simpa only [List.nil_append, List.cons_append, List.length_nil, List.length_cons,
    Nat.reduceAdd] using h

/-- A tab between two groups is a blank to the literal and an invalid digit to `X2C`. -/
theorem tab_in_literal :
    (literalToken [39, 52, 70, 9, 52, 66, 39, 120] 0).toOption = some (⟨2, [79, 75]⟩, 8) ∧
      x2c [52, 70, 9, 52, 66] = .error (.invhex tab) ∧
      ¬ Agrees .hex [52, 70, 9, 52, 66] 8 (literalToken [39, 52, 70, 9, 52, 66, 39, 120] 0) := by
  have hliteral : (literalToken [39, 52, 70, 9, 52, 66, 39, 120] 0).toOption =
      some (⟨2, [79, 75]⟩, 8) := by
    decide
  have hmethod : x2c [52, 70, 9, 52, 66] = .error (.invhex tab) := by decide
  refine ⟨hliteral, hmethod, ?_⟩
  intro hagrees
  have haccepts : ∃ w, x2c [52, 70, 9, 52, 66] = .ok w :=
    hagrees.1.mp ⟨_, toOption_eq_some.mp hliteral⟩
  rw [hmethod] at haccepts
  simp at haccepts

end LeooRexx.RexxSource
