import LeooRexx.Classes.StringConversion
import LeooRexx.Foundation.Bits
import Mathlib.Data.Nat.ModEq

/-!
# Hexadecimal and binary strings are read back

`ValidateSet` accepts the well grouped strings and counts their digits; the packing
loop packs these digits in groups from the right, wherever the blanks are.  Packing
and unpacking one group undo each other, and so do the conversions.
-/

namespace LeooRexx.StringConversion

open Groups

def digits (string : List UInt8) : List UInt8 := string.filter (· ≠ space)

structure DigitSet (set : List UInt8) : Prop where
  no_nul : 0 ∉ set
  no_space : space ∉ set

theorem hexSet_digitSet : DigitSet hexSet := ⟨by decide, by decide⟩

theorem binSet_digitSet : DigitSet binSet := ⟨by decide, by decide⟩

/-! ## Validation -/

theorem ite_error_eq_ok {ε α : Type} {p : Prop} [Decidable p] {e : ε} {a b : α} :
    (if p then Except.error e else Except.ok a) = Except.ok b ↔ ¬ p ∧ a = b := by
  split <;> simp_all

section Validate

variable {set : List UInt8} (hset : DigitSet set) {m : Nat} {hex : Bool}
include hset

theorem inSet_iff {c : UInt8} : inSet set c = true ↔ c ∈ set := by
  simp only [inSet, decide_eq_true_eq]
  constructor
  · exact And.right
  · intro hmem
    exact ⟨fun hnul => hset.no_nul (hnul ▸ hmem), hmem⟩

theorem ne_space {c : UInt8} (h : c ∈ set) : c ≠ space := fun heq => hset.no_space (heq ▸ h)

omit hset

theorem validateChar_ok {v v' : Validation} {c : UInt8}
    (h : validateChar set m hex v c = .ok v') :
    inSet set c = true ∧ v'.count = v.count + 1 ∧ v'.residue = v.residue ∨
    c = space ∧ inSet set c = false ∧ v'.count = v.count ∧ v'.residue = some (v.count % m) ∧
      (v.residue = none ∨ v.residue = some (v.count % m)) := by
  simp only [validateChar] at h
  split at h
  · rename_i hin
    cases h
    exact .inl ⟨hin, rfl, rfl⟩
  · rename_i hin
    simp only [Bool.not_eq_true] at hin
    split at h
    · rename_i hspace
      split at h
      · rename_i hres
        cases h
        exact .inr ⟨hspace, hin, rfl, rfl, .inl hres⟩
      · rename_i residue hres
        split at h
        · contradiction
        · rename_i heq
          cases h
          have hsame : residue = v.count % m := Decidable.not_not.mp heq
          exact .inr ⟨hspace, hin, rfl, hres.trans (congrArg some hsame),
            .inr (hres.trans (congrArg some hsame))⟩
    · contradiction

include hset

theorem validateLoop_ok {v v' : Validation} {string : List UInt8}
    (h : validateLoop set m hex v string = .ok v') :
    v'.count = v.count + (digits string).length ∧ (∀ c ∈ string, c ∈ set ∨ c = space) ∧
      (∀ r, v.residue = some r → v'.residue = some r) ∧
      ∀ before after, string = before ++ space :: after →
        v'.residue = some ((v.count + (digits before).length) % m) := by
  induction string generalizing v with
  | nil =>
      cases h
      simp [digits]
  | cons c string ih =>
      simp only [validateLoop] at h
      cases hchar : validateChar set m hex v c with
      | error e =>
          rw [hchar] at h
          contradiction
      | ok w =>
          rw [hchar] at h
          obtain ⟨hcount, hchars, hres, hblanks⟩ := ih h
          obtain ⟨hin, hwcount, hwres⟩ | ⟨hspace, -, hwcount, hwres, hvres⟩ := validateChar_ok hchar
          · have hmem := (inSet_iff hset).mp hin
            have hne := ne_space hset hmem
            have hdigits : ∀ s, digits (c :: s) = c :: digits s := by
              intro s
              simp [digits, hne]
            refine ⟨?_, ?_, ?_, ?_⟩
            · rw [hcount, hwcount, hdigits, List.length_cons]
              omega
            · intro d hd
              cases List.mem_cons.mp hd with
              | inl heq => exact .inl (heq ▸ hmem)
              | inr htail => exact hchars d htail
            · intro r hr
              exact hres r (hwres.trans hr)
            · intro before after hsplit
              cases before with
              | nil => simp [hne] at hsplit
              | cons d before =>
                  simp only [List.cons_append, List.cons.injEq] at hsplit
                  obtain ⟨rfl, hsplit⟩ := hsplit
                  have hrest := hblanks before after hsplit
                  rw [hrest, hwcount, hdigits, List.length_cons]
                  congr 2
                  omega
          · have hdigits : ∀ s, digits (c :: s) = digits s := by
              intro s
              simp [digits, hspace]
            have hfinal := hres _ hwres
            refine ⟨?_, ?_, ?_, ?_⟩
            · rw [hcount, hwcount, hdigits]
            · intro d hd
              cases List.mem_cons.mp hd with
              | inl heq => exact .inr (heq.trans hspace)
              | inr htail => exact hchars d htail
            · intro r hr
              rw [hfinal, ← hr]
              cases hvres with
              | inl hnone => rw [hnone] at hr; contradiction
              | inr hsome => exact hsome.symm
            · intro before after hsplit
              cases before with
              | nil => simpa [digits] using hfinal
              | cons d before =>
                  simp only [List.cons_append, List.cons.injEq] at hsplit
                  obtain ⟨rfl, hsplit⟩ := hsplit
                  rw [hblanks before after hsplit, hwcount, hdigits]

variable (hex) in
theorem validateLoop_of_residue {v : Validation} {string : List UInt8} {r : Nat}
    (hchars : ∀ c ∈ string, c ∈ set ∨ c = space) (hres : v.residue = none ∨ v.residue = some r)
    (hblanks : ∀ before after, string = before ++ space :: after →
      (v.count + (digits before).length) % m = r) :
    ∃ v', validateLoop set m hex v string = .ok v' ∧
      (v'.residue = none ∨ v'.residue = some r) := by
  induction string generalizing v with
  | nil => exact ⟨v, rfl, hres⟩
  | cons c string ih =>
      have hrest : ∀ d ∈ string, d ∈ set ∨ d = space :=
        fun d hd => hchars d (List.mem_cons_of_mem c hd)
      cases hchars c List.mem_cons_self with
      | inl hmem =>
          have hin := (inSet_iff hset).mpr hmem
          have hne := ne_space hset hmem
          obtain ⟨v', hloop, hv'⟩ := ih
            (v := { v with current := v.current + 1, count := v.count + 1 }) hrest hres (by
              intro before after hsplit
              rw [← hblanks (c :: before) after (by rw [hsplit, List.cons_append])]
              simp only [digits, List.filter_cons, hne, ne_eq, not_false_eq_true, decide_true,
                if_true, List.length_cons]
              congr 1
              omega)
          refine ⟨v', ?_, hv'⟩
          have hchar : validateChar set m hex v c
              = .ok { v with current := v.current + 1, count := v.count + 1 } := by
            simp only [validateChar, hin, if_true]
          rw [validateLoop, hchar]
          exact hloop
      | inr hspace =>
          subst hspace
          have hin : inSet set space = false := by
            rw [← Bool.not_eq_true, inSet_iff hset]
            exact hset.no_space
          have hfirst : v.count % m = r := hblanks [] string rfl
          obtain ⟨v', hloop, hv'⟩ := ih
            (v := ⟨v.count, v.current + 1, v.current + 1, some r⟩) hrest (.inr rfl) (by
              intro before after hsplit
              rw [← hblanks (space :: before) after (by rw [hsplit, List.cons_append])]
              simp [digits])
          refine ⟨v', ?_, hv'⟩
          have hchar : validateChar set m hex v space
              = .ok ⟨v.count, v.current + 1, v.current + 1, some r⟩ := by
            cases hres with
            | inl hnone => simp [validateChar, hin, hnone, hfirst]
            | inr hsome => simp [validateChar, hin, hsome, hfirst]
          rw [validateLoop, hchar]
          exact hloop

omit hset

theorem add_mod_eq_iff (a b m : Nat) : (a + b) % m = a % m ↔ m ∣ b := by
  have h := Nat.modEq_iff_dvd' (n := m) (Nat.le_add_right a b)
  rw [Nat.add_sub_cancel_left] at h
  exact eq_comm.trans h

theorem length_digits_split (before after : List UInt8) :
    (digits (before ++ space :: after)).length
      = (digits before).length + (digits after).length := by
  simp [digits]

include hset

variable (hex) in
theorem validateSet_ok_iff {string : List UInt8} {n : Nat} :
    validateSet set m hex string = .ok n ↔
      WellGrouped set m string ∧ n = (digits string).length := by
  constructor
  · intro h
    simp only [validateSet] at h
    split at h
    · contradiction
    · rename_i hhead
      cases hloop : validateLoop set m hex ⟨0, 0, 0, none⟩ string with
      | error e =>
          rw [hloop] at h
          contradiction
      | ok v =>
          obtain ⟨hcount, hchars, -, hblanks⟩ := validateLoop_ok hset hloop
          rw [hloop] at h
          simp only [Nat.zero_add] at hcount hblanks
          have hsplits : string.getLast? ≠ some space ∧ n = v.count ∧
              ∀ residue, v.residue = some residue → v.count % m = residue := by
            simp only [bind, Except.bind, ite_error_eq_ok, not_or] at h
            obtain ⟨⟨hlast, hmisplaced⟩, hn⟩ := h
            refine ⟨hlast, hn.symm, ?_⟩
            intro residue hres
            simpa [hres] using hmisplaced
          obtain ⟨hlast, hn, hresidue⟩ := hsplits
          refine ⟨⟨hchars, hhead, hlast, ?_⟩, hn.trans hcount⟩
          intro before after hsplit
          have hfinal := hresidue _ (hblanks before after hsplit)
          rw [hcount, hsplit, length_digits_split] at hfinal
          exact (add_mod_eq_iff _ _ m).mp hfinal
  · rintro ⟨hwell, rfl⟩
    obtain ⟨v, hloop, hres⟩ := validateLoop_of_residue hset hex (v := ⟨0, 0, 0, none⟩)
      (r := (digits string).length % m) hwell.chars (.inl rfl) (by
        intro before after hsplit
        rw [Nat.zero_add, hsplit, length_digits_split]
        exact ((add_mod_eq_iff _ _ m).mpr (hwell.groups before after hsplit)).symm)
    have hcount := (validateLoop_ok hset hloop).1
    simp only [Nat.zero_add] at hcount
    simp only [validateSet, hwell.no_leading, if_false, hloop, bind, Except.bind]
    cases hres with
    | inl hnone => simp [hnone, hcount, hwell.no_trailing]
    | inr hsome => simp [hsome, hcount, hwell.no_trailing]

end Validate

/-! ## Packing -/

/-- The members of the set, which is what `ChGetSm` looks at. -/
def members (set string : List UInt8) : List UInt8 := string.filter (inSet set)

theorem chGetSm_spec (set source : List UInt8) {count : Nat} (hpos : 0 < count)
    (hcount : count ≤ (members set source).length) :
    (chGetSm set source count).1 = (members set source).take count ∧
      members set (source.drop (chGetSm set source count).2) = (members set source).drop count := by
  induction source generalizing count with
  | nil =>
      simp only [members, List.filter_nil, List.length_nil] at hcount
      omega
  | cons c source ih =>
      cases hin : inSet set c with
      | true =>
          have hmem : members set (c :: source) = c :: members set source := by
            simp [members, hin]
          rw [hmem] at hcount ⊢
          cases count with
          | zero => contradiction
          | succ count =>
              cases count with
              | zero => simp [chGetSm, hin]
              | succ count =>
                  have hrest := ih (Nat.succ_pos count)
                    (by simpa only [List.length_cons, Nat.add_le_add_iff_right] using hcount)
                  simp [chGetSm, hin, hrest]
      | false =>
          have hmem : members set (c :: source) = members set source := by
            simp [members, hin]
          rw [hmem] at hcount ⊢
          have hrest := ih hpos hcount
          simp [chGetSm, hin, hrest]

theorem take_overlay {m n : Nat} (hm : 0 < m) (buf : List UInt8) {found : List UInt8}
    (hfound : found.length = firstSize m n) :
    (overlay (if n % m = 0 then buf else List.replicate m zero) (m - firstSize m n) found).take m
      = fill m zero found := by
  have hle := firstSize_le hm n
  by_cases hmod : n % m = 0
  · have hfirst : firstSize m n = m := by simp [firstSize, hmod]
    rw [hfirst] at hfound
    simp [overlay, fill, hmod, hfirst, hfound]
  · have hlen : (List.replicate (m - firstSize m n) zero ++ found).length = m := by
      simp only [List.length_append, List.length_replicate]
      omega
    have hmin : min (m - firstSize m n) m = m - firstSize m n := by omega
    simp only [overlay, fill, hmod, if_false, List.take_replicate, hmin, hfound]
    exact List.take_left' hlen

theorem packLoop_succ (set : List UInt8) (m : Nat) (pack : List UInt8 → UInt8) (fuel : Nat)
    (buf source : List UInt8) {count : Nat} (hcount : 0 < count) :
    packLoop set m pack (fuel + 1) buf source count
      = let found := chGetSm set source (firstSize m count)
        let buf := overlay (if count % m = 0 then buf else List.replicate m zero)
          (m - firstSize m count) found.1
        pack buf :: packLoop set m pack fuel buf (source.drop found.2)
          (count - firstSize m count) := by
  rw [packLoop, if_pos hcount]
  rfl

theorem packLoop_eq (set : List UInt8) {m : Nat} (hm : 0 < m) {pack : List UInt8 → UInt8}
    (hpack : ∀ buf, pack buf = pack (buf.take m)) {fuel : Nat} (buf : List UInt8)
    {source : List UInt8} (hfuel : (members set source).length ≤ fuel) :
    packLoop set m pack fuel buf source (members set source).length
      = packGroups m zero pack (members set source) := by
  induction fuel generalizing buf source with
  | zero =>
      have hnil := List.length_eq_zero_iff.mp (Nat.le_zero.mp hfuel)
      simp [packLoop, hnil]
  | succ fuel ih =>
      by_cases hnil : members set source = []
      · simp [packLoop, hnil]
      · have hpos := List.length_pos_iff.mpr hnil
        have hfirst := firstSize_pos (n := (members set source).length) hm
        obtain ⟨hfound, hleft⟩ := chGetSm_spec set source hfirst (firstSize_le_self hpos)
        have hlen := length_take_firstSize (m := m) hnil
        rw [← hfound] at hlen
        have hrest : (members set source).length - firstSize m (members set source).length
            = (members set (source.drop
                (chGetSm set source (firstSize m (members set source).length)).2)).length := by
          rw [hleft, List.length_drop]
        rw [packGroups_step hm hnil, ← hfound, ← hleft, packLoop_succ _ _ _ _ _ _ hpos]
        simp only
        rw [hpack, take_overlay hm _ hlen, hrest]
        congr 1
        exact ih _ (by omega)

/-! ## One group -/

theorem packByte2_take (buf : List UInt8) : packByte2 buf = packByte2 (buf.take 2) := by
  simp [packByte2]

theorem packNibble_take (buf : List UInt8) : packNibble buf = packNibble (buf.take 4) := by
  simp only [packNibble, List.take_take, Nat.min_self]

theorem intToHexDigit_mem : ∀ n < 16, intToHexDigit n ∈ hexSet := by decide

theorem hexDigitToInt_intToHexDigit : ∀ n < 16, hexDigitToInt (intToHexDigit n) = n := by decide

theorem packByte2_intToHexDigit (n : Nat) (hn : n < 256) :
    packByte2 [intToHexDigit ((n >>> 4) &&& 0xF), intToHexDigit (n &&& 0xF)] = UInt8.ofNat n := by
  have hhigh : n >>> 4 &&& 0xF = n / 2 ^ 4 % 2 ^ 4 := by
    rw [Nat.shiftRight_eq_div_pow]
    exact Nat.and_two_pow_sub_one_eq_mod _ 4
  have hlow : n &&& 0xF = n % 2 ^ 4 := Nat.and_two_pow_sub_one_eq_mod n 4
  rw [hhigh, hlow]
  simp only [packByte2, List.getD_cons_zero, List.getD_cons_succ]
  rw [hexDigitToInt_intToHexDigit _ (by omega), hexDigitToInt_intToHexDigit _ (by omega),
    Bits.shiftLeft_or _ (by omega)]
  congr 1
  omega

theorem hexDigitToInt_lt : ∀ c ∈ hexSet, hexDigitToInt c < 16 := by decide +kernel

theorem unpackNibble_mem (n : Nat) : ∀ c ∈ unpackNibble n, c ∈ binSet := by
  intro c hc
  simp only [unpackNibble, List.mem_cons, List.not_mem_nil, or_false] at hc
  have hzero : (48 : UInt8) ∈ binSet := by decide
  have hone : (49 : UInt8) ∈ binSet := by decide
  obtain h | h | h | h := hc <;> split at h <;> exact h ▸ (by assumption)

theorem packNibble_unpackNibble : ∀ c ∈ hexSet,
    packNibble (unpackNibble (hexDigitToInt c)) = toupper c := by
  decide +kernel

theorem unpackNibble_packNibble {group : List UInt8} (hlen : group.length = 4)
    (hgroup : ∀ c ∈ group, c ∈ binSet) :
    packNibble group ∈ hexSet ∧ unpackNibble (hexDigitToInt (packNibble group)) = group := by
  have table : ∀ a ∈ binSet, ∀ b ∈ binSet, ∀ c ∈ binSet, ∀ d ∈ binSet,
      packNibble [a, b, c, d] ∈ hexSet ∧
        unpackNibble (hexDigitToInt (packNibble [a, b, c, d])) = [a, b, c, d] := by
    decide +kernel
  obtain ⟨a, b, c, d, rfl⟩ : ∃ a b c d, group = [a, b, c, d] := by
    match group, hlen with
    | [a, b, c, d], _ => exact ⟨a, b, c, d, rfl⟩
  exact table a (hgroup a (by simp)) b (hgroup b (by simp)) c (hgroup c (by simp))
    d (hgroup d (by simp))

/-! ## The conversions -/

theorem members_eq_digits {set : List UInt8} (hset : DigitSet set) {string : List UInt8}
    (h : ∀ c ∈ string, c ∈ set ∨ c = space) : members set string = digits string := by
  apply List.filter_congr
  intro c hc
  rw [Bool.eq_iff_iff, inSet_iff hset, decide_eq_true_iff]
  constructor
  · exact ne_space hset
  · exact (h c hc).resolve_right

theorem digits_eq_self {set : List UInt8} (hset : DigitSet set) {string : List UInt8}
    (h : ∀ c ∈ string, c ∈ set) : digits string = string :=
  List.filter_eq_self.mpr fun c hc => decide_eq_true (ne_space hset (h c hc))

theorem wellGrouped_of_digits {set : List UInt8} (hset : DigitSet set) {m : Nat}
    {string : List UInt8} (h : ∀ c ∈ string, c ∈ set) : WellGrouped set m string where
  chars c hc := .inl (h c hc)
  no_leading hhead := hset.no_space (h space (List.mem_of_head? hhead))
  no_trailing hlast := hset.no_space (h space (List.mem_of_getLast? hlast))
  groups before after hsplit := by
    have hmem : space ∈ string := by simp [hsplit]
    exact absurd (h space hmem) hset.no_space

theorem x2c_eq {string : List UInt8} (h : WellGrouped hexSet 2 string) :
    x2c string = .ok ⟨((digits string).length + 1) / 2,
      packGroups 2 zero packByte2 (digits string)⟩ := by
  by_cases hnil : string = []
  · simp [x2c, hnil, digits]
  · have hvalid := (validateSet_ok_iff hexSet_digitSet true).mpr ⟨h, rfl⟩
    have hmembers := members_eq_digits hexSet_digitSet h.chars
    have hloop := packLoop_eq hexSet (m := 2) (by decide) packByte2_take (List.replicate 8 0)
      (le_refl (members hexSet string).length)
    rw [hmembers] at hloop
    simp only [x2c, packHex, hnil, if_false, hvalid, bind, Except.bind, pure, Except.pure, hloop]

theorem b2x_eq {string : List UInt8} (h : WellGrouped binSet 4 string) :
    b2x string = .ok ⟨((digits string).length + 3) / 4,
      packGroups 4 zero packNibble (digits string)⟩ := by
  by_cases hnil : string = []
  · simp [b2x, hnil, digits]
  · have hvalid := (validateSet_ok_iff binSet_digitSet false).mpr ⟨h, rfl⟩
    have hmembers := members_eq_digits binSet_digitSet h.chars
    have hloop := packLoop_eq binSet (m := 4) (by decide) packNibble_take (List.replicate 4 0)
      (le_refl (members binSet string).length)
    rw [hmembers] at hloop
    simp only [b2x, hnil, if_false, hvalid, bind, Except.bind, pure, Except.pure, hloop]

theorem unpackLoop_eq (string : List UInt8) :
    unpackLoop string (digits string).length
      = (digits string).flatMap fun c => unpackNibble (hexDigitToInt c) := by
  induction string with
  | nil => rfl
  | cons c string ih =>
      by_cases hspace : c = space
      · have hdigits : digits (c :: string) = digits string := by
          simp [digits, hspace]
        rw [hdigits, ← ih]
        cases hlen : (digits string).length with
        | zero => cases string <;> rfl
        | succ n => rw [unpackLoop, if_neg (not_not_intro hspace)]
      · have hdigits : digits (c :: string) = c :: digits string := by
          simp [digits, hspace]
        rw [hdigits, List.length_cons, unpackLoop, if_pos hspace, ih, List.flatMap_cons]

theorem x2b_eq {string : List UInt8} (h : WellGrouped hexSet 2 string) :
    x2b string = .ok ⟨(digits string).length * 4,
      (digits string).flatMap fun c => unpackNibble (hexDigitToInt c)⟩ := by
  by_cases hnil : string = []
  · simp [x2b, hnil, digits]
  · have hvalid := (validateSet_ok_iff hexSet_digitSet true).mpr ⟨h, rfl⟩
    simp only [x2b, hnil, if_false, hvalid, bind, Except.bind, pure, Except.pure, unpackLoop_eq]

/-! ## The lengths written -/

theorem c2x_exact (string : List UInt8) : (c2x string).Exact := by
  simp only [c2x, Written.Exact]
  split
  · rfl
  · simp [List.length_flatMap]

theorem x2c_exact (string : List UInt8) :
    (Written.mk (((digits string).length + 1) / 2)
      (packGroups 2 zero packByte2 (digits string))).Exact :=
  length_packGroups (by decide) (digits string)

theorem b2x_exact (string : List UInt8) :
    (Written.mk (((digits string).length + 3) / 4)
      (packGroups 4 zero packNibble (digits string))).Exact :=
  length_packGroups (by decide) (digits string)

theorem x2b_exact (string : List UInt8) :
    (Written.mk ((digits string).length * 4)
      ((digits string).flatMap fun c => unpackNibble (hexDigitToInt c))).Exact := by
  simp [Written.Exact, List.length_flatMap, unpackNibble]

/-! ## Rejection -/

theorem wellGrouped_of_x2c {string : List UInt8} {w : Written} (h : x2c string = .ok w) :
    WellGrouped hexSet 2 string := by
  by_cases hnil : string = []
  · subst hnil
    exact wellGrouped_of_digits hexSet_digitSet fun c hc => absurd hc List.not_mem_nil
  · simp only [x2c, packHex, hnil, if_false] at h
    cases hvalid : validateSet hexSet 2 true string with
    | error e => simp [hvalid, bind, Except.bind] at h
    | ok n => exact ((validateSet_ok_iff hexSet_digitSet _).mp hvalid).1

theorem wellGrouped_of_x2b {string : List UInt8} {w : Written} (h : x2b string = .ok w) :
    WellGrouped hexSet 2 string := by
  by_cases hnil : string = []
  · subst hnil
    exact wellGrouped_of_digits hexSet_digitSet fun c hc => absurd hc List.not_mem_nil
  · simp only [x2b, hnil, if_false] at h
    cases hvalid : validateSet hexSet 2 true string with
    | error e => simp [hvalid, bind, Except.bind] at h
    | ok n => exact ((validateSet_ok_iff hexSet_digitSet _).mp hvalid).1

theorem wellGrouped_of_b2x {string : List UInt8} {w : Written} (h : b2x string = .ok w) :
    WellGrouped binSet 4 string := by
  by_cases hnil : string = []
  · subst hnil
    exact wellGrouped_of_digits binSet_digitSet fun c hc => absurd hc List.not_mem_nil
  · simp only [b2x, hnil, if_false] at h
    cases hvalid : validateSet binSet 4 false string with
    | error e => simp [hvalid, bind, Except.bind] at h
    | ok n => exact ((validateSet_ok_iff binSet_digitSet _).mp hvalid).1

theorem exists_error {ε α : Type} {x : Except ε α} (h : ∀ a, x ≠ .ok a) : ∃ e, x = .error e := by
  cases x with
  | error e => exact ⟨e, rfl⟩
  | ok a => exact absurd rfl (h a)

/-! ## The round trips -/

theorem string_c2x (string : List UInt8) :
    (c2x string).string = string.flatMap fun ch =>
      [intToHexDigit ((ch.toNat >>> 4) &&& 0xF), intToHexDigit (ch.toNat &&& 0xF)] := by
  rw [(c2x_exact string).string_eq]
  cases string with
  | nil => rfl
  | cons ch string => simp [c2x]

theorem x2c_c2x (string : List UInt8) :
    ∃ w, x2c (c2x string).string = .ok w ∧ w.string = string := by
  have hhex : ∀ c ∈ (c2x string).string, c ∈ hexSet := by
    intro c hc
    rw [string_c2x, List.mem_flatMap] at hc
    obtain ⟨ch, -, hc⟩ := hc
    simp only [List.mem_cons, List.not_mem_nil, or_false] at hc
    cases hc with
    | inl hhigh => exact hhigh ▸ intToHexDigit_mem _ (Nat.lt_succ_of_le Nat.and_le_right)
    | inr hlow => exact hlow ▸ intToHexDigit_mem _ (Nat.lt_succ_of_le Nat.and_le_right)
  refine ⟨_, x2c_eq (wellGrouped_of_digits hexSet_digitSet hhex), ?_⟩
  have hpack := packGroups_flatMap zero packByte2 (by decide : 0 < 2)
    (fun ch : UInt8 => [intToHexDigit ((ch.toNat >>> 4) &&& 0xF), intToHexDigit (ch.toNat &&& 0xF)])
    (fun _ => rfl) string
  rw [(x2c_exact _).string_eq, digits_eq_self hexSet_digitSet hhex, string_c2x, hpack]
  simp only [packByte2_intToHexDigit _ (UInt8.toNat_lt _), UInt8.ofNat_toNat, List.map_id']

theorem b2x_x2b {string : List UInt8} (h : WellGrouped hexSet 2 string) :
    ∃ bits w, x2b string = .ok bits ∧ b2x bits.string = .ok w ∧
      w.string = (digits string).map toupper := by
  have hhex : ∀ c ∈ digits string, c ∈ hexSet := by
    intro c hc
    obtain ⟨hmem, hne⟩ := List.mem_filter.mp hc
    exact (h.chars c hmem).resolve_right (of_decide_eq_true hne)
  obtain ⟨bits, hbits⟩ : ∃ bits, bits = (digits string).flatMap
    fun c => unpackNibble (hexDigitToInt c) := ⟨_, rfl⟩
  have hbin : ∀ c ∈ bits, c ∈ binSet := by
    intro c hc
    rw [hbits, List.mem_flatMap] at hc
    obtain ⟨ch, -, hc⟩ := hc
    exact unpackNibble_mem _ c hc
  have hfirst := x2b_eq h
  have hstring := (x2b_exact string).string_eq
  rw [← hbits] at hfirst hstring
  have hback := b2x_eq (wellGrouped_of_digits binSet_digitSet hbin)
  refine ⟨_, _, hfirst, (congrArg b2x hstring).trans hback, ?_⟩
  have hpack := packGroups_flatMap zero packNibble (by decide : 0 < 4)
    (fun c => unpackNibble (hexDigitToInt c)) (fun _ => rfl) (digits string)
  rw [(b2x_exact bits).string_eq, digits_eq_self binSet_digitSet hbin, hbits, hpack]
  exact List.map_congr_left fun c hc => packNibble_unpackNibble c (hhex c hc)

theorem x2b_b2x {string : List UInt8} (h : WellGrouped binSet 4 string) :
    ∃ hex w, b2x string = .ok hex ∧ x2b hex.string = .ok w ∧
      w.string = pad 4 zero (digits string) := by
  have hbin : ∀ c ∈ digits string, c ∈ binSet := by
    intro c hc
    obtain ⟨hmem, hne⟩ := List.mem_filter.mp hc
    exact (h.chars c hmem).resolve_right (of_decide_eq_true hne)
  have hzero : zero ∈ binSet := by decide
  obtain ⟨hex, hhex⟩ : ∃ hex, hex = packGroups 4 zero packNibble (digits string) := ⟨_, rfl⟩
  have hmem : ∀ c ∈ hex, c ∈ hexSet := by
    intro c hc
    rw [hhex] at hc
    obtain ⟨group, hlen, hgroup, rfl⟩ := mem_packGroups (p := (· ∈ binSet)) hzero hbin hc
    exact (unpackNibble_packNibble hlen hgroup).1
  have hfirst := b2x_eq h
  have hstring := (b2x_exact string).string_eq
  rw [← hhex] at hfirst hstring
  have hback := x2b_eq (wellGrouped_of_digits hexSet_digitSet hmem)
  refine ⟨_, _, hfirst, (congrArg x2b hstring).trans hback, ?_⟩
  rw [(x2b_exact hex).string_eq, digits_eq_self hexSet_digitSet hmem, hhex]
  exact flatMap_packGroups (p := (· ∈ binSet)) hzero (by decide)
    (fun c => unpackNibble (hexDigitToInt c))
    (fun group hlen hgroup => (unpackNibble_packNibble hlen hgroup).2) hbin

theorem conversion_exact {string : List UInt8} {w : Written}
    (h : x2c string = .ok w ∨ b2x string = .ok w ∨ x2b string = .ok w) : w.Exact := by
  obtain hx2c | hb2x | hx2b := h
  · rw [x2c_eq (wellGrouped_of_x2c hx2c)] at hx2c
    cases hx2c
    exact x2c_exact string
  · rw [b2x_eq (wellGrouped_of_b2x hb2x)] at hb2x
    cases hb2x
    exact b2x_exact string
  · rw [x2b_eq (wellGrouped_of_x2b hx2b)] at hx2b
    cases hx2b
    exact x2b_exact string

/-- The conversions undo each other on well grouped strings, reject all others, and
write as many bytes as they allocate. -/
theorem conversions_inverse :
    (∀ string, ∃ w, x2c (c2x string).string = .ok w ∧ w.string = string) ∧
    (∀ string, WellGrouped hexSet 2 string →
      ∃ bits w, x2b string = .ok bits ∧ b2x bits.string = .ok w ∧
        w.string = (string.filter (· ≠ space)).map toupper) ∧
    (∀ string, WellGrouped binSet 4 string →
      ∃ hex w, b2x string = .ok hex ∧ x2b hex.string = .ok w ∧
        w.string = pad 4 zero (string.filter (· ≠ space))) ∧
    (∀ string, ¬ WellGrouped hexSet 2 string →
      (∃ e, x2c string = .error e) ∧ ∃ e, x2b string = .error e) ∧
    (∀ string, ¬ WellGrouped binSet 4 string → ∃ e, b2x string = .error e) ∧
    (∀ string, (c2x string).Exact) ∧
    ∀ string w, x2c string = .ok w ∨ b2x string = .ok w ∨ x2b string = .ok w → w.Exact := by
  refine ⟨x2c_c2x, fun _ => b2x_x2b, fun _ => x2b_b2x, ?_, ?_, c2x_exact,
    fun _ _ => conversion_exact⟩
  · intro string h
    exact ⟨exists_error fun w hw => h (wellGrouped_of_x2c hw),
      exists_error fun w hw => h (wellGrouped_of_x2b hw)⟩
  · intro string h
    exact exists_error fun w hw => h (wellGrouped_of_b2x hw)

/-- `"1 af"`, with a short first group, and `"12 3"`, with a short last one. -/
theorem conversions_inverse_short_group :
    (∃ bits w, x2b (bytes "1 af") = .ok bits ∧ b2x bits.string = .ok w ∧
      w.string = bytes "1AF") ∧
    ∃ e, x2c (bytes "12 3") = .error e := by
  have hvalid : validateSet hexSet 2 true (bytes "1 af") = .ok 3 := by rfl
  have hwell := ((validateSet_ok_iff hexSet_digitSet _).mp hvalid).1
  have hshort : ¬ WellGrouped hexSet 2 (bytes "12 3") := by
    intro h
    exact absurd (h.groups (bytes "12") (bytes "3") rfl) (by decide)
  exact ⟨conversions_inverse.2.1 _ hwell, (conversions_inverse.2.2.2.1 _ hshort).1⟩

end LeooRexx.StringConversion
