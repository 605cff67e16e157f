import Mathlib
import LeooRexx.Rxregexp.SetDefinition

/-!
# When the characters of a set are those of its items

A range adds the characters above its lower end; the end itself is left to what stands before the
range.  The characters are handed on as a C string.  So a set has exactly the characters of its
items when no item takes in the null character and the lower end of each range is added by some
item.  Characters are ordered as the signed type orders them.
-/

namespace LeooRexx.Rxregexp

/-! ## What items cover and what they add -/

theorem signedChar_add {c : UInt8} {n : Nat} (h : signedChar c + n ≤ 127) :
    signedChar (c + UInt8.ofNat n) = signedChar c + n := by
  have hc := UInt8.toNat_lt c
  have hsum : (c + UInt8.ofNat n).toNat = (c.toNat + n) % 256 := by simp
  rw [signedChar] at h
  rw [signedChar, signedChar, hsum]
  split_ifs at h ⊢ <;> omega

theorem signedChar_inj {c d : UInt8} (h : signedChar c = signedChar d) : c = d := by
  have hc := UInt8.toNat_lt c
  have hd := UInt8.toNat_lt d
  rw [signedChar, signedChar] at h
  apply UInt8.toNat_inj.mp
  split at h <;> split at h <;> omega

def SetItem.Covers : SetItem → UInt8 → Prop
  | range b e, c => min (signedChar b) (signedChar e) ≤ signedChar c ∧
      signedChar c ≤ max (signedChar b) (signedChar e)
  | item, c => item.Denotes c

def SetItem.Adds : SetItem → UInt8 → Prop
  | range b e, c => min (signedChar b) (signedChar e) < signedChar c ∧
      signedChar c ≤ max (signedChar b) (signedChar e)
  | item, c => item.Denotes c

def lowerEnd (b e : UInt8) : UInt8 := if signedChar b > signedChar e then e else b

theorem signedChar_lowerEnd (b e : UInt8) :
    signedChar (lowerEnd b e) = min (signedChar b) (signedChar e) := by
  rw [lowerEnd]
  split <;> omega

theorem SetItem.Adds.covers {item : SetItem} {c : UInt8} (h : item.Adds c) : item.Covers c := by
  cases item with
  | range b e => exact ⟨h.1.le, h.2⟩
  | char d => exact h
  | symbolic name => exact h

theorem SetItem.Covers.adds {item : SetItem} {c : UInt8} (h : item.Covers c) :
    item.Adds c ∨ ∃ b e, item = .range b e ∧ c = lowerEnd b e := by
  cases item with
  | range b e =>
      rcases h.1.eq_or_lt with heq | hlt
      · exact .inr ⟨b, e, rfl, signedChar_inj (heq.symm.trans (signedChar_lowerEnd b e).symm)⟩
      · exact .inl ⟨hlt, h.2⟩
  | char d => exact .inl h
  | symbolic name => exact .inl h

theorem covers_lowerEnd (b e : UInt8) : (SetItem.range b e).Covers (lowerEnd b e) := by
  refine ⟨(signedChar_lowerEnd b e).ge, ?_⟩
  rw [signedChar_lowerEnd]
  exact min_le_max

theorem mem_rangeChars_iff {b e d : UInt8} :
    d ∈ rangeChars b e ↔ (SetItem.range b e).Adds d := by
  have hadd : ∀ lo hi : UInt8, signedChar lo ≤ signedChar hi →
      (d ∈ (List.range (signedChar hi - signedChar lo).toNat).map
        (fun k => lo + 1 + UInt8.ofNat k) ↔
          signedChar lo < signedChar d ∧ signedChar d ≤ signedChar hi) := by
    intro lo hi hle
    have hhi := signedChar_le hi
    have hval : ∀ k : Nat, k < (signedChar hi - signedChar lo).toNat →
        signedChar (lo + 1 + UInt8.ofNat k) = signedChar lo + 1 + k := by
      intro k hk
      have hone : signedChar (lo + 1) = signedChar lo + 1 :=
        signedChar_add (n := 1) (by push_cast; omega)
      rw [signedChar_add (by omega), hone]
    rw [List.mem_map]
    constructor
    · rintro ⟨k, hk, rfl⟩
      rw [hval k (List.mem_range.mp hk)]
      have hlt := List.mem_range.mp hk
      omega
    · rintro ⟨hlo, hhi'⟩
      have hk : (signedChar d - signedChar lo - 1).toNat <
          (signedChar hi - signedChar lo).toNat := by omega
      refine ⟨(signedChar d - signedChar lo - 1).toNat, List.mem_range.mpr hk, ?_⟩
      apply signedChar_inj
      rw [hval _ hk]
      omega
  rw [rangeChars, SetItem.Adds]
  by_cases hswap : signedChar b > signedChar e
  · rw [if_pos hswap, min_eq_right hswap.le, max_eq_left hswap.le]
    exact hadd e b hswap.le
  · rw [if_neg hswap, min_eq_left (not_lt.mp hswap), max_eq_right (not_lt.mp hswap)]
    exact hadd b e (not_lt.mp hswap)

/-! ## The characters that are collected -/

structure Gathered (earlier : List SetItem) (range : List UInt8) (func : Option CType) :
    Prop where
  mem : ∀ c, c ∈ range ↔ ∃ item ∈ earlier, item.Adds c
  func : ∀ f, func = some f → ∀ c, f.test c = true → c ∈ range

theorem gathered_addItem {earlier : List SetItem} {range : List UInt8} {func : Option CType}
    (h : Gathered earlier range func) (item : SetItem) :
    Gathered (earlier ++ [item]) (addItem range func item).1 (addItem range func item).2 := by
  have hmem (c : UInt8) : (∃ i ∈ earlier ++ [item], i.Adds c) ↔ c ∈ range ∨ item.Adds c := by
    rw [h.mem]
    simp [or_and_right, exists_or]
  cases item with
  | char d =>
      exact ⟨fun c => subset_addToRange.trans (hmem c).symm,
        fun f hf c hc => subset_addToRange.mpr (.inl (h.func f hf c hc))⟩
  | range b e =>
      refine ⟨fun c => ?_, fun f hf c hc => mem_foldl_addToRange.mpr (.inl (h.func f hf c hc))⟩
      rw [hmem, ← mem_rangeChars_iff]
      exact mem_foldl_addToRange
  | symbolic name =>
      cases name with
      | func f =>
          refine ⟨fun c => mem_addFunc.trans (hmem c).symm, fun f' hf c hc => ?_⟩
          obtain rfl := Option.some.inj hf
          exact mem_addFunc.mpr (.inr hc)
      | blank =>
          have hblank (c : UInt8) : c ∈ addToRange (addToRange range (ch ' ')) 9 ↔
              c ∈ range ∨ (SetItem.symbolic .blank).Adds c := by
            rw [subset_addToRange, subset_addToRange, or_assoc]
            rfl
          cases func with
          | none => exact ⟨fun c => (hblank c).trans (hmem c).symm, fun f hf => nomatch hf⟩
          | some g =>
              refine ⟨fun c => ?_, fun f hf c hc => ?_⟩
              · rw [hmem, ← hblank]
                change c ∈ addFunc _ g ↔ _
                rw [mem_addFunc, or_iff_left_iff_imp]
                exact fun hc => (hblank c).mpr (.inl (h.func g rfl c hc))
              · obtain rfl := Option.some.inj hf
                exact mem_addFunc.mpr (.inr hc)

theorem mem_addItems_iff {earlier items : List SetItem} {range : List UInt8}
    {func : Option CType} (h : Gathered earlier range func) (c : UInt8) :
    c ∈ addItems range func items ↔ ∃ item ∈ earlier ++ items, item.Adds c := by
  induction items generalizing earlier range func with
  | nil =>
      rw [List.append_nil]
      exact h.mem c
  | cons item items ih =>
      have hstep := ih (gathered_addItem h item)
      rwa [List.append_assoc] at hstep

theorem mem_setMembers_iff (items : List SetItem) (c : UInt8) :
    c ∈ setMembers items ↔ ∃ item ∈ items, item.Adds c := by
  have hempty : Gathered [] [] none := ⟨by simp, fun f hf => by cases hf⟩
  rw [setMembers, mem_addItems_iff hempty, List.nil_append]

/-- The characters that `insertSet` keeps. -/
def storedSet (items : List SetItem) : List UInt8 := (setMembers items).takeWhile (· ≠ 0)

/-- No item takes in the null character, and each range has its lower end from some item. -/
structure Anchored (items : List SetItem) : Prop where
  null : ∀ item ∈ items, ¬ item.Covers 0
  lower : ∀ b e, .range b e ∈ items → ∃ item ∈ items, item.Adds (lowerEnd b e)

theorem zero_not_mem_storedSet (items : List SetItem) : 0 ∉ storedSet items := fun h => by
  have hne := List.mem_takeWhile_imp h
  simp at hne

theorem storedSet_eq {items : List SetItem} (h : ∀ item ∈ items, ¬ item.Covers 0) :
    storedSet items = setMembers items := by
  refine List.takeWhile_eq_self_iff.mpr fun c hc => decide_eq_true ?_
  rintro rfl
  obtain ⟨item, hitem, hadds⟩ := (mem_setMembers_iff items 0).mp hc
  exact h item hitem hadds.covers

theorem storedSet_exact_iff (items : List SetItem) :
    (∀ c, c ∈ storedSet items ↔ ∃ item ∈ items, item.Covers c) ↔ Anchored items := by
  have hall : (∀ item ∈ items, ¬ item.Covers 0) →
      ∀ c, c ∈ storedSet items ↔ ∃ item ∈ items, item.Adds c := by
    intro hnull c
    rw [storedSet_eq hnull, mem_setMembers_iff]
  constructor
  · intro hexact
    have hnull : ∀ item ∈ items, ¬ item.Covers 0 := fun item hitem hcovers =>
      zero_not_mem_storedSet items ((hexact 0).mpr ⟨item, hitem, hcovers⟩)
    refine ⟨hnull, fun b e hrange => ?_⟩
    exact (hall hnull _).mp ((hexact _).mpr ⟨_, hrange, covers_lowerEnd b e⟩)
  · intro h c
    rw [hall h.null]
    constructor
    · rintro ⟨item, hitem, hadds⟩
      exact ⟨item, hitem, hadds.covers⟩
    · rintro ⟨item, hitem, hcovers⟩
      rcases hcovers.adds with hadds | ⟨b, e, rfl, rfl⟩
      · exact ⟨item, hitem, hadds⟩
      · exact h.lower b e hitem

/-! ## The loop -/

inductive DeleteRange : Option UInt8 → List UInt8 → Prop
  | here {b e : UInt8} (text : List UInt8) : e ≠ 0 → e ≠ ch ']' → (b = 127 ∨ e = 127) →
      DeleteRange (some b) (ch '-' :: e :: text)
  | later {last : Option UInt8} {text : List UInt8} {r : ReadItem} :
      readItem last text = some (.ok r) → DeleteRange (some r.2.2) r.2.1 → DeleteRange last text

theorem readSymbolic_ne_endless (text : List UInt8) : readSymbolic text ≠ .error .endless := by
  intro h
  simp only [readSymbolic] at h
  split at h
  · cases h
  · split at h <;> cases h

theorem readItem_endless_iff {last : Option UInt8} {text : List UInt8} :
    readItem last text = some (.error .endless) ↔
      ∃ b e rest, last = some b ∧ text = ch '-' :: e :: rest ∧ e ≠ 0 ∧ e ≠ ch ']' ∧
        (b = 127 ∨ e = 127) := by
  constructor
  · intro h
    cases text with
    | nil => cases h
    | cons c text =>
        rw [readItem] at h
        split at h
        · cases h
        · split at h
          · rename_i hrange
            obtain ⟨b, rfl⟩ := Option.ne_none_iff_exists'.mp hrange.2
            have hread := Option.some.inj h
            cases text with
            | nil => cases hread
            | cons e rest =>
                rw [readRange] at hread
                split at hread
                · cases hread
                · rename_i hend
                  rw [Option.getD_some, rangeItem] at hread
                  split at hread
                  · exact ⟨b, e, rest, rfl, by rw [hrange.1], (not_or.mp hend).1,
                      (not_or.mp hend).2, ‹_›⟩
                  · cases hread
          · split at h
            · have hread := Option.some.inj h
              cases text with
              | nil => cases hread
              | cons d text =>
                  rw [readEscape] at hread
                  split at hread <;> cases hread
            · split at h
              · exact absurd (Option.some.inj h) (readSymbolic_ne_endless text)
              · cases h
  · rintro ⟨b, e, rest, rfl, rfl, h0, hclose, hdelete⟩
    have hread : readRange b (e :: rest) = .error .endless := by
      rw [readRange, if_neg (not_or.mpr ⟨h0, hclose⟩), rangeItem, if_pos hdelete]
      rfl
    rw [readItem, if_neg (by decide), if_pos ⟨rfl, by simp⟩, Option.getD_some, hread]

theorem deleteRange_iff {last : Option UInt8} {text : List UInt8} :
    DeleteRange last text ↔ readItem last text = some (.error .endless) ∨
      ∃ r, readItem last text = some (.ok r) ∧ DeleteRange (some r.2.2) r.2.1 := by
  constructor
  · intro h
    cases h with
    | here rest h0 hclose hdelete =>
        exact .inl (readItem_endless_iff.mpr ⟨_, _, rest, rfl, rfl, h0, hclose, hdelete⟩)
    | later hread hlater => exact .inr ⟨_, hread, hlater⟩
  · rintro (h | ⟨r, hread, hlater⟩)
    · obtain ⟨b, e, rest, rfl, rfl, h0, hclose, hdelete⟩ := readItem_endless_iff.mp h
      exact .here rest h0 hclose hdelete
    · exact .later hread hlater

theorem setItems_endless_iff (last : Option UInt8) (text : List UInt8) :
    setItems last text = .error .endless ↔ DeleteRange last text := by
  induction hn : text.length using Nat.strong_induction_on generalizing last text with
  | _ n ih =>
      rw [setItems, deleteRange_iff]
      cases hread : readItem last text with
      | none => simp
      | some r =>
          cases r with
          | error fault => simp
          | ok r =>
              have hrest := ih _ (hn ▸ length_readItem hread) (some r.2.2) r.2.1 rfl
              have hlater : (∃ r', some (Except.ok r) = some (.ok r' : Parsed ReadItem) ∧
                  DeleteRange (some r'.2.2) r'.2.1) ↔ DeleteRange (some r.2.2) r.2.1 := by
                simp
              rw [hlater, ← hrest, or_iff_right (by simp)]
              dsimp only
              cases setItems (some r.2.2) r.2.1 with
              | error fault => exact Iff.rfl
              | ok p => exact iff_of_false (fun h => by cases h) fun h => by cases h

/-! ## The end of the pattern -/

theorem suffix_readItem {last : Option UInt8} {text : List UInt8} {r : ReadItem}
    (h : readItem last text = some (.ok r)) : r.2.1 <:+ text := by
  cases text with
  | nil => cases h
  | cons c text =>
      refine List.IsSuffix.trans ?_ (List.suffix_cons c text)
      rw [readItem] at h
      split at h
      · cases h
      · split at h
        · have hread := Option.some.inj h
          cases text with
          | nil => cases hread
          | cons e text =>
              rw [readRange] at hread
              split at hread
              · cases hread
              · obtain ⟨item, -, hitem⟩ : ∃ item, rangeItem (last.getD 0) e = .ok item ∧
                    (.ok (item, text, e) : Parsed ReadItem) = .ok r := by
                  cases hrange : rangeItem (last.getD 0) e with
                  | error fault =>
                      rw [hrange] at hread
                      cases hread
                  | ok item =>
                      rw [hrange] at hread
                      exact ⟨item, rfl, hread⟩
                obtain rfl := Except.ok.inj hitem
                exact List.suffix_cons e text
        · split at h
          · have hread := Option.some.inj h
            cases text with
            | nil => cases hread
            | cons d text =>
                rw [readEscape] at hread
                split at hread
                · cases hread
                · obtain rfl := Except.ok.inj hread
                  exact List.suffix_cons d text
          · split at h
            · have hread := Option.some.inj h
              simp only [readSymbolic] at hread
              split at hread
              · cases hread
              · split at hread
                · cases hread
                · obtain rfl := Except.ok.inj hread
                  exact List.drop_suffix _ _
            · obtain rfl := Except.ok.inj (Option.some.inj h)
              exact List.suffix_refl text

section Terminator

variable (junk : List UInt8)

def ReadItem.behind (r : ReadItem) : ReadItem := (r.1, r.2.1 ++ 0 :: junk, r.2.2)

theorem symbolicName_append (text : List UInt8) :
    symbolicName (text ++ 0 :: junk) = symbolicName text := by
  have hprefix : (text ++ 0 :: junk).takeWhile (fun c => c ≠ 0 ∧ c ≠ ch ':') =
      text.takeWhile (fun c => c ≠ 0 ∧ c ≠ ch ':') := by
    rw [List.takeWhile_append]
    split
    · rename_i hall
      rw [List.takeWhile_cons_of_neg (by simp), List.append_nil]
      exact (List.takeWhile_prefix _).eq_of_length hall |>.symm
    · rfl
  rw [symbolicName, symbolicName, hprefix]

theorem length_symbolicName_le (text : List UInt8) : (symbolicName text).length ≤ text.length := by
  rw [symbolicName, List.length_take]
  exact (Nat.min_le_right _ _).trans (List.takeWhile_prefix _).length_le

theorem readSymbolic_append (text : List UInt8) :
    readSymbolic (text ++ 0 :: junk) = (readSymbolic text).map (ReadItem.behind junk) := by
  have hlength := length_symbolicName_le text
  have hdrop : (text ++ 0 :: junk).drop (symbolicName text).length =
      text.drop (symbolicName text).length ++ 0 :: junk :=
    List.drop_append_of_le_length hlength
  have hhead : (text.drop (symbolicName text).length ++ 0 :: junk).headD 0 =
      (text.drop (symbolicName text).length).headD 0 := by
    cases text.drop (symbolicName text).length <;> rfl
  simp only [readSymbolic, symbolicName_append, hdrop, hhead]
  split
  · rfl
  · rename_i hcolon
    rw [not_not] at hcolon
    split
    · rfl
    · have hlt : (symbolicName text).length < text.length := by
        by_contra hge
        rw [List.drop_eq_nil_of_le (Nat.not_lt.mp hge)] at hcolon
        cases hcolon
      have hdrop' : (text ++ 0 :: junk).drop ((symbolicName text).length + 1) =
          text.drop ((symbolicName text).length + 1) ++ 0 :: junk :=
        List.drop_append_of_le_length hlt
      rw [hdrop']
      rfl

theorem readItem_append (last : Option UInt8) {text : List UInt8} (h0 : 0 ∉ text) :
    readItem last (text ++ 0 :: junk) =
      (readItem last text).map fun r => r.map (ReadItem.behind junk) := by
  cases text with
  | nil => rfl
  | cons c text =>
      rw [List.mem_cons, not_or] at h0
      rw [List.cons_append, readItem, readItem]
      by_cases hend : c = 0 ∨ c = ch ']'
      · rw [if_pos hend, if_pos hend]
        rfl
      · rw [if_neg hend, if_neg hend]
        by_cases hrange : c = ch '-' ∧ last ≠ none
        · rw [if_pos hrange, if_pos hrange]
          cases text with
          | nil => rfl
          | cons e text =>
              rw [List.cons_append, readRange, readRange]
              by_cases hclose : e = 0 ∨ e = ch ']'
              · rw [if_pos hclose, if_pos hclose]
                rfl
              · rw [if_neg hclose, if_neg hclose]
                cases rangeItem (last.getD 0) e <;> rfl
        · rw [if_neg hrange, if_neg hrange]
          by_cases hescape : c = ch '\\'
          · rw [if_pos hescape, if_pos hescape]
            cases text with
            | nil => rfl
            | cons d text =>
                have hd : d ≠ 0 := fun h => h0.2 (h ▸ List.mem_cons_self)
                rw [List.cons_append, readEscape, readEscape, if_neg hd, if_neg hd]
                rfl
          · rw [if_neg hescape, if_neg hescape]
            by_cases hsymbolic : c = ch ':'
            · rw [if_pos hsymbolic, if_pos hsymbolic, readSymbolic_append]
              rfl
            · rw [if_neg hsymbolic, if_neg hsymbolic]
              rfl

theorem setItems_append (last : Option UInt8) {text : List UInt8} (h0 : 0 ∉ text) :
    setItems last (text ++ 0 :: junk) =
      (setItems last text).map fun r => (r.1, r.2 ++ 0 :: junk) := by
  induction hn : text.length using Nat.strong_induction_on generalizing last text with
  | _ n ih =>
      rw [setItems, setItems, readItem_append junk last h0]
      cases hread : readItem last text with
      | none => rfl
      | some r =>
          cases r with
          | error fault => rfl
          | ok r =>
              have hsuffix := suffix_readItem hread
              have hrest := ih _ (hn ▸ length_readItem hread) (some r.2.2)
                (fun h => h0 (hsuffix.subset h)) rfl
              simp only [Option.map_some, Except.map, ReadItem.behind]
              rw [hrest]
              cases setItems (some r.2.2) r.2.1 <;> rfl

end Terminator

/-! ## Set definitions -/

def setBody (text : List UInt8) : List UInt8 :=
  if text.headD 0 = ch '^' then text.tail else text

/-- The transition of a set, `number` of them before it. -/
def setTransition (text : List UInt8) (number : Nat) : Nat :=
  ((if text.headD 0 = ch '^' then SET ||| NOT else SET) ||| number <<< 16) % 2 ^ 32

theorem setMembers_ne_nil {text rest : List UInt8} {items : List SetItem}
    (h : setItems none text = .ok (items, rest)) (hne : items ≠ []) : setMembers items ≠ [] := by
  rw [setItems] at h
  cases hread : readItem none text with
  | none =>
      rw [hread] at h
      cases h
      exact absurd rfl hne
  | some r =>
      rw [hread] at h
      cases r with
      | error fault => cases h
      | ok r =>
          cases hitems : setItems (some r.2.2) r.2.1 with
          | error fault =>
              simp only [hitems] at h
              cases h
          | ok p =>
              simp only [hitems] at h
              cases h
              obtain ⟨c, hadds⟩ : ∃ c, r.1.Adds c := by
                cases hitem : r.1 with
                | char d => exact ⟨d, rfl⟩
                | range b e => cases readItem_range hread hitem
                | symbolic name =>
                    cases name with
                    | blank => exact ⟨9, .inr rfl⟩
                    | func f => exact exists_test f
              exact List.ne_nil_of_mem
                ((mem_setMembers_iff _ c).mpr ⟨r.1, List.mem_cons_self, hadds⟩)

theorem set_eq (a : Automaton) (text : List UInt8) :
    set ⟨a, text⟩ = (do
      let (items, rest) ← setItems none (setBody text)
      if items = [] then .error (.thrown .illegalSet)
      else
        let b : Automaton := { a with setArray := a.setArray ++ [storedSet items] }
        return (a.freeState, ⟨b.append (setTransition text a.setArray.length) (a.freeState + 1)
          (a.freeState + 1), rest⟩)) := by
  have hbody : (if (Parser.mk a text).current = ch '^' then (Parser.mk a text).next
      else Parser.mk a text) = ⟨a, setBody text⟩ := by
    rw [setBody, Parser.current]
    split <;> rfl
  rw [set]
  dsimp only
  rw [hbody, setLoop_eq]
  change (do
    let r ← (do
      let (items, rest) ← setItems none (setBody text)
      return (setMembers items, rest))
    _ : Parsed (Nat × Parser)) = _
  cases hitems : setItems none (setBody text) with
  | error fault => rfl
  | ok r =>
      obtain ⟨items, rest⟩ := r
      by_cases hne : items = []
      · subst hne
        rfl
      · have hmembers := setMembers_ne_nil hitems hne
        change (if setMembers items = [] then _ else _) = (if items = [] then _ else _)
        rw [if_neg hmembers, if_neg hne]
        rfl

theorem set_endless_iff (a : Automaton) (text : List UInt8) :
    set ⟨a, text⟩ = .error .endless ↔ DeleteRange none (setBody text) := by
  rw [← setItems_endless_iff, set_eq]
  cases hitems : setItems none (setBody text) with
  | error fault =>
      exact ⟨fun h => Except.error.inj h ▸ rfl, fun h => Except.error.inj h ▸ rfl⟩
  | ok r =>
      obtain ⟨items, rest⟩ := r
      change (if items = [] then _ else _) = _ ↔ _
      split <;> exact ⟨fun h => (nomatch h), fun h => (nomatch h)⟩

theorem set_append (a : Automaton) {text : List UInt8} (h0 : 0 ∉ text) (junk : List UInt8) :
    set ⟨a, text ++ 0 :: junk⟩ =
      (set ⟨a, text⟩).map fun r => (r.1, ⟨r.2.automaton, r.2.text ++ 0 :: junk⟩) := by
  have hhead : (text ++ 0 :: junk).headD 0 = text.headD 0 := by
    cases text <;> rfl
  have hbody : setBody (text ++ 0 :: junk) = setBody text ++ 0 :: junk := by
    rw [setBody, setBody, hhead]
    split
    · rename_i hnegated
      cases text with
      | nil => cases hnegated
      | cons c text => rfl
    · rfl
  have hbody0 : 0 ∉ setBody text := by
    rw [setBody]
    split
    · exact fun h => h0 (List.mem_of_mem_tail h)
    · exact h0
  rw [set_eq, set_eq, hbody, setItems_append junk none hbody0, setTransition, setTransition, hhead]
  cases hitems : setItems none (setBody text) with
  | error fault => rfl
  | ok r =>
      obtain ⟨items, rest⟩ := r
      change (if items = [] then _ else _) = Except.map _ (if items = [] then _ else _)
      split <;> rfl

structure StoredExactly (a : Automaton) (text : List UInt8) (q : Nat) (p : Parser)
    (items : List SetItem) (stored : List UInt8) : Prop where
  read : setItems none (setBody text) = .ok (items, p.text)
  setArray : p.automaton.setArray = a.setArray ++ [stored]
  transition : (p.automaton.states q).ch = setTransition text a.setArray.length
  exact : ∀ c, c ∈ stored ↔ ∃ item ∈ items, item.Covers c

/--
`set` ends, reads no further than the end of the pattern and stores exactly the characters of the
items, if and only if it comes to no range with the greatest character as an end, and the items,
where the text is one of a set, are anchored.
-/
theorem set_exact_iff (a : Automaton) {text : List UInt8} (h0 : 0 ∉ text) :
    (set ⟨a, text⟩ ≠ .error .endless ∧
      (∀ junk, set ⟨a, text ++ 0 :: junk⟩ =
        (set ⟨a, text⟩).map fun r => (r.1, ⟨r.2.automaton, r.2.text ++ 0 :: junk⟩)) ∧
      ∀ q p, set ⟨a, text⟩ = .ok (q, p) → ∃ items stored, StoredExactly a text q p items stored) ↔
    ¬ DeleteRange none (setBody text) ∧
      ∀ items rest, setItems none (setBody text) = .ok (items, rest) → Anchored items := by
  rw [Ne, set_endless_iff, and_congr_right_iff]
  intro _
  rw [and_iff_right fun junk => set_append a h0 junk]
  constructor
  · intro hexact items rest hitems
    by_cases hne : items = []
    · subst hne
      exact ⟨fun _ h => absurd h List.not_mem_nil, fun _ _ h => absurd h List.not_mem_nil⟩
    · have hset : set ⟨a, text⟩ = .ok (a.freeState,
          ⟨Automaton.append { a with setArray := a.setArray ++ [storedSet items] }
            (setTransition text a.setArray.length) (a.freeState + 1) (a.freeState + 1),
            rest⟩) := by
        rw [set_eq, hitems]
        exact if_neg hne
      obtain ⟨items', stored, hstored⟩ := hexact _ _ hset
      have hread := hitems.symm.trans hstored.read
      obtain ⟨rfl, -⟩ := Prod.mk.inj (Except.ok.inj hread)
      have hsame : stored = storedSet items := by
        have harray := hstored.setArray
        exact (List.singleton_inj.mp (List.append_cancel_left harray)).symm
      exact (storedSet_exact_iff items).mp (hsame ▸ hstored.exact)
  · intro hanchored q p hset
    rw [set_eq] at hset
    cases hitems : setItems none (setBody text) with
    | error fault =>
        rw [hitems] at hset
        cases hset
    | ok r =>
        obtain ⟨items, rest⟩ := r
        rw [hitems] at hset
        change (if items = [] then _ else _) = _ at hset
        split at hset
        · cases hset
        · obtain ⟨rfl, rfl⟩ := Prod.mk.inj (Except.ok.inj hset)
          refine ⟨items, storedSet items, hitems, rfl, ?_, ?_⟩
          · rw [Automaton.append, Automaton.setState]
            exact congrArg State.ch (if_pos rfl)
          · exact (storedSet_exact_iff items).mpr (hanchored items rest hitems)

/-- The set `[a-c]`. -/
theorem set_exact_iff_letters :
    (set ⟨⟨fun _ => ⟨0, 0, 0⟩, 1, []⟩, bytes "a-c]"⟩ ≠ .error .endless ∧
      (∀ junk, set ⟨⟨fun _ => ⟨0, 0, 0⟩, 1, []⟩, bytes "a-c]" ++ 0 :: junk⟩ =
        (set ⟨⟨fun _ => ⟨0, 0, 0⟩, 1, []⟩, bytes "a-c]"⟩).map
          fun r => (r.1, ⟨r.2.automaton, r.2.text ++ 0 :: junk⟩)) ∧
      ∀ q p, set ⟨⟨fun _ => ⟨0, 0, 0⟩, 1, []⟩, bytes "a-c]"⟩ = .ok (q, p) → ∃ items stored,
        StoredExactly ⟨fun _ => ⟨0, 0, 0⟩, 1, []⟩ (bytes "a-c]") q p items stored) ↔
    ¬ DeleteRange none (setBody (bytes "a-c]")) ∧
      ∀ items rest, setItems none (setBody (bytes "a-c]")) = .ok (items, rest) →
        Anchored items :=
  set_exact_iff ⟨fun _ => ⟨0, 0, 0⟩, 1, []⟩ (by decide)

/-- The range from the blank to the greatest character is filled for ever. -/
theorem set_delete_endless :
    set ⟨⟨fun _ => ⟨0, 0, 0⟩, 1, []⟩, [ch ' ', ch '-', 127, ch ']']⟩ = .error .endless := by
  have hblank : readItem none [ch ' ', ch '-', 127, ch ']'] =
      some (.ok (.char (ch ' '), [ch '-', 127, ch ']'], ch ' ')) := rfl
  refine (set_endless_iff _ _).mpr (.later hblank ?_)
  exact .here [ch ']'] (by decide) (by decide) (.inr rfl)

end LeooRexx.Rxregexp
