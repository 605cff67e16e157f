import LeooRexx.Rxregexp.Pattern

/-!
# The characters of a set

`set` reads the items of its text one after the other and collects their characters.  The loop
over the text gives what adding the items one by one gives.
-/

namespace LeooRexx.Rxregexp

/-! ## The items one by one -/

def rangeChars (b e : UInt8) : List UInt8 :=
  let (b, e) := if signedChar b > signedChar e then (e, b) else (b, e)
  (List.range (signedChar e - signedChar b).toNat).map fun k => b + 1 + UInt8.ofNat k

def addItem (range : List UInt8) (func : Option CType) : SetItem → List UInt8 × Option CType
  | .char c => (addToRange range c, func)
  | .range b e => ((rangeChars b e).foldl addToRange range, func)
  | .symbolic name => addSymbolic range func name

def addItems : List UInt8 → Option CType → List SetItem → List UInt8
  | range, _, [] => range
  | range, func, item :: items =>
      let (range, func) := addItem range func item
      addItems range func items

def setMembers (items : List SetItem) : List UInt8 := addItems [] none items

theorem addToRange_ne_nil (range : List UInt8) (c : UInt8) : addToRange range c ≠ [] := by
  rw [addToRange]
  split
  · exact List.ne_nil_of_mem ‹_›
  · simp

theorem subset_addToRange {range : List UInt8} {c d : UInt8} :
    d ∈ addToRange range c ↔ d ∈ range ∨ d = c := by
  rw [addToRange]
  split
  · constructor
    · exact .inl
    · intro h
      rcases h with h | rfl
      · exact h
      · assumption
  · simp

theorem mem_foldl_addToRange {chars range : List UInt8} {d : UInt8} :
    d ∈ chars.foldl addToRange range ↔ d ∈ range ∨ d ∈ chars := by
  induction chars generalizing range with
  | nil => simp
  | cons c chars ih =>
      rw [List.foldl_cons, ih, subset_addToRange, List.mem_cons, or_assoc]

theorem mem_addFunc {range : List UInt8} {func : CType} {d : UInt8} :
    d ∈ addFunc range func ↔ d ∈ range ∨ func.test d = true := by
  have hall : d ∈ (List.range 256).map UInt8.ofNat := by
    rw [List.mem_map]
    exact ⟨d.toNat, List.mem_range.mpr (UInt8.toNat_lt d), UInt8.ofNat_toNat⟩
  rw [addFunc, mem_foldl_addToRange, List.mem_filter, and_iff_right hall]

theorem ne_nil_of_subset {xs ys : List UInt8} (h : ∀ c ∈ xs, c ∈ ys) (hne : xs ≠ []) :
    ys ≠ [] := by
  obtain ⟨c, hc⟩ := List.exists_mem_of_ne_nil xs hne
  exact List.ne_nil_of_mem (h c hc)

theorem exists_test (f : CType) : ∃ c, f.test c = true := by
  cases f with
  | upper => exact ⟨ch 'A', by decide⟩
  | digit => exact ⟨ch '0', by decide⟩
  | space => exact ⟨ch ' ', by decide⟩
  | cntrl => exact ⟨127, by decide⟩
  | punct => exact ⟨ch '!', by decide⟩
  | _ => exact ⟨ch 'a', by decide⟩

theorem addFunc_ne_nil (range : List UInt8) (func : CType) : addFunc range func ≠ [] := by
  obtain ⟨c, hc⟩ := exists_test func
  exact List.ne_nil_of_mem (mem_addFunc.mpr (.inr hc))

theorem addSymbolic_ne_nil (range : List UInt8) (func : Option CType) (name : Symbolic) :
    (addSymbolic range func name).1 ≠ [] := by
  cases name with
  | func f => exact addFunc_ne_nil range f
  | blank =>
      cases func with
      | none => exact addToRange_ne_nil _ _
      | some f => exact addFunc_ne_nil _ f

theorem foldl_addToRange_ne_nil {range : List UInt8} (chars : List UInt8) (h : range ≠ []) :
    chars.foldl addToRange range ≠ [] :=
  ne_nil_of_subset (fun _ hc => mem_foldl_addToRange.mpr (.inl hc)) h

theorem signedChar_le (c : UInt8) : signedChar c ≤ 127 := by
  have hc := UInt8.toNat_lt c
  rw [signedChar]
  split <;> omega

theorem signedChar_eq_127 {c : UInt8} (h : signedChar c = 127) : c = 127 := by
  have hc := UInt8.toNat_lt c
  rw [signedChar] at h
  apply UInt8.toNat_inj.mp
  split at h
  · exact_mod_cast h
  · omega

theorem addRange_eq (range : List UInt8) (b e : UInt8) :
    addRange range b e = (do
      let _ ← rangeItem b e
      return (rangeChars b e).foldl addToRange range) := by
  rw [addRange, rangeItem, rangeChars]
  by_cases hswap : signedChar b > signedChar e
  · have he : e ≠ 127 := by
      rintro rfl
      exact absurd (signedChar_le b) (not_le.mpr hswap)
    rw [if_pos hswap, if_pos hswap, fillRange]
    by_cases hb : b = 127
    · rw [if_pos hb, if_pos (.inl hb)]
      rfl
    · rw [if_neg hb, if_neg (not_or.mpr ⟨hb, he⟩)]
      rfl
  · rw [if_neg hswap, if_neg hswap, fillRange]
    by_cases he : e = 127
    · rw [if_pos he, if_pos (.inr he)]
      rfl
    · have hb : b ≠ 127 := by
        rintro rfl
        have hle := signedChar_le e
        exact he (signedChar_eq_127 (le_antisymm hle (not_lt.mp hswap)))
      rw [if_neg he, if_neg (not_or.mpr ⟨hb, he⟩)]
      rfl

def startOf (last : UInt8) (range : List UInt8) : Option UInt8 :=
  if range = [] then none else some last

theorem startOf_of_ne {last : UInt8} {range : List UInt8} (h : range ≠ []) :
    startOf last range = some last := if_neg h

theorem setLoop_step (text : List UInt8) (last : UInt8) (range : List UInt8)
    (func : Option CType) :
    setLoop text last range func =
      match readItem (startOf last range) text with
      | none => .ok (range, text)
      | some (.error fault) => .error fault
      | some (.ok r) => setLoop r.2.1 r.2.2 (addItem range func r.1).1 (addItem range func r.1).2 := by
  cases text with
  | nil =>
      rw [setLoop]
      rfl
  | cons c text =>
      have hstart : startOf last range ≠ none ↔ range ≠ [] := by
        rw [startOf]
        split <;> simp_all
      rw [setLoop.eq_def]
      simp only [readItem, hstart]
      by_cases hend : c = 0 ∨ c = ch ']'
      · rw [if_pos hend, if_pos hend]
      · rw [if_neg hend, if_neg hend]
        by_cases hrange : c = ch '-' ∧ range ≠ []
        · rw [if_pos hrange, if_pos hrange, startOf_of_ne hrange.2]
          cases text with
          | nil => rfl
          | cons e text =>
              simp only [readRange, Option.getD_some]
              split
              · rfl
              · rw [addRange_eq]
                cases hitem : rangeItem last e with
                | error fault => rfl
                | ok item =>
                    rw [rangeItem] at hitem
                    split at hitem
                    · cases hitem
                    · cases hitem
                      rfl
        · rw [if_neg hrange, if_neg hrange]
          by_cases hescape : c = ch '\\'
          · rw [if_pos hescape, if_pos hescape]
            cases text with
            | nil => rfl
            | cons d text =>
                simp only [readEscape]
                split <;> rfl
          · rw [if_neg hescape, if_neg hescape]
            by_cases hsymbolic : c = ch ':'
            · rw [if_pos hsymbolic, if_pos hsymbolic]
              simp only [readSymbolic]
              split
              · rfl
              · cases keyword ((symbolicName text).map toupper) with
                | none => rfl
                | some name => rfl
            · rw [if_neg hsymbolic, if_neg hsymbolic]
              rfl

theorem rangeItem_ok {b e : UInt8} {item : SetItem} (h : rangeItem b e = .ok item) :
    item = .range b e := by
  rw [rangeItem] at h
  split at h
  · cases h
  · exact (Except.ok.inj h).symm

theorem readItem_range {last : Option UInt8} {text : List UInt8} {r : ReadItem}
    (h : readItem last text = some (.ok r)) {b e : UInt8} (hr : r.1 = .range b e) :
    last = some b := by
  cases text with
  | nil => cases h
  | cons c text =>
      rw [readItem] at h
      split at h
      · cases h
      · split at h
        · rename_i hlast
          obtain ⟨start, hstart⟩ := Option.ne_none_iff_exists'.mp hlast.2
          rw [hstart, Option.getD_some] at h
          cases text with
          | nil => cases h
          | cons e' text =>
              rw [readRange] at h
              split at h
              · cases h
              · cases hitem : rangeItem start e' with
                | error fault =>
                    rw [hitem] at h
                    cases h
                | ok item =>
                    rw [hitem] at h
                    cases h
                    have heq := (rangeItem_ok hitem).symm.trans hr
                    cases heq
                    exact hstart
        · split at h
          · cases text with
            | nil => cases h
            | cons d text =>
                rw [readEscape] at h
                split at h <;> cases h
                cases hr
          · split at h
            · simp only [readSymbolic] at h
              split at h
              · cases h
              · split at h <;> cases h
                cases hr
            · cases h
              cases hr

theorem addItem_ne_nil {last : UInt8} {range : List UInt8} (func : Option CType)
    {text : List UInt8} {r : ReadItem} (h : readItem (startOf last range) text = some (.ok r)) :
    (addItem range func r.1).1 ≠ [] := by
  cases hitem : r.1 with
  | char c => exact addToRange_ne_nil range c
  | symbolic name => exact addSymbolic_ne_nil range func name
  | range b e =>
      have hstart := readItem_range h hitem
      rw [startOf] at hstart
      split at hstart
      · cases hstart
      · exact foldl_addToRange_ne_nil _ ‹_›

theorem setLoop_eq (text : List UInt8) (last : UInt8) (range : List UInt8)
    (func : Option CType) :
    setLoop text last range func = (do
      let (items, text) ← setItems (startOf last range) text
      return (addItems range func items, text)) := by
  induction hn : text.length using Nat.strong_induction_on generalizing text last range func with
  | _ n ih =>
      rw [setLoop_step, setItems]
      cases hread : readItem (startOf last range) text with
      | none => rfl
      | some r =>
          cases r with
          | error fault => rfl
          | ok r =>
              have hne := addItem_ne_nil func hread
              dsimp only
              rw [ih _ (hn ▸ length_readItem hread) _ _ _ _ rfl, startOf_of_ne hne]
              cases setItems (some r.2.2) r.2.1 <;> rfl

end LeooRexx.Rxregexp
