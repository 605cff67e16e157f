import LeooRexx.Classes.StringWordRuns

/-!
# Word functions over several words

`subWord`, `delWord`, `space` and `wordPos`, each from the words of the string.
-/

namespace LeooRexx

namespace StringWord

open RexxTarget (isBlank)
open StringArguments

variable {data this phrase : List UInt8} {c haystack needle : Cursor} {t : Token} {ts us : List Token}

/-! ## Parts of the string -/

theorem subWordLoop_eq (h : Stands data c ts) (count wordEnd : ℕ) :
    (subWordLoop data count c wordEnd).2 =
      (ts.take count).getLast?.elim wordEnd fun t => t.start + t.length := by
  induction count generalizing c ts wordEnd with
  | zero => rfl
  | succ count ih =>
      rw [subWordLoop]
      cases ts with
      | nil =>
          rw [if_neg (not_not.mpr h.2.2)]
          rfl
      | cons t ts =>
          rw [if_pos (by simp [h.wordLength_eq_zero_iff]), ih h.step, List.take_succ_cons,
            List.getLast?_cons, h.1, h.2.1]
          cases (ts.take count).getLast? <;> rfl

theorem site_take {count : ℕ} (h : 0 < count) (ts : List Token) :
    site data (ts.take count) = site data ts := by
  obtain ⟨count, rfl⟩ := Nat.exists_eq_add_of_lt h
  cases ts <;> simp [site]

theorem span_nil (data : List UInt8) : span data [] = [] := by
  simp [span, site]

theorem subWord_eq (this : List UInt8) (n : ℕ) (k : Option ℕ) :
    subWord this (positive n) (k.map Nat.cast) =
      .ok (span this (((wordsOf this).drop n).take (k.getD maxWholeNumber))) := by
  obtain ⟨left, c, hseek, hleft, hwanted⟩ := stands_wanted this n
  simp only [subWord, getPosition_positive, optionalLength_cast, hseek, bind, Except.bind, pure,
    Except.pure]
  split
  case isTrue hnone =>
      have hempty : ((wordsOf this).drop n).take (k.getD maxWholeNumber) = [] := by
        rcases hnone with hnull | hzero
        · obtain rfl := List.length_eq_zero_iff.mp hnull
          simp [wordsOf, tokens, tokensFrom]
        · rw [hzero, List.take_zero]
      rw [hempty, span_nil]
  case isFalse hsome =>
      have hcount : 0 < k.getD maxWholeNumber := by omega
      split
      case isTrue hshort =>
          have hempty : (wordsOf this).drop n = [] := List.drop_of_length_le (by omega)
          rw [hempty, List.take_nil, span_nil]
      case isFalse _ =>
          rw [subWordLoop_eq hwanted, span, site_take hcount, hwanted.word_eq]
          cases hlast : (((wordsOf this).drop n).take (k.getD maxWholeNumber)).getLast? with
          | none => simp
          | some t => rfl

theorem take_append_drop_site (this : List UInt8) (ts : List Token) :
    this.take (site this ts) ++ this.drop (site this ts) = this := List.take_append_drop _ _

theorem Stands.word_le (h : Stands data c ts) : c.word ≤ data.length := by
  cases ts with
  | nil => exact le_of_eq h.1
  | cons t ts =>
      obtain ⟨hword, _, _, hnext, hlength, _⟩ := h
      omega

theorem Stands.skip_behind (h : Stands data c ts) {nextSite length : ℕ}
    (hskip : (if c.length ≠ 0 then skipBlanks data c.nextSite c.length
      else (c.nextSite, c.length)) = (nextSite, length)) :
    length = data.length - site data ts.tail ∧ (length ≠ 0 → nextSite = site data ts.tail) := by
  cases ts with
  | nil =>
      obtain ⟨_, hlength, _⟩ := h
      rw [if_neg (not_not.mpr hlength), hlength] at hskip
      cases hskip
      exact ⟨(Nat.sub_self _).symm, fun hne => absurd rfl hne⟩
  | cons t ts =>
      have hsite := h.wordStart_nextSite
      have hfrom : c.nextSite ≤ wordStart isBlank data c.nextSite := le_runEnd isBlank data _
      obtain ⟨_, _, _, _, hlength, _⟩ := h
      split at hskip
      case isTrue _ =>
          rw [skipBlanks_eq hlength, hsite] at hskip
          cases hskip
          exact ⟨rfl, fun _ => rfl⟩
      case isFalse hnone =>
          cases hskip
          rw [hsite] at hfrom
          exact ⟨by rw [List.tail_cons]; omega, fun hne => absurd hne hnone⟩

theorem copy_around {frontLength nextSite length rest : ℕ} (hfront : frontLength ≤ this.length)
    (hrest : length = this.length - rest ∧ (length ≠ 0 → nextSite = rest)) :
    Written.Exact ⟨frontLength + length,
        if length ≠ 0 then (if frontLength ≠ 0 then this.take frontLength else []) ++
          (this.drop nextSite).take length
        else if frontLength ≠ 0 then this.take frontLength else []⟩ ∧
      (if length ≠ 0 then (if frontLength ≠ 0 then this.take frontLength else []) ++
          (this.drop nextSite).take length
        else if frontLength ≠ 0 then this.take frontLength else []) =
        this.take frontLength ++ this.drop rest := by
  have htake : (if frontLength ≠ 0 then this.take frontLength else []) =
      this.take frontLength := by
    split
    case isTrue _ => rfl
    case isFalse hzero => rw [not_not.mp hzero, List.take_zero]
  obtain ⟨hlength, hnext⟩ := hrest
  have hbytes : (if length ≠ 0 then this.take frontLength ++ (this.drop nextSite).take length
      else this.take frontLength) = this.take frontLength ++ this.drop rest := by
    split
    case isTrue hne => rw [hnext hne, hlength, ← List.length_drop, List.take_length]
    case isFalse hzero => rw [List.drop_of_length_le (by omega), List.append_nil]
  rw [htake, hbytes]
  refine ⟨?_, rfl⟩
  change (this.take frontLength ++ this.drop rest).length = frontLength + length
  rw [List.length_append, List.length_take, List.length_drop]
  omega

theorem delWord_eq (this : List UInt8) (n : ℕ) (k : Option ℕ) :
    ∃ w, delWord this (positive n) (k.map Nat.cast) = .ok w ∧ w.Exact ∧
      w.bytes = this.take (site this ((wordsOf this).drop n)) ++
        this.drop (site this ((wordsOf this).drop (n + k.getD maxWholeNumber))) := by
  obtain ⟨left, c, hseek, hleft, hwanted⟩ := stands_wanted this n
  simp only [delWord, getPosition_positive, optionalLength_cast, hseek, bind, Except.bind, pure,
    Except.pure]
  split
  case isTrue hnull =>
      obtain rfl := List.length_eq_zero_iff.mp hnull
      exact ⟨_, rfl, rfl, by simp⟩
  case isFalse _ =>
    split
    case isTrue hzero =>
        refine ⟨_, rfl, rfl, ?_⟩
        rw [hzero, Nat.add_zero, take_append_drop_site]
    case isFalse hcount =>
      split
      case isTrue hshort =>
          have hempty : (wordsOf this).drop n = [] := List.drop_of_length_le (by omega)
          have hempty' : (wordsOf this).drop (n + k.getD maxWholeNumber) = [] :=
            List.drop_of_length_le (by omega)
          refine ⟨_, rfl, rfl, ?_⟩
          rw [hempty, hempty', take_append_drop_site]
      case isFalse _ =>
          obtain ⟨count, hk⟩ : ∃ count, k.getD maxWholeNumber = count + 1 :=
            ⟨k.getD maxWholeNumber - 1, by omega⟩
          have hcounted := (seek_stands hwanted count).2
          rw [List.drop_drop] at hcounted
          rw [hk]
          generalize (seek this (count + 1) c).2 = last at hcounted ⊢
          cases hskip : (if last.length ≠ 0 then skipBlanks this last.nextSite last.length
            else (last.nextSite, last.length)) with
          | mk nextSite length =>
              have hbehind := hcounted.skip_behind hskip
              rw [List.tail_drop] at hbehind
              refine ⟨_, rfl, ?_⟩
              rw [← hwanted.word_eq]
              exact copy_around hwanted.word_le hbehind

/-! ## Spacing -/

def textsOf (this : List UInt8) : List (List UInt8) :=
  (wordsOf this).map fun t => t.text this

theorem spaceCount_eq (h : Stands data c ts) {fuel : ℕ} (hfuel : ts.length < fuel)
    (count wordSize : ℕ) :
    spaceCount data fuel c (count, wordSize) =
      some (count + ts.length, wordSize + (ts.map Token.length).sum) := by
  induction fuel generalizing c ts count wordSize with
  | zero => exact absurd hfuel (Nat.not_lt_zero _)
  | succ fuel ih =>
      rw [spaceCount]
      cases ts with
      | nil =>
          rw [if_neg (not_not.mpr h.2.2)]
          rfl
      | cons t ts =>
          rw [if_pos (by simp [h.wordLength_eq_zero_iff]), ih h.step (by simpa using hfuel), h.2.1,
            List.length_cons, List.map_cons, List.sum_cons]
          congr 2 <;> omega

theorem spaceCopy_eq (h : Stands data c (us ++ [t])) (spaces : ℕ) (padChar : UInt8)
    (current : List UInt8) :
    spaceCopy data spaces padChar us.length c current =
      current ++ (List.replicate spaces padChar).intercalate
        ((us ++ [t]).map fun t => t.text data) := by
  induction us generalizing c current with
  | nil =>
      rw [List.length_nil, spaceCopy, h.text_eq]
      simp
  | cons u us ih =>
      have hpads : ∀ current : List UInt8,
          (if spaces ≠ 0 then current ++ List.replicate spaces padChar else current) =
            current ++ List.replicate spaces padChar := by
        intro current
        split
        case isTrue _ => rfl
        case isFalse hnone => simp [not_not.mp hnone]
      rw [List.length_cons, spaceCopy, h.text_eq]
      simp only [hpads]
      rw [ih h.step, List.cons_append, List.map_cons,
        List.intercalate_cons_of_ne_nil (by simp)]
      simp only [List.append_assoc]

theorem length_intercalate (sep : List UInt8) (w : List UInt8) (ws : List (List UInt8)) :
    (sep.intercalate (w :: ws)).length =
      ((w :: ws).map List.length).sum + ws.length * sep.length := by
  induction ws generalizing w with
  | nil => simp
  | cons v ws ih =>
      rw [List.intercalate_cons_cons, List.length_append, List.length_append, ih v]
      simp only [List.map_cons, List.sum_cons, List.length_cons, Nat.add_one_mul]
      omega

theorem Stands.lengths (h : Stands data c ts) :
    ts.map Token.length = (ts.map fun t => t.text data).map List.length := by
  induction ts generalizing c with
  | nil => rfl
  | cons t ts ih => rw [List.map_cons, List.map_cons, List.map_cons, ih h.step, h.length_text]

theorem space_eq (this : List UInt8) (k : Option ℕ) (pad : Option UInt8) :
    ∃ w, space this (k.map Nat.cast) (pad.map fun c => [c]) = .ok (some w) ∧ w.Exact ∧
      w.bytes = (List.replicate (k.getD 1) (pad.getD 32)).intercalate (textsOf this) := by
  have hstands : Stands this (firstWord this) (wordsOf this) := stands_firstWord this
  have hlengths := hstands.lengths
  have hfuel : (wordsOf this).length < this.length + 1 :=
    Nat.lt_succ_of_le (length_tokensFrom_le 0)
  simp only [space, optionalLength_cast, getPad_char, bind, Except.bind, pure, Except.pure,
    spaceCount_eq hstands hfuel, Option.map_some, textsOf]
  cases hwords : wordsOf this using List.reverseRecOn with
  | nil => exact ⟨_, rfl, rfl, rfl⟩
  | append_singleton us t _ =>
      have hcount : ¬ 0 + (us ++ [t]).length = 0 := by simp
      have hless : 0 + (us ++ [t]).length - 1 = us.length := by simp
      rw [hwords] at hstands hlengths
      refine ⟨_, rfl, ?_⟩
      simp only [if_neg hcount, hless, spaceCopy_eq hstands, List.nil_append, and_true]
      cases htexts : (us ++ [t]).map fun t => t.text this with
      | nil => simp at htexts
      | cons w ws =>
          have hlength : ws.length = us.length := by
            simpa using (congrArg List.length htexts).symm
          change ((List.replicate (k.getD 1) (pad.getD 32)).intercalate (w :: ws)).length = _
          rw [length_intercalate, hlengths, htexts, hlength, List.length_replicate, Nat.zero_add]

/-! ## Phrases -/

theorem samePhrase_iff (h : Stands this haystack ts) (hneedle : Stands phrase needle us) :
    samePhrase this phrase us.length haystack needle = true ↔
      (ts.map fun t => t.text this).take us.length = us.map fun t => t.text phrase := by
  induction us generalizing ts haystack needle with
  | nil => simp [samePhrase]
  | cons u us ih =>
      have hlength : needle.wordLength = u.length := hneedle.2.1
      rw [List.length_cons, samePhrase, hneedle.text_eq]
      cases ts with
      | nil =>
          have hpos := hneedle.2.2.1
          rw [if_pos (by rw [h.2.2, hlength]; omega)]
          simp
      | cons t ts =>
          have htext := h.text_eq
          rw [List.map_cons, List.map_cons, List.take_succ_cons, List.cons.injEq]
          by_cases hsize : t.length = u.length
          · rw [if_neg (by rw [h.2.1, hlength, hsize]; simp), hlength, ← hsize, ← h.2.1, htext]
            by_cases htexts : t.text this = u.text phrase
            · rw [if_neg (by simp [htexts]), ih h.step hneedle.step]
              simp [htexts]
            · rw [if_pos (by simpa using fun heq => htexts heq.symm)]
              simp [htexts]
          · rw [if_pos (by rw [h.2.1, hlength]; exact hsize)]
            refine iff_of_false (by simp) fun hsame => hsize ?_
            rw [← h.length_text, ← hneedle.length_text, hsame.1]

theorem skipWords_stands (h : Stands data c ts) (n : ℕ) :
    Stands data (skipWords data n c) (ts.drop n) := by
  induction n generalizing c ts with
  | zero => exact h
  | succ n ih =>
      rw [skipWords]
      cases ts with
      | nil =>
          rw [if_neg (not_not.mpr h.2.2)]
          exact h
      | cons t ts =>
          rw [if_pos (by simp [h.wordLength_eq_zero_iff])]
          exact ih h.step

def phrasePlaces (this phrase : List UInt8) : Set ℕ :=
  {i | textsOf phrase ≠ [] ∧ OccursAt (textsOf phrase) (textsOf this) i}

theorem wordPosLoop_firstOf (hneedle : Stands phrase needle (wordsOf phrase))
    (hwords : wordsOf phrase ≠ []) {searchCount p : ℕ}
    (hcount : p + searchCount + (wordsOf phrase).length = (wordsOf this).length + 1)
    (h : Stands this haystack ((wordsOf this).drop p)) :
    FirstOf {i | p ≤ i ∧ i ∈ phrasePlaces this phrase}
      (wordPosLoop this phrase (wordsOf phrase).length needle searchCount haystack (p + 1)) := by
  have hpos := List.length_pos_of_ne_nil hwords
  have htexts : textsOf phrase ≠ [] := by simpa [textsOf] using hwords
  induction searchCount generalizing p haystack with
  | zero =>
      refine .inl ⟨rfl, Set.eq_empty_iff_forall_notMem.mpr fun i hi => ?_⟩
      have hlow := hi.1
      have hfits := hi.2.2.1
      simp only [textsOf, List.length_map] at hfits
      omega
  | succ searchCount ih =>
      have hsame := samePhrase_iff h hneedle
      have hplace : samePhrase this phrase (wordsOf phrase).length haystack needle = true ↔
          p ∈ phrasePlaces this phrase := by
        rw [hsame, List.map_drop]
        simp only [phrasePlaces, OccursAt, textsOf, List.length_map, Set.mem_setOf_eq] at htexts ⊢
        simp only [htexts, ne_eq, not_false_eq_true, true_and]
        exact (and_iff_right (by omega)).symm
      rw [wordPosLoop]
      split
      case isTrue hfound =>
          exact .inr ⟨p, rfl, ⟨le_rfl, hplace.mp hfound⟩, fun j hj => hj.1⟩
      case isFalse hmiss =>
          have hnext : {i | p ≤ i ∧ i ∈ phrasePlaces this phrase} =
              {i | p + 1 ≤ i ∧ i ∈ phrasePlaces this phrase} := by
            ext i
            refine and_congr_left fun hi => ⟨fun hle => ?_, Nat.le_of_succ_le⟩
            rcases Nat.eq_or_lt_of_le hle with rfl | hlt
            · exact absurd (hplace.mpr hi) hmiss
            · exact hlt
          have hlt : p < (wordsOf this).length := by omega
          rw [List.drop_eq_getElem_cons hlt] at h
          rw [hnext]
          exact ih (by omega) h.step

theorem wordPos_firstOf (this phrase : List UInt8) (start : Option ℕ) :
    ∃ position, wordPos this phrase (start.map positive) = .ok (some position) ∧
      FirstOf {i | start.getD 0 ≤ i ∧ i ∈ phrasePlaces this phrase} position := by
  have hstart : start.elim 1 (· + 1) = start.getD 0 + 1 := by cases start <;> rfl
  have hneedleWords : wordCount phrase = some (wordsOf phrase).length := words_eq phrase
  have hhaystackWords : wordCount this = some (wordsOf this).length := words_eq this
  simp only [wordPos, optionalPosition_positive, hstart, bind, Except.bind, pure, Except.pure,
    hneedleWords, hhaystackWords, Option.bind]
  split
  case isTrue hnone =>
      refine ⟨0, rfl, .inl ⟨rfl, Set.eq_empty_iff_forall_notMem.mpr fun i hi => ?_⟩⟩
      have hlow := hi.1
      have hne := List.length_pos_of_ne_nil hi.2.1
      have hfits := hi.2.2.1
      simp only [textsOf, List.length_map] at hne hfits
      omega
  case isFalse hsome =>
      have hne : wordsOf phrase ≠ [] := by
        intro hnil
        simp [hnil] at hsome
      have hskipped := skipWords_stands (stands_firstWord this) (start.getD 0)
      exact ⟨_, rfl, wordPosLoop_firstOf (stands_firstWord phrase) hne (by omega) hskipped⟩

/-! ## The word functions -/

theorem word_functions (this : List UInt8) :
    textsOf this = (this.splitOnP isBlank).filter (fun w => !w.isEmpty) ∧
    words this = some (wordsOf this).length ∧
    (∀ n, word this (positive n) = .ok ((wordsOf this)[n]?.elim [] fun t => t.text this)) ∧
    (∀ n, wordIndex this (positive n) = .ok ((wordsOf this)[n]?.elim 0 fun t => t.start + 1)) ∧
    (∀ n, wordLength this (positive n) = .ok ((wordsOf this)[n]?.elim 0 Token.length)) ∧
    (∀ n (k : Option ℕ), subWord this (positive n) (k.map Nat.cast) =
      .ok (span this (((wordsOf this).drop n).take (k.getD maxWholeNumber)))) ∧
    (∀ n (k : Option ℕ), ∃ w, delWord this (positive n) (k.map Nat.cast) = .ok w ∧ w.Exact ∧
      w.bytes = this.take (site this ((wordsOf this).drop n)) ++
        this.drop (site this ((wordsOf this).drop (n + k.getD maxWholeNumber)))) ∧
    (∀ (k : Option ℕ) (pad : Option UInt8), ∃ w,
      space this (k.map Nat.cast) (pad.map fun c => [c]) = .ok (some w) ∧ w.Exact ∧
        w.bytes = (List.replicate (k.getD 1) (pad.getD 32)).intercalate (textsOf this)) ∧
    ∀ (phrase : List UInt8) (start : Option ℕ), ∃ position,
      wordPos this phrase (start.map positive) = .ok (some position) ∧
        FirstOf {i | start.getD 0 ≤ i ∧ i ∈ phrasePlaces this phrase} position :=
  ⟨map_text_tokensFrom 0, words_eq this, word_eq this, wordIndex_eq this, wordLength_eq this,
    subWord_eq this, delWord_eq this, space_eq this, wordPos_firstOf this⟩

/-- The words of a phrase that has none stand before the first word; they are not found. -/
theorem blank_phrase_not_found :
    wordPos [97] [32] none = .ok (some 0) ∧
      ¬ FirstOf {i | OccursAt (textsOf [32]) (textsOf [97]) i} 0 := by
  have htexts : textsOf [32] = [] := by
    simp [textsOf, wordsOf, tokens, tokensFrom, wordStart, runEnd, isBlank]
  have hoccurs : OccursAt (textsOf [32]) (textsOf [97]) 0 := by
    rw [htexts]
    exact ⟨Nat.zero_le _, rfl⟩
  refine ⟨by decide, ?_⟩
  rintro (⟨_, hnone⟩ | ⟨i, hi, _⟩)
  · exact Set.eq_empty_iff_forall_notMem.mp hnone 0 hoccurs
  · exact Nat.succ_ne_zero i hi.symm

end StringWord

end LeooRexx
