import Mathlib
import LeooRexx.Runtime.RexxDateTimeParse

/-!
# What the scanner accepts

A template is a list of fields.  The scanner reads each of them at the front of what is left of the
input.  It takes 60 for a minute or a second, does not ask whether anything is left when the
template ends, and adds twelve to any hour in front of `pm`; apart from these it accepts what is
written as the template says and names a time.
-/

namespace LeooRexx

open Positional

namespace RexxDateTime

open NumberString

/-! ## Templates -/

inductive NumberField where
  | month
  | day
  | civilHours
  | hours
  | minutes
  | seconds
  | microseconds
  | shortYear
  | year

namespace NumberField

def letter : NumberField → Char
  | month => 'm'
  | day => 'd'
  | civilHours => 'h'
  | hours => 'H'
  | minutes => 'i'
  | seconds => 's'
  | microseconds => 'u'
  | shortYear => 'y'
  | year => 'Y'

def size : NumberField → Nat
  | microseconds => 6
  | year => 4
  | _ => 2

/-- The greatest value, where `limit` is the one of the minutes and the seconds. -/
def max (limit : Int) : NumberField → Option Int
  | month => some 12
  | civilHours => some 12
  | hours => some 23
  | minutes => some limit
  | seconds => some limit
  | _ => none

def set (currentYear : Int) (t : RexxDateTime) (n : Int) : NumberField → RexxDateTime
  | month => { t with month := n }
  | day => { t with day := n }
  | civilHours => { t with hours := n }
  | hours => { t with hours := n }
  | minutes => { t with minutes := n }
  | seconds => { t with seconds := n }
  | microseconds => { t with microseconds := n }
  | shortYear => { t with year := slideYear n currentYear }
  | year => { t with year := n }

def read (limit : Int) (k : NumberField) (input : List UInt8) : Option Int :=
  match k.max limit with
  | some m => getNumberMax input k.size m
  | none => getNumber input k.size

end NumberField

inductive TemplateField where
  | number (k : NumberField)
  | shortDay
  | shortHours
  | monthName
  | meridian
  | separator
  | colon
  | period

def TemplateField.chars : TemplateField → List Char
  | number k => List.replicate k.size k.letter
  | shortDay => ['D', 'D']
  | shortHours => ['c', 'c']
  | monthName => ['M', 'M', 'M']
  | meridian => ['C', 'C']
  | separator => ['/']
  | colon => [':']
  | period => ['.']

def template (fields : List TemplateField) : String :=
  String.ofList (fields.flatMap TemplateField.chars)

def IsNumber (ds : List Nat) (size : Nat) (n : Int) : Prop :=
  IsDigits 10 ds ∧ ds.length = size ∧ (value 10 ds : Int) = n

def IsShortNumber (ds : List Nat) (rest : List UInt8) (n : Int) : Prop :=
  IsNumber ds 2 n ∨ IsNumber ds 1 n ∧ isDigit (peek rest) = false

/--
A field at the front of the input: what is written there, the time that it leads to and what is
left.
-/
inductive FieldReads (limit : Int) (sep : List UInt8) (currentYear : Int) (t : RexxDateTime) :
    TemplateField → List UInt8 → RexxDateTime → List UInt8 → Prop
  | number {k : NumberField} {ds : List Nat} {n : Int} (rest : List UInt8) :
      IsNumber ds k.size n → (∀ m ∈ k.max limit, n ≤ m) →
        FieldReads limit sep currentYear t (.number k) (digitText ds ++ rest)
          (k.set currentYear t n) rest
  | shortDay {ds : List Nat} {n : Int} (rest : List UInt8) : IsShortNumber ds rest n →
      FieldReads limit sep currentYear t .shortDay (digitText ds ++ rest)
        { t with day := n } rest
  | shortHours {ds : List Nat} {n : Int} (rest : List UInt8) : IsShortNumber ds rest n → n ≤ 23 →
      FieldReads limit sep currentYear t .shortHours (digitText ds ++ rest)
        { t with hours := n } rest
  | monthName {i : Nat} (rest : List UInt8) : i < 12 →
      FieldReads limit sep currentYear t .monthName
        ((bytes (monthNames.getD i "")).take charMonth ++ rest) { t with month := i + 1 } rest
  | am (rest : List UInt8) :
      FieldReads limit sep currentYear t .meridian (anteMeridian ++ rest)
        { t with hours := if t.hours = 12 then 0 else t.hours } rest
  | pm (rest : List UInt8) :
      FieldReads limit sep currentYear t .meridian (postMeridian ++ rest)
        { t with hours := if t.hours ≠ 12 then t.hours + 12 else t.hours } rest
  | separator (rest : List UInt8) :
      FieldReads limit sep currentYear t .separator (sep.take 1 ++ rest) t rest
  | colon (rest : List UInt8) :
      FieldReads limit sep currentYear t .colon (bytes ":" ++ rest) t rest
  | period (rest : List UInt8) :
      FieldReads limit sep currentYear t .period (bytes "." ++ rest) t rest

inductive TemplateReads (limit : Int) (sep : List UInt8) (currentYear : Int) :
    List TemplateField → RexxDateTime → List UInt8 → RexxDateTime → List UInt8 → Prop
  | nil (t : RexxDateTime) (input : List UInt8) :
      TemplateReads limit sep currentYear [] t input t input
  | cons {f : TemplateField} {fields : List TemplateField} {t t' t'' : RexxDateTime}
      {input rest rest' : List UInt8} : FieldReads limit sep currentYear t f input t' rest →
        TemplateReads limit sep currentYear fields t' rest t'' rest' →
          TemplateReads limit sep currentYear (f :: fields) t input t'' rest'

/-! ## Numbers -/

theorem exists_digitChar {c : UInt8} (h : isDigit c) : ∃ d, d < 10 ∧ c = digitChar d := by
  have hbounds := isDigit_iff.mp h
  refine ⟨c.toNat - 48, by omega, UInt8.toNat_inj.mp ?_⟩
  simp [digitChar, chZero]
  omega

theorem getNumberLoop_eq_some {input : List UInt8} {acc n : Int} {length : Nat}
    (h : getNumberLoop input acc length = some n) :
    ∃ ds rest, input = digitText ds ++ rest ∧ IsDigits 10 ds ∧ ds.length = length ∧
      n = acc * 10 ^ length + value 10 ds := by
  induction length generalizing input acc with
  | zero =>
      obtain rfl := Option.some.inj h
      exact ⟨[], input, rfl, by simp [IsDigits], rfl, by simp⟩
  | succ length ih =>
      rw [getNumberLoop] at h
      cases input with
      | nil => exact absurd h (by simp [peek, isDigit, chZero, chNine])
      | cons c input =>
          cases hdigit : isDigit c with
          | false => simp [peek, hdigit] at h
          | true =>
              obtain ⟨d, hd, rfl⟩ := exists_digitChar hdigit
              simp only [peek, List.headD_cons, hdigit, if_true, List.tail_cons,
                digitValue_digitChar hd] at h
              obtain ⟨ds, rest, rfl, hds, hlength, hn⟩ := ih h
              refine ⟨d :: ds, rest, rfl, isDigits_cons.mpr ⟨hd, hds⟩, by simp [hlength], ?_⟩
              rw [hn, value_cons, hlength, pow_succ]
              push_cast
              ring

theorem getNumber_eq_some_iff {input : List UInt8} {length : Nat} {n : Int} :
    getNumber input length = some n ↔
      ∃ ds, input = digitText ds ++ input.drop length ∧ IsNumber ds length n := by
  constructor
  · intro h
    obtain ⟨ds, rest, rfl, hds, hlength, hn⟩ := getNumberLoop_eq_some h
    have hsize : (digitText ds).length = length := by rw [digitText, List.length_map, hlength]
    refine ⟨ds, by rw [List.drop_left' hsize], hds, hlength, ?_⟩
    rw [hn, zero_mul, zero_add]
  · rintro ⟨ds, hinput, hds, rfl, rfl⟩
    rw [hinput, getNumber, getNumberLoop_digitText hds, zero_mul, zero_add]

theorem getNumberMax_eq_some_iff {input : List UInt8} {length : Nat} {n max : Int} :
    getNumberMax input length max = some n ↔
      (∃ ds, input = digitText ds ++ input.drop length ∧ IsNumber ds length n) ∧ n ≤ max := by
  rw [← getNumber_eq_some_iff, getNumberMax]
  cases getNumber input length with
  | none => simp
  | some m =>
      simp only [Option.bind_eq_bind, Option.bind_some, Option.some.injEq]
      by_cases hle : m ≤ max
      · rw [if_pos hle, Option.some.injEq]
        exact ⟨fun h => ⟨h, h ▸ hle⟩, And.left⟩
      · rw [if_neg hle]
        exact iff_of_false (fun h => by cases h) fun h => hle (h.1 ▸ h.2)

theorem NumberField.read_eq_some_iff {limit : Int} {k : NumberField} {input : List UInt8}
    {n : Int} : k.read limit input = some n ↔
      (∃ ds, input = digitText ds ++ input.drop k.size ∧ IsNumber ds k.size n) ∧
        ∀ m ∈ k.max limit, n ≤ m := by
  rw [NumberField.read]
  cases k.max limit with
  | none => simp [getNumber_eq_some_iff]
  | some m => simp [getNumberMax_eq_some_iff]

theorem length_digitText (ds : List Nat) : (digitText ds).length = ds.length :=
  List.length_map _

theorem IsShortNumber.reads {ds : List Nat} {rest : List UInt8} {n : Int}
    (h : IsShortNumber ds rest n) :
    numberLength (digitText ds ++ rest) = ds.length ∧
      getNumber (digitText ds ++ rest) ds.length = some n := by
  have hread : ∀ size, IsNumber ds size n →
      getNumber (digitText ds ++ rest) ds.length = some n := by
    rintro size ⟨hds, -, hvalue⟩
    rw [getNumber, getNumberLoop_digitText hds, zero_mul, zero_add, hvalue]
  rcases h with h | ⟨h, hrest⟩
  · refine ⟨?_, hread 2 h⟩
    obtain ⟨d, e, rfl⟩ := List.length_eq_two.mp h.2.1
    have he : isDigit (digitChar e) = true := isDigit_digitChar (h.1 e (by simp))
    simp [digitText, numberLength, he]
  · refine ⟨?_, hread 1 h⟩
    obtain ⟨d, rfl⟩ := List.length_eq_one_iff.mp h.2.1
    have hsecond : (digitText [d] ++ rest).getD 1 0 = peek rest := by
      cases rest <;> rfl
    rw [numberLength, hsecond, hrest]
    rfl

theorem isShortNumber_of_getNumber {input : List UInt8} {n : Int}
    (h : getNumber input (numberLength input) = some n) :
    ∃ ds, input = digitText ds ++ input.drop (numberLength input) ∧
      IsShortNumber ds (input.drop (numberLength input)) n := by
  obtain ⟨ds, hinput, hnumber⟩ := getNumber_eq_some_iff.mp h
  refine ⟨ds, hinput, ?_⟩
  cases hsecond : isDigit (input.getD 1 0) with
  | true =>
      have hlength : numberLength input = 2 := by
        rw [numberLength, if_pos hsecond]
      rw [hlength] at hnumber
      exact .inl hnumber
  | false =>
      have hlength : numberLength input = 1 := by
        rw [numberLength, if_neg (by rw [hsecond]; decide)]
      rw [hlength] at hnumber hinput ⊢
      refine .inr ⟨hnumber, ?_⟩
      have hpeek : peek (input.drop 1) = input.getD 1 0 := by
        cases input with
        | nil => rfl
        | cons c input => cases input <;> rfl
      rw [hpeek]
      exact hsecond

/-! ## One field -/

section Fields

variable {sep : List UInt8} {cy : Int} {t : RexxDateTime} {s : Scan} (input : List UInt8)
  (f : List Char)

theorem scanStep_number (k : NumberField) :
    scanStep sep cy ⟨t, input, (TemplateField.number k).chars ++ f⟩ =
      (k.read 60 input).map fun n => ⟨k.set cy t n, input.drop k.size, f⟩ := by
  rw [Option.map_eq_bind]
  cases k with
  | month =>
      change (getNumberMax input 2 12 >>= fun month => if month > months then none else
        some (Scan.mk { t with month := month } (input.drop 2) f)) =
          (getNumberMax input 2 12).bind _
      cases hread : getNumberMax input 2 12 with
      | none => rfl
      | some n =>
          have hle := (getNumberMax_eq_some_iff.mp hread).2
          exact if_neg (not_lt.mpr hle)
  | _ => rfl

theorem scanStep_shortDay :
    scanStep sep cy ⟨t, input, TemplateField.shortDay.chars ++ f⟩ =
      (getNumber input (numberLength input)).map fun n =>
        ⟨{ t with day := n }, input.drop (numberLength input), f⟩ := by
  rw [Option.map_eq_bind]
  rfl

theorem scanStep_shortHours :
    scanStep sep cy ⟨t, input, TemplateField.shortHours.chars ++ f⟩ =
      (getNumberMax input (numberLength input) 23).map fun n =>
        ⟨{ t with hours := n }, input.drop (numberLength input), f⟩ := by
  rw [Option.map_eq_bind]
  rfl

theorem FieldReads.scanStep {input rest : List UInt8} {t' : RexxDateTime} {field : TemplateField}
    (h0 : 0 ∉ sep) (h : FieldReads 60 sep cy t field input t' rest) :
    scanStep sep cy ⟨t, input, field.chars ++ f⟩ = some ⟨t', rest, f⟩ := by
  cases h with
  | @number k ds n rest hnumber hmax =>
      have hsize : (digitText ds).length = k.size := (length_digitText ds).trans hnumber.2.1
      have hread : k.read 60 (digitText ds ++ rest) = some n := by
        refine NumberField.read_eq_some_iff.mpr ⟨⟨ds, ?_, hnumber⟩, hmax⟩
        rw [List.drop_left' hsize]
      rw [scanStep_number, hread, Option.map_some, List.drop_left' hsize]
  | @shortDay ds n rest hnumber =>
      obtain ⟨hlength, hread⟩ := hnumber.reads
      rw [scanStep_shortDay, hlength, hread, Option.map_some,
        List.drop_left' (length_digitText ds)]
  | @shortHours ds n rest hnumber hmax =>
      obtain ⟨hlength, hread⟩ := hnumber.reads
      have hread' : getNumberMax (digitText ds ++ rest) ds.length 23 = some n := by
        rw [getNumberMax, hread]
        exact if_pos hmax
      rw [scanStep_shortHours, hlength, hread', Option.map_some,
        List.drop_left' (length_digitText ds)]
  | @monthName i rest hi =>
      have hmonth : (1 : Int) ≤ (i : Int) + 1 ∧ (i : Int) + 1 ≤ 12 := by omega
      have hindex : ((i : Int) + 1 - 1).toNat = i := by omega
      have hscan : RexxDateTime.scanStep sep cy ⟨t, _, 'M' :: 'M' :: 'M' :: f⟩ = _ :=
        scan_monthName rest f hmonth.1 hmonth.2
      rw [hindex] at hscan
      exact hscan
  | am rest => exact scan_am rest f
  | pm rest => exact scan_pm rest f
  | separator =>
      cases sep with
      | nil => simp [RexxDateTime.scanStep, TemplateField.chars, peek, Scan.advance]
      | cons c sep =>
          have hc : c ≠ 0 := fun hc => h0 (hc ▸ List.mem_cons_self)
          simp [RexxDateTime.scanStep, TemplateField.chars, peek, hc, Scan.advance]
  | colon rest => exact scan_colon rest f
  | period rest => exact scan_period rest f

omit sep cy in
theorem mark_of_peek {c : UInt8} (hc : c ≠ 0)
    (h : (if peek input ≠ c then none else some ⟨t, input.drop 1, f⟩) = some s) :
    ∃ rest, input = c :: rest ∧ s = ⟨t, rest, f⟩ := by
  cases input with
  | nil => simp [peek, Ne.symm hc] at h
  | cons d input =>
      by_cases hd : d = c
      · subst hd
        rw [if_neg (fun hne => hne rfl)] at h
        exact ⟨input, rfl, (Option.some.inj h).symm⟩
      · rw [if_pos (show peek (d :: input) ≠ c from hd)] at h
        cases h

theorem fieldReads_of_scanStep {field : TemplateField} (h0 : 0 ∉ sep)
    (h : scanStep sep cy ⟨t, input, field.chars ++ f⟩ = some s) :
    FieldReads 60 sep cy t field input s.time s.inputscan ∧ s.formatscan = f := by
  cases field with
  | number k =>
      rw [scanStep_number] at h
      obtain ⟨n, hread, rfl⟩ := Option.map_eq_some_iff.mp h
      obtain ⟨⟨ds, hinput, hnumber⟩, hmax⟩ := NumberField.read_eq_some_iff.mp hread
      refine ⟨?_, rfl⟩
      have hreads : FieldReads 60 sep cy t (.number k) (digitText ds ++ input.drop k.size) _ _ :=
        .number (input.drop k.size) hnumber hmax
      rwa [← hinput] at hreads
  | shortDay =>
      rw [scanStep_shortDay] at h
      obtain ⟨n, hread, rfl⟩ := Option.map_eq_some_iff.mp h
      obtain ⟨ds, hinput, hnumber⟩ := isShortNumber_of_getNumber hread
      refine ⟨?_, rfl⟩
      have hreads : FieldReads 60 sep cy t .shortDay
          (digitText ds ++ input.drop (numberLength input)) _ _ :=
        .shortDay (input.drop (numberLength input)) hnumber
      rwa [← hinput] at hreads
  | shortHours =>
      rw [scanStep_shortHours] at h
      obtain ⟨n, hread, rfl⟩ := Option.map_eq_some_iff.mp h
      obtain ⟨hnumber, hmax⟩ := getNumberMax_eq_some_iff.mp hread
      obtain ⟨ds, hinput, hnumber⟩ :=
        isShortNumber_of_getNumber (getNumber_eq_some_iff.mpr hnumber)
      refine ⟨?_, rfl⟩
      have hreads : FieldReads 60 sep cy t .shortHours
          (digitText ds ++ input.drop (numberLength input)) _ _ :=
        .shortHours (input.drop (numberLength input)) hnumber hmax
      rwa [← hinput] at hreads
  | monthName =>
      obtain ⟨i, hi⟩ : ∃ i, i = monthNames.findIdx fun name =>
        (bytes name).take charMonth = input.take charMonth := ⟨_, rfl⟩
      have hscan : scanStep sep cy ⟨t, input, TemplateField.monthName.chars ++ f⟩ =
          if i < monthNames.length then
            some ⟨{ t with month := i + 1 }, input.drop charMonth, f⟩ else none := by
        rw [hi]
        rfl
      rw [hscan] at h
      by_cases hlt : i < monthNames.length
      · rw [if_pos hlt] at h
        obtain rfl := Option.some.inj h
        refine ⟨?_, rfl⟩
        have hname : (bytes (monthNames.getD i "")).take charMonth = input.take charMonth := by
          have hfound := List.findIdx_getElem (w := hi ▸ hlt)
          rw [List.getD_eq_getElem?_getD, List.getElem?_eq_getElem hlt, Option.getD_some]
          simpa [← hi] using hfound
        have hreads : FieldReads 60 sep cy t .monthName (_ ++ input.drop charMonth) _ _ :=
          .monthName (input.drop charMonth) (show i < 12 from hlt)
        rwa [hname, List.take_append_drop] at hreads
      · rw [if_neg hlt] at h
        cases h
  | meridian =>
      by_cases ham : input.take 2 = anteMeridian
      · have hscan : scanStep sep cy ⟨t, input, TemplateField.meridian.chars ++ f⟩ = some
            ⟨{ t with hours := if t.hours = 12 then 0 else t.hours }, input.drop 2, f⟩ :=
          if_pos ham
        rw [hscan] at h
        obtain rfl := Option.some.inj h
        have hreads : FieldReads 60 sep cy t .meridian (anteMeridian ++ input.drop 2) _ _ :=
          .am (input.drop 2)
        rw [← ham, List.take_append_drop] at hreads
        exact ⟨hreads, rfl⟩
      · by_cases hpm : input.take 2 = postMeridian
        · have hscan : scanStep sep cy ⟨t, input, TemplateField.meridian.chars ++ f⟩ = some
              ⟨{ t with hours := if t.hours ≠ 12 then t.hours + 12 else t.hours },
                input.drop 2, f⟩ :=
            (if_neg ham).trans (if_pos hpm)
          rw [hscan] at h
          obtain rfl := Option.some.inj h
          have hreads : FieldReads 60 sep cy t .meridian (postMeridian ++ input.drop 2) _ _ :=
            .pm (input.drop 2)
          rw [← hpm, List.take_append_drop] at hreads
          exact ⟨hreads, rfl⟩
        · have hscan : scanStep sep cy ⟨t, input, TemplateField.meridian.chars ++ f⟩ = none :=
            (if_neg ham).trans (if_neg hpm)
          rw [hscan] at h
          cases h
  | separator =>
      cases sep with
      | nil =>
          obtain rfl := Option.some.inj h
          exact ⟨.separator input, rfl⟩
      | cons c sep =>
          have hc : c ≠ 0 := fun hc => h0 (hc ▸ List.mem_cons_self)
          have hscan : scanStep (c :: sep) cy ⟨t, input, TemplateField.separator.chars ++ f⟩ =
              if peek input ≠ c then none else some ⟨t, input.drop 1, f⟩ := if_neg hc
          rw [hscan] at h
          obtain ⟨rest, rfl, rfl⟩ := mark_of_peek input f hc h
          exact ⟨.separator rest, rfl⟩
  | colon =>
      obtain ⟨rest, rfl, rfl⟩ := mark_of_peek input f (c := 58) (by decide) h
      exact ⟨.colon rest, rfl⟩
  | period =>
      obtain ⟨rest, rfl, rfl⟩ := mark_of_peek input f (c := 46) (by decide) h
      exact ⟨.period rest, rfl⟩

end Fields

/-! ## Whole templates -/

section Templates

variable {sep : List UInt8} {cy : Int} {fields : List TemplateField}
  {t t' : RexxDateTime} {input rest : List UInt8}

theorem TemplateField.chars_ne_nil (field : TemplateField) : field.chars ≠ [] := by
  cases field with
  | number k => cases k <;> simp [chars, NumberField.size]
  | _ => simp [chars]

theorem scanLoop_eq_some_iff (h0 : 0 ∉ sep) {fuel : Nat}
    (hfuel : (fields.flatMap TemplateField.chars).length ≤ fuel) {s : Scan} :
    scanLoop sep cy fuel ⟨t, input, fields.flatMap TemplateField.chars⟩ = some s ↔
      TemplateReads 60 sep cy fields t input s.time s.inputscan ∧ s.formatscan = [] := by
  induction fields generalizing t input fuel with
  | nil =>
      rw [List.flatMap_nil, scanLoop_end, Option.some.injEq]
      constructor
      · rintro rfl
        exact ⟨.nil t input, rfl⟩
      · rintro ⟨hreads, hend⟩
        obtain ⟨time, inputscan, formatscan⟩ := s
        cases hreads
        obtain rfl : formatscan = [] := hend
        rfl
  | cons field fields ih =>
      rw [List.flatMap_cons] at hfuel ⊢
      have hpos := List.length_pos_iff.mpr field.chars_ne_nil
      rw [List.length_append] at hfuel
      obtain ⟨fuel, rfl⟩ : ∃ n, fuel = n + 1 := ⟨fuel - 1, by omega⟩
      have hne : field.chars ++ fields.flatMap TemplateField.chars ≠ [] := fun h =>
        field.chars_ne_nil (List.append_eq_nil_iff.mp h).1
      rw [scanLoop, if_neg hne]
      constructor
      · intro h
        obtain ⟨s', hstep, hloop⟩ := Option.bind_eq_some_iff.mp h
        obtain ⟨hfield, hformat⟩ := fieldReads_of_scanStep _ _ h0 hstep
        obtain ⟨time, inputscan, formatscan⟩ := s'
        obtain rfl : formatscan = fields.flatMap TemplateField.chars := hformat
        obtain ⟨hreads, hend⟩ := (ih (by omega)).mp hloop
        exact ⟨.cons hfield hreads, hend⟩
      · rintro ⟨hreads, hend⟩
        cases hreads with
        | cons hfield hreads =>
            refine Option.bind_eq_some_iff.mpr ⟨_, hfield.scanStep _ h0, ?_⟩
            exact (ih (by omega)).mpr ⟨hreads, hend⟩

theorem parse_eq_some_iff (h0 : 0 ∉ sep) (t : RexxDateTime) (date : List UInt8) :
    t.parseDateTimeFormat date (template fields) sep cy = some t' ↔
      date.length ≤ (fields.flatMap TemplateField.chars).length ∧
        (∃ rest, TemplateReads 60 sep cy fields t.start date t' rest) ∧ t'.validDate := by
  rw [parseDateTimeFormat]
  dsimp only
  rw [template, String.toList_ofList]
  by_cases hlength : date.length > (fields.flatMap TemplateField.chars).length
  · rw [if_pos hlength]
    exact iff_of_false (fun h => by cases h) fun h => absurd hlength (Nat.not_lt.mpr h.1)
  · rw [if_neg hlength]
    constructor
    · intro h
      obtain ⟨s, hloop, hvalid⟩ := Option.bind_eq_some_iff.mp h
      obtain ⟨hreads, -⟩ := (scanLoop_eq_some_iff h0 le_rfl).mp hloop
      by_cases hdate : s.time.validDate
      · rw [if_pos hdate] at hvalid
        obtain rfl := Option.some.inj hvalid
        exact ⟨Nat.not_lt.mp hlength, ⟨_, hreads⟩, hdate⟩
      · rw [if_neg hdate] at hvalid
        cases hvalid
    · rintro ⟨-, ⟨rest, hreads⟩, hdate⟩
      refine Option.bind_eq_some_iff.mpr ⟨⟨t', rest, []⟩,
        (scanLoop_eq_some_iff h0 le_rfl).mpr ⟨hreads, rfl⟩, if_pos hdate⟩

theorem TemplateReads.unique (h0 : 0 ∉ sep) {t'' : RexxDateTime} {rest' : List UInt8}
    (h : TemplateReads 60 sep cy fields t input t' rest)
    (h' : TemplateReads 60 sep cy fields t input t'' rest') : t' = t'' ∧ rest = rest' := by
  have hloop := (scanLoop_eq_some_iff (s := ⟨t', rest, []⟩) h0 le_rfl).mpr ⟨h, rfl⟩
  have hloop' := (scanLoop_eq_some_iff (s := ⟨t'', rest', []⟩) h0 le_rfl).mpr ⟨h', rfl⟩
  have hscan := Option.some.inj (hloop.symm.trans hloop')
  exact ⟨congrArg Scan.time hscan, congrArg Scan.inputscan hscan⟩

end Templates

/-! ## Times that exist -/

structure TimeOfDay (t : RexxDateTime) : Prop where
  hours_nonneg : 0 ≤ t.hours
  hours_le : t.hours ≤ 23
  minutes_nonneg : 0 ≤ t.minutes
  minutes_le : t.minutes ≤ 59
  seconds_nonneg : 0 ≤ t.seconds
  seconds_le : t.seconds ≤ 59

structure Named (t : RexxDateTime) : Prop extends TimeOfDay t where
  month_pos : 1 ≤ t.month
  month_le : t.month ≤ 12
  day_pos : 1 ≤ t.day
  hasDay : HasDay t.year t.month t.day

structure Scanned (limit : Int) (t : RexxDateTime) : Prop where
  month_nonneg : 0 ≤ t.month
  month_le : t.month ≤ 12
  day_nonneg : 0 ≤ t.day
  hours_nonneg : 0 ≤ t.hours
  minutes_nonneg : 0 ≤ t.minutes
  minutes_le : t.minutes ≤ limit
  seconds_nonneg : 0 ≤ t.seconds
  seconds_le : t.seconds ≤ limit

theorem TimeOfDay.scanned {t : RexxDateTime} (h : t.TimeOfDay) : Scanned 59 t.start where
  month_nonneg := zero_le_one
  month_le := by simp [start]
  day_nonneg := zero_le_one
  hours_nonneg := h.hours_nonneg
  minutes_nonneg := h.minutes_nonneg
  minutes_le := h.minutes_le
  seconds_nonneg := h.seconds_nonneg
  seconds_le := h.seconds_le

section Times

variable {limit : Int} {sep : List UInt8} {cy : Int} {t t' : RexxDateTime}
  {input rest : List UInt8}

theorem IsNumber.nonneg {ds : List Nat} {size : Nat} {n : Int} (h : IsNumber ds size n) :
    0 ≤ n := h.2.2 ▸ Int.natCast_nonneg _

theorem IsShortNumber.nonneg {ds : List Nat} {n : Int} (h : IsShortNumber ds rest n) : 0 ≤ n :=
  h.elim IsNumber.nonneg fun h => h.1.nonneg

theorem IsShortNumber.length_le {ds : List Nat} {n : Int} (h : IsShortNumber ds rest n) :
    ds.length ≤ 2 := by
  rcases h with h | ⟨h, -⟩
  · exact h.2.1.le
  · exact h.2.1.le.trans (by norm_num)

theorem FieldReads.scanned {field : TemplateField}
    (h : FieldReads limit sep cy t field input t' rest) (ht : Scanned limit t) :
    Scanned limit t' := by
  cases h with
  | @number k ds n rest hnumber hmax =>
      have hn := hnumber.nonneg
      have hle : ∀ m, k.max limit = some m → n ≤ m := hmax
      cases k with
      | month => exact { ht with month_nonneg := hn, month_le := hle 12 rfl }
      | day => exact { ht with day_nonneg := hn }
      | civilHours => exact { ht with hours_nonneg := hn }
      | hours => exact { ht with hours_nonneg := hn }
      | minutes => exact { ht with minutes_nonneg := hn, minutes_le := hle limit rfl }
      | seconds => exact { ht with seconds_nonneg := hn, seconds_le := hle limit rfl }
      | microseconds => exact { ht with }
      | shortYear => exact { ht with }
      | year => exact { ht with }
  | shortDay rest hnumber => exact { ht with day_nonneg := hnumber.nonneg }
  | shortHours rest hnumber hmax => exact { ht with hours_nonneg := hnumber.nonneg }
  | @monthName i rest hi =>
      exact { ht with
        month_nonneg := show (0 : Int) ≤ i + 1 by omega
        month_le := show (i : Int) + 1 ≤ 12 by omega }
  | am rest =>
      have hnonneg := ht.hours_nonneg
      refine { ht with hours_nonneg := ?_ }
      dsimp only
      split <;> omega
  | pm rest =>
      have hnonneg := ht.hours_nonneg
      refine { ht with hours_nonneg := ?_ }
      dsimp only
      split <;> omega
  | separator rest => exact ht
  | colon rest => exact ht
  | period rest => exact ht

theorem TemplateReads.scanned {fields : List TemplateField}
    (h : TemplateReads limit sep cy fields t input t' rest) (ht : Scanned limit t) :
    Scanned limit t' := by
  induction h with
  | nil => exact ht
  | cons hfield _ ih => exact ih (hfield.scanned ht)

theorem FieldReads.mono {limit' : Int} (hle : limit ≤ limit') {field : TemplateField}
    (h : FieldReads limit sep cy t field input t' rest) :
    FieldReads limit' sep cy t field input t' rest := by
  cases h with
  | @number k ds n rest hnumber hmax =>
      refine .number rest hnumber fun m hm => ?_
      have hbound : ∀ m, k.max limit = some m → n ≤ m := hmax
      cases k with
      | minutes =>
          obtain rfl := Option.some.inj hm
          exact (hbound limit rfl).trans hle
      | seconds =>
          obtain rfl := Option.some.inj hm
          exact (hbound limit rfl).trans hle
      | _ => exact hbound m hm
  | shortDay rest hnumber => exact .shortDay rest hnumber
  | shortHours rest hnumber hmax => exact .shortHours rest hnumber hmax
  | monthName rest hi => exact .monthName rest hi
  | am rest => exact .am rest
  | pm rest => exact .pm rest
  | separator rest => exact .separator rest
  | colon rest => exact .colon rest
  | period rest => exact .period rest

theorem TemplateReads.mono {limit' : Int} (hle : limit ≤ limit') {fields : List TemplateField}
    (h : TemplateReads limit sep cy fields t input t' rest) :
    TemplateReads limit' sep cy fields t input t' rest := by
  induction h with
  | nil t input => exact .nil t input
  | cons hfield _ ih => exact .cons (hfield.mono hle) ih

theorem FieldReads.length_le {field : TemplateField}
    (h : FieldReads limit sep cy t field input t' rest) :
    input.length ≤ field.chars.length + rest.length := by
  cases h with
  | number rest hnumber =>
      simp [TemplateField.chars, hnumber.2.1]
  | shortDay rest hnumber => simpa [TemplateField.chars] using hnumber.length_le
  | shortHours rest hnumber => simpa [TemplateField.chars] using hnumber.length_le
  | @monthName i rest hi =>
      rw [List.length_append, length_monthNames i hi]
      rfl
  | am rest => exact List.length_append.le
  | pm rest => exact List.length_append.le
  | separator rest => simp [TemplateField.chars]
  | colon rest => simp [TemplateField.chars, bytes]
  | period rest => simp [TemplateField.chars, bytes]

theorem TemplateReads.length_le {fields : List TemplateField}
    (h : TemplateReads limit sep cy fields t input t' rest) :
    input.length ≤ (fields.flatMap TemplateField.chars).length + rest.length := by
  induction h with
  | nil => simp
  | cons hfield _ ih =>
      have hlength := hfield.length_le
      rw [List.flatMap_cons, List.length_append]
      omega

theorem Scanned.named (ht : Scanned 59 t) (hdate : t.validDate) (hhours : t.hours ≤ 23) :
    t.Named := by
  have hzero : ¬ (t.day = 0 ∨ t.month = 0 ∨ t.year = 0) := fun h => by
    rw [validDate, if_pos h] at hdate
    cases hdate
  have hmonth := ht.month_nonneg
  have hday := ht.day_nonneg
  have hmonth' : 1 ≤ t.month := by omega
  have hday' : 1 ≤ t.day := by omega
  exact
    { hours_nonneg := ht.hours_nonneg
      hours_le := hhours
      minutes_nonneg := ht.minutes_nonneg
      minutes_le := ht.minutes_le
      seconds_nonneg := ht.seconds_nonneg
      seconds_le := ht.seconds_le
      month_pos := hmonth'
      month_le := ht.month_le
      day_pos := hday'
      hasDay := (validDate_iff hmonth' ht.month_le hday').mp hdate }

theorem Named.validDate (h : t.Named) : t.validDate :=
  (validDate_iff h.month_pos h.month_le h.day_pos).mpr h.hasDay

end Times

/-! ## Well-formed input -/

def WellFormed (fields : List TemplateField) (sep : List UInt8) (currentYear : Int)
    (t : RexxDateTime) (date : List UInt8) : Prop :=
  ∃ t', TemplateReads 59 sep currentYear fields t.start date t' [] ∧ t'.Named

/--
Whatever the template finds at the front of the input, when it is a day of the calendar: nothing
is left behind it, it has no minute and no second 60, and `pm` does not carry the hour past 23.
-/
def Strict (fields : List TemplateField) (sep : List UInt8) (currentYear : Int)
    (t : RexxDateTime) (date : List UInt8) : Prop :=
  ∀ t' rest, TemplateReads 60 sep currentYear fields t.start date t' rest → t'.validDate →
    date.length ≤ (fields.flatMap TemplateField.chars).length →
      rest = [] ∧ TemplateReads 59 sep currentYear fields t.start date t' [] ∧ t'.hours ≤ 23

/-- The scanner accepts what is well formed, and only times, where the reading is strict. -/
theorem parse_wellFormed_iff (fields : List TemplateField) {sep : List UInt8} (h0 : 0 ∉ sep)
    (cy : Int) {t : RexxDateTime} (ht : t.TimeOfDay) (date : List UInt8) :
    (((∃ t', t.parseDateTimeFormat date (template fields) sep cy = some t') ↔
        WellFormed fields sep cy t date) ∧
      ∀ t', t.parseDateTimeFormat date (template fields) sep cy = some t' → t'.Named) ↔
    Strict fields sep cy t date := by
  constructor
  · rintro ⟨haccept, hnamed⟩ t' rest hreads hdate hlength
    have hparse : t.parseDateTimeFormat date (template fields) sep cy = some t' :=
      (parse_eq_some_iff h0 t date).mpr ⟨hlength, ⟨rest, hreads⟩, hdate⟩
    obtain ⟨t'', hwell, -⟩ := haccept.mp ⟨t', hparse⟩
    obtain ⟨rfl, rfl⟩ := hreads.unique h0 (hwell.mono (by norm_num))
    exact ⟨rfl, hwell, (hnamed t' hparse).hours_le⟩
  · intro hstrict
    have hparsed : ∀ t', t.parseDateTimeFormat date (template fields) sep cy = some t' →
        TemplateReads 59 sep cy fields t.start date t' [] ∧ t'.Named := by
      intro t' hparse
      obtain ⟨hlength, ⟨rest, hreads⟩, hdate⟩ := (parse_eq_some_iff h0 t date).mp hparse
      obtain ⟨-, hreads59, hhours⟩ := hstrict t' rest hreads hdate hlength
      exact ⟨hreads59, (hreads59.scanned ht.scanned).named hdate hhours⟩
    refine ⟨⟨fun ⟨t', hparse⟩ => ⟨t', hparsed t' hparse⟩, ?_⟩,
      fun t' hparse => (hparsed t' hparse).2⟩
    rintro ⟨t', hreads, hnamed⟩
    have hlength := hreads.length_le
    exact ⟨t', (parse_eq_some_iff h0 t date).mpr
      ⟨by simpa using hlength, ⟨[], hreads.mono (by norm_num)⟩, hnamed.validDate⟩⟩

theorem timeOfDay_clear : clear.TimeOfDay := by
  constructor <;> decide

/-- The fields of `parseNormalTime`, with the last second of a day. -/
theorem parse_wellFormed_iff_midnight :
    (((∃ t', clear.parseDateTimeFormat (bytes "23:59:59") (template
        [.number .hours, .colon, .number .minutes, .colon, .number .seconds]) [] 0 = some t') ↔
        WellFormed [.number .hours, .colon, .number .minutes, .colon, .number .seconds] [] 0 clear
          (bytes "23:59:59")) ∧
      ∀ t', clear.parseDateTimeFormat (bytes "23:59:59") (template
        [.number .hours, .colon, .number .minutes, .colon, .number .seconds]) [] 0 = some t' →
          t'.Named) ↔
    Strict [.number .hours, .colon, .number .minutes, .colon, .number .seconds] [] 0 clear
      (bytes "23:59:59") :=
  parse_wellFormed_iff _ (by simp) 0 timeOfDay_clear _

/-- The sixtieth minute of an hour is taken. -/
theorem parseNormalTime_sixty :
    ∃ t', clear.parseNormalTime (bytes "23:60:00") = some t' ∧ ¬ t'.Named := by
  refine ⟨⟨1, 1, 1, 23, 60, 0, 0⟩, by decide, fun h => ?_⟩
  exact absurd h.minutes_le (by decide)

end RexxDateTime

end LeooRexx
