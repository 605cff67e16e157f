import LeooRexx.Runtime.RexxDateTimeFormat

/-!
# Parsing what was formatted

Each field of a template reads back the number that was written for it.  A year
of two digits is restored within the window around the current year, where it
need not be a leap year again.
-/

namespace LeooRexx

open Positional

namespace RexxDateTime

open NumberString

/-! ## Numbers -/

theorem ltoa_eq_digitText (v : Nat) : ∃ ds, ltoa v = digitText ds ∧ IsDigits 10 ds ∧
    value 10 ds = v ∧ ds ≠ [] ∧ ∀ k, 1 ≤ k → v < 10 ^ k → ds.length ≤ k := by
  by_cases h0 : v = 0
  · refine ⟨[0], ?_, ?_, ?_, by simp, fun k hk _ => by simpa using hk⟩
    · rw [h0]
      rfl
    · intro d hd
      simp_all
    · simp [h0]
  · have hdigits := isDigits_numeral (b := 10) (by norm_num) v
    refine ⟨numeral 10 v, ?_, hdigits, value_numeral v, ?_, fun k _ hk => ?_⟩
    · rw [ltoa, if_neg (by exact_mod_cast h0), if_neg (by omega)]
      rfl
    · obtain ⟨d, ds, hds, -⟩ := numeral_eq_cons (b := 10) h0
      simp [hds]
    · exact length_numeral_le_of_lt (by norm_num) hk

theorem padded_eq_digitText {width v : Nat} (hw : 1 ≤ width) (h : v < 10 ^ width) :
    ∃ ds, padded width v = digitText ds ∧ IsDigits 10 ds ∧ value 10 ds = v ∧
      ds.length = width := by
  obtain ⟨ds, htext, hdigits, hvalue, -, hlen⟩ := ltoa_eq_digitText v
  have hle := hlen width hw h
  refine ⟨List.replicate (width - ds.length) 0 ++ ds, ?_, ?_, ?_, ?_⟩
  · rw [padded, htext, digitText, digitText, List.length_map, List.map_append,
      List.map_replicate]
    rfl
  · exact isDigits_append.mpr ⟨isDigits_replicate_zero (by norm_num) _, hdigits⟩
  · rw [value_append, value_replicate_zero, zero_mul, zero_add, hvalue]
  · rw [List.length_append, List.length_replicate]
    omega

theorem getNumberLoop_digitText {ds : List Nat} (h : IsDigits 10 ds) (rest : List UInt8)
    (acc : Int) :
    getNumberLoop (digitText ds ++ rest) acc ds.length =
      some (acc * 10 ^ ds.length + value 10 ds) := by
  induction ds generalizing acc with
  | nil => simp [getNumberLoop, digitText]
  | cons d ds ih =>
      rw [isDigits_cons] at h
      have hdigit := isDigit_digitChar h.1
      simp only [digitText, List.map_cons, List.cons_append, List.length_cons, getNumberLoop,
        peek, List.headD_cons, hdigit, if_true, List.tail_cons, digitValue_digitChar h.1]
      rw [← digitText, ih h.2, value_cons, pow_succ]
      push_cast
      ring_nf

/-- The text is read as the number `v`, whatever follows it. -/
structure Reads (text : List UInt8) (length : Nat) (v : Int) : Prop where
  number (rest : List UInt8) : getNumber (text ++ rest) length = some v
  size : text.length = length

theorem reads_padded {width v : Nat} (hw : 1 ≤ width) (h : v < 10 ^ width) :
    Reads (padded width v) width v := by
  obtain ⟨ds, htext, hdigits, hvalue, hlen⟩ := padded_eq_digitText hw h
  constructor
  · intro rest
    rw [htext, ← hlen, getNumber, getNumberLoop_digitText hdigits, hvalue, zero_mul, zero_add]
  · rw [htext, digitText, List.length_map, hlen]

theorem reads_sprintfD {width : Nat} {v : Int} (hw : 1 ≤ width) (h0 : 0 ≤ v)
    (h : v < 10 ^ width) : Reads (sprintfD width v) width v := by
  lift v to ℕ using h0
  rw [sprintfD, if_neg (by omega)]
  exact reads_padded hw (by exact_mod_cast h)

theorem reads_sprintfU {width : Nat} {v : Int} (hw : 1 ≤ width) (h0 : 0 ≤ v)
    (h : v < 10 ^ width) (hint : v < 2 ^ 32) : Reads (sprintfU width v) width v := by
  lift v to ℕ using h0
  rw [sprintfU, Int.emod_eq_of_lt (by omega) hint]
  exact reads_padded hw (by exact_mod_cast h)

theorem getNumber_short {v : Int} (h0 : 0 ≤ v) (h : v < 100) {rest : List UInt8}
    (hrest : isDigit (peek rest) = false) :
    numberLength (sprintfU 1 v ++ rest) = (sprintfU 1 v).length ∧
      getNumber (sprintfU 1 v ++ rest) (sprintfU 1 v).length = some v ∧
      (sprintfU 1 v).length ≤ 2 := by
  lift v to ℕ using h0
  obtain ⟨ds, htext, hdigits, hvalue, hne, hlen⟩ := ltoa_eq_digitText v
  have hpad : sprintfU 1 v = digitText ds := by
    have hpos := List.length_pos_iff.mpr hne
    rw [sprintfU, Int.emod_eq_of_lt (by omega) (by omega), Int.toNat_natCast, padded, htext,
      digitText, List.length_map, Nat.sub_eq_zero_of_le hpos]
    rfl
  have hle := hlen 2 (by norm_num) (by omega)
  have hsize : (digitText ds).length = ds.length := List.length_map _
  rw [hpad, hsize]
  refine ⟨?_, ?_, hle⟩
  · obtain ⟨d, ds, rfl⟩ := List.exists_cons_of_ne_nil hne
    cases ds with
    | nil =>
        have hsecond : ([digitChar d] ++ rest).getD 1 0 = peek rest := by
          cases rest <;> rfl
        rw [digitText, List.map_singleton, numberLength, hsecond, hrest]
        rfl
    | cons e ds =>
        obtain rfl : ds = [] := List.length_eq_zero_iff.mp (by simpa using hle)
        have he : isDigit (digitChar e) = true :=
          isDigit_digitChar (hdigits e (by simp))
        simp [digitText, numberLength, he]
  · rw [getNumber, getNumberLoop_digitText hdigits, hvalue, zero_mul, zero_add]

/-! ## Fields -/

section Fields

variable {sep : List UInt8} {cy : Int} {t : RexxDateTime} {text : List UInt8} {v : Int}
  (rest : List UInt8) (f : List Char)

theorem getNumberMax_eq {length : Nat} {max : Int} (h : Reads text length v) (hmax : v ≤ max) :
    getNumberMax (text ++ rest) length max = some v := by
  rw [getNumberMax, h.number]
  exact if_pos hmax

theorem scan_number (field : List Char) {size : Nat} (setField : Int → RexxDateTime)
    (hstep : ∀ input, scanStep sep cy ⟨t, input, field ++ f⟩ =
      getNumber input size >>= fun n =>
        some (Scan.advance ⟨t, input, field ++ f⟩ (setField n) size size))
    (hfield : field.length = size) (h : Reads text size v) :
    scanStep sep cy ⟨t, text ++ rest, field ++ f⟩ = some ⟨setField v, rest, f⟩ := by
  rw [hstep, h.number rest]
  change some (Scan.advance ⟨t, text ++ rest, field ++ f⟩ (setField v) size size) = _
  rw [Scan.advance, List.drop_left' h.size, List.drop_left' hfield]

theorem scan_numberMax (field : List Char) {size : Nat} {max : Int}
    (setField : Int → RexxDateTime)
    (hstep : ∀ input, scanStep sep cy ⟨t, input, field ++ f⟩ =
      getNumberMax input size max >>= fun n =>
        some (Scan.advance ⟨t, input, field ++ f⟩ (setField n) size size))
    (hfield : field.length = size) (h : Reads text size v) (hmax : v ≤ max) :
    scanStep sep cy ⟨t, text ++ rest, field ++ f⟩ = some ⟨setField v, rest, f⟩ := by
  rw [hstep, getNumberMax_eq rest h hmax]
  change some (Scan.advance ⟨t, text ++ rest, field ++ f⟩ (setField v) size size) = _
  rw [Scan.advance, List.drop_left' h.size, List.drop_left' hfield]

theorem scan_month (h : Reads text 2 v) (hmax : v ≤ 12) :
    scanStep sep cy ⟨t, text ++ rest, 'm' :: 'm' :: f⟩ =
      some ⟨{ t with month := v }, rest, f⟩ := by
  have hdrop : (text ++ rest).drop 2 = rest := List.drop_left' h.size
  change (getNumberMax (text ++ rest) 2 12 >>= fun month => if month > months then none else
    some (Scan.mk { t with month := month } ((text ++ rest).drop 2) f)) = _
  rw [getNumberMax_eq rest h hmax, hdrop]
  exact if_neg (not_lt.mpr hmax)

theorem scan_day (h : Reads text 2 v) :
    scanStep sep cy ⟨t, text ++ rest, 'd' :: 'd' :: f⟩ =
      some ⟨{ t with day := v }, rest, f⟩ :=
  scan_number rest f ['d', 'd'] (fun n => { t with day := n }) (fun _ => rfl) rfl h

theorem scan_shortDay (h0 : 0 ≤ v) (h : v < 100) (hrest : isDigit (peek rest) = false) :
    scanStep sep cy ⟨t, sprintfU 1 v ++ rest, 'D' :: 'D' :: f⟩ =
      some ⟨{ t with day := v }, rest, f⟩ := by
  obtain ⟨hlength, hnumber, -⟩ := getNumber_short h0 h hrest
  change (getNumber (sprintfU 1 v ++ rest) (numberLength (sprintfU 1 v ++ rest)) >>= fun day =>
    some (Scan.mk { t with day := day }
      ((sprintfU 1 v ++ rest).drop (numberLength (sprintfU 1 v ++ rest))) f)) = _
  rw [hlength, hnumber, List.drop_left]
  rfl

theorem scan_shortYear (h : Reads text 2 v) :
    scanStep sep cy ⟨t, text ++ rest, 'y' :: 'y' :: f⟩ =
      some ⟨{ t with year := slideYear v cy }, rest, f⟩ :=
  scan_number rest f ['y', 'y'] (fun n => { t with year := slideYear n cy }) (fun _ => rfl) rfl h

theorem scan_longYear (h : Reads text 4 v) :
    scanStep sep cy ⟨t, text ++ rest, 'Y' :: 'Y' :: 'Y' :: 'Y' :: f⟩ =
      some ⟨{ t with year := v }, rest, f⟩ :=
  scan_number rest f ['Y', 'Y', 'Y', 'Y'] (fun n => { t with year := n }) (fun _ => rfl) rfl h

theorem scan_hours (h : Reads text 2 v) (hmax : v ≤ 23) :
    scanStep sep cy ⟨t, text ++ rest, 'H' :: 'H' :: f⟩ =
      some ⟨{ t with hours := v }, rest, f⟩ :=
  scan_numberMax rest f ['H', 'H'] (fun n => { t with hours := n }) (fun _ => rfl) rfl h hmax

theorem scan_minutes (h : Reads text 2 v) (hmax : v ≤ 60) :
    scanStep sep cy ⟨t, text ++ rest, 'i' :: 'i' :: f⟩ =
      some ⟨{ t with minutes := v }, rest, f⟩ :=
  scan_numberMax rest f ['i', 'i'] (fun n => { t with minutes := n }) (fun _ => rfl) rfl h hmax

theorem scan_seconds (h : Reads text 2 v) (hmax : v ≤ 60) :
    scanStep sep cy ⟨t, text ++ rest, 's' :: 's' :: f⟩ =
      some ⟨{ t with seconds := v }, rest, f⟩ :=
  scan_numberMax rest f ['s', 's'] (fun n => { t with seconds := n }) (fun _ => rfl) rfl h hmax

theorem scan_microseconds (h : Reads text 6 v) :
    scanStep sep cy ⟨t, text ++ rest, 'u' :: 'u' :: 'u' :: 'u' :: 'u' :: 'u' :: f⟩ =
      some ⟨{ t with microseconds := v }, rest, f⟩ :=
  scan_number rest f ['u', 'u', 'u', 'u', 'u', 'u'] (fun n => { t with microseconds := n })
    (fun _ => rfl) rfl h

theorem scan_civilHours (h0 : 0 ≤ v) (h : v ≤ 23) (hrest : isDigit (peek rest) = false) :
    scanStep sep cy ⟨t, sprintfU 1 v ++ rest, 'c' :: 'c' :: f⟩ =
      some ⟨{ t with hours := v }, rest, f⟩ := by
  obtain ⟨hlength, hnumber, -⟩ := getNumber_short h0 (by omega) hrest
  have hmax : getNumberMax (sprintfU 1 v ++ rest) (sprintfU 1 v).length maxHours = some v := by
    rw [getNumberMax, hnumber]
    exact if_pos h
  change (getNumberMax (sprintfU 1 v ++ rest) (numberLength (sprintfU 1 v ++ rest)) maxHours >>=
    fun hours => some (Scan.mk { t with hours := hours }
      ((sprintfU 1 v ++ rest).drop (numberLength (sprintfU 1 v ++ rest))) f)) = _
  rw [hlength, hmax, List.drop_left]
  rfl

theorem scan_am :
    scanStep sep cy ⟨t, anteMeridian ++ rest, 'C' :: 'C' :: f⟩ =
      some ⟨{ t with hours := if t.hours = 12 then 0 else t.hours }, rest, f⟩ := rfl

theorem scan_pm :
    scanStep sep cy ⟨t, postMeridian ++ rest, 'C' :: 'C' :: f⟩ =
      some ⟨{ t with hours := if t.hours ≠ 12 then t.hours + 12 else t.hours }, rest, f⟩ :=
  rfl

theorem scan_colon :
    scanStep sep cy ⟨t, bytes ":" ++ rest, ':' :: f⟩ = some ⟨t, rest, f⟩ := rfl

theorem scan_period :
    scanStep sep cy ⟨t, bytes "." ++ rest, '.' :: f⟩ = some ⟨t, rest, f⟩ := rfl

theorem findIdx_monthNames : ∀ i < 12, monthNames.findIdx (fun name =>
    (bytes name).take charMonth = (bytes (monthNames.getD i "")).take charMonth) = i := by
  decide

theorem length_monthNames : ∀ i < 12,
    ((bytes (monthNames.getD i "")).take charMonth).length = charMonth := by
  decide

theorem scan_monthName {month : Int} (h1 : 1 ≤ month) (h12 : month ≤ 12) :
    scanStep sep cy ⟨t, (bytes (monthNames.getD (month - 1).toNat "")).take 3 ++ rest,
        'M' :: 'M' :: 'M' :: f⟩ = some ⟨{ t with month := month }, rest, f⟩ := by
  obtain ⟨i, rfl⟩ : ∃ i : ℕ, month = i + 1 := ⟨(month - 1).toNat, by omega⟩
  have hi : i < 12 := by omega
  have hindex : ((i : Int) + 1 - 1).toNat = i := by omega
  have hfind := findIdx_monthNames i hi
  have hsize := length_monthNames i hi
  have hlength : monthNames.length = 12 := rfl
  have hformat : ('M' :: 'M' :: 'M' :: f).drop charMonth = f := rfl
  rw [hindex]
  change scanStep sep cy ⟨t, (bytes (monthNames.getD i "")).take charMonth ++ rest,
    'M' :: 'M' :: 'M' :: f⟩ = _
  simp only [scanStep, List.headD_cons, List.take_left' hsize, hfind, hlength, hi, if_true,
    Scan.advance, List.drop_left' hsize, hformat]

end Fields

/-! ## Separators -/

def alphanum : List UInt8 :=
  bytes "abcdefghijklmnopqrstuvwxyzABCDEFGHIJKLMNOPQRSTUVWXYZ0123456789"

/-- What the callers admit: no separator, or a character that is not alphanumeric. -/
def Separator (sep : List UInt8) : Prop :=
  sep = [] ∨ ∃ c, sep = [c] ∧ c ≠ 0 ∧ c ∉ alphanum

theorem not_isDigit_of_not_alphanum {c : UInt8} (h : c ∉ alphanum) : isDigit c = false := by
  have hmem : ∀ d < 10, digitChar d ∈ alphanum := by decide
  by_contra hdigit
  have hbounds := isDigit_iff.mp (Bool.not_eq_false _ ▸ hdigit)
  have hc : digitChar (c.toNat - 48) = c := by
    apply UInt8.toNat_inj.mp
    simp [digitChar, chZero]
    omega
  exact h (hc ▸ hmem (c.toNat - 48) (by omega))

theorem scan_separator {sep : List UInt8} (h : Separator sep) (cy : Int) (t : RexxDateTime)
    (rest : List UInt8) (f : List Char) :
    scanStep sep cy ⟨t, sep ++ rest, '/' :: f⟩ = some ⟨t, rest, f⟩ := by
  rcases h with rfl | ⟨c, rfl, h0, -⟩
  · simp [scanStep, peek, Scan.advance]
  · simp [scanStep, peek, h0, Scan.advance]

/-! ## Templates -/

theorem scanLoop_step {sep : List UInt8} {cy : Int} {fuel : Nat} {s s' : Scan} {c : Char}
    {f : List Char} (hf : s.formatscan = c :: f) (h : scanStep sep cy s = some s') :
    scanLoop sep cy (fuel + 1) s = scanLoop sep cy fuel s' := by
  rw [scanLoop, if_neg (by simp [hf]), h]
  rfl

theorem scanLoop_end (sep : List UInt8) (cy : Int) (fuel : Nat) (t : RexxDateTime)
    (input : List UInt8) : scanLoop sep cy fuel ⟨t, input, []⟩ = some ⟨t, input, []⟩ := by
  cases fuel <;> rfl

def ScansField (sep : List UInt8) (cy : Int) (field : List Char) (text rest : List UInt8)
    (t t' : RexxDateTime) : Prop :=
  field ≠ [] ∧ text.length ≤ field.length ∧
    ∀ f, scanStep sep cy ⟨t, text ++ rest, field ++ f⟩ = some ⟨t', rest, f⟩

inductive Scans (sep : List UInt8) (cy : Int) :
    RexxDateTime → List UInt8 → List Char → RexxDateTime → Prop
  | last {t t' : RexxDateTime} {text : List UInt8} {field : List Char} :
      ScansField sep cy field text [] t t' → Scans sep cy t text field t'
  | field {t t' t'' : RexxDateTime} {text rest : List UInt8} {field format : List Char} :
      ScansField sep cy field text rest t t' → Scans sep cy t' rest format t'' →
        Scans sep cy t (text ++ rest) (field ++ format) t''

theorem Scans.length_le {sep : List UInt8} {cy : Int} {t t' : RexxDateTime}
    {input : List UInt8} {format : List Char} (h : Scans sep cy t input format t') :
    input.length ≤ format.length := by
  induction h with
  | last hfield => exact hfield.2.1
  | field hfield _ ih =>
      have hlen := hfield.2.1
      rw [List.length_append, List.length_append]
      omega

theorem ScansField.loop {sep : List UInt8} {cy : Int} {field : List Char}
    {text rest : List UInt8} {t t' : RexxDateTime} (h : ScansField sep cy field text rest t t')
    (format : List Char) {fuel : Nat} (hfuel : (field ++ format).length ≤ fuel) :
    ∃ fuel', format.length ≤ fuel' ∧
      scanLoop sep cy fuel ⟨t, text ++ rest, field ++ format⟩ =
        scanLoop sep cy fuel' ⟨t', rest, format⟩ := by
  obtain ⟨hne, -, hstep⟩ := h
  cases field with
  | nil => exact absurd rfl hne
  | cons c field =>
      rw [List.length_append, List.length_cons] at hfuel
      obtain ⟨fuel, rfl⟩ : ∃ n, fuel = n + 1 := ⟨fuel - 1, by omega⟩
      exact ⟨fuel, by omega, scanLoop_step rfl (hstep format)⟩

theorem Scans.loop {sep : List UInt8} {cy : Int} {t t' : RexxDateTime}
    {input : List UInt8} {format : List Char} (h : Scans sep cy t input format t')
    {fuel : Nat} (hfuel : format.length ≤ fuel) :
    scanLoop sep cy fuel ⟨t, input, format⟩ = some ⟨t', [], []⟩ := by
  induction h generalizing fuel with
  | @last t t' text field hfield =>
      have hlen : (field ++ []).length ≤ fuel := by rwa [List.append_nil]
      obtain ⟨fuel', -, hloop⟩ := hfield.loop [] hlen
      rw [List.append_nil, List.append_nil] at hloop
      rw [hloop, scanLoop_end]
  | @field t t' t'' text rest field format hfield _ ih =>
      obtain ⟨fuel', hle, hloop⟩ := hfield.loop format hfuel
      rw [hloop, ih hle]

def start (t : RexxDateTime) : RexxDateTime := { t with day := 1, month := 1, year := 1 }

theorem Scans.parse {sep : List UInt8} {cy : Int} {t t' : RexxDateTime} {date : List UInt8}
    {format : String} {f : List Char} (h : Scans sep cy t.start date f t')
    (hformat : format.toList = f) :
    t.parseDateTimeFormat date format sep cy = if t'.validDate then some t' else none := by
  have hlen := h.length_le
  have hscan := h.loop le_rfl
  rw [← hformat] at hlen hscan
  rw [start] at hscan
  rw [parseDateTimeFormat]
  dsimp only
  rw [if_neg (not_lt.mpr hlen), hscan]
  rfl

theorem scans_separator {sep : List UInt8} (h : Separator sep) (cy : Int) (rest : List UInt8)
    (t : RexxDateTime) : ScansField sep cy ['/'] sep rest t t := by
  refine ⟨by simp, ?_, fun f => scan_separator h cy t rest f⟩
  rcases h with rfl | ⟨c, rfl, -⟩ <;> simp

/-! ## Valid dates -/

open Gregorian

def HasDay (year month day : Int) : Prop :=
  year ≠ 0 ∧ day ≤ monthLength (leapYear year) month.toNat

instance (year month day : Int) : Decidable (HasDay year month day) := by
  unfold HasDay
  infer_instance

theorem monthLength_le : ∀ leap, ∀ month ≤ 12, monthLength leap month ≤ 31 := by
  decide

theorem monthdays_eq (year : Int) {month : Int} (h1 : 1 ≤ month) (h12 : month ≤ 12)
    (h : ¬ (month = february ∧ leapYear year)) :
    monthdays.getD (month - 1).toNat 0 = monthLength (leapYear year) month.toNat := by
  unfold february at h
  cases hleap : leapYear year <;> interval_cases month <;> first | rfl | simp [hleap] at h

theorem validDate_iff {t : RexxDateTime} (h1 : 1 ≤ t.month) (h12 : t.month ≤ 12)
    (hday : 1 ≤ t.day) : t.validDate ↔ HasDay t.year t.month t.day := by
  unfold validDate
  split_ifs with h0 hleap
  · have hyear : t.year = 0 := by omega
    simp [HasDay, hyear]
  · rw [decide_eq_true_iff, HasDay, hleap.1, hleap.2]
    exact (and_iff_right (by omega)).symm
  · rw [decide_eq_true_iff, HasDay, monthdays_eq t.year h1 h12 hleap]
    exact (and_iff_right (by omega)).symm

/-! ## Years of two digits -/

/-- The year a short date stands for when `cy` is the current year. -/
structure RestoredYear (cy year y : Int) : Prop where
  congr : y % 100 = year % 100
  lower : cy - 50 ≤ y
  upper : y ≤ cy + 49

theorem slideYear_restores {cy year : Int} (hcy : 0 ≤ cy) (hyear : 0 ≤ year) :
    RestoredYear cy year (slideYear (year.tmod 100) cy) := by
  have hmod : year.tmod 100 = year % 100 := Int.tmod_eq_emod_of_nonneg hyear
  have hdiv : cy.tdiv 100 = cy / 100 := Int.tdiv_eq_ediv_of_nonneg hcy
  simp only [slideYear, pastThreshold, futureThreshold, century, hmod, hdiv]
  split_ifs <;> constructor <;> omega

theorem RestoredYear.unique {cy year y y' : Int} (h : RestoredYear cy year y)
    (h' : RestoredYear cy year y') : y = y' := by
  have := h.congr
  have := h.lower
  have := h.upper
  have := h'.congr
  have := h'.lower
  have := h'.upper
  omega

/-! ## The round trips -/

/-- A separator for the format routines: the default one, or one that is admitted. -/
def AdmittedSep (sep : Option (List UInt8)) : Prop := ∀ s ∈ sep, Separator s

theorem AdmittedSep.getD {sep : Option (List UInt8)} (h : AdmittedSep sep) {default : List UInt8}
    (hdefault : Separator default) : Separator (sep.getD default) := by
  cases sep with
  | none => exact hdefault
  | some s => exact h s rfl

theorem separator_slash : Separator (bytes "/") := .inr ⟨47, rfl, by decide, by decide⟩

theorem separator_blank : Separator (bytes " ") := .inr ⟨32, rfl, by decide, by decide⟩

/-- A time stamp with the date of `t` in the year `y`. -/
def withDate (t0 t : RexxDateTime) (y : Int) : RexxDateTime :=
  { t0 with year := y, month := t.month, day := t.day }

def ShortDateUndone (t0 t : RexxDateTime) (cy : Int) (out : Option RexxDateTime) : Prop :=
  ∀ y, RestoredYear cy t.year y →
    out = if HasDay y t.month t.day then some (t0.withDate t y) else none

section RoundTrips

variable {t : RexxDateTime} (ht : t.Valid) (t0 : RexxDateTime) {sep : Option (List UInt8)}
  (hsep : AdmittedSep sep)

include ht

theorem Valid.day_le_31 : t.day ≤ 31 := by
  have hpos := ht.month_pos
  have hle := ht.month_le
  exact ht.day_le.trans (monthLength_le _ _ (by omega))

theorem reads_day : Reads (sprintfD 2 t.day) 2 t.day := by
  have hpos := ht.day_pos
  have hle := ht.day_le_31
  exact reads_sprintfD (by norm_num) (by omega) (by norm_num; omega)

theorem reads_month : Reads (sprintfD 2 t.month) 2 t.month := by
  have hpos := ht.month_pos
  have hle := ht.month_le
  exact reads_sprintfD (by norm_num) (by omega) (by norm_num; omega)

theorem reads_shortYear : Reads (sprintfD 2 (t.year.tmod 100)) 2 (t.year.tmod 100) := by
  have hpos := ht.year_pos
  have hmod : t.year.tmod 100 = t.year % 100 := Int.tmod_eq_emod_of_nonneg (by omega)
  rw [hmod]
  exact reads_sprintfD (by norm_num) (by omega) (by norm_num; omega)

theorem validDate_withDate (y : Int) :
    (t0.withDate t y).validDate ↔ HasDay y t.month t.day :=
  validDate_iff ht.month_pos ht.month_le ht.day_pos

theorem shortDateUndone {cy : Int} (hcy : 0 < cy) {out : Option RexxDateTime}
    (h : out = if (t0.withDate t (slideYear (t.year.tmod 100) cy)).validDate then
      some (t0.withDate t (slideYear (t.year.tmod 100) cy)) else none) :
    ShortDateUndone t0 t cy out := by
  intro y hy
  have hpos := ht.year_pos
  have hslide : RestoredYear cy t.year _ := slideYear_restores (by omega) (by omega)
  rw [h, hslide.unique hy]
  exact if_congr (validDate_withDate ht t0 y) rfl rfl

theorem scans_day (sep rest : List UInt8) (cy : Int) (t0 : RexxDateTime) :
    ScansField sep cy ['d', 'd'] (sprintfD 2 t.day) rest t0 { t0 with day := t.day } :=
  ⟨by simp, (reads_day ht).size.le, fun f => scan_day rest f (reads_day ht)⟩

theorem scans_month (sep rest : List UInt8) (cy : Int) (t0 : RexxDateTime) :
    ScansField sep cy ['m', 'm'] (sprintfD 2 t.month) rest t0 { t0 with month := t.month } :=
  ⟨by simp, (reads_month ht).size.le, fun f => scan_month rest f (reads_month ht) ht.month_le⟩

theorem scans_shortYear (sep rest : List UInt8) (cy : Int) (t0 : RexxDateTime) :
    ScansField sep cy ['y', 'y'] (sprintfD 2 (t.year.tmod 100)) rest t0
      { t0 with year := slideYear (t.year.tmod 100) cy } :=
  ⟨by simp, (reads_shortYear ht).size.le, fun f => scan_shortYear rest f (reads_shortYear ht)⟩

theorem european_undone {cy : Int} (hsep : AdmittedSep sep) (hcy : 0 < cy) :
    ShortDateUndone t0 t cy (t0.parseEuropeanDate (t.formatEuropeanDate sep) sep cy) := by
  have hslash := hsep.getD separator_slash
  apply shortDateUndone ht t0 hcy
  simp only [parseEuropeanDate, formatEuropeanDate, List.append_assoc]
  exact Scans.parse (.field (scans_day ht _ _ _ _) (.field (scans_separator hslash _ _ _)
    (.field (scans_month ht _ _ _ _) (.field (scans_separator hslash _ _ _)
      (.last (scans_shortYear ht _ _ _ _)))))) rfl

theorem usa_undone {cy : Int} (hsep : AdmittedSep sep) (hcy : 0 < cy) :
    ShortDateUndone t0 t cy (t0.parseUsaDate (t.formatUsaDate sep) sep cy) := by
  have hslash := hsep.getD separator_slash
  apply shortDateUndone ht t0 hcy
  simp only [parseUsaDate, formatUsaDate, List.append_assoc]
  exact Scans.parse (.field (scans_month ht _ _ _ _) (.field (scans_separator hslash _ _ _)
    (.field (scans_day ht _ _ _ _) (.field (scans_separator hslash _ _ _)
      (.last (scans_shortYear ht _ _ _ _)))))) rfl

theorem ordered_undone {cy : Int} (hsep : AdmittedSep sep) (hcy : 0 < cy) :
    ShortDateUndone t0 t cy (t0.parseOrderedDate (t.formatOrderedDate sep) sep cy) := by
  have hslash := hsep.getD separator_slash
  apply shortDateUndone ht t0 hcy
  simp only [parseOrderedDate, formatOrderedDate, List.append_assoc]
  exact Scans.parse (.field (scans_shortYear ht _ _ _ _) (.field (scans_separator hslash _ _ _)
    (.field (scans_month ht _ _ _ _) (.field (scans_separator hslash _ _ _)
      (.last (scans_day ht _ _ _ _)))))) rfl

theorem Valid.hasDay : HasDay t.year t.month t.day :=
  ⟨by have := ht.year_pos; omega, ht.day_le⟩

omit ht in
theorem scans_longYear {text : List UInt8} (h : Reads text 4 t.year) (sep rest : List UInt8)
    (cy : Int) (t0 : RexxDateTime) :
    ScansField sep cy ['Y', 'Y', 'Y', 'Y'] text rest t0 { t0 with year := t.year } :=
  ⟨by simp, h.size.le, fun f => scan_longYear rest f h⟩

theorem scans_monthName (sep rest : List UInt8) (cy : Int) (t0 : RexxDateTime) :
    ScansField sep cy ['M', 'M', 'M'] ((bytes (monthNames.getD (t.month - 1).toNat "")).take 3)
      rest t0 { t0 with month := t.month } := by
  refine ⟨by simp, ?_, fun f => scan_monthName rest f ht.month_pos ht.month_le⟩
  rw [List.length_take]
  exact Nat.min_le_left _ _

theorem scans_shortDay {rest : List UInt8} (hrest : isDigit (peek rest) = false)
    (sep : List UInt8) (cy : Int) (t0 : RexxDateTime) :
    ScansField sep cy ['D', 'D'] (sprintfU 1 t.day) rest t0 { t0 with day := t.day } := by
  have hpos := ht.day_pos
  have hle := ht.day_le_31
  obtain ⟨-, -, hlength⟩ := getNumber_short (v := t.day) (by omega) (by omega) hrest
  exact ⟨by simp, hlength, fun f => scan_shortDay rest f (by omega) (by omega) hrest⟩

theorem standard_undone (hsep : AdmittedSep sep) :
    t0.parseStandardDate (t.formatStandardDate sep) sep = some (t0.withDate t t.year) := by
  have hpos := ht.year_pos
  have hle := ht.year_le
  have hyear : Reads (sprintfD 4 t.year) 4 t.year :=
    reads_sprintfD (by norm_num) (by omega) (by norm_num; omega)
  have hseparator := hsep.getD (.inl rfl)
  have hparse : t0.parseDateTimeFormat _ "YYYY/mm/dd" (sep.getD []) 0 = _ :=
    Scans.parse (.field (scans_longYear hyear _ _ _ _) (.field (scans_separator hseparator _ _ _)
      (.field (scans_month ht _ _ _ _) (.field (scans_separator hseparator _ _ _)
        (.last (scans_day ht _ _ _ _)))))) rfl
  simp only [parseStandardDate, formatStandardDate, List.append_assoc]
  exact hparse.trans (if_pos ((validDate_withDate ht t0 t.year).mpr ht.hasDay))

theorem not_isDigit_behind_day {sep : List UInt8} (hsep : Separator sep) (rest : List UInt8) :
    isDigit (peek (sep ++ ((bytes (monthNames.getD (t.month - 1).toNat "")).take 3 ++ rest))) =
      false := by
  rcases hsep with rfl | ⟨c, rfl, -, hc⟩
  · have hnames : ∀ i < 12, isDigit (peek ((bytes (monthNames.getD i "")).take 3)) = false := by
      decide
    have hne : ∀ i < 12, (bytes (monthNames.getD i "")).take 3 ≠ [] := by decide
    have hle := ht.month_le
    have hlt : (t.month - 1).toNat < 12 := by omega
    rw [List.nil_append, peek_append _ (hne _ hlt)]
    exact hnames _ hlt
  · exact not_isDigit_of_not_alphanum hc

theorem normal_undone (hsep : AdmittedSep sep) :
    t0.parseNormalDate (t.formatNormalDate sep) sep = some (t0.withDate t t.year) := by
  have hpos := ht.year_pos
  have hle := ht.year_le
  have hyear : Reads (sprintfU 4 t.year) 4 t.year :=
    reads_sprintfU (by norm_num) (by omega) (by norm_num; omega) (by omega)
  have hseparator := hsep.getD separator_blank
  have hparse : t0.parseDateTimeFormat _ "DD/MMM/YYYY" (sep.getD (bytes " ")) 0 = _ :=
    Scans.parse (.field (scans_shortDay ht (not_isDigit_behind_day ht hseparator _) _ _ _)
      (.field (scans_separator hseparator _ _ _)
        (.field (scans_monthName ht _ _ _ _) (.field (scans_separator hseparator _ _ _)
          (.last (scans_longYear hyear _ _ _ _)))))) rfl
  simp only [parseNormalDate, formatNormalDate, List.append_assoc]
  exact hparse.trans (if_pos ((validDate_withDate ht t0 t.year).mpr ht.hasDay))

/-! ### Times -/

theorem reads_hours : Reads (sprintfU 2 t.hours) 2 t.hours := by
  have hlt := ht.hours_lt
  exact reads_sprintfU (by norm_num) ht.hours_nonneg (by norm_num; omega) (by omega)

theorem reads_minutes : Reads (sprintfU 2 t.minutes) 2 t.minutes := by
  have hlt := ht.minutes_lt
  exact reads_sprintfU (by norm_num) ht.minutes_nonneg (by norm_num; omega) (by omega)

theorem reads_seconds : Reads (sprintfU 2 t.seconds) 2 t.seconds := by
  have hlt := ht.seconds_lt
  exact reads_sprintfU (by norm_num) ht.seconds_nonneg (by norm_num; omega) (by omega)

theorem reads_microseconds : Reads (sprintfU 6 t.microseconds) 6 t.microseconds := by
  have hlt := ht.microseconds_lt
  exact reads_sprintfU (by norm_num) ht.microseconds_nonneg (by norm_num; omega) (by omega)

theorem scans_hours (sep rest : List UInt8) (cy : Int) (t0 : RexxDateTime) :
    ScansField sep cy ['H', 'H'] (sprintfU 2 t.hours) rest t0 { t0 with hours := t.hours } := by
  have hlt := ht.hours_lt
  exact ⟨by simp, (reads_hours ht).size.le,
    fun f => scan_hours rest f (reads_hours ht) (by omega)⟩

theorem scans_minutes (sep rest : List UInt8) (cy : Int) (t0 : RexxDateTime) :
    ScansField sep cy ['i', 'i'] (sprintfU 2 t.minutes) rest t0
      { t0 with minutes := t.minutes } := by
  have hlt := ht.minutes_lt
  exact ⟨by simp, (reads_minutes ht).size.le,
    fun f => scan_minutes rest f (reads_minutes ht) (by omega)⟩

theorem scans_seconds (sep rest : List UInt8) (cy : Int) (t0 : RexxDateTime) :
    ScansField sep cy ['s', 's'] (sprintfU 2 t.seconds) rest t0
      { t0 with seconds := t.seconds } := by
  have hlt := ht.seconds_lt
  exact ⟨by simp, (reads_seconds ht).size.le,
    fun f => scan_seconds rest f (reads_seconds ht) (by omega)⟩

theorem scans_microseconds (sep rest : List UInt8) (cy : Int) (t0 : RexxDateTime) :
    ScansField sep cy ['u', 'u', 'u', 'u', 'u', 'u'] (sprintfU 6 t.microseconds) rest t0
      { t0 with microseconds := t.microseconds } :=
  ⟨by simp, (reads_microseconds ht).size.le,
    fun f => scan_microseconds rest f (reads_microseconds ht)⟩

omit ht in
theorem scans_colon (sep rest : List UInt8) (cy : Int) (t0 : RexxDateTime) :
    ScansField sep cy [':'] (bytes ":") rest t0 t0 :=
  ⟨by simp, le_rfl, scan_colon rest⟩

omit ht in
theorem scans_period (sep rest : List UInt8) (cy : Int) (t0 : RexxDateTime) :
    ScansField sep cy ['.'] (bytes ".") rest t0 t0 :=
  ⟨by simp, le_rfl, scan_period rest⟩

def dialHour (hours : Int) : Int :=
  if hours = 0 then 12 else if hours > 12 then hours - 12 else hours

omit ht in
theorem scans_civilHours {hour : Int} (hpos : 1 ≤ hour) (hle : hour ≤ 12) {rest : List UInt8}
    (hrest : isDigit (peek rest) = false) (sep : List UInt8) (cy : Int) (t0 : RexxDateTime) :
    ScansField sep cy ['c', 'c'] (sprintfU 1 hour) rest t0 { t0 with hours := hour } := by
  obtain ⟨-, -, hlength⟩ := getNumber_short (v := hour) (by omega) (by omega) hrest
  exact ⟨by simp, hlength, fun f => scan_civilHours rest f (by omega) (by omega) hrest⟩

theorem scans_meridian (sep rest : List UInt8) (cy : Int) (t0 : RexxDateTime) :
    ScansField sep cy ['C', 'C'] (if t.hours ≥ 12 then postMeridian else anteMeridian) rest
      { t0 with hours := dialHour t.hours } { t0 with hours := t.hours } := by
  have hlow := ht.hours_nonneg
  have hhigh := ht.hours_lt
  by_cases hpm : t.hours ≥ 12
  · have hback : (if dialHour t.hours ≠ 12 then dialHour t.hours + 12 else dialHour t.hours) =
        t.hours := by
      unfold dialHour
      split_ifs <;> omega
    rw [if_pos hpm]
    refine ⟨by simp, by decide, fun f => ?_⟩
    have hscan : scanStep sep cy ⟨{ t0 with hours := dialHour t.hours }, _, _⟩ = _ :=
      scan_pm rest f
    rwa [hback] at hscan
  · have hback : (if dialHour t.hours = 12 then 0 else dialHour t.hours) = t.hours := by
      unfold dialHour
      split_ifs <;> omega
    rw [if_neg hpm]
    refine ⟨by simp, by decide, fun f => ?_⟩
    have hscan : scanStep sep cy ⟨{ t0 with hours := dialHour t.hours }, _, _⟩ = _ :=
      scan_am rest f
    rwa [hback] at hscan

theorem normalTime_undone :
    t0.parseNormalTime t.formatNormalTime =
      some { t0.start with hours := t.hours, minutes := t.minutes, seconds := t.seconds } := by
  have hparse : t0.parseDateTimeFormat _ "HH:ii:ss" [] 0 = _ :=
    Scans.parse (.field (scans_hours ht _ _ _ _) (.field (scans_colon _ _ _ _)
      (.field (scans_minutes ht _ _ _ _) (.field (scans_colon _ _ _ _)
        (.last (scans_seconds ht _ _ _ _)))))) rfl
  simp only [parseNormalTime, formatNormalTime, List.append_assoc]
  exact hparse.trans (if_pos rfl)

theorem longTime_undone :
    t0.parseLongTime t.formatLongTime =
      some { t0.start with
        hours := t.hours
        minutes := t.minutes
        seconds := t.seconds
        microseconds := t.microseconds } := by
  have hparse : t0.parseDateTimeFormat _ "HH:ii:ss.uuuuuu" [] 0 = _ :=
    Scans.parse (.field (scans_hours ht _ _ _ _) (.field (scans_colon _ _ _ _)
      (.field (scans_minutes ht _ _ _ _) (.field (scans_colon _ _ _ _)
        (.field (scans_seconds ht _ _ _ _) (.field (scans_period _ _ _ _)
          (.last (scans_microseconds ht _ _ _ _)))))))) rfl
  simp only [parseLongTime, formatLongTime, List.append_assoc]
  exact hparse.trans (if_pos rfl)

theorem civilTime_undone :
    t0.parseCivilTime t.formatCivilTime =
      some { t0.start with hours := t.hours, minutes := t.minutes } := by
  have hlow := ht.hours_nonneg
  have hhigh := ht.hours_lt
  have hdial : 1 ≤ dialHour t.hours ∧ dialHour t.hours ≤ 12 := by
    unfold dialHour
    split_ifs <;> omega
  have hparse : t0.parseDateTimeFormat _ "cc:iiCC" [] 0 = _ :=
    Scans.parse (.field (scans_civilHours hdial.1 hdial.2 rfl _ _ _)
      (.field (scans_colon _ _ _ _) (.field (scans_minutes ht _ _ _ _)
        (.last (scans_meridian ht _ _ _ { t0.start with minutes := t.minutes }))))) rfl
  simp only [parseCivilTime, formatCivilTime, List.append_assoc]
  exact hparse.trans (if_pos rfl)

end RoundTrips

theorem existsUnique_restoredYear {cy year : Int} (hcy : 0 < cy) (hyear : 0 < year) :
    ∃! y, RestoredYear cy year y :=
  ⟨_, slideYear_restores (by omega) (by omega), fun _ h => h.unique
    (slideYear_restores (by omega) (by omega))⟩

structure FormatUndone (t0 t : RexxDateTime) (sep : Option (List UInt8)) (cy : Int) :
    Prop where
  normalDate : t0.parseNormalDate (t.formatNormalDate sep) sep = some (t0.withDate t t.year)
  standardDate :
    t0.parseStandardDate (t.formatStandardDate sep) sep = some (t0.withDate t t.year)
  restoredYear : ∃! y, RestoredYear cy t.year y
  europeanDate :
    ShortDateUndone t0 t cy (t0.parseEuropeanDate (t.formatEuropeanDate sep) sep cy)
  usaDate : ShortDateUndone t0 t cy (t0.parseUsaDate (t.formatUsaDate sep) sep cy)
  orderedDate : ShortDateUndone t0 t cy (t0.parseOrderedDate (t.formatOrderedDate sep) sep cy)
  normalTime : t0.parseNormalTime t.formatNormalTime =
    some { t0.start with hours := t.hours, minutes := t.minutes, seconds := t.seconds }
  longTime : t0.parseLongTime t.formatLongTime =
    some { t0.start with
      hours := t.hours
      minutes := t.minutes
      seconds := t.seconds
      microseconds := t.microseconds }
  civilTime : t0.parseCivilTime t.formatCivilTime =
    some { t0.start with hours := t.hours, minutes := t.minutes }

theorem parse_undoes_format {t : RexxDateTime} (ht : t.Valid) (t0 : RexxDateTime)
    {sep : Option (List UInt8)} (hsep : AdmittedSep sep) {cy : Int} (hcy : 0 < cy) :
    FormatUndone t0 t sep cy where
  normalDate := normal_undone ht t0 hsep
  standardDate := standard_undone ht t0 hsep
  restoredYear := existsUnique_restoredYear hcy ht.year_pos
  europeanDate := european_undone ht t0 hsep hcy
  usaDate := usa_undone ht t0 hsep hcy
  orderedDate := ordered_undone ht t0 hsep hcy
  normalTime := normalTime_undone ht t0
  longTime := longTime_undone ht t0
  civilTime := civilTime_undone ht t0

def leapDay : RexxDateTime := ⟨2000, 2, 29, 23, 59, 59, 999999⟩

theorem valid_leapDay : leapDay.Valid := by constructor <;> decide

theorem parse_undoes_format_leapDay : FormatUndone clear leapDay (some (bytes "-")) 2009 :=
  parse_undoes_format valid_leapDay clear
    (fun s hs => .inr ⟨45, (Option.mem_some_iff.mp hs).symm, by decide, by decide⟩) (by decide)

/-- In the year 2060 the text `29/02/00` is a day of 2100, which is no leap year. -/
theorem parseEuropeanDate_refuses_leapDay :
    leapDay.Valid ∧ AdmittedSep none ∧
      clear.parseEuropeanDate (leapDay.formatEuropeanDate none) none 2060 = none := by
  have hsep : AdmittedSep none := fun s hs => by cases hs
  have hrestored : RestoredYear 2060 2000 2100 := ⟨by decide, by decide, by decide⟩
  have hundone : ShortDateUndone clear leapDay 2060 _ :=
    european_undone valid_leapDay clear hsep (by decide)
  exact ⟨valid_leapDay, hsep, (hundone 2100 hrestored).trans (if_neg (by decide))⟩

end RexxDateTime

end LeooRexx
