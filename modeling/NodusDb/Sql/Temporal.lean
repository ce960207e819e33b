import NodusDb.Lib.Civil
import NodusDb.Lib.Split
import NodusDb.Lib.Texts
import NodusDb.Sql.Value

/-!
# Dates and times

Dates and times are kept as their texts. A date is a number of days since 1970-01-01, a timestamp
and a time of day are microseconds. Fractions of seconds are read exactly, as the conversion over
floats does for six digits. The zones are a parameter. `parseAs_text`: the texts are read back.
-/

namespace NodusDb.Sql

open List Option

/-! ## Declared types -/

inductive Kind
  | date
  | time
  | timestamp
  | timestampTz
  | interval
  deriving DecidableEq, Repr

def splitWhitespace : Nat → Text → List Text
  | 0, _ => []
  | fuel + 1, text =>
    match trimStart text with
    | [] => []
    | c :: rest =>
      let length := ((List.range rest.length).find? fun n =>
        whitespaces.any (·.isPrefixOf (rest.drop n))).getD rest.length
      (c :: rest.take length) :: splitWhitespace fuel (rest.drop length)

/-- `to_ascii_uppercase`. -/
def asciiUpper (c : UInt8) : UInt8 := if 97 ≤ c ∧ c ≤ 122 then c - 32 else c

/-- `to_ascii_lowercase`. -/
def asciiLower (c : UInt8) : UInt8 := if 65 ≤ c ∧ c ≤ 90 then c + 32 else c

/-- The words of a type name in upper case, without its precision. -/
def typeWords (dataType : Text) : Text :=
  let upper := (trim dataType).map asciiUpper
  let opening := upper.idxOf 40
  let closing := upper.idxOf 41
  let bare :=
    if opening < closing ∧ closing < upper.length then
      upper.take opening ++ upper.drop (closing + 1)
    else upper
  joinText (ascii " ") (splitWhitespace bare.length bare)

def temporalType (dataType : Text) : Option Kind :=
  let words := typeWords dataType
  if words = ascii "DATE" then some .date
  else if words = ascii "TIME" ∨ words = ascii "TIME WITHOUT TIME ZONE" then some .time
  else if words = ascii "TIMESTAMP" ∨ words = ascii "TIMESTAMP WITHOUT TIME ZONE" then
    some .timestamp
  else if words = ascii "TIMESTAMPTZ" ∨ words = ascii "TIMESTAMP WITH TIME ZONE" then
    some .timestampTz
  else none

def Kind.ofType (dataType : Text) : Option Kind :=
  match temporalType dataType with
  | some kind => some kind
  | none =>
    let base := trim (((trim dataType).map asciiUpper).takeWhile (· ≠ 40))
    if base = ascii "INTERVAL" ∨ (ascii "INTERVAL ").isPrefixOf base then some .interval else none

example : Kind.ofType (ascii " timestamp (3) with  time zone ") = some .timestampTz := by
  decide +kernel

example : Kind.ofType (ascii "TEXT") = none := by decide +kernel

/-! ## Dates -/

def DateInRange (days : Int) : Prop :=
  -262143 ≤ (CivilDate.ofDays days).year ∧ (CivilDate.ofDays days).year ≤ 262142

instance (days : Int) : Decidable (DateInRange days) := inferInstanceAs (Decidable (_ ∧ _))

/-- A year: four digits, with a sign if it needs more or is before year 0. -/
def yearText (year : Int) : Text :=
  if 0 ≤ year ∧ year ≤ 9999 then padded 4 year.toNat
  else (if year < 0 then 45 else 43) :: padded 4 year.natAbs

/-- `NaiveDate::format("%Y-%m-%d")`. -/
def dateText (days : Int) : Text :=
  let date := CivilDate.ofDays days
  yearText date.year ++ 45 :: (padded 2 date.month ++ 45 :: padded 2 date.day)

/-- A year at the front of a text: more than four digits need a sign. -/
def scanYear (text : Text) : Option (Int × Text) :=
  match trimStart text with
  | [] => none
  | c :: rest =>
    if c = 45 then (scanNumber rest.length rest).map fun p => (-(p.1 : Int), p.2)
    else if c = 43 then (scanNumber rest.length rest).map fun p => ((p.1 : Int), p.2)
    else (scanNumber 4 (c :: rest)).map fun p => ((p.1 : Int), p.2)

def expect (c : UInt8) : Text → Option Text
  | [] => none
  | d :: rest => if d = c then some rest else none

/-- `NaiveDate::parse_from_str(text, "%Y-%m-%d")`. -/
def parseDate (text : Text) : Option Int := do
  let (year, text) ← scanYear text
  let text ← expect 45 text
  let (month, text) ← scanNumber 2 (trimStart text)
  let text ← expect 45 text
  let (day, text) ← scanNumber 2 (trimStart text)
  let date : CivilDate := ⟨year, month, day⟩
  if text = [] ∧ CivilDate.ofDays date.toDays = date ∧ DateInRange date.toDays then
    some date.toDays
  else none

def succOpt (days : Int) : Option Int := if DateInRange (days + 1) then some (days + 1) else none

/-! ## Times of day -/

def microsPerDay : Nat := 86400000000

def clockField (text : Text) : Option Nat := if text.length ≤ 2 then parseDigits text else none

/-- The microseconds of the digits behind the point, rounded. -/
def fractionMicros (fraction : Text) : Option Nat :=
  if fraction = [] then some 0
  else (parseDigits fraction).map fun n =>
    (2 * n * 10 ^ 6 + 10 ^ fraction.length) / (2 * 10 ^ fraction.length)

/-- The microseconds of `SS[.fraction]`. -/
def clockSeconds (text : Text) : Option Nat := do
  let (whole, fraction) := (splitOnce 46 text).getD (text, [])
  let fraction ← fractionMicros fraction
  let whole ← clockField whole
  if whole < 61 then some (whole * 1000000 + fraction) else none

/-- `HH:MM[:SS[.fraction]]` as microseconds since midnight. -/
def parseTimeOfDay (text : Text) : Option Nat := do
  let (hours, text) ← splitOnce 58 (trim text)
  let (minutes, seconds) := (splitOnce 58 text).elim (text, none) fun p => (p.1, some p.2)
  let hours ← clockField hours
  let minutes ← clockField minutes
  let seconds ← seconds.elim (some 0) clockSeconds
  if hours ≤ 24 ∧ minutes ≤ 59 ∧
      (hours * 3600 + minutes * 60) * 1000000 + seconds ≤ microsPerDay then
    some ((hours * 3600 + minutes * 60) * 1000000 + seconds)
  else none

/-- `trim_end_matches('0')`. -/
def dropZeros (text : Text) : Text := (text.reverse.dropWhile (· = 48)).reverse

/-- The digits behind the point, if there are any. -/
def fractionText (micros : Nat) : Text :=
  if micros = 0 then [] else 46 :: dropZeros (padded 6 micros)

/-- `HH:MM:SS[.fraction]`. -/
def clockText (micros : Nat) : Text :=
  padded 2 (micros / 3600000000) ++ 58 :: (padded 2 (micros % 3600000000 / 60000000) ++
    58 :: (padded 2 (micros % 60000000 / 1000000) ++ fractionText (micros % 1000000)))

/-! ## Dates are read back -/

variable {c : UInt8} {days : Int} {micros : Nat}

theorem mem_yearText (h : c ∈ yearText year) : isDigit c = true ∨ c = 43 ∨ c = 45 := by
  unfold yearText at h
  split at h
  · exact .inl (isDigit_of_mem_padded h)
  rcases mem_cons.mp h with rfl | h
  · split
    · exact .inr (.inr rfl)
    · exact .inr (.inl rfl)
  · exact .inl (isDigit_of_mem_padded h)

theorem mem_dateText (h : c ∈ dateText days) : isDigit c = true ∨ c = 43 ∨ c = 45 := by
  unfold dateText at h
  rcases mem_append.mp h with h | h
  · exact mem_yearText h
  rcases mem_cons.mp h with rfl | h
  · exact .inr (.inr rfl)
  rcases mem_append.mp h with h | h
  · exact .inl (isDigit_of_mem_padded h)
  rcases mem_cons.mp h with rfl | h
  · exact .inr (.inr rfl)
  · exact .inl (isDigit_of_mem_padded h)

theorem scanYear_yearText (year : Int) (rest : Text) :
    scanYear (yearText year ++ 45 :: rest) = some (year, 45 :: rest) := by
  have hstop : ∀ c ∈ (45 :: rest).head?, isDigit c = false := by
    rintro c ⟨⟩
    rfl
  unfold yearText
  split
  next h =>
    -- Four digits without a sign.
    have hscan : scanNumber 4 (padded 4 year.toNat ++ 45 :: rest) =
        some (year.toNat, 45 :: rest) :=
      scanNumber_padded (length_padded (by decide) (by omega)).le (.inr hstop)
    obtain ⟨c, text, htext⟩ := exists_cons_of_ne_nil (padded_ne_nil 4 year.toNat)
    have hmem : c ∈ padded 4 year.toNat := htext ▸ mem_cons_self
    have hc : isDigit c = true := isDigit_of_mem_padded hmem
    rw [htext] at hscan ⊢
    rw [cons_append] at hscan ⊢
    have h45 : c ≠ 45 := by rintro rfl; cases hc
    have h43 : c ≠ 43 := by rintro rfl; cases hc
    rw [scanYear, trimStart_cons _ (printable_of_isDigit hc)]
    simp only [h45, h43, if_false, hscan, map_some, some.injEq, Prod.mk.injEq, and_true]
    omega
  next h =>
    have hscan : scanNumber (padded 4 year.natAbs ++ 45 :: rest).length
        (padded 4 year.natAbs ++ 45 :: rest) = some (year.natAbs, 45 :: rest) :=
      scanNumber_padded (by rw [length_append]; omega) (.inr hstop)
    by_cases hneg : year < 0
    · rw [if_pos hneg, cons_append, scanYear, trimStart_cons _ (by decide)]
      simp only [if_true, hscan, map_some, some.injEq, Prod.mk.injEq, and_true]
      omega
    rw [if_neg hneg, cons_append, scanYear, trimStart_cons _ (by decide)]
    simp only [if_true, hscan, map_some, some.injEq, Prod.mk.injEq, and_true,
      (by decide : ¬ (43 : UInt8) = 45), if_false]
    omega

theorem scan_padded_two (rest : Text) (h : n < 100) :
    scanNumber 2 (trimStart (padded 2 n ++ rest)) = some (n, rest) := by
  have hlength : (padded 2 n).length = 2 := length_padded (by decide) h
  obtain ⟨c, text, htext⟩ := exists_cons_of_ne_nil (padded_ne_nil 2 n)
  have hc : Printable c := printable_of_isDigit (isDigit_of_mem_padded (htext ▸ mem_cons_self))
  have htrim : trimStart (padded 2 n ++ rest) = padded 2 n ++ rest := by
    rw [htext, cons_append, trimStart_cons _ hc]
  rw [htrim, scanNumber_padded hlength.le (.inl hlength)]

theorem parse_dateText (h : DateInRange days) : parseDate (dateText days) = some days := by
  obtain ⟨_, hmonth, _, hday⟩ := ofDays_ranges days
  have hdays : CivilDate.toDays ⟨(CivilDate.ofDays days).year, (CivilDate.ofDays days).month,
      (CivilDate.ofDays days).day⟩ = days := toDays_ofDays days
  have hscan := scan_padded_two [] (show (CivilDate.ofDays days).day < 100 by omega)
  rw [append_nil] at hscan
  simp only [parseDate, dateText, scanYear_yearText, bind_eq_bind, bind_some, expect,
    if_true, scan_padded_two _ (show (CivilDate.ofDays days).month < 100 by omega), hscan, hdays,
    true_and]
  rw [if_pos h]

/-! ## Times are read back -/

theorem clockField_padded (h : n < 100) : clockField (padded 2 n) = some n := by
  rw [clockField, if_pos (length_padded (by decide) h).le, parseDigits_padded]

theorem not_mem_padded (width n : Nat) (h : isDigit c = false) :
    c ∉ padded width n := fun hmem => by
  rw [isDigit_of_mem_padded hmem] at h
  cases h

theorem dropZeros_append (text : Text) : ∃ k, text = dropZeros text ++ List.replicate k 48 := by
  refine ⟨(text.reverse.takeWhile (· = 48)).length, ?_⟩
  have hzeros : text.reverse.takeWhile (· = 48) =
      replicate (text.reverse.takeWhile (· = 48)).length 48 :=
    eq_replicate_of_mem fun c hc => by simpa using mem_takeWhile_imp hc
  have h : (text.reverse.takeWhile (· = 48) ++ text.reverse.dropWhile (· = 48)).reverse =
      text := by rw [takeWhile_append_dropWhile, reverse_reverse]
  rw [reverse_append, hzeros, reverse_replicate] at h
  exact h.symm

theorem undigits_append_zeros (text : Text) (k : Nat) :
    undigits (fun c : UInt8 => c.toNat - 48) 10 (text ++ List.replicate k 48) =
      undigits (fun c : UInt8 => c.toNat - 48) 10 text * 10 ^ k := by
  induction k with
  | zero => rw [replicate_zero, append_nil, pow_zero, mul_one]
  | succ k ih =>
    rw [replicate_succ', ← append_assoc]
    unfold undigits at ih ⊢
    rw [foldl_append, ih, foldl_cons, foldl_nil, pow_succ]
    show _ * 10 + 0 = _
    ring

theorem fractionMicros_dropZeros (hpos : micros ≠ 0) (h : micros < 1000000) :
    fractionMicros (dropZeros (padded 6 micros)) = some micros := by
  obtain ⟨k, hk⟩ := dropZeros_append (padded 6 micros)
  obtain ⟨_, hdigits, hvalue⟩ := digits_of_parseDigits (parseDigits_padded 6 micros)
  have hlength : (padded 6 micros).length = 6 := length_padded (by decide) h
  generalize hfraction : dropZeros (padded 6 micros) = fraction at hk
  rw [hk] at hdigits hvalue hlength
  rw [undigits_append_zeros] at hvalue
  rw [length_append, length_replicate] at hlength
  have hne : fraction ≠ [] := by
    rintro rfl
    simp [undigits] at hvalue
    omega
  have hparse : parseDigits fraction =
      some (undigits (fun c : UInt8 => c.toNat - 48) 10 fraction) := by
    rw [parseDigits, if_pos]
    exact ⟨hne, fun c hc => isDigit_iff.mp (hdigits c (mem_append_left _ hc))⟩
  rw [fractionMicros, if_neg hne, hparse, map_some]
  generalize undigits (fun c : UInt8 => c.toNat - 48) 10 fraction = n at hvalue
  -- The digits are those of the microseconds without the zeros.
  have hscale : 2 * n * 10 ^ 6 = micros * (2 * 10 ^ fraction.length) := by
    rw [hvalue, ← hlength, pow_add]
    ring
  have hhalf : 10 ^ fraction.length < 2 * 10 ^ fraction.length := by
    have := Nat.pos_of_ne_zero (pow_ne_zero fraction.length (by decide : (10 : Nat) ≠ 0))
    omega
  rw [hscale, mul_comm, Nat.mul_add_div (by omega), Nat.div_eq_of_lt hhalf, add_zero]

theorem clockSeconds_text (hseconds : seconds < 60) (hmicros : micros < 1000000) :
    clockSeconds (padded 2 seconds ++ fractionText micros) =
      some (seconds * 1000000 + micros) := by
  have hpoint : (46 : UInt8) ∉ padded 2 seconds := not_mem_padded 2 seconds rfl
  by_cases h : micros = 0
  · subst h
    rw [fractionText, if_pos rfl, append_nil, clockSeconds, splitOnce_eq_none hpoint]
    simp [fractionMicros, clockField_padded (show seconds < 100 by omega),
      show seconds < 61 by omega]
  · rw [fractionText, if_neg h, clockSeconds, splitOnce_append _ hpoint]
    simp [fractionMicros_dropZeros h hmicros, clockField_padded (show seconds < 100 by omega),
      show seconds < 61 by omega]

theorem mem_clockText (h : c ∈ clockText micros) : isDigit c = true ∨ c = 46 ∨ c = 58 := by
  unfold clockText at h
  rcases mem_append.mp h with h | h
  · exact .inl (isDigit_of_mem_padded h)
  rcases mem_cons.mp h with rfl | h
  · exact .inr (.inr rfl)
  rcases mem_append.mp h with h | h
  · exact .inl (isDigit_of_mem_padded h)
  rcases mem_cons.mp h with rfl | h
  · exact .inr (.inr rfl)
  rcases mem_append.mp h with h | h
  · exact .inl (isDigit_of_mem_padded h)
  unfold fractionText at h
  split at h
  · cases h
  rcases mem_cons.mp h with rfl | h
  · exact .inr (.inl rfl)
  obtain ⟨k, hk⟩ := dropZeros_append (padded 6 (micros % 1000000))
  have hmem : c ∈ padded 6 (micros % 1000000) := by
    rw [hk]
    exact mem_append_left _ h
  exact .inl (isDigit_of_mem_padded hmem)

theorem printable_of_mem_clockText (h : c ∈ clockText micros) : Printable c := by
  rcases mem_clockText h with h | rfl | rfl
  · exact printable_of_isDigit h
  · decide
  · decide

theorem parseTimeOfDay_clockText (h : micros < microsPerDay) :
    parseTimeOfDay (clockText micros) = some micros := by
  rw [parseTimeOfDay, trim_of_all fun c hc => printable_of_mem_clockText hc]
  unfold microsPerDay at h ⊢
  have hcolon : ∀ n, (58 : UInt8) ∉ padded 2 n := fun n => not_mem_padded 2 n rfl
  have hseconds : micros % 60000000 / 1000000 < 60 := by omega
  have hmicros : micros % 1000000 < 1000000 := by omega
  simp only [clockText, splitOnce_append _ (hcolon _), bind_eq_bind, bind_some,
    elim_some, clockField_padded (show micros / 3600000000 < 100 by omega),
    clockField_padded (show micros % 3600000000 / 60000000 < 100 by omega),
    clockSeconds_text hseconds hmicros]
  rw [if_pos (by omega)]
  congr 1
  omega

/-! ## Instants -/

/-- The kinds whose values are points in time. -/
inductive InstantKind
  | date
  | timestamp
  | timestampTz
  deriving DecidableEq, Repr

def InstantKind.kind : InstantKind → Kind
  | .date => .date
  | .timestamp => .timestamp
  | .timestampTz => .timestampTz

/-- A point in time, as a number of days for dates and of microseconds for timestamps. -/
inductive Instant
  | negInfinity
  | finite (n : Int)
  | infinity
  deriving DecidableEq, Repr

def zoneText (withZone : Bool) : Text := if withZone then ascii "+00" else []

def formatTimestamp (micros : Int) (withZone : Bool) : Text :=
  dateText (micros / microsPerDay) ++ 32 :: (clockText (micros % microsPerDay).toNat ++
    zoneText withZone)

/-- What `normalize_temporal` writes for an instant: the text a column keeps. -/
def Instant.text (kind : InstantKind) : Instant → Text
  | .negInfinity => ascii "-infinity"
  | .infinity => ascii "infinity"
  | .finite n =>
    match kind with
    | .date => dateText n
    | .timestamp => formatTimestamp n false
    | .timestampTz => formatTimestamp n true

/-- The instants a column can keep: the date has to be one that dates can have. -/
def InstantKind.InRange (kind : InstantKind) : Instant → Prop
  | .finite n => DateInRange (match kind with | .date => n | _ => n / microsPerDay)
  | _ => True

instance (kind : InstantKind) (i : Instant) : Decidable (kind.InRange i) := by
  cases i <;> unfold InstantKind.InRange <;> infer_instance

/-- The zones, and the zone of the session. -/
class Zones where
  /-- `Zone::resolve` and `offset_at_local`, in seconds, of a local time in microseconds. -/
  resolve : Text → Option (Int → Int)
  /-- `from_session_local`. -/
  fromSessionLocal : Int → Int

/-- A date, a time of day and an offset in seconds from UTC. -/
structure ParsedTemporal where
  date : Int
  time : Option Nat
  offset : Option Int

def ParsedTemporal.local (parsed : ParsedTemporal) : Int :=
  parsed.date * microsPerDay + (parsed.time.getD 0 : Nat)

/-- The instant in UTC: a value without an offset is local in the zone of the session. -/
def ParsedTemporal.utc [Zones] (parsed : ParsedTemporal) : Int :=
  match parsed.offset with
  | some offset => parsed.local - offset * 1000000
  | none => Zones.fromSessionLocal parsed.local

/-- `Z`, `+HH`, `+HH:MM` or `+HHMM`: `some none` without a zone, `none` for other texts. -/
def parseUtcOffset (zone : Text) : Option (Option Int) :=
  match zone with
  | [] => some none
  | c :: rest =>
    let digits := rest.filter (· ≠ 58)
    if zone.map asciiUpper ∈ [ascii "Z", ascii "UTC", ascii "GMT"] then some (some 0)
    else if (c = 43 ∨ c = 45) ∧ digits.all isDigit ∧ digits.length ∈ [1, 2, 4] then
      let hours := undigits (fun c : UInt8 => c.toNat - 48) 10 (digits.take 2)
      let minutes := undigits (fun c : UInt8 => c.toNat - 48) 10 (digits.drop 2)
      some (some ((if c = 43 then 1 else -1) * (hours * 3600 + minutes * 60 : Nat)))
    else none

def isAsciiAlphabetic (c : UInt8) : Bool := (65 ≤ c && c ≤ 90) || (97 ≤ c && c ≤ 122)

/-- A date with the time of day and the zone behind it. `24:00:00` is the next day. -/
def withTimeOfDay [Zones] (date : Int) (rest : Text) : Option ParsedTemporal :=
  if rest = [] then some ⟨date, none, none⟩
  else do
    let clock := rest.takeWhile fun c => ¬ (c = 43 ∨ c = 45 ∨ c = 32 ∨ isAsciiAlphabetic c)
    let zone := trim (rest.drop clock.length)
    let micros ← parseTimeOfDay clock
    let date ← if microsPerDay ≤ micros then succOpt date else some date
    let time := micros % microsPerDay
    let offset ←
      match parseUtcOffset zone with
      | some offset => some offset
      | none => (Zones.resolve zone).map (some <| · (date * microsPerDay + time))
    some ⟨date, some time, offset⟩

/-- `YYYY-MM-DD`, then a time of day and a zone. -/
def parseTemporal [Zones] (text : Text) : Option ParsedTemporal := do
  let text := trim text
  let date := text.takeWhile fun c => ¬ (c = 32 ∨ c = 84)
  let rest := trim (text.drop (date.length + 1))
  withTimeOfDay (← parseDate date) rest

/-- `Temporal::parse_as`, for the kinds whose values are points in time. -/
def parseAs [Zones] (text : Text) (kind : InstantKind) : Option Instant :=
  let lower := (trim text).map asciiLower
  if lower = ascii "infinity" ∨ lower = ascii "+infinity" then some .infinity
  else if lower = ascii "-infinity" then some .negInfinity
  else (parseTemporal text).map fun parsed =>
    match kind with
    | .date => .finite parsed.date
    | .timestamp => .finite parsed.local
    | .timestampTz => .finite parsed.utc

/-! ## Instants are read back -/

def TemporalChar (c : UInt8) : Prop :=
  isDigit c = true ∨ c ∈ ([32, 43, 45, 46, 58] : List UInt8)

theorem temporalChar_of_mem_dateText (h : c ∈ dateText days) : TemporalChar c ∧ c ≠ 32 := by
  rcases mem_dateText h with h | rfl | rfl
  · exact ⟨.inl h, by rintro rfl; cases h⟩
  all_goals exact ⟨.inr (by decide), by decide⟩

theorem TemporalChar.printable (h : TemporalChar c) (h32 : c ≠ 32) : Printable c := by
  rcases h with h | h
  · exact printable_of_isDigit h
  simp only [mem_cons, not_mem_nil, or_false] at h
  rcases h with rfl | rfl | rfl | rfl | rfl
  · exact absurd rfl h32
  all_goals decide

theorem TemporalChar.ne_t (h : TemporalChar c) : c ≠ 84 := by
  rintro rfl
  rcases h with h | h
  · cases h
  · exact absurd h (by decide)

theorem TemporalChar.lower (h : TemporalChar c) : asciiLower c ≠ 105 := by
  rcases h with h | h
  · rw [isDigit_iff] at h
    rw [asciiLower, if_neg fun h' => absurd (h'.1.trans h.2) (by decide)]
    rintro rfl
    exact absurd h.2 (by decide)
  · simp only [mem_cons, not_mem_nil, or_false] at h
    rcases h with rfl | rfl | rfl | rfl | rfl <;> decide

theorem dateText_ne_nil (days : Int) : dateText days ≠ [] := by
  rw [dateText]
  simp

theorem mem_zoneText (h : c ∈ zoneText withZone) : TemporalChar c ∧ Printable c := by
  cases withZone with
  | false => cases h
  | true =>
    have hall : ∀ c ∈ zoneText true,
        (isDigit c = true ∨ c ∈ ([32, 43, 45, 46, 58] : List UInt8)) ∧ Printable c := by
      decide +kernel
    exact hall c h

theorem temporalChar_of_mem_text (h : c ∈ (Instant.finite n).text kind) :
    TemporalChar c := by
  have htimestamp : ∀ withZone, c ∈ formatTimestamp n withZone → TemporalChar c := by
    intro withZone h
    rcases mem_append.mp h with h | h
    · exact (temporalChar_of_mem_dateText h).1
    rcases mem_cons.mp h with rfl | h
    · exact .inr (by decide)
    rcases mem_append.mp h with h | h
    · rcases mem_clockText h with h | rfl | rfl
      · exact .inl h
      all_goals exact .inr (by decide)
    · exact (mem_zoneText h).1
  cases kind with
  | date => exact (temporalChar_of_mem_dateText h).1
  | timestamp => exact htimestamp false h
  | timestampTz => exact htimestamp true h

section Instants

variable [Zones]

theorem parseAs_of_chars {text : Text} (kind : InstantKind) (h : ∀ c ∈ text, TemporalChar c) :
    parseAs text kind = (parseTemporal text).map fun parsed =>
      match kind with
      | .date => .finite parsed.date
      | .timestamp => .finite parsed.local
      | .timestampTz => .finite parsed.utc := by
  have hword : ∀ word : Text, 105 ∈ word → (trim text).map asciiLower ≠ word := by
    rintro word hword rfl
    obtain ⟨c, hc, hlower⟩ := mem_map.mp hword
    exact (h c (mem_of_mem_trim hc)).lower hlower
  rw [parseAs, if_neg, if_neg (hword _ (by decide))]
  rintro (hlower | hlower)
  all_goals exact hword _ (by decide) hlower

theorem withTimeOfDay_clock (zone : Text) (hmicros : micros < microsPerDay)
    (hstop : ∀ c ∈ zone.head?, c = 43 ∨ c = 45 ∨ c = 32 ∨ isAsciiAlphabetic c = true)
    (hoffset : parseUtcOffset (trim zone) = some offset) :
    withTimeOfDay date (clockText micros ++ zone) = some ⟨date, some micros, offset⟩ := by
  have hclock : (clockText micros ++ zone).takeWhile
      (fun c => ¬ (c = 43 ∨ c = 45 ∨ c = 32 ∨ isAsciiAlphabetic c)) = clockText micros := by
    refine takeWhile_append_stop (fun c hc => ?_) fun c hc => ?_
    · rcases mem_clockText hc with hc | rfl | rfl
      · rw [isDigit_iff] at hc
        rw [decide_eq_true_eq]
        rintro (rfl | rfl | rfl | halpha)
        · exact absurd hc.1 (by decide)
        · exact absurd hc.1 (by decide)
        · exact absurd hc.1 (by decide)
        · rw [isAsciiAlphabetic, Bool.or_eq_true, Bool.and_eq_true, Bool.and_eq_true] at halpha
          simp only [decide_eq_true_eq] at halpha
          rcases halpha with h | h
          all_goals exact absurd (h.1.trans hc.2) (by decide)
      · decide
      · decide
    · rw [decide_eq_false_iff_not, not_not]
      exact hstop c hc
  have hne : clockText micros ++ zone ≠ [] := by
    rw [clockText]
    simp
  simp only [withTimeOfDay, if_neg hne, hclock, drop_left, parseTimeOfDay_clockText hmicros,
    bind_eq_bind, bind_some, if_neg (not_le.mpr hmicros), hoffset,
    Nat.mod_eq_of_lt hmicros]

theorem parseTemporal_date (h : DateInRange days) :
    parseTemporal (dateText days) = some ⟨days, none, none⟩ := by
  have htrim : trim (dateText days) = dateText days := trim_of_all fun c hc =>
    (temporalChar_of_mem_dateText hc).1.printable (temporalChar_of_mem_dateText hc).2
  have hdate : (dateText days).takeWhile (fun c => ¬ (c = 32 ∨ c = 84)) = dateText days :=
    takeWhile_eq_self_iff.mpr fun c hc => by
      simp [(temporalChar_of_mem_dateText hc).1.ne_t, (temporalChar_of_mem_dateText hc).2]
  simp only [parseTemporal, htrim, hdate, parse_dateText h, bind_eq_bind, bind_some]
  rw [drop_of_length_le (Nat.le_succ _)]
  rfl

theorem parseTemporal_dateTime (h : DateInRange days) (hne : rest ≠ [])
    (hrest : ∀ c ∈ rest, Printable c) :
    parseTemporal (dateText days ++ 32 :: rest) = withTimeOfDay days rest := by
  have htrim : trim (dateText days ++ [32] ++ rest) = dateText days ++ [32] ++ rest :=
    trim_between [32] (dateText_ne_nil days) hne (fun c hc =>
      (temporalChar_of_mem_dateText hc).1.printable (temporalChar_of_mem_dateText hc).2) hrest
  rw [append_assoc, singleton_append] at htrim
  have hdate : (dateText days ++ 32 :: rest).takeWhile (fun c => ¬ (c = 32 ∨ c = 84)) =
      dateText days := by
    refine takeWhile_append_stop (fun c hc => ?_) ?_
    · simp [(temporalChar_of_mem_dateText hc).1.ne_t, (temporalChar_of_mem_dateText hc).2]
    · rintro c ⟨⟩
      rfl
  have hdrop : (dateText days ++ 32 :: rest).drop ((dateText days).length + 1) = rest := by
    rw [← drop_drop, drop_left, drop_succ_cons, drop_zero]
  simp only [parseTemporal, htrim, hdate, parse_dateText h, bind_eq_bind, bind_some,
    hdrop, trim_of_all hrest]

theorem parseTemporal_timestamp {micros : Int} (withZone : Bool)
    (h : DateInRange (micros / microsPerDay)) :
    parseTemporal (formatTimestamp micros withZone) =
      some ⟨micros / microsPerDay, some (micros % microsPerDay).toNat,
        if withZone then some 0 else none⟩ := by
  have hmicros : (micros % microsPerDay).toNat < microsPerDay := by
    unfold microsPerDay
    omega
  have hne : clockText (micros % microsPerDay).toNat ++ zoneText withZone ≠ [] := by
    rw [clockText]
    simp
  have hprintable : ∀ c ∈ clockText (micros % microsPerDay).toNat ++ zoneText withZone,
      Printable c := by
    intro c hc
    rcases mem_append.mp hc with hc | hc
    · exact printable_of_mem_clockText hc
    · exact (mem_zoneText hc).2
  refine (parseTemporal_dateTime h hne hprintable).trans
    (withTimeOfDay_clock (zoneText withZone) hmicros ?_ ?_)
  · cases withZone with
    | false => rintro c ⟨⟩
    | true =>
      rintro c ⟨⟩
      exact .inl rfl
  · cases withZone with
    | false => rfl
    | true => decide +kernel

theorem parseAs_text {kind : InstantKind} (h : kind.InRange i) :
    parseAs (i.text kind) kind = some i := by
  cases i with
  | negInfinity => rfl
  | infinity => rfl
  | finite n =>
    rw [parseAs_of_chars kind fun c hc => temporalChar_of_mem_text hc]
    have hlocal : n / microsPerDay * microsPerDay + (n % microsPerDay).toNat = n := by
      unfold microsPerDay
      omega
    cases kind with
    | date => rw [Instant.text, parseTemporal_date h, map_some]
    | timestamp =>
      rw [Instant.text, parseTemporal_timestamp false h, map_some]
      simp only [ParsedTemporal.local, getD_some, hlocal]
    | timestampTz =>
      rw [Instant.text, parseTemporal_timestamp true h, map_some]
      simp only [ParsedTemporal.utc, ParsedTemporal.local, getD_some, hlocal, if_true,
        zero_mul, sub_zero]

end Instants

end NodusDb.Sql
