import NodusDb.Sql.TemporalKeys

/-!
# Values read from index keys

An index-only scan takes the values of the key columns from the key of the entry. The
decoder chooses the layout by the declared type and the number of bytes.

* `index_only_reads_back`: which values are read back.
-/

namespace NodusDb.Sql

/-! ## Types of columns -/

inductive ColumnType
  | int
  | float
  | numeric
  | bool
  | text
  deriving DecidableEq, Repr

/-- What a type name means beyond the plain types. -/
class TypeNames where
  /-- The type of the values of a user-defined type: of the base of a domain, text for an enum. -/
  userType : Text → Option ColumnType
  /-- `is_range_type`, `is_multirange_type`, `is_net_type`, `is_geometric_type`,
  `is_tsvector_type` or `is_tsquery_type`. -/
  isTextual : Text → Bool
  /-- `str::to_uppercase`. -/
  toUppercase : Text → Text

def columnType [TypeNames] (dataType : Text) : ColumnType :=
  match TypeNames.userType dataType with
  | some type => type
  | none =>
    let upper := TypeNames.toUppercase dataType
    let has (word : String) : Bool := ascii word <:+: upper
    if has "INTERVAL" || TypeNames.isTextual dataType then .text
    else if has "INT" || has "SERIAL" || trim upper = ascii "OID" || trim upper = ascii "XID" then
      .int
    else if has "NUMERIC" || has "DECIMAL" then .numeric
    else if has "FLOAT" || has "DOUBLE" || has "REAL" then .float
    else if has "BOOL" then .bool
    else .text

/-! ## Decoding -/

/-- The value of a hexadecimal digit of either case. -/
def hexValue (c : UInt8) : Option UInt8 :=
  if 48 ≤ c ∧ c ≤ 57 then some (c - 48)
  else if 65 ≤ c ∧ c ≤ 70 then some (c - 55)
  else if 97 ≤ c ∧ c ≤ 102 then some (c - 87)
  else none

/-- `u8::from_str_radix(text, 16)` of two characters: a plus sign is accepted. -/
def hexPair (high low : UInt8) : Option UInt8 :=
  if high = 43 then hexValue low
  else (hexValue high).bind fun h => (hexValue low).map fun l => 16 * h + l

/-- The bytes of the pairs of digits. Pairs that are no digits are left out. -/
def unhex : Text → Bytes
  | high :: low :: rest => (hexPair high low).toList ++ unhex rest
  | [c] => (hexValue c).toList
  | [] => []

/-- `str::replace`, for a pattern that is not empty. -/
def replaceAll (pattern replacement : Text) : Nat → Text → Text
  | 0, text => text
  | _ + 1, [] => []
  | fuel + 1, c :: rest =>
    if pattern.isPrefixOf (c :: rest) then
      replacement ++ replaceAll pattern replacement fuel ((c :: rest).drop pattern.length)
    else c :: replaceAll pattern replacement fuel rest

/-- `x as i64`. -/
def asI64 (x : UInt64) : Int := if x.toNat < 2 ^ 63 then x.toNat else x.toNat - 2 ^ 64

/-- `format_date`: years before year 1 are counted from it backwards. -/
def formatDate (days : Int) : Text :=
  let date := CivilDate.ofDays days
  if date.year ≤ 0 then
    padded 4 (1 - date.year).toNat ++ 45 :: (padded 2 date.month ++ 45 :: padded 2 date.day) ++
      ascii " BC"
  else dateText days

/-- The text of a number of days or microseconds. -/
def decodeInstant (kind : Kind) (raw : Int) : Option Value :=
  match kind with
  | .date => if DateInRange (max raw 0) then some (.text (formatDate (max raw 0))) else none
  | .timestamp =>
    if DateInRange (raw / microsPerDay) then some (.text (formatTimestamp raw false)) else none
  | .timestampTz =>
    if DateInRange (raw / microsPerDay) then some (.text (formatTimestamp raw true)) else none
  | _ => none

/-- The value of the bytes between the marker and the end. -/
def decodePayload [TypeNames] (payload : Bytes) (dataType : Text) : Option Value :=
  match Kind.ofType dataType, payload.length with
  | some kind, 8 => decodeInstant kind (asI64 (flipSign (fromBeBytes payload)))
  | _, length =>
    match columnType dataType, length with
    | .int, 8 => some (.int (asI64 (flipSign (fromBeBytes payload))))
    | .float, 8 =>
      let bits := fromBeBytes payload
      some (.float (if bits &&& 0x8000000000000000 ≠ 0 then flipSign bits else ~~~bits))
    | .bool, 1 => some (.bool (payload ≠ [0]))
    | _, _ => some (.text payload)

/-- The value of an encoded key. The bytes of a text are taken as they are. -/
def decodeKeyComponent [TypeNames] (encoded dataType : Text) (ordered : Bool) : Option Value :=
  if ordered then
    match unhex encoded with
    | 2 :: _ => some .null
    | 1 :: rest => decodePayload rest.dropLast dataType
    | _ => none
  else
    let colons := replaceAll (ascii "\\:") (ascii ":") encoded.length encoded
    some (.text (replaceAll (ascii "\\\\") (ascii "\\") colons.length colons))

/-! ## The layouts -/

theorem hexPair_hexDigit (b : UInt8) :
    hexPair (hexDigit 65 (b / 16)) (hexDigit 65 (b % 16)) = some b := by
  have hall : ∀ n : Fin 256, hexPair (hexDigit 65 (UInt8.ofNat n / 16))
      (hexDigit 65 (UInt8.ofNat n % 16)) = some (UInt8.ofNat n) := by decide +kernel
  have h := hall ⟨b.toNat, b.toNat_lt⟩
  rwa [UInt8.ofNat_toNat] at h

theorem unhex_hexText (bytes : Bytes) : unhex (hexText 65 bytes) = bytes := by
  induction bytes with
  | nil => rfl
  | cons b bytes ih =>
    rw [hexText, List.flatMap_cons, List.cons_append, List.cons_append, List.nil_append, unhex,
      hexPair_hexDigit, ← hexText, ih]
    rfl

theorem fromBeBytes_toBeBytes (x : UInt64) : fromBeBytes (toBeBytes x) = x := by
  rw [fromBeBytes, toBeBytes, undigits_digits (fun d hd => ?_) (by decide),
    Nat.mod_eq_of_lt (show x.toNat < 256 ^ 8 from x.toNat_lt), UInt64.ofNat_toNat]
  rw [UInt8.toNat_ofNat', Nat.mod_eq_of_lt hd]

theorem flipSign_flipSign (x : UInt64) : flipSign (flipSign x) = x := by
  rw [flipSign, flipSign, UInt64.xor_assoc, UInt64.xor_self, UInt64.xor_zero]

variable {n : Int}

theorem asI64_ofInt (h : InI64 n) : asI64 (UInt64.ofInt n) = n := by
  obtain ⟨hlow, hhigh⟩ := h
  have hof : ((UInt64.ofInt n).toNat : Int) = n % 2 ^ 64 := by
    rw [UInt64.ofInt, UInt64.toNat_ofNat']
    omega
  unfold asI64
  split <;> omega

@[simp] theorem length_numberBytes (n : Int) : (numberBytes n).length = 8 := length_toBeBytes _

theorem raw_numberBytes (h : InI64 n) : asI64 (flipSign (fromBeBytes (numberBytes n))) = n := by
  rw [numberBytes, fromBeBytes_toBeBytes, flipSign_flipSign, asI64_ofInt h]

section Decoding

variable [TypeNames] {dataType : Text} {payload : Bytes}

theorem decodePayload_plain (h : Kind.ofType dataType = none) :
    decodePayload payload dataType =
      match columnType dataType, payload.length with
      | .int, 8 => some (.int (asI64 (flipSign (fromBeBytes payload))))
      | .float, 8 =>
        some (.float (if fromBeBytes payload &&& 0x8000000000000000 ≠ 0 then
          flipSign (fromBeBytes payload) else ~~~(fromBeBytes payload)))
      | .bool, 1 => some (.bool (payload ≠ [0]))
      | _, _ => some (.text payload) := by
  rw [decodePayload, h]

theorem decodePayload_long (h : 8 < payload.length) :
    decodePayload payload dataType = some (.text payload) := by
  unfold decodePayload
  split
  next h8 => omega
  split
  next h8 => omega
  next h8 => omega
  next h1 => omega
  · rfl

theorem decodePayload_eight (h : Kind.ofType dataType = some kind) (hlength : payload.length = 8) :
    decodePayload payload dataType =
      decodeInstant kind (asI64 (flipSign (fromBeBytes payload))) := by
  rw [decodePayload, h, hlength]
  rfl

variable [Zones]

theorem decode_of_keyBytes (h : keyBytes value dataType = some (1 :: (payload ++ [0]))) :
    ∃ encoded, keyComponent value dataType = some encoded ∧
      decodeKeyComponent encoded dataType true = decodePayload payload dataType := by
  refine ⟨_, by rw [keyComponent, h]; rfl, ?_⟩
  rw [decodeKeyComponent, if_pos rfl, unhex_hexText]
  show decodePayload (payload ++ [0]).dropLast dataType = _
  rw [List.dropLast_concat]

/-! ## Values of columns -/

/-- The values of a column that an index-only scan reads, with the types they are kept in. -/
inductive StoredKey (dataType : Text)
  | int (n : Int) (kind : Kind.ofType dataType = none) (type : columnType dataType = .int)
      (range : InI64 n)
  | float (bits : UInt64) (kind : Kind.ofType dataType = none) (type : columnType dataType = .float)
  | bool (b : Bool) (kind : Kind.ofType dataType = none) (type : columnType dataType = .bool)
  | text (s : Text) (kind : Kind.ofType dataType = none) (type : columnType dataType = .text)
      (nulFree : 0 ∉ s)
  | time (micros : Nat) (kind : Kind.ofType dataType = some .time) (range : micros ≤ microsPerDay)
  | instant (kind : InstantKind) (named : instantKind dataType = some kind)
      (a : StoredInstant kind)

def StoredKey.value {dataType : Text} : StoredKey dataType → Value
  | .int n _ _ _ => .int n
  | .float bits _ _ => .float bits
  | .bool b _ _ => .bool b
  | .text s _ _ _ => .text s
  | .time micros _ _ => .text (clockText micros)
  | .instant _ _ a => a.value

/-- Dates before 1970, `infinity` and times without a fraction are not read back. -/
def StoredKey.ReadBack {dataType : Text} : StoredKey dataType → Prop
  | .time micros _ _ => micros % 1000000 ≠ 0
  | .instant kind _ a =>
    match a.instant with
    | .infinity => False
    | .negInfinity => True
    | .finite n => kind = .date → 0 ≤ n
  | _ => True

def StoredKey.Decoded {dataType : Text} (key : StoredKey dataType) : Prop :=
  ∃ encoded, keyComponent key.value dataType = some encoded ∧
    decodeKeyComponent encoded dataType true = some key.value

theorem decoded_iff (key : StoredKey dataType)
    (h : keyBytes key.value dataType = some (1 :: (payload ++ [0]))) :
    key.Decoded ↔ decodePayload payload dataType = some key.value := by
  obtain ⟨encoded, hencoded, hdecode⟩ := decode_of_keyBytes h
  rw [← hdecode, StoredKey.Decoded, hencoded]
  constructor
  · rintro ⟨_, ⟨⟩, hvalue⟩
    exact hvalue
  · intro hvalue
    exact ⟨_, rfl, hvalue⟩

/-! ## What is read back -/

end Decoding

theorem signBit_iff (x : UInt64) : x &&& 0x8000000000000000 ≠ 0 ↔ 2 ^ 63 ≤ x.toNat := by
  rw [Ne, ← UInt64.toNat_inj, UInt64.toNat_and]
  show ¬ x.toNat &&& 2 ^ 63 = 0 ↔ _
  have hx := x.toNat_lt
  rw [Nat.and_two_pow, Nat.testBit_eq_decide_div_mod_eq]
  simp only [Bool.toNat_eq_zero, Nat.mul_eq_zero, decide_eq_false_iff_not, Nat.pow_eq_zero]
  omega

theorem floatBits_read_back (bits : UInt64) :
    (if fromBeBytes (floatBytes bits) &&& 0x8000000000000000 ≠ 0 then
      flipSign (fromBeBytes (floatBytes bits)) else ~~~(fromBeBytes (floatBytes bits))) = bits := by
  rw [floatBytes, fromBeBytes_toBeBytes]
  have hx := bits.toNat_lt
  simp only [signBit_iff]
  by_cases h : 2 ^ 63 ≤ bits.toNat
  · rw [if_pos h, if_neg, UInt64.not_not]
    rw [UInt64.toNat_not, UInt64.size]
    omega
  · rw [if_neg h, if_pos, flipSign_flipSign]
    rw [toNat_flipSign]
    omega

/-! ## What is read back -/

theorem length_clockText (h : micros ≤ microsPerDay) :
    (clockText micros).length = 8 + (fractionText (micros % 1000000)).length := by
  unfold microsPerDay at h
  have htwo : ∀ {n : Nat}, n < 100 → (padded 2 n).length = 2 :=
    fun hn => length_padded (by decide) hn
  simp only [clockText, List.length_append, List.length_cons, htwo (show micros / 3600000000 < 100
    by omega), htwo (show micros % 3600000000 / 60000000 < 100 by omega),
    htwo (show micros % 60000000 / 1000000 < 100 by omega)]
  omega

theorem year_pos_of_nonneg (h : 0 ≤ days) : 0 < (CivilDate.ofDays days).year := by
  obtain ⟨hspec, hday⟩ := yearAndDay_spec (days + 719468)
  unfold CivilDate.ofDays
  generalize yearAndDay (days + 719468) = yd at *
  obtain ⟨year, day⟩ := yd
  simp only at hspec hday ⊢
  unfold daysBefore at hspec
  have hyear : 1 ≤ year := by omega
  split <;> omega

theorem formatDate_of_nonneg (h : 0 ≤ days) : formatDate days = dateText days := by
  rw [formatDate, if_neg (not_le.mpr (year_pos_of_nonneg h))]

theorem dateText_inj (hm : DateInRange m) (hn : DateInRange n) (h : dateText m = dateText n) :
    m = n := by
  have hparse := parse_dateText hm
  rw [h, parse_dateText hn] at hparse
  exact (Option.some.inj hparse).symm

theorem decodeInstant_date (h : DateInRange n) :
    decodeInstant .date n = some (.text (dateText n)) ↔ 0 ≤ n := by
  rw [decodeInstant, formatDate_of_nonneg (le_max_right n 0)]
  by_cases hn : 0 ≤ n
  · rw [max_eq_left hn, if_pos h]
    exact iff_of_true rfl hn
  rw [max_eq_right (by omega), if_pos (by decide)]
  refine iff_of_false (fun heq => hn ?_) hn
  rw [Option.some.injEq, Value.text.injEq] at heq
  exact (dateText_inj (by decide) h heq).le

theorem decodeInstant_timestamp (h : DateInRange (n / microsPerDay)) :
    decodeInstant .timestamp n = some (.text (formatTimestamp n false)) ∧
      decodeInstant .timestampTz n = some (.text (formatTimestamp n true)) := by
  rw [decodeInstant, decodeInstant, if_pos h]
  exact ⟨rfl, if_pos h⟩

theorem decodeInstant_infinity (kind : Kind) :
    decodeInstant kind (asI64 (flipSign (fromBeBytes (ascii "infinity")))) ≠
      some (.text (ascii "infinity")) := by
  have hother : (decodeInstant kind (asI64 (flipSign (fromBeBytes (ascii "infinity"))))).map
      plainBytes ≠ some (plainBytes (.text (ascii "infinity"))) := by
    cases kind <;> decide +kernel
  exact fun h => hother (congrArg (Option.map plainBytes) h)

theorem ofType_of_instantKind (h : instantKind dataType = some kind) :
    Kind.ofType dataType = some kind.kind := by
  unfold instantKind at h
  split at h
  next hkind => cases h; exact hkind
  next hkind => cases h; exact hkind
  next hkind => cases h; exact hkind
  · cases h

section Keys

variable [Zones] [TypeNames] {dataType : Text}

theorem StoredKey.decoded_instant (named : instantKind dataType = some kind)
    (a : StoredInstant kind) :
    (instant kind named a).Decoded ↔ (instant kind named a).ReadBack := by
  have hkind := ofType_of_instantKind named
  have hbytes := keyBytes_instant ⟨kind, dataType, named⟩ a
  obtain ⟨a, ha⟩ := a
  cases a with
  | finite n =>
    have hpayload : some (Instant.finite n).bytes = some (1 :: (numberBytes n ++ [0])) := rfl
    rw [decoded_iff (.instant kind named _) (hbytes.trans hpayload),
      decodePayload_eight hkind (length_numberBytes n), raw_numberBytes ha.inI64]
    cases kind with
    | date =>
      refine (decodeInstant_date ha).trans ?_
      exact ⟨fun h _ => h, fun h => h rfl⟩
    | timestamp =>
      exact iff_of_true (decodeInstant_timestamp ha).1 fun h => by cases h
    | timestampTz =>
      exact iff_of_true (decodeInstant_timestamp ha).2 fun h => by cases h
  | infinity =>
    -- The eight letters are read as a number.
    have hpayload : some Instant.infinity.bytes = some (1 :: (ascii "infinity" ++ [0])) := by
      decide +kernel
    rw [decoded_iff (.instant kind named _) (hbytes.trans hpayload),
      decodePayload_eight hkind (by decide)]
    exact iff_of_false (decodeInstant_infinity kind.kind) fun h => h
  | negInfinity =>
    have hpayload : some Instant.negInfinity.bytes = some (1 :: (ascii "-infinity" ++ [0])) := by
      decide +kernel
    rw [decoded_iff (.instant kind named _) (hbytes.trans hpayload), decodePayload_long (by decide)]
    exact iff_of_true rfl trivial

theorem StoredKey.decoded_time (kind : Kind.ofType dataType = some .time)
    (range : micros ≤ microsPerDay) :
    (time micros kind range).Decoded ↔ (time micros kind range).ReadBack := by
  have hbytes : keyBytes (.text (clockText micros)) dataType =
      some (1 :: (clockText micros ++ [0])) := by
    rw [keyBytes, textBytes, instantKind, kind]
    rfl
  have hlength := length_clockText range
  rw [decoded_iff (.time micros kind range) hbytes, ReadBack]
  by_cases h : micros % 1000000 = 0
  · rw [h, fractionText, if_pos rfl] at hlength
    rw [decodePayload_eight kind hlength]
    exact iff_of_false (fun hnone => by cases hnone) (not_not.mpr h)
  have hlong : 8 < (clockText micros).length := by
    rw [hlength, fractionText, if_neg h, List.length_cons]
    omega
  rw [decodePayload_long hlong]
  exact iff_of_true rfl h

end Keys

/-- A value of a column is read back from its key, if and only if it is not a date before 1970,
`infinity` or a time without a fraction. -/
theorem index_only_reads_back [Zones] [TypeNames] {dataType : Text} (key : StoredKey dataType) :
    key.Decoded ↔ key.ReadBack := by
  cases key with
  | int n kind type range =>
    have hbytes : keyBytes (.int n) dataType = some (1 :: (numberBytes n ++ [0])) := rfl
    rw [decoded_iff (.int n kind type range) hbytes, decodePayload_plain kind, type,
      length_numberBytes, raw_numberBytes range]
    exact iff_of_true rfl trivial
  | float bits kind type =>
    have hbytes : keyBytes (.float bits) dataType = some (1 :: (floatBytes bits ++ [0])) := rfl
    rw [decoded_iff (.float bits kind type) hbytes, decodePayload_plain kind, type,
      floatBits_read_back, floatBytes,
      length_toBeBytes]
    exact iff_of_true rfl trivial
  | bool b kind type =>
    have hbytes : keyBytes (.bool b) dataType =
        some (1 :: ([if b then 1 else 0] ++ [0])) := rfl
    rw [decoded_iff (.bool b kind type) hbytes, decodePayload_plain kind, type]
    refine iff_of_true ?_ trivial
    cases b <;> rfl
  | text s kind type nulFree =>
    have hbytes : keyBytes (.text s) dataType = some (1 :: (s ++ [0])) := by
      rw [keyBytes, textBytes, instantKind, kind]
      rfl
    rw [decoded_iff (.text s kind type nulFree) hbytes, decodePayload_plain kind, type]
    exact iff_of_true rfl trivial
  | time micros kind range => exact StoredKey.decoded_time kind range
  | instant kind named a => exact StoredKey.decoded_instant named a

namespace Fixed

/-- Type names in upper case, without user-defined types. -/
@[reducible] def typeNames : TypeNames := ⟨fun _ => none, fun _ => false, id⟩

def lastDayBefore : StoredInstant .date := ⟨.finite (-1), by decide⟩

end Fixed

/-- 1969-12-31 is read back as 1970-01-01. -/
theorem early_date_not_read_back :
    letI := Fixed.zones
    letI := Fixed.typeNames
    ∃ encoded, keyComponent Fixed.lastDayBefore.value (ascii "DATE") = some encoded ∧
      decodeKeyComponent encoded (ascii "DATE") true = some (.text (ascii "1970-01-01")) ∧
      Fixed.lastDayBefore.value = .text (ascii "1969-12-31") := by
  let := Fixed.zones
  let := Fixed.typeNames
  obtain ⟨encoded, hencoded, hdecode⟩ :=
    decode_of_keyBytes (keyBytes_instant Fixed.dateColumn Fixed.lastDayBefore)
  refine ⟨encoded, hencoded, ?_, congrArg Value.text (by decide +kernel)⟩
  refine hdecode.trans ?_
  rw [decodePayload_eight (ofType_of_instantKind Fixed.dateColumn.named) rfl]
  exact congrArg (some ∘ Value.text) (by decide +kernel)

end NodusDb.Sql
