import NodusDb.Sql.IndexOnly
import NodusDb.Sql.NumericText
import NodusDb.Sql.RecordText

/-!
# Rows as they are stored

A row is stored as a JSON array. Decimals, JSON texts, composite values and bytes are stored as
texts and restored by the type of their column; a float that is not finite is written as `null`.

* `stored_row_reads_back`: when a row is read back unchanged.
-/

namespace NodusDb.Sql

open List

/-! ## JSON -/

/-- A float that is neither NaN nor infinite. -/
def isFinite (bits : UInt64) : Bool := bits % 2 ^ 63 < 0x7FF0000000000000

/-- The JSON numbers of floats: finite ones are read back. -/
class FloatJson where
  write : UInt64 → Text
  read : Text → Option UInt64
  read_write : ∀ bits, isFinite bits = true → read (write bits) = some bits

def readInt : Text → Option Int
  | 45 :: digits => (parseDigits digits).map fun n : Nat => -(n : Int)
  | digits => (parseDigits digits).map Int.ofNat

/-- `u8` of JSON. -/
def readByte : Json → Option UInt8
  | .number text => (parseDigits text).bind fun n => if n < 256 then some (UInt8.ofNat n) else none
  | _ => none

section Json

variable [FloatJson]

mutual

/-- A value as JSON: its variant's name with its content. -/
def toJson : Value → Json
  | .int n => .object [(ascii "Int", .number (intText n))]
  | .float bits =>
    .object [(ascii "Float", if isFinite bits then .number (FloatJson.write bits) else .null)]
  | .text text => .object [(ascii "Text", .string text)]
  | .bool b => .object [(ascii "Bool", .bool b)]
  | .array items => .object [(ascii "Array", .array (toJsonItems items))]
  | .jsonb document => .object [(ascii "Jsonb", document)]
  | .null => .string (ascii "Null")
  | .numeric d => .object [(ascii "Numeric", .string d.toText)]
  | .json text => .object [(ascii "Json", .string text)]
  | .record fields => .object [(ascii "Record", .array (toJsonFields fields))]
  | .bytea bytes =>
    .object [(ascii "Bytea", .array (bytes.map fun b => .number (jsonNumber b.toNat)))]

def toJsonItems : List Value → List Json
  | [] => []
  | v :: vs => toJson v :: toJsonItems vs

def toJsonFields : List (Text × Value) → List Json
  | [] => []
  | (name, v) :: fields => .array [.string name, toJson v] :: toJsonFields fields

end

/-- A variant whose content has no values in it. -/
def fromScalar (tag : Text) (body : Json) : Option Value :=
  if tag = ascii "Jsonb" then some (.jsonb body)
  else
    match body with
    | .number text =>
      if tag = ascii "Int" then (readInt text).map .int
      else if tag = ascii "Float" then (FloatJson.read text).map .float
      else none
    | .string text =>
      if tag = ascii "Text" then some (.text text)
      else if tag = ascii "Json" then some (.json text)
      else if tag = ascii "Numeric" then (Numeric.parse text).map .numeric
      else none
    | .bool b => if tag = ascii "Bool" then some (.bool b) else none
    | .null => if tag = ascii "Null" then some .null else none
    | _ => none

mutual

def fromJson : Json → Option Value
  | .string text => if text = ascii "Null" then some .null else none
  | .object [(tag, .array items)] =>
    if tag = ascii "Array" then (fromJsonItems items).map .array
    else if tag = ascii "Record" then (fromJsonFields items).map .record
    else if tag = ascii "Bytea" then (items.mapM readByte).map .bytea
    else fromScalar tag (.array items)
  | .object [(tag, body)] => fromScalar tag body
  | _ => none

def fromJsonItems : List Json → Option (List Value)
  | [] => some []
  | item :: items => do
    let v ← fromJson item
    let vs ← fromJsonItems items
    some (v :: vs)

def fromJsonFields : List Json → Option (List (Text × Value))
  | [] => some []
  | .array [.string name, item] :: items => do
    let v ← fromJson item
    let fields ← fromJsonFields items
    some ((name, v) :: fields)
  | _ => none

end

end Json

/-! ## Storing and restoring -/

/-- What restoring needs of the types and of casts. -/
class UserTypes extends TypeNames where
  /-- The names and types of the attributes of a composite type. -/
  attributes : Text → Option (List (Text × Text))
  /-- `try_cast` of a text to a type. -/
  cast : Text → Text → Option Value
  /-- `json_text::parse`. -/
  parseJson : Text → Option Json
  /-- `from_f64_exact`, normalized. -/
  exactNumeric : UInt64 → Option Numeric

def storedForm [Primitives] : Value → Value
  | .numeric d => .text d.toText
  | .json text => .text text
  | .record fields => .text (render (.record fields))
  | .bytea bytes => .text (render (.bytea bytes))
  | v => v

def decodeHex : Text → Option Bytes
  | high :: low :: rest => do
    let h ← hexValue high
    let l ← hexValue low
    let bytes ← decodeHex rest
    some ((16 * h + l) :: bytes)
  | [_] => none
  | [] => some []

def fromStored (text : Text) : Bytes :=
  match text with
  | 92 :: 120 :: hex =>
    (decodeHex (hex.filter fun c => c ∉ [32, 9, 10, 12, 13])).getD text
  | _ => text

/-- `Vec::resize`. -/
def resize {α : Type} (n : Nat) (fill : α) (l : List α) : List α :=
  l.take n ++ List.replicate (n - l.length) fill

/-- A column: its type, and what a virtual generated column is computed to. -/
structure StoredColumn where
  dataType : Text
  virtual : Option (Row → Value)

section Rows

variable [Primitives] [UserTypes] [FloatJson]

def isNamed (dataType : Text) (name : String) : Bool := (trim dataType).map asciiLower = ascii name

/-- A field of a composite value: its text if it cannot be cast. -/
def typedField (attr : Text × Text) (field : Option Text) : Text × Value :=
  (attr.1, match field with
    | none => .null
    | some text => (UserTypes.cast text attr.2).getD (.text text))

def storedRecord (dataType text : Text) : Option Value := do
  let attributes ← UserTypes.attributes dataType
  let fields ← parseRecordText text
  some (.record (List.zipWith typedField attributes (resize attributes.length none fields)))

/-- Restore a value from the type of its column. -/
def restoreValue (dataType : Text) (value : Value) : Value :=
  match (match value with | .text text => storedRecord dataType text | _ => none) with
  | some record => record
  | none =>
    if isNamed dataType "json" then
      match value with | .text text => .json text | v => v
    else if isNamed dataType "bytea" then
      match value with | .text text => .bytea (fromStored text) | v => v
    else if isNamed dataType "jsonb" then
      match value with | .text text => ((UserTypes.parseJson text).map .jsonb).getD value | v => v
    else if columnType dataType ≠ .numeric then value
    else
      match value with
      | .text text => ((Numeric.parse text).map .numeric).getD value
      | .float bits => ((UserTypes.exactNumeric bits).map .numeric).getD value
      | .int n => .numeric (.finite n 0)
      | v => v

def restoreRow : List StoredColumn → Row → Row
  | column :: columns, v :: vs => restoreValue column.dataType v :: restoreRow columns vs
  | _, vs => vs

def computeVirtualColumns (columns : List StoredColumn) (row : Row) : Row :=
  columns.zipIdx.foldl (fun row column =>
    match column.1.virtual with
    | some value => row.set column.2 (value row)
    | none => row) row

def encodeRow (row : Row) : Json := .array (toJsonItems (row.map storedForm))

def decodeRow (stored : Json) (columns : List StoredColumn) : Option Row :=
  match stored with
  | .array items => do
    let row ← fromJsonItems items
    let row := if row.length < columns.length then resize columns.length .null row else row
    some (computeVirtualColumns columns (restoreRow columns row))
  | _ => none

end Rows

/-! ## JSON of values -/

mutual

/-- JSON can hold the value: floats are finite and decimals in range. -/
def serializable : Value → Bool
  | .float bits => isFinite bits
  | .numeric d => d.InRange
  | .array items => serializableItems items
  | .record fields => serializableFields fields
  | _ => true

def serializableItems : List Value → Bool
  | [] => true
  | v :: vs => serializable v && serializableItems vs

def serializableFields : List (Text × Value) → Bool
  | [] => true
  | (_, v) :: fields => serializable v && serializableFields fields

end

theorem readInt_intText (n : Int) : readInt (intText n) = some n := by
  unfold intText
  split
  next h =>
    show (parseDigits (jsonNumber n.natAbs)).map (fun m : Nat => -(m : Int)) = some n
    rw [parseDigits_jsonNumber, Option.map_some]
    congr 1
    omega
  next h =>
  have hplain : readInt (jsonNumber n.natAbs) =
      (parseDigits (jsonNumber n.natAbs)).map Int.ofNat := by
    rw [readInt]
    intro digits hsign
    have hdigit := (digits_of_parseDigits (parseDigits_jsonNumber n.natAbs)).2.1 45
      (by rw [hsign]; exact mem_cons_self)
    exact absurd hdigit (by decide)
  rw [hplain, parseDigits_jsonNumber, Option.map_some]
  congr 1
  show (n.natAbs : Int) = n
  omega

theorem mapM_readByte (bytes : Bytes) :
    (bytes.map fun b => Json.number (jsonNumber b.toNat)).mapM readByte = some bytes := by
  induction bytes with
  | nil => rfl
  | cons b bytes ih =>
    have hb : readByte (.number (jsonNumber b.toNat)) = some b := by
      rw [readByte, parseDigits_jsonNumber, Option.bind_some, if_pos b.toNat_lt, UInt8.ofNat_toNat]
    rw [map_cons, mapM_cons, hb, ih]
    rfl

section Json

variable [FloatJson]

theorem fromJson_scalar (tag : Text) (h : ∀ items, body ≠ .array items) :
    fromJson (.object [(tag, body)]) = fromScalar tag body := by
  cases body with
  | array items => exact absurd rfl (h items)
  | _ => rw [fromJson]; exact fun items hbody => by cases hbody

mutual

theorem fromJson_toJson : ∀ v : Value, fromJson (toJson v) = if serializable v then some v else none
  | .int n => by
    rw [toJson, fromJson_scalar _ (fun _ h => by cases h)]
    show (readInt (intText n)).map Value.int = some (.int n)
    rw [readInt_intText, Option.map_some]
  | .float bits => by
    rw [toJson, serializable]
    by_cases hfinite : isFinite bits = true
    · rw [if_pos hfinite, if_pos hfinite, fromJson_scalar _ (fun _ h => by cases h)]
      show (FloatJson.read (FloatJson.write bits)).map Value.float = some (.float bits)
      rw [FloatJson.read_write bits hfinite, Option.map_some]
    · rw [if_neg hfinite, if_neg hfinite, fromJson_scalar _ (fun _ h => by cases h)]
      rfl
  | .text text => by
    rw [toJson, fromJson_scalar _ (fun _ h => by cases h)]
    rfl
  | .bool b => by
    rw [toJson, fromJson_scalar _ (fun _ h => by cases h)]
    rfl
  | .array items => by
    rw [toJson, fromJson, if_pos rfl, fromJsonItems_toJsonItems items, serializable]
    split <;> rfl
  | .jsonb document => by
    rw [toJson]
    cases document with
    | array items => rw [fromJson]; rfl
    | _ => rw [fromJson_scalar _ (fun _ h => by cases h)]; rfl
  | .null => by
    rw [toJson, fromJson, if_pos rfl]
    rfl
  | .numeric d => by
    rw [toJson, fromJson_scalar _ (fun _ h => by cases h), serializable]
    show (Numeric.parse d.toText).map Value.numeric = _
    rw [Numeric.parse_toText, Numeric.checkedRange]
    by_cases hrange : d.InRange
    · rw [if_pos hrange, if_pos (decide_eq_true hrange), Option.map_some]
    · rw [if_neg hrange, if_neg (by rw [decide_eq_true_eq]; exact hrange), Option.map_none]
  | .json text => by
    rw [toJson, fromJson_scalar _ (fun _ h => by cases h)]
    rfl
  | .record fields => by
    rw [toJson, fromJson, if_neg (by decide), if_pos rfl, fromJsonFields_toJsonFields fields,
      serializable]
    split <;> rfl
  | .bytea bytes => by
    rw [toJson, fromJson, if_neg (by decide), if_neg (by decide), if_pos rfl, mapM_readByte]
    rfl

theorem fromJsonItems_toJsonItems : ∀ vs : List Value,
    fromJsonItems (toJsonItems vs) = if serializableItems vs then some vs else none
  | [] => by
    rw [toJsonItems, fromJsonItems, serializableItems]
    rfl
  | v :: vs => by
    rw [toJsonItems, fromJsonItems, fromJson_toJson v, fromJsonItems_toJsonItems vs,
      serializableItems]
    cases serializable v <;> cases serializableItems vs <;> rfl

theorem fromJsonFields_toJsonFields : ∀ fields : List (Text × Value),
    fromJsonFields (toJsonFields fields) = if serializableFields fields then some fields else none
  | [] => by
    rw [toJsonFields, fromJsonFields, serializableFields]
    rfl
  | (name, v) :: fields => by
    rw [toJsonFields, fromJsonFields, fromJson_toJson v, fromJsonFields_toJsonFields fields,
      serializableFields]
    cases serializable v <;> cases serializableFields fields <;> rfl

end

end Json

/-! ## Bytes -/

theorem hexValue_hexDigit (h : d < 16) : hexValue (hexDigit 97 d) = some d := by
  have hall : ∀ n : Fin 16, hexValue (hexDigit 97 (UInt8.ofNat n)) = some (UInt8.ofNat n) := by
    decide
  have hd := hall ⟨d.toNat, UInt8.lt_iff_toNat_lt.mp h⟩
  rwa [UInt8.ofNat_toNat] at hd

theorem decodeHex_hexText (bytes : Bytes) : decodeHex (hexText 97 bytes) = some bytes := by
  induction bytes with
  | nil => rfl
  | cons b bytes ih =>
    have hbyte : 16 * (b / 16) + b % 16 = b := by
      rw [← UInt8.toNat_inj, UInt8.toNat_add, UInt8.toNat_mul, UInt8.toNat_div, UInt8.toNat_mod]
      have hlt := b.toNat_lt
      show (16 * (b.toNat / 16) % 256 + b.toNat % 16) % 256 = b.toNat
      omega
    show decodeHex (hexDigit 97 (b / 16) :: hexDigit 97 (b % 16) :: hexText 97 bytes) = _
    rw [decodeHex, hexValue_hexDigit (high_digit_lt b), hexValue_hexDigit (low_digit_lt b), ih]
    show some ((16 * (b / 16) + b % 16) :: bytes) = _
    rw [hbyte]

theorem filter_hexText (bytes : Bytes) :
    (hexText 97 bytes).filter (fun c => c ∉ [32, 9, 10, 12, 13]) = hexText 97 bytes := by
  have hall : ∀ n : Fin 16, hexDigit 97 (UInt8.ofNat n) ∉ [32, 9, 10, 12, 13] := by decide
  have hdigit : ∀ d : UInt8, d < 16 → hexDigit 97 d ∉ [32, 9, 10, 12, 13] := by
    intro d hd
    have h := hall ⟨d.toNat, UInt8.lt_iff_toNat_lt.mp hd⟩
    rwa [UInt8.ofNat_toNat] at h
  refine filter_eq_self.mpr fun c hc => decide_eq_true ?_
  obtain ⟨b, _, hb⟩ := mem_flatMap.mp hc
  rcases mem_pair.mp hb with rfl | rfl
  · exact hdigit _ (high_digit_lt b)
  · exact hdigit _ (low_digit_lt b)

/-! ## Types of columns -/

/-- What the declared type of a column says about the values stored in it. -/
inductive StoredKind
  | composite (attributes : List (Text × Text))
  | json
  | bytea
  | jsonb
  | numeric
  | other

theorem fromStored_render [Primitives] (bytes : Bytes) :
    fromStored (render (.bytea bytes)) = bytes := by
  rw [render]
  show (decodeHex ((hexText 97 bytes).filter fun c => c ∉ [32, 9, 10, 12, 13])).getD _ = bytes
  rw [filter_hexText, decodeHex_hexText, Option.getD_some]

theorem zipWith_right (h : l'.length = l.length) :
    List.zipWith (fun _ b => b) l l' = l' := by
  induction l generalizing l' with
  | nil => rw [length_eq_zero_iff.mp h, zipWith_nil_left]
  | cons a l ih =>
    cases l' with
    | nil => cases h
    | cons b l' => rw [zipWith_cons_cons, ih (Nat.succ_inj.mp h)]

section Kinds

variable [UserTypes] {dataType : Text}

def kindOf (dataType : Text) : StoredKind :=
  match UserTypes.attributes dataType with
  | some attributes => .composite attributes
  | none =>
    if isNamed dataType "json" then .json
    else if isNamed dataType "bytea" then .bytea
    else if isNamed dataType "jsonb" then .jsonb
    else if columnType dataType = .numeric then .numeric
    else .other

theorem restoreValue_null (dataType : Text) : restoreValue dataType .null = .null := by
  unfold restoreValue
  simp only
  split_ifs <;> rfl

theorem restoreValue_text (h : UserTypes.attributes dataType = none) (text : Text) :
    restoreValue dataType (.text text) =
      match kindOf dataType with
      | .composite _ => .text text
      | .json => .json text
      | .bytea => .bytea (fromStored text)
      | .jsonb => ((UserTypes.parseJson text).map .jsonb).getD (.text text)
      | .numeric => ((Numeric.parse text).map .numeric).getD (.text text)
      | .other => .text text := by
  have hrecord : storedRecord dataType text = none := by rw [storedRecord, h]; rfl
  unfold restoreValue kindOf
  simp only [hrecord, h, ne_eq, ite_not]
  split_ifs <;> rfl

theorem restoreValue_of_not_text (dataType : Text) (htext : ∀ text, v ≠ .text text)
    (hfloat : ∀ bits, v ≠ .float bits) (hint : ∀ n, v ≠ .int n) : restoreValue dataType v = v := by
  unfold restoreValue
  cases v with
  | text text => exact absurd rfl (htext text)
  | float bits => exact absurd rfl (hfloat bits)
  | int n => exact absurd rfl (hint n)
  | _ =>
    simp only
    split_ifs <;> rfl

theorem restoreValue_other (h : kindOf dataType = .other) (v : Value) :
    restoreValue dataType v = v := by
  unfold kindOf at h
  split at h
  · cases h
  next hnone =>
  have hrecord : ∀ text, storedRecord dataType text = none := fun text => by
    rw [storedRecord, hnone]
    rfl
  split_ifs at h with hjson hbytea hjsonb hnumeric
  unfold restoreValue
  cases v <;> simp [hrecord, hjson, hbytea, hjsonb, hnumeric]

variable [Primitives]

/-- A composite value with these attributes. -/
def recordOf (attributes : List (Text × Text)) (values : List Value) : Value :=
  .record (List.zipWith (fun attr v => (attr.1, v)) attributes values)

/-- The values a column can hold: values are coerced to the column's type before they are stored. -/
def Storable (kind : StoredKind) (v : Value) : Prop :=
  match kind with
  | .composite attributes =>
    v = .null ∨ ∃ values, values.length = attributes.length ∧ v = recordOf attributes values
  | .json => v = .null ∨ ∃ text, v = .json text
  | .bytea => v = .null ∨ ∃ bytes, v = .bytea bytes
  | .jsonb => v = .null ∨ ∃ document, v = .jsonb document
  | .numeric => v = .null ∨ (∃ d, v = .numeric d) ∨ ∃ items, v = .array items
  | .other => True

/-- A field is NULL or what its text is cast to. -/
def FieldReadsBack (attr : Text × Text) (v : Value) : Prop :=
  v = .null ∨ (UserTypes.cast (render v) attr.2).getD (.text (render v)) = v

/-- The values that are restored from what is stored. -/
def ReadsBack (kind : StoredKind) (v : Value) : Prop :=
  match kind, v with
  | .composite attributes, .record fields =>
    List.Forall₂ FieldReadsBack attributes (fields.map (·.2))
  | .numeric, .numeric d => d.InRange
  | .other, .numeric _ | .other, .json _ | .other, .record _ | .other, .bytea _ => False
  | _, _ => True

theorem typedFields_eq_iff (h : values.length = attributes.length) :
    List.zipWith typedField attributes
        (fieldTexts (List.zipWith (fun attr v => (attr.1, v)) attributes values)) =
      List.zipWith (fun attr v => (attr.1, v)) attributes values ↔
      List.Forall₂ FieldReadsBack attributes values := by
  induction attributes generalizing values with
  | nil =>
    rw [length_nil, length_eq_zero_iff] at h
    subst h
    exact iff_of_true rfl .nil
  | cons attr attributes ih =>
    cases values with
    | nil => cases h
    | cons v values =>
      rw [length_cons, length_cons, Nat.succ_inj] at h
      rw [zipWith_cons_cons, fieldTexts, map_cons, zipWith_cons_cons,
        cons.injEq, ← fieldTexts, ih h, forall₂_cons]
      refine and_congr_left fun _ => ?_
      by_cases hnull : v = .null
      · subst hnull
        exact iff_of_true rfl (.inl rfl)
      · rw [if_neg (by rw [Value.isNull_iff]; exact hnull), FieldReadsBack, or_iff_right hnull]
        exact Prod.mk_right_inj

theorem storedRecord_render (h : UserTypes.attributes dataType = some attributes)
    (hlength : values.length = attributes.length) :
    storedRecord dataType (render (recordOf attributes values)) =
      some (.record (List.zipWith typedField attributes
        (fieldTexts (List.zipWith (fun attr v => (attr.1, v)) attributes values)))) := by
  rw [storedRecord, h, recordOf, parseRecordText_render]
  set fields := zipWith (fun attr v => (attr.1, v)) attributes values with hfields
  have hsize : fields.length = attributes.length := by
    rw [hfields, length_zipWith, hlength, min_self]
  have hresize : resize attributes.length none (if fields = [] then [none] else fieldTexts fields) =
      fieldTexts fields := by
    rw [← hsize]
    split
    next hnil =>
      rw [hnil]
      rfl
    · have htexts : (fieldTexts fields).length = fields.length := by
        rw [fieldTexts, length_map]
      rw [resize, take_of_length_le htexts.le, htexts, Nat.sub_self, replicate_zero, append_nil]
  show some (Value.record (zipWith typedField attributes
    (resize attributes.length none _))) = _
  rw [hresize]

theorem restoreValue_storedForm {v : Value} (h : Storable (kindOf dataType) v) :
    restoreValue dataType (storedForm v) = v ↔ ReadsBack (kindOf dataType) v := by
  by_cases hnull : v = .null
  · subst hnull
    refine iff_of_true (restoreValue_null dataType) ?_
    cases kindOf dataType <;> trivial
  cases hattributes : UserTypes.attributes dataType with
  | some attributes =>
    have hkind : kindOf dataType = .composite attributes := by rw [kindOf, hattributes]
    rw [hkind] at h ⊢
    obtain ⟨values, hlength, rfl⟩ := h.resolve_left hnull
    have hrestore : restoreValue dataType (storedForm (recordOf attributes values)) =
        .record (zipWith typedField attributes
          (fieldTexts (zipWith (fun attr v => (attr.1, v)) attributes values))) := by
      show restoreValue dataType (.text (render (recordOf attributes values))) = _
      rw [restoreValue, storedRecord_render hattributes hlength]
    have hvalues : (zipWith (fun (attr : Text × Text) v => (attr.1, v)) attributes values).map
        (·.2) = values := by
      rw [map_zipWith]
      exact zipWith_right hlength
    rw [hrestore, recordOf, Value.record.injEq, typedFields_eq_iff hlength]
    show _ ↔ List.Forall₂ FieldReadsBack attributes (map _ _)
    rw [hvalues]
  | none =>
    have htext := restoreValue_text hattributes
    cases hkind : kindOf dataType with
    | composite attributes =>
      rw [kindOf, hattributes] at hkind
      simp only at hkind
      split_ifs at hkind
    | json =>
      rw [hkind] at h htext
      obtain ⟨text, rfl⟩ := h.resolve_left hnull
      exact iff_of_true (htext text) trivial
    | bytea =>
      rw [hkind] at h htext
      obtain ⟨bytes, rfl⟩ := h.resolve_left hnull
      refine iff_of_true ((htext _).trans ?_) trivial
      show Value.bytea _ = _
      rw [fromStored_render]
    | jsonb =>
      rw [hkind] at h
      obtain ⟨document, rfl⟩ := h.resolve_left hnull
      exact iff_of_true (restoreValue_of_not_text dataType (fun _ heq => by cases heq)
        (fun _ heq => by cases heq) (fun _ heq => by cases heq)) trivial
    | numeric =>
      rw [hkind] at h htext
      rcases h.resolve_left hnull with ⟨d, rfl⟩ | ⟨items, rfl⟩
      · show restoreValue dataType (.text d.toText) = _ ↔ d.InRange
        rw [htext]
        show ((Numeric.parse d.toText).map Value.numeric).getD _ = _ ↔ _
        rw [Numeric.parse_toText, Numeric.checkedRange]
        by_cases hrange : d.InRange
        · rw [if_pos hrange]
          exact iff_of_true rfl hrange
        · rw [if_neg hrange]
          exact iff_of_false (fun heq => by cases heq) hrange
      · exact iff_of_true (restoreValue_of_not_text dataType (fun _ heq => by cases heq)
        (fun _ heq => by cases heq) (fun _ heq => by cases heq)) trivial
    | other =>
      rw [restoreValue_other hkind]
      cases v with
      | numeric d | json text | record fields | bytea bytes =>
        exact iff_of_false (fun heq => by cases heq) id
      | _ => exact iff_of_true rfl trivial

end Kinds

/-! ## Rows -/

theorem serializableItems_eq (vs : List Value) : serializableItems vs = vs.all serializable := by
  induction vs with
  | nil => rw [serializableItems, all_nil]
  | cons v vs ih => rw [serializableItems, ih, all_cons]

theorem computeVirtualColumns_getElem? {columns : List StoredColumn} {row : Row} {i : Nat}
    (h : ∀ column, columns[i]? = some column → column.virtual = none) :
    (computeVirtualColumns columns row)[i]? = row[i]? := by
  have hfold : ∀ (l : List (StoredColumn × Nat)) (row : Row),
      (∀ column ∈ l, column.2 = i → column.1.virtual = none) →
      (l.foldl (fun row column =>
        match column.1.virtual with
        | some value => row.set column.2 (value row)
        | none => row) row)[i]? = row[i]? := by
    intro l
    induction l with
    | nil => exact fun _ _ => rfl
    | cons column l ih =>
      intro row hl
      rw [forall_mem_cons] at hl
      rw [foldl_cons, ih _ hl.2]
      split
      next value hvalue =>
        refine getElem?_set_ne fun heq => ?_
        rw [hl.1 heq] at hvalue
        cases hvalue
      · rfl
  refine hfold columns.zipIdx row fun column hcolumn heq => ?_
  have hmem := mem_zipIdx_iff_getElem?.mp hcolumn
  rw [heq] at hmem
  exact h column.1 hmem

section Rows

variable [Primitives] [UserTypes] {columns : List StoredColumn}

/-- The row as it is restored from what is stored. -/
abbrev restoredRow (columns : List StoredColumn) (row : Row) : Row :=
  List.zipWith (fun column v => restoreValue column.dataType (storedForm v)) columns row

theorem restoreRow_map (h : columns.length = row.length) :
    restoreRow columns (row.map storedForm) = restoredRow columns row := by
  induction columns generalizing row with
  | nil =>
    rw [length_eq_zero_iff.mp h.symm]
    rfl
  | cons column columns ih =>
    cases row with
    | nil => cases h
    | cons v row =>
      rw [map_cons, restoreRow, ih (Nat.succ_inj.mp h)]
      rfl

/-- A row of values that the columns can hold. -/
structure StorableRow (columns : List StoredColumn) where
  row : Row
  storable : List.Forall₂ (fun column v => Storable (kindOf column.dataType) v) columns row

/-- The row with what is restored of its virtual columns. -/
def cachedRow (columns : List StoredColumn) (row : Row) : Row :=
  List.zipWith (fun column v =>
    if column.virtual.isSome then restoreValue column.dataType (storedForm v) else v) columns row

/-- All floats that are stored as numbers are finite, the columns that are not virtual hold values
that are read back, and the virtual ones what is computed for them. -/
def RowReadsBack (columns : List StoredColumn) (row : Row) : Prop :=
  (∀ v ∈ row, serializable (storedForm v) = true) ∧
    List.Forall₂ (fun column v => column.virtual = none → ReadsBack (kindOf column.dataType) v)
      columns row ∧
    computeVirtualColumns columns (cachedRow columns row) = row

theorem restored_eq_cachedRow (s : StorableRow columns) (hread : List.Forall₂ (fun column v =>
      column.virtual = none → ReadsBack (kindOf column.dataType) v) columns s.row) :
    restoredRow columns s.row = cachedRow columns s.row := by
  obtain ⟨row, hstorable⟩ := s
  induction hstorable with
  | nil => rfl
  | cons h _ ih =>
    obtain ⟨hread, hrest⟩ := forall₂_cons.mp hread
    rw [restoredRow, zipWith_cons_cons, ← restoredRow, cachedRow, zipWith_cons_cons,
      ← cachedRow, ih hrest]
    split
    · rfl
    next hvirtual =>
      rw [(restoreValue_storedForm h).mpr (hread (Option.not_isSome_iff_eq_none.mp hvirtual))]

theorem nonvirtual_reads_back (s : StorableRow columns)
    (hrow : computeVirtualColumns columns (restoredRow columns s.row) = s.row) :
    List.Forall₂ (fun column v => column.virtual = none → ReadsBack (kindOf column.dataType) v)
      columns s.row := by
  obtain ⟨hlength, hstorable⟩ := forall₂_iff_get.mp s.storable
  refine forall₂_iff_get.mpr ⟨hlength, fun i hi hi' hvirtual => ?_⟩
  have hcolumn : columns[i]? = some (columns.get ⟨i, hi⟩) := getElem?_eq_getElem hi
  have hget : (computeVirtualColumns columns (restoredRow columns s.row))[i]? =
      (restoredRow columns s.row)[i]? := by
    refine computeVirtualColumns_getElem? fun column h => ?_
    rw [hcolumn] at h
    cases h
    exact hvirtual
  rw [hrow, getElem?_zipWith, hcolumn, getElem?_eq_getElem hi'] at hget
  exact (restoreValue_storedForm (hstorable i hi hi')).mp (Option.some.inj hget).symm

variable [FloatJson]

theorem decodeRow_encodeRow (s : StorableRow columns) :
    decodeRow (encodeRow s.row) columns =
      if ∀ v ∈ s.row, serializable (storedForm v) = true then
        some (computeVirtualColumns columns (restoredRow columns s.row))
      else none := by
  have hlength := s.storable.length_eq
  have hall : serializableItems (s.row.map storedForm) = true ↔
      ∀ v ∈ s.row, serializable (storedForm v) = true := by
    rw [serializableItems_eq, all_eq_true]
    exact forall_mem_map
  rw [encodeRow, decodeRow, fromJsonItems_toJsonItems]
  by_cases h : ∀ v ∈ s.row, serializable (storedForm v) = true
  · rw [if_pos h, if_pos (hall.mpr h)]
    show some (computeVirtualColumns columns (restoreRow columns (if _ then _ else _))) = _
    rw [length_map, if_neg (by omega), restoreRow_map hlength]
  · rw [if_neg h, if_neg fun hyes => h (hall.mp hyes)]
    rfl

end Rows

/-- A row is read back unchanged if and only if JSON can hold its values, the columns that are not
virtual hold values that are restored from what is stored, and the virtual ones hold what is
computed for them. -/
theorem stored_row_reads_back [Primitives] [UserTypes] [FloatJson] {columns : List StoredColumn}
    (s : StorableRow columns) :
    decodeRow (encodeRow s.row) columns = some s.row ↔ RowReadsBack columns s.row := by
  rw [decodeRow_encodeRow, RowReadsBack]
  by_cases hall : ∀ v ∈ s.row, serializable (storedForm v) = true
  · rw [if_pos hall, and_iff_right hall, Option.some.injEq]
    constructor
    · intro hrow
      have hread := nonvirtual_reads_back s hrow
      exact ⟨hread, by rw [← restored_eq_cachedRow s hread, hrow]⟩
    · rintro ⟨hread, hrow⟩
      rw [restored_eq_cachedRow s hread, hrow]
  · rw [if_neg hall]
    exact iff_of_false (fun h => by cases h) fun h => hall h.1

namespace Fixed

@[reducible] def floatJson : FloatJson where
  write bits := jsonNumber bits.toNat
  read text := (parseDigits text).map UInt64.ofNat
  read_write bits _ := by rw [parseDigits_jsonNumber, Option.map_some, UInt64.ofNat_toNat]

@[reducible] def userTypes : UserTypes where
  toTypeNames := typeNames
  attributes _ := none
  cast _ _ := none
  parseJson _ := none
  exactNumeric _ := none

/-- `CREATE TYPE pair AS (a TEXT, b INT)`. -/
@[reducible] def pairTypes : UserTypes :=
  { userTypes with
    attributes := fun name => if name = ascii "pair" then
      some [(ascii "a", ascii "TEXT"), (ascii "b", ascii "INT")] else none
    cast := fun text name =>
      if name = ascii "INT" then (readInt text).map .int else some (.text text) }

/-- A composite value with a comma in its text, and an array of arrays. -/
@[reducible] def pairRow [Primitives] : letI := pairTypes
    StorableRow [⟨ascii "pair", none⟩, ⟨ascii "INT[]", none⟩] :=
  letI := pairTypes
  { row := [.record [(ascii "a", .text (ascii "x,y")), (ascii "b", .int 7)],
      .array [.array [.int 1, .null], .array []]]
    storable := .cons (.inr ⟨[.text (ascii "x,y"), .int 7], rfl, rfl⟩) (.cons trivial .nil) }

end Fixed

theorem stored_row_reads_back_pair :
    letI := Fixed.evaluator fun _ => none
    letI := Fixed.pairTypes
    letI := Fixed.floatJson
    decodeRow (encodeRow Fixed.pairRow.row) [⟨ascii "pair", none⟩, ⟨ascii "INT[]", none⟩] =
      some Fixed.pairRow.row := by
  let := Fixed.evaluator fun _ => none
  let := Fixed.pairTypes
  let := Fixed.floatJson
  refine (stored_row_reads_back Fixed.pairRow).mpr ⟨by decide +kernel, ?_, rfl⟩
  refine .cons (fun _ => ?_) (.cons (fun _ => trivial) .nil)
  refine .cons (.inr rfl) (.cons (.inr ?_) .nil)
  simp [UserTypes.cast, render, readInt_intText]

/-- A row with NaN in a column of floats cannot be read. -/
theorem nan_row_not_read :
    letI := Fixed.evaluator fun _ => none
    letI := Fixed.userTypes
    letI := Fixed.floatJson
    decodeRow (encodeRow [.float 0x7FF8000000000000]) [⟨ascii "FLOAT", none⟩] = none := by
  let := Fixed.evaluator fun _ => none
  let := Fixed.userTypes
  let := Fixed.floatJson
  exact Option.isNone_iff_eq_none.mp (by decide +kernel)

end NodusDb.Sql
