import NodusDb.Lib.PrefixOrder
import NodusDb.Sql.Temporal
import NodusDb.Sql.ValueOrder

/-!
# Keys of index entries

The entry of a row in an index is kept under a key that begins with an encoding of the
key columns' values, so that a scan can read the entries of a range of values. The
encoding of a value is written in hexadecimal digits, `!` stands between the encodings
and `-` before the key of the row.
-/

namespace NodusDb.Sql

open List

/-! ## Encodings -/

/-- `x ^ (1 << 63)`: signed numbers in the order of unsigned ones. -/
def flipSign (x : UInt64) : UInt64 := x ^^^ 0x8000000000000000

/-- The kind of point in time that a column keeps. -/
def instantKind (dataType : Text) : Option InstantKind :=
  match Kind.ofType dataType with
  | some .date => some .date
  | some .timestamp => some .timestamp
  | some .timestampTz => some .timestampTz
  | _ => none

def numberBytes (n : Int) : Bytes := toBeBytes (flipSign (UInt64.ofInt n))

/-- The bytes of a float: with the sign set, larger bits are below smaller ones. -/
def floatBytes (bits : UInt64) : Bytes :=
  toBeBytes (if bits &&& 0x8000000000000000 ≠ 0 then ~~~bits else flipSign bits)

section Encoding

variable [Zones]

/-- The bytes of a text: a point in time is a number, if its text is read as one. -/
def textBytes (text dataType : Text) : Bytes :=
  match (instantKind dataType).bind (parseAs text) with
  | some (.finite n) => numberBytes n
  | _ => text

/-- The bytes of a key value, in the order of the values. -/
def keyBytes (value : Value) (dataType : Text) : Option Bytes :=
  match value with
  | .null => some [2]
  | .int n => some (1 :: (numberBytes n ++ [0]))
  | .float bits => some (1 :: (floatBytes bits ++ [0]))
  | .bool b => some (1 :: ([if b then 1 else 0] ++ [0]))
  | .text text => some (1 :: (textBytes text dataType ++ [0]))
  | _ => none

/-- The bytes in upper-case hexadecimal digits. -/
def keyComponent (value : Value) (dataType : Text) : Option Text :=
  (keyBytes value dataType).map (hexText 65)

/-- The encodings of the values of the key columns, which have these types. -/
def keyComponents : List Text → List Value → Option (List Text)
  | [], _ => some []
  | _ :: _, [] => none
  | dataType :: types, value :: key => do
    let component ← keyComponent value dataType
    let components ← keyComponents types key
    some (component :: components)

/-- The encodings with `!` between them. -/
def indexKeyComponents (types : List Text) (key : List Value) : Option Text :=
  (keyComponents types key).map (joinText (ascii "!"))

/-- `i:` and the id of the index, with which its keys begin. -/
def indexBase (indexId : Text) : Text := ascii "i:" ++ indexId ++ ascii ":"

/-- The key of a row's entry, in an index whose key columns are all encoded. -/
def indexKeyFor (indexId pk : Text) (types : List Text) (key : List Value) : Option Text :=
  (indexKeyComponents types key).map fun hex => indexBase indexId ++ hex ++ ascii "-" ++ pk

/-- A bound, and whether it belongs to the range. -/
abbrev Bound := Value × Bool

/-- The type of the column behind the equalities, and its bounds. -/
structure RangeBounds where
  dataType : Text
  lower : Option Bound
  upper : Option Bound

/-- Where a range begins: behind the entries of a bound that does not belong to it. -/
def regionStart (base dataType : Text) : Option Bound → Option Text
  | some (value, inclusive) => (keyComponent value dataType).map fun hex =>
    if inclusive then base ++ hex else base ++ hex ++ ascii "01"
  | none => some base

/-- Where a range ends: behind the entries of a bound that belongs to it. -/
def regionEnd (base dataType : Text) : Option Bound → Option Text
  | some (value, inclusive) => (keyComponent value dataType).map fun hex =>
    if inclusive then base ++ hex ++ ascii "01" else base ++ hex
  | none => some (base ++ ascii "G")

/-- The keys that a scan reads: from the first to below the second. -/
def indexPrefixRegion (indexId prefixHex : Text) (range : Option RangeBounds) :
    Option (Text × Text) :=
  let base := indexBase indexId ++ prefixHex
  match range with
  | none => some (base, base ++ ascii "G")
  | some range => do
    let start ← regionStart base range.dataType range.lower
    let stop ← regionEnd base range.dataType range.upper
    some (start, stop)

end Encoding

/-! ## Bytes keep the order -/

theorem toNat_flipSign (x : UInt64) : (flipSign x).toNat = (x.toNat + 2 ^ 63) % 2 ^ 64 := by
  rw [flipSign, UInt64.toNat_xor]
  have hx : x.toNat < 2 ^ 64 := x.toNat_lt
  show x.toNat ^^^ 2 ^ 63 = _
  generalize x.toNat = n at hx
  refine Nat.eq_of_testBit_eq fun i => ?_
  rw [Nat.testBit_xor, Nat.testBit_two_pow, Nat.testBit_mod_two_pow, add_comm]
  rcases lt_trichotomy i 63 with hi | rfl | hi
  · rw [Nat.testBit_two_pow_add_gt hi]
    simp [show i < 64 by omega, show ¬ 63 = i by omega]
  · rw [Nat.testBit_two_pow_add_eq]
    simp
  · have hbit : n.testBit i = false :=
      Nat.testBit_lt_two_pow (hx.trans_le (Nat.pow_le_pow_right (by decide) (by omega)))
    simp [hbit, show ¬ i < 64 by omega, show ¬ 63 = i by omega]

def InI64 (n : Int) : Prop := -2 ^ 63 ≤ n ∧ n < 2 ^ 63

instance (n : Int) : Decidable (InI64 n) := inferInstanceAs (Decidable (_ ∧ _))

theorem toNat_flipSign_ofInt (h : InI64 n) :
    ((flipSign (UInt64.ofInt n)).toNat : Int) = n + 2 ^ 63 := by
  obtain ⟨hlow, hhigh⟩ := h
  rw [toNat_flipSign]
  have hof : ((UInt64.ofInt n).toNat : Int) = n % 2 ^ 64 := by
    rw [UInt64.ofInt, UInt64.toNat_ofNat']
    omega
  omega

theorem toBeBytes_lt_iff (x y : UInt64) : toBeBytes x < toBeBytes y ↔ x.toNat < y.toNat := by
  refine digits_lt_iff (fun d e hd he => ?_) x.toNat_lt y.toNat_lt
  rw [UInt8.lt_iff_toNat_lt, UInt8.toNat_ofNat', UInt8.toNat_ofNat', Nat.mod_eq_of_lt hd,
    Nat.mod_eq_of_lt he]

@[simp] theorem length_toBeBytes (x : UInt64) : (toBeBytes x).length = 8 := length_digits _ _ _ _

theorem numberBytes_below (hn : InI64 n) (hm : InI64 m) (h : n < m) :
    Below (numberBytes n) (numberBytes m) := by
  refine below_of_length_eq (by simp [numberBytes]) ?_
  rw [numberBytes, numberBytes, toBeBytes_lt_iff]
  have hn' := toNat_flipSign_ofInt hn
  have hm' := toNat_flipSign_ofInt hm
  omega

theorem hexDigit_lt (he : e < 16) (h : d < e) : hexDigit 65 d < hexDigit 65 e := by
  have hall : ∀ d e : Fin 16, d < e →
      hexDigit 65 (UInt8.ofNat d) < hexDigit 65 (UInt8.ofNat e) := by decide
  have hd : d < 16 := h.trans he
  rw [UInt8.lt_iff_toNat_lt] at h he hd
  have hlt := hall ⟨d.toNat, hd⟩ ⟨e.toNat, he⟩ h
  rwa [UInt8.ofNat_toNat, UInt8.ofNat_toNat] at hlt

theorem low_digit_lt (b : UInt8) : b % 16 < 16 := by
  rw [UInt8.lt_iff_toNat_lt, UInt8.toNat_mod]
  exact Nat.mod_lt _ (by decide)

theorem high_digit_lt (b : UInt8) : b / 16 < 16 := by
  rw [UInt8.lt_iff_toNat_lt, UInt8.toNat_div]
  have := b.toNat_lt
  show b.toNat / 16 < 16
  omega

theorem hexText_below (h : Below u v) : Below (hexText 65 u) (hexText 65 v) := by
  refine h.flatMap fun a b hab => ?_
  by_cases heq : a / 16 = b / 16
  · rw [heq]
    refine (below_cons (hexDigit_lt (low_digit_lt b) ?_) [] []).append_left [_]
    rw [UInt8.lt_iff_toNat_lt] at hab ⊢
    have heq' := congrArg UInt8.toNat heq
    rw [UInt8.toNat_div, UInt8.toNat_div] at heq'
    rw [UInt8.toNat_mod, UInt8.toNat_mod]
    change a.toNat / 16 = b.toNat / 16 at heq'
    show a.toNat % 16 < b.toNat % 16
    omega
  · refine below_cons (hexDigit_lt (high_digit_lt b) (lt_of_le_of_ne ?_ heq)) _ _
    rw [UInt8.lt_iff_toNat_lt] at hab
    rw [UInt8.le_iff_toNat_le, UInt8.toNat_div, UInt8.toNat_div]
    exact Nat.div_le_div_right hab.le

/-! ## Columns -/

inductive KeyType
  | int
  | bool
  | text
  deriving DecidableEq, Repr

/-- A key column: the text of a text column is no point in time. -/
structure KeyColumn where
  type : KeyType
  dataType : Text
  plain : type = .text → instantKind dataType = none

/-- The values a column can keep: numbers of 64 bits, and text without NUL. -/
def KeyColumn.Fits (column : KeyColumn) : Value → Prop
  | .null => True
  | .int n => column.type = .int ∧ InI64 n
  | .bool _ => column.type = .bool
  | .text text => column.type = .text ∧ 0 ∉ text
  | _ => False

/-- Below in the order of the index: NULL is above every value. -/
def keyLt [Primitives] (a b : Value) : Prop := a ≠ .null ∧ (b = .null ∨ compare a b = .lt)

section Columns

variable {column : KeyColumn} {a b : Value}

theorem KeyColumn.Fits.pair (ha : column.Fits a) (hb : column.Fits b) (hna : a ≠ .null)
    (hnb : b ≠ .null) :
    (∃ n m, a = .int n ∧ b = .int m ∧ InI64 n ∧ InI64 m) ∨
      (∃ x y, a = .bool x ∧ b = .bool y) ∨
      ∃ s t, a = .text s ∧ b = .text t ∧ 0 ∉ s ∧ 0 ∉ t := by
  cases a with
  | null => exact absurd rfl hna
  | int n =>
    cases b with
    | null => exact absurd rfl hnb
    | int m => exact .inl ⟨n, m, rfl, rfl, ha.2, hb.2⟩
    | bool y => cases ha.1.symm.trans hb
    | text t => cases ha.1.symm.trans hb.1
    | _ => exact hb.elim
  | bool x =>
    cases b with
    | null => exact absurd rfl hnb
    | int m | text t => cases (show column.type = .bool from ha).symm.trans hb.1
    | bool y => exact .inr (.inl ⟨x, y, rfl, rfl⟩)
    | _ => exact hb.elim
  | text s =>
    cases b with
    | null => exact absurd rfl hnb
    | int m => cases ha.1.symm.trans hb.1
    | bool y => cases ha.1.symm.trans hb
    | text t => exact .inr (.inr ⟨s, t, rfl, rfl, ha.2, hb.2⟩)
    | _ => exact hb.elim
  | _ => exact ha.elim

section Order

variable [Primitives]

theorem compare_int_lt : compare (.int n) (.int m) = .lt ↔ n < m := by
  rw [compare, compare_lt_iff_lt]

theorem compare_text_lt : compare (.text s) (.text t) = .lt ↔ s < t := by
  rw [compare, bytesCmp_lt_iff]

theorem compare_text_gt : compare (.text s) (.text t) = .gt ↔ t < s := by
  rw [compare, bytesCmp_gt_iff]

theorem compare_eq_lt_iff (hna : a ≠ .null) (hnb : b ≠ .null) : compare a b = .lt ↔ keyLt a b :=
  ⟨fun h => ⟨hna, .inr h⟩, fun h => h.2.resolve_left hnb⟩

theorem compare_eq_gt_iff (ha : column.Fits a) (hb : column.Fits b) (hna : a ≠ .null)
    (hnb : b ≠ .null) : compare a b = .gt ↔ keyLt b a := by
  rw [← compare_eq_lt_iff hnb hna]
  rcases ha.pair hb hna hnb with ⟨n, m, rfl, rfl, _, _⟩ | ⟨x, y, rfl, rfl⟩ | ⟨s, t, rfl, rfl, _, _⟩
  · rw [compare_int_lt, compare, compare_gt_iff_gt]
  · have hbool : ∀ x y : Bool, Ord.compare x y = .gt ↔ Ord.compare y x = .lt := by decide
    simp only [compare]
    exact hbool x y
  · rw [compare_text_gt, compare_text_lt]

theorem keyLt_trichotomy (ha : column.Fits a) (hb : column.Fits b) :
    keyLt a b ∨ a = b ∨ keyLt b a := by
  by_cases hna : a = .null
  · by_cases hnb : b = .null
    · exact .inr (.inl (hna.trans hnb.symm))
    · exact .inr (.inr ⟨hnb, .inl hna⟩)
  by_cases hnb : b = .null
  · exact .inl ⟨hna, .inl hnb⟩
  rcases ha.pair hb hna hnb with ⟨n, m, rfl, rfl, _, _⟩ | ⟨x, y, rfl, rfl⟩ | ⟨s, t, rfl, rfl, _, _⟩
  · rcases lt_trichotomy n m with h | rfl | h
    · exact .inl ⟨hna, .inr (compare_int_lt.mpr h)⟩
    · exact .inr (.inl rfl)
    · exact .inr (.inr ⟨hnb, .inr (compare_int_lt.mpr h)⟩)
  · cases x with
    | false =>
      cases y with
      | false => exact .inr (.inl rfl)
      | true => exact .inl ⟨hna, .inr (by rw [compare]; rfl)⟩
    | true =>
      cases y with
      | false => exact .inr (.inr ⟨hnb, .inr (by rw [compare]; rfl)⟩)
      | true => exact .inr (.inl rfl)
  · rcases lt_trichotomy s t with h | rfl | h
    · exact .inl ⟨hna, .inr (compare_text_lt.mpr h)⟩
    · exact .inr (.inl rfl)
    · exact .inr (.inr ⟨hnb, .inr (compare_text_lt.mpr h)⟩)

end Order

def plainBytes : Value → Bytes
  | .int n => 1 :: (numberBytes n ++ [0])
  | .bool b => 1 :: ([if b then 1 else 0] ++ [0])
  | .text text => 1 :: (text ++ [0])
  | _ => [2]

section Encodings

variable [Zones]

/-- The encoding of a value that a column can keep. -/
def componentOf (column : KeyColumn) (value : Value) : Text :=
  (keyComponent value column.dataType).getD []

theorem KeyColumn.Fits.keyBytes (h : column.Fits a) :
    keyBytes a column.dataType = some (plainBytes a) := by
  cases a with
  | null => rfl
  | int n => rfl
  | bool b => rfl
  | text text => rw [Sql.keyBytes, textBytes, column.plain h.1]; rfl
  | _ => exact h.elim

theorem keyComponent_of_fits (h : column.Fits a) :
    keyComponent a column.dataType = some (componentOf column a) := by
  rw [componentOf, keyComponent, h.keyBytes]
  rfl

theorem component_head (ha : column.Fits a) : ∃ rest, componentOf column a = 48 :: rest := by
  rw [componentOf, keyComponent, ha.keyBytes]
  cases a with
  | null | int n | bool b | text text => exact ⟨_, rfl⟩
  | _ => exact ha.elim

variable [Primitives]

theorem component_below (ha : column.Fits a) (hb : column.Fits b) (h : keyLt a b) :
    Below (componentOf column a) (componentOf column b) := by
  rw [componentOf, componentOf, keyComponent, keyComponent, ha.keyBytes, hb.keyBytes]
  refine hexText_below ?_
  obtain ⟨hnull, rfl | h⟩ := h
  · cases a with
    | null => exact absurd rfl hnull
    | int n | bool x | text s => exact below_cons (by decide) _ _
    | _ => exact ha.elim
  have hnb : b ≠ .null := by
    rintro rfl
    cases a with
    | null => exact hnull rfl
    | int n | bool x | text s => cases h
    | _ => exact ha.elim
  rcases ha.pair hb hnull hnb with ⟨n, m, rfl, rfl, hn, hm⟩ | ⟨x, y, rfl, rfl⟩ |
    ⟨s, t, rfl, rfl, _, ht⟩
  · exact ((numberBytes_below hn hm (compare_int_lt.mp h)).append [0] [0]).append_left [1]
  · rw [compare] at h
    cases x with
    | false =>
      cases y with
      | false => cases h
      | true => exact (below_cons (by decide : (0 : UInt8) < 1) [0] [0]).append_left [1]
    | true => cases y <;> cases h
  · refine (below_terminated (fun c hc => ?_) (compare_text_lt.mp h)).append_left [1]
    refine lt_of_le_of_ne (UInt8.le_iff_toNat_le.mpr (Nat.zero_le _)) ?_
    rintro rfl
    exact ht hc

theorem component_trichotomy (ha : column.Fits a) (hb : column.Fits b) :
    Below (componentOf column a) (componentOf column b) ∨
      componentOf column a = componentOf column b ∨
      Below (componentOf column b) (componentOf column a) := by
  rcases keyLt_trichotomy ha hb with h | rfl | h
  · exact .inl (component_below ha hb h)
  · exact .inr (.inl rfl)
  · exact .inr (.inr (component_below hb ha h))

theorem component_below_iff (ha : column.Fits a) (hb : column.Fits b) :
    Below (componentOf column a) (componentOf column b) ↔ keyLt a b := by
  refine ⟨fun hbelow => ?_, component_below ha hb⟩
  rcases keyLt_trichotomy ha hb with h | rfl | h
  · exact h
  · exact absurd rfl hbelow.ne
  · exact absurd (component_below hb ha h).lt (lt_asymm hbelow.lt)

end Encodings

end Columns

/-! ## Key tuples -/

def tupleLt [Primitives] : List Value → List Value → Prop
  | a :: as, b :: bs => keyLt a b ∨ a = b ∧ tupleLt as bs
  | _, _ => False

def Typed (columns : List KeyColumn) (key : List Value) : Prop :=
  List.Forall₂ KeyColumn.Fits (columns.take key.length) key

section Tuples

variable {columns : List KeyColumn} {as bs : List Value}

theorem Typed.cons {column : KeyColumn} {a : Value} (h : Typed (column :: columns) (a :: as)) :
    column.Fits a ∧ Typed columns as := by
  rw [Typed, length_cons, take_succ_cons, forall₂_cons] at h
  exact h

theorem not_typed_nil (h : Typed [] (a :: as)) : False := by
  rw [Typed, take_nil] at h
  cases h

theorem tupleLt_trichotomy [Primitives] (ha : Typed columns as) (hb : Typed columns bs)
    (hlength : bs.length ≤ as.length) : tupleLt as bs ∨ as.take bs.length = bs ∨ tupleLt bs as := by
  induction columns generalizing as bs with
  | nil =>
    cases bs with
    | nil => exact .inr (.inl rfl)
    | cons b bs => exact (not_typed_nil hb).elim
  | cons column columns ih =>
    cases bs with
    | nil => exact .inr (.inl rfl)
    | cons b bs =>
      cases as with
      | nil => cases hlength
      | cons a as =>
        obtain ⟨ha, has⟩ := ha.cons
        obtain ⟨hb, hbs⟩ := hb.cons
        rcases keyLt_trichotomy ha hb with h | rfl | h
        · exact .inl (.inl h)
        · rcases ih has hbs (Nat.le_of_succ_le_succ hlength) with h | h | h
          · exact .inl (.inr ⟨rfl, h⟩)
          · refine .inr (.inl ?_)
            rw [length_cons, take_succ_cons, h]
          · exact .inr (.inr (.inr ⟨rfl, h⟩))
        · exact .inr (.inr (.inl h))

theorem joinText_cons (sep t : Text) (ts : List Text) :
    joinText sep (t :: ts) = t ++ (if ts = [] then [] else sep ++ joinText sep ts) := by
  cases ts with
  | nil | cons u us => simp [joinText]

variable [Zones]

/-- The encodings of values of the first columns. -/
def componentsOf : List KeyColumn → List Value → List Text := List.zipWith componentOf

theorem componentsOf_append (h : as.length ≤ columns.length) :
    componentsOf columns (as ++ bs) =
      componentsOf columns as ++ componentsOf (columns.drop as.length) bs := by
  induction as generalizing columns with
  | nil => rw [nil_append, componentsOf, zipWith_nil_right]; rfl
  | cons a as ih =>
    cases columns with
    | nil => cases h
    | cons column columns =>
      have hrest := ih (Nat.le_of_succ_le_succ h)
      rw [componentsOf] at hrest ⊢
      rw [cons_append, zipWith_cons_cons, zipWith_cons_cons, hrest]
      rfl

theorem keyComponents_of_typed (h : Typed columns as) :
    keyComponents ((columns.take as.length).map (·.dataType)) as =
      some (componentsOf columns as) := by
  induction columns generalizing as with
  | nil =>
    cases as with
    | nil => rfl
    | cons a as => exact (not_typed_nil h).elim
  | cons column columns ih =>
    cases as with
    | nil => rfl
    | cons a as =>
      obtain ⟨ha, has⟩ := h.cons
      rw [length_cons, take_succ_cons, map_cons, keyComponents, keyComponent_of_fits ha, ih has]
      rfl

theorem components_below [Primitives] (ha : Typed columns as) (hb : Typed columns bs)
    (h : tupleLt as bs) :
    Below (joinText (ascii "!") (componentsOf columns as))
      (joinText (ascii "!") (componentsOf columns bs)) := by
  induction columns generalizing as bs with
  | nil =>
    cases as with
    | nil => exact h.elim
    | cons a as => exact (not_typed_nil ha).elim
  | cons column columns ih =>
    cases as with
    | nil => exact h.elim
    | cons a as =>
      cases bs with
      | nil => exact h.elim
      | cons b bs =>
        obtain ⟨ha, has⟩ := ha.cons
        obtain ⟨hb, hbs⟩ := hb.cons
        rw [componentsOf, zipWith_cons_cons, zipWith_cons_cons, joinText_cons, joinText_cons]
        rcases h with h | ⟨rfl, h⟩
        · exact (component_below ha hb h).append _ _
        -- The rests differ, so neither is empty.
        have hrest := ih has hbs h
        rw [componentsOf] at hrest
        have hne : ∀ {u v : List Text}, Below (joinText (ascii "!") u) (joinText (ascii "!") v) →
            u ≠ [] ∧ v ≠ [] := by
          rintro u v ⟨p, x, y, s, t, hu, hv, _⟩
          constructor
          · rintro rfl
            cases p <;> cases hu
          · rintro rfl
            cases p <;> cases hv
        rw [if_neg (hne hrest).1, if_neg (hne hrest).2]
        exact (hrest.append_left _).append_left _

end Tuples

end NodusDb.Sql
