import NodusDb.Sql.IndexOnly

/-!
# Partitioned tables

A bound of a partition claims a range of keys, a list of values, or the keys with a hash of some
remainder. A row goes to the partition that claims its key, or to the default one. Bounds are
modelled as they are parsed, by the declared type of the key part, which for an expression may not
be the type of its value.

* `partitions_never_overlap`: no two siblings claim a key, and their order does not matter.
-/

namespace NodusDb.Sql

open Fixed List

/-! ## Keys and bounds -/

inductive Strategy
  | range
  | list
  | hash
  deriving DecidableEq, Repr

def Strategy.name : Strategy → String
  | .range => "RANGE"
  | .list => "LIST"
  | .hash => "HASH"

/-- The key of a partitioned table: a part is the name of a column or an expression. -/
structure PartitionKey where
  strategy : Strategy
  columns : List Text

inductive BoundValue
  | min
  | max
  | value (v : Value)

/-- The bound of a partition; a NULL in a list is `none`. -/
inductive PartitionBound
  | range (lower upper : List BoundValue)
  | list (elements : List (Option Value))
  | hash (modulus remainder : Int)
  | default

def PartitionBound.isDefault : PartitionBound → Bool
  | .default => true
  | _ => false

@[simp] theorem PartitionBound.isDefault_iff {bound : PartitionBound} :
    bound.isDefault = true ↔ bound = .default := by
  cases bound <;> simp [isDefault]

structure TableDescriptor where
  id : Nat
  name : String
  columns : List ColumnDescriptor
  partitionBy : Option PartitionKey
  partitionBound : Option PartitionBound

/-- What partitioning takes from the rest of the executor. -/
class KeyParts where
  /-- `row_hash`. -/
  rowHash : List Value → List Text → Option UInt64
  /-- The value of an expression over a row with these columns. -/
  evalPart : Text → Row → List Text → Result Value
  /-- `expr_type` of an expression over these columns. -/
  partType : Text → List ColumnDescriptor → Option Text

/-- `parse_bound`: a bound is of the strategy of the key. -/
def parseBound (key : PartitionKey) (bound : PartitionBound) : Result PartitionBound :=
  let invalid : Result PartitionBound :=
    let kind := key.strategy.name.toLower
    .error s!"invalid bound specification for a {kind} partition"
  match bound with
  | .default => .ok .default
  | .list elements => if key.strategy = .list then .ok (.list elements) else invalid
  | .hash modulus remainder =>
    if key.strategy = .hash then .ok (.hash modulus remainder) else invalid
  | .range lower upper => if key.strategy = .range then .ok (.range lower upper) else invalid

/-- The bound of a partition as routing reads it. -/
def boundOf (key : PartitionKey) (child : TableDescriptor) : Option PartitionBound :=
  child.partitionBound.bind fun bound => (parseBound key bound).toOption

/-- `key_values`: a part that names a column reads it, an expression is evaluated. -/
def keyValues [KeyParts] (parent : TableDescriptor) (key : PartitionKey) (row : Row) :
    Result (List Value) :=
  key.columns.mapM fun part =>
    match parent.columns.findIdx? fun column => column.name = part with
    | some idx =>
      let name := String.ofList (part.map fun byte => Char.ofNat byte.toNat)
      required row[idx]? s!"column \"{name}\" does not exist"
    | none => KeyParts.evalPart part row (parent.columns.map (·.name))

def keyTypes [KeyParts] (parent : TableDescriptor) (key : PartitionKey) : List Text :=
  key.columns.map fun part =>
    match parent.columns.find? fun column => column.name = part with
    | some column => column.dataType
    | none => (KeyParts.partType part parent.columns).getD (ascii "text")

section Claims

variable [Primitives]

/-- Whether the values are below a bound in lexicographic order. -/
def tupleLess : List Value → List BoundValue → Bool
  | _, [] => false
  | _, .min :: _ => false
  | _, .max :: _ => true
  | [], .value _ :: _ => true
  | v :: values, .value high :: bound =>
    match compare v high with
    | .lt => true
    | .gt => false
    | .eq => tupleLess values bound

/-- Whether a bound claims the values of a key. -/
def contains [KeyParts] (bound : PartitionBound) (values : List Value) (types : List Text) :
    Bool :=
  match bound with
  | .default => false
  | .list elements =>
    match values with
    | [] => false
    | key :: _ => elements.any fun element =>
      match element with
      | some element => compare key element == .eq
      | none => key.isNull
  | .hash modulus remainder =>
    match KeyParts.rowHash values types with
    | some hash => (hash % UInt64.ofInt modulus).toInt64.toInt == remainder
    | none => false
  | .range lower upper =>
    if values.isEmpty || values.any Value.isNull then false
    else !tupleLess values lower && tupleLess values upper

/-! ## Overlapping bounds -/

/-- The lexicographic order of the ends of ranges. -/
def boundVecCmp : List BoundValue → List BoundValue → Ordering
  | [], [] => .eq
  | .min :: a, .min :: b => boundVecCmp a b
  | .min :: _, _ => .lt
  | _, [] => .lt
  | .max :: a, .max :: b => boundVecCmp a b
  | .max :: _, _ => .gt
  | _, .min :: _ => .gt
  | _, .max :: _ => .lt
  | .value x :: a, .value y :: b => (compare x y).then (boundVecCmp a b)
  | [], _ :: _ => .lt

/-- Euclid's algorithm with the remainder of `i64`. -/
def gcd (a b : Int) : Int :=
  if _ : b = 0 then a else gcd b (a.tmod b)
termination_by b.natAbs
decreasing_by
  rw [Int.natAbs_tmod]
  exact Nat.mod_lt _ (Int.natAbs_pos.mpr ‹_›)

/-- Whether bounds of siblings claim a common key. -/
def boundsOverlap : PartitionBound → PartitionBound → Bool
  | .hash m₁ r₁, .hash m₂ r₂ => r₁ % gcd m₁ m₂ == r₂ % gcd m₁ m₂
  | .range f₁ t₁, .range f₂ t₂ => boundVecCmp f₁ t₂ == .lt && boundVecCmp f₂ t₁ == .lt
  | .list l₁, .list l₂ => l₁.any fun a => l₂.any fun b =>
    match a, b with
    | none, none => true
    | some a, some b => compare a b == .eq
    | _, _ => false
  | _, _ => false

/-! ## Attaching partitions -/

/-- The part of the check for one sibling: the default partition found, if it is one. -/
def checkSibling (key : PartitionKey) (bound : PartitionBound) (candidate : String)
    (found : Option TableDescriptor) (sibling : TableDescriptor) :
    Result (Option TableDescriptor) :=
  let name := sibling.name
  match sibling.partitionBound with
  | none => .ok found
  | some text => do
    let siblingBound ← parseBound key text
    match siblingBound, bound with
    | .default, .default =>
      .error s!"partition \"{candidate}\" conflicts with existing default partition \"{name}\""
    | .default, _ => .ok (some sibling)
    | _, .default => .ok found
    | .hash other _, .hash modulus _ =>
      ensure (modulus = other ∨ modulus.tmod other = 0)
        "every hash partition modulus must be a factor of the next larger modulus"
      ensure (boundsOverlap siblingBound bound = false)
        s!"partition \"{candidate}\" would overlap partition \"{name}\""
      .ok found
    | _, _ =>
      ensure (boundsOverlap siblingBound bound = false)
        s!"partition \"{candidate}\" would overlap partition \"{name}\""
      .ok found

def checkNotEmpty (bound : PartitionBound) (candidate : String) : Result Unit :=
  match bound with
  | .range lower upper =>
    ensure (boundVecCmp lower upper = .lt)
      s!"empty range bound specified for partition \"{candidate}\""
  | _ => .ok ()

/-- `check_partition_bound`: the siblings are those of the parent in their order, `rows` are the
rows of a table. -/
def checkPartitionBound [KeyParts] (parent : TableDescriptor) (key : PartitionKey)
    (types : List Text) (siblings : List TableDescriptor) (rows : TableDescriptor → List Row)
    (bound : PartitionBound) (candidate : String) (exclude : Option Nat) : Result Unit := do
  checkNotEmpty bound candidate
  let found ← (siblings.filter fun s => some s.id ≠ exclude).foldlM
    (checkSibling key bound candidate) none
  match found with
  | none => pure ()
  | some default =>
    let name := default.name
    (rows default).forM fun row => do
      let values ← keyValues parent key row
      ensure (contains bound values types = false)
        (s!"updated partition constraint for default partition \"{name}\" " ++
          "would be violated by some row")

/-! ## Routing -/

def claims [KeyParts] (key : PartitionKey) (types : List Text) (values : List Value)
    (child : TableDescriptor) : Bool :=
  (boundOf key child).any fun bound => contains bound values types

/-- The partition a key goes to: the first that claims it, else the default partition. -/
def routeChild [KeyParts] (key : PartitionKey) (types : List Text) (values : List Value)
    (children : List TableDescriptor) : Option TableDescriptor :=
  (children.find? (claims key types values)).or
    (children.find? fun child => child.partitionBound.any PartitionBound.isDefault)

/-- `route_row`: down through the partitions that are partitioned themselves. `none` says that
the fuel, a bound on the depth, is used up. -/
def routeRow [KeyParts] (partitionChildren : Nat → List TableDescriptor) :
    Nat → TableDescriptor → Row → Option (Result TableDescriptor)
  | 0, _, _ => none
  | fuel + 1, current, row =>
    match current.partitionBy with
    | none => some (.ok current)
    | some key =>
      match keyValues current key row with
      | .error e => some (.error e)
      | .ok values =>
        match routeChild key (keyTypes current key) values (partitionChildren current.id) with
        | some child => routeRow partitionChildren fuel child row
        | none =>
          let name := current.name
          some (.error s!"no partition of relation \"{name}\" found for row")

def routedTo (outcome : Result TableDescriptor) : Option String := outcome.toOption.map (·.name)

end Claims

/-! ## Values among literals -/

def IsInt64 (n : Int) : Prop := -2 ^ 63 ≤ n ∧ n < 2 ^ 63

section Positions

variable [Primitives]

/-- At most one integer is the nearest to the float. -/
def NearestToOne (bits : UInt64) : Prop :=
  ∀ m n, IsInt64 m → IsInt64 n → floatCmp bits (Primitives.intToFloat m) = .eq →
    floatCmp bits (Primitives.intToFloat n) = .eq → m = n

/-- `n as f64` keeps the order. -/
def RoundingMonotone : Prop :=
  ∀ m n, IsInt64 m → IsInt64 n → m ≤ n →
    floatCmp (Primitives.intToFloat m) (Primitives.intToFloat n) ≠ .gt

variable {P : Value → Prop} {v : Value}

theorem float_position (hround : RoundingMonotone) (hone : NearestToOne bits)
    (hP : ∀ v, P v → ∃ n : {n : Int // IsInt64 n}, v = .int n) :
    Position compare P (.float bits) := by
  have hfloat := floatCmp_comparison
  constructor
  · intro x y hx hy heq
    obtain ⟨m, rfl⟩ := hP x hx
    obtain ⟨n, rfl⟩ := hP y hy
    rw [compare, compare_eq_iff_eq] at heq
    rw [heq]
  · intro x y hx hy hgt hle
    obtain ⟨m, rfl⟩ := hP x hx
    obtain ⟨n, rfl⟩ := hP y hy
    rw [compare, compare_gt_iff_gt] at hgt
    rw [compare] at hle ⊢
    have hmono := hround n m n.2 m.2 hgt.le
    cases hcmp : floatCmp bits (Primitives.intToFloat m) with
    | lt => rfl
    | gt => exact absurd hcmp (hfloat.trans _ _ _ trivial trivial trivial hle hmono)
    | eq =>
      -- Both integers are nearest to the float.
      have hge : floatCmp (Primitives.intToFloat n) bits ≠ .gt := by
        rw [← hfloat.congr_right trivial trivial trivial
          ((hfloat.eq_comm trivial trivial).mp hcmp)]
        exact hmono
      have heq := hfloat.eq_of_le_of_le trivial trivial hle hge
      exact absurd (hone m n m.2 n.2 hcmp heq) hgt.ne'

theorem compare_of_rank_ne (h : typeRank a ≠ typeRank b) :
    compare a b = Ord.compare (typeRank a) (typeRank b) := by
  cases a <;> cases b <;> first | rfl | exact absurd rfl h

theorem rank_position (r : Nat) (hP : ∀ x, P x → typeRank x = r)
    (hv : typeRank v ≠ r) : Position compare P v := by
  refine .of_const (o := Ord.compare (typeRank v) r) (mt compare_eq_iff_eq.mp hv) fun x hx => ?_
  rw [← hP x hx] at hv ⊢
  exact compare_of_rank_ne hv

theorem int_position (hround : RoundingMonotone) (hv : ∀ bits, v = .float bits → NearestToOne bits)
    (hP : ∀ x, P x → ∃ n : {n : Int // IsInt64 n}, x = .int n) : Position compare P v := by
  by_cases hrank : typeRank v = 2
  · cases v with
    | int m =>
      exact .of_key intCmp_comparison m _ Subtype.val trivial (fun _ => trivial) hP
        (fun _ => by rw [compare]) fun _ _ => by rw [compare]
    | numeric d =>
      refine .of_key numericCmp_comparison d _ (fun n => .finite n.1 0) trivial
        (fun _ => trivial) hP (fun _ => by rw [compare]) fun a b => ?_
      rw [compare]
      simp [Numeric.cmp]
    | float bits => exact float_position hround (hv bits rfl) hP
    | null | bool _ | text _ | json _ | array _ | jsonb _ | record _ | bytea _ => cases hrank
  · refine rank_position 2 (fun x hx => ?_) hrank
    obtain ⟨n, rfl⟩ := hP x hx
    rfl

theorem floats_position (hP : ∀ x, P x → ∃ bits, x = .float bits) : Position compare P v := by
  by_cases hrank : typeRank v = 2
  · have hof : ∀ bits, (∀ x, compare v (.float x) = floatCmp bits x) → Position compare P v :=
      fun bits hv => .of_key floatCmp_comparison bits _ id trivial (fun _ => trivial) hP hv
        fun _ _ => by rw [compare]; rfl
    cases v with
    | int m => exact hof (Primitives.intToFloat m) fun _ => by rw [compare]
    | numeric d => exact hof (Primitives.numericToFloat d) fun _ => by rw [compare]
    | float bits => exact hof bits fun _ => by rw [compare]
    | null | bool _ | text _ | json _ | array _ | jsonb _ | record _ | bytea _ => cases hrank
  · refine rank_position 2 (fun x hx => ?_) hrank
    obtain ⟨bits, rfl⟩ := hP x hx
    rfl

theorem bool_position (hP : ∀ x, P x → ∃ b, x = .bool b) : Position compare P v := by
  by_cases hrank : typeRank v = 1
  · cases v with
    | bool b =>
      exact .of_key boolCmp_comparison b _ id trivial (fun _ => trivial) hP
        (fun _ => by rw [compare]; rfl) fun _ _ => by rw [compare]; rfl
    | null | int _ | float _ | numeric _ | text _ | json _ | array _ | jsonb _ | record _
    | bytea _ => cases hrank
  · refine rank_position 1 (fun x hx => ?_) hrank
    obtain ⟨b, rfl⟩ := hP x hx
    rfl

theorem text_position (hP : ∀ x, P x → ∃ s, x = .text s) : Position compare P v := by
  by_cases hrank : typeRank v = 3
  · have hof : ∀ s, (∀ x, compare v (.text x) = bytesCmp s x) → Position compare P v :=
      fun s hv => .of_key bytesCmp_comparison s _ id trivial (fun _ => trivial) hP hv
        fun _ _ => by rw [compare]; rfl
    cases v with
    | text s | json s => exact hof s fun _ => by rw [compare]
    | null | bool _ | int _ | float _ | numeric _ | array _ | jsonb _ | record _ | bytea _ =>
      cases hrank
  · refine rank_position 3 (fun x hx => ?_) hrank
    obtain ⟨s, rfl⟩ := hP x hx
    rfl

end Positions

section Literals

variable [TypeNames]

/-- The values `parse_literal` reads for a type. -/
def IsLiteral (dataType : Text) (v : Value) : Prop :=
  match columnType dataType, v with
  | .int, .int n => IsInt64 n
  | .float, .float _ => True
  | .bool, .bool _ => True
  | .numeric, .text _ | .text, .text _ => True
  | _, _ => False

/-- The type of a part of a key; beyond the parts of the key bounds are read as text. -/
def partTypeAt (types : List Text) (idx : Nat) : Text := types[idx]?.getD (ascii "text")

/-- The ends of ranges `parse_range_values` reads. -/
def AreLiterals (types : List Text) (ends : List BoundValue) : Prop :=
  ∀ idx v, ends[idx]? = some (.value v) → IsLiteral (partTypeAt types idx) v

/-- A bound as `parse_bound` reads it for a key; a modulus is positive. -/
def Parsed (key : PartitionKey) (types : List Text) : PartitionBound → Prop
  | .default => True
  | .list elements =>
    key.strategy = .list ∧ ∀ v, some v ∈ elements → IsLiteral (partTypeAt types 0) v
  | .hash modulus _ => key.strategy = .hash ∧ 0 < modulus ∧ IsInt64 modulus
  | .range lower upper =>
    key.strategy = .range ∧ AreLiterals types lower ∧ AreLiterals types upper

/-- The type the literals of a declared type are of. -/
def literalType (dataType : Text) : ValueType :=
  match columnType dataType with
  | .int => .int
  | .float => .float
  | .bool => .bool
  | .numeric | .text => .text

variable {dataType : Text} {v : Value}

theorem IsLiteral.hasType (h : IsLiteral dataType v) : HasType (literalType dataType) v := by
  unfold IsLiteral at h
  unfold literalType
  split at h
  next htype => rw [htype]; exact trivial
  next htype => rw [htype]; exact trivial
  next htype => rw [htype]; exact trivial
  next htype => rw [htype]; exact trivial
  next htype => rw [htype]; exact trivial
  · exact h.elim

theorem IsLiteral.ne_null (h : IsLiteral dataType v) : v ≠ .null := by
  rintro rfl
  unfold IsLiteral at h
  revert h
  cases columnType dataType <;> exact id

theorem IsLiteral.cases (h : IsLiteral dataType v) :
    match columnType dataType with
    | .int => ∃ n : {n : Int // IsInt64 n}, v = .int n
    | .float => ∃ bits, v = .float bits
    | .bool => ∃ b, v = .bool b
    | .numeric | .text => ∃ s, v = .text s := by
  unfold IsLiteral at h
  split at h
  next n htype => rw [htype]; exact ⟨⟨n, h⟩, rfl⟩
  next bits htype => rw [htype]; exact ⟨bits, rfl⟩
  next b htype => rw [htype]; exact ⟨b, rfl⟩
  next s htype => rw [htype]; exact ⟨s, rfl⟩
  next s htype => rw [htype]; exact ⟨s, rfl⟩
  · exact h.elim

variable [Primitives]

/-- A float among the values of a key that is compared with integers is nearest to one. -/
def KeyDistinct (types : List Text) (values : List Value) : Prop :=
  ∀ idx bits, values[idx]? = some (.float bits) → columnType (partTypeAt types idx) = .int →
    NearestToOne bits

theorem literal_comparison (dataType : Text) : Comparison compare (IsLiteral dataType) :=
  (compare_comparison (literalType dataType)).mono fun _ h => h.hasType

theorem literal_position (hround : RoundingMonotone)
    (hv : ∀ bits, v = .float bits → columnType dataType = .int → NearestToOne bits) :
    Position compare (IsLiteral dataType) v := by
  have hcases : ∀ x, IsLiteral dataType x → _ := fun x hx => hx.cases
  cases htype : columnType dataType with
  | int =>
    simp only [htype] at hcases
    exact int_position hround (fun bits h => hv bits h htype) hcases
  | float =>
    simp only [htype] at hcases
    exact floats_position hcases
  | bool =>
    simp only [htype] at hcases
    exact bool_position hcases
  | numeric | text =>
    simp only [htype] at hcases
    exact text_position hcases

end Literals

section Disjoint

theorem gcd_eq (a b : Nat) : gcd a b = Nat.gcd b a := by
  induction b using Nat.strong_induction_on generalizing a with
  | _ b ih =>
    rw [gcd]
    split
    next h =>
      rw [Int.natCast_eq_zero.mp h, Nat.gcd_zero_left]
    next h =>
    have hpos : 0 < b := Nat.pos_of_ne_zero fun hzero => h (by rw [hzero]; rfl)
    rw [← Int.ofNat_tmod, ih (a % b) (Nat.mod_lt a hpos), ← Nat.gcd_rec, Nat.gcd_comm]

variable [Primitives] [TypeNames]

/-- The values of a key have their places among the literals at their parts. -/
def Placed (types : Nat → Text) (values : List Value) : Prop :=
  ∀ idx v, values[idx]? = some v → Position compare (IsLiteral (types idx)) v

theorem Placed.tail {types : Nat → Text} {v : Value} {values : List Value}
    (h : Placed types (v :: values)) : Placed (fun idx => types (idx + 1)) values :=
  fun idx => h (idx + 1)

theorem tupleLess_of_boundVecCmp (hvalues : Placed types values)
    (hlower : ∀ idx v, lower[idx]? = some (.value v) → IsLiteral (types idx) v)
    (hupper : ∀ idx v, upper[idx]? = some (.value v) → IsLiteral (types idx) v)
    (hcmp : boundVecCmp lower upper ≠ .lt) (hless : tupleLess values upper = true) :
    tupleLess values lower = true := by
  induction upper generalizing lower values types with
  | nil => simp [tupleLess] at hless
  | cons high upper ih =>
    cases high with
    | min => simp [tupleLess] at hless
    | max =>
      cases lower with
      | nil => exact absurd rfl hcmp
      | cons low lower =>
        cases low with
        | max => rw [tupleLess]
        | min | value x => exact absurd rfl hcmp
    | value y =>
      cases lower with
      | nil => exact absurd rfl hcmp
      | cons low lower =>
        cases low with
        | max => rw [tupleLess]
        | min => exact absurd rfl hcmp
        | value x =>
          cases values with
          | nil => rfl
          | cons v values =>
            have hplace := hvalues 0 v rfl
            have hx := hlower 0 x rfl
            have hy := hupper 0 y rfl
            rw [boundVecCmp] at hcmp
            rw [tupleLess] at hless ⊢
            cases horder : compare x y with
            | lt => rw [horder] at hcmp; exact absurd rfl hcmp
            | gt =>
              have hle : compare v y ≠ .gt := fun hgt => by rw [hgt] at hless; cases hless
              rw [hplace.below x y hx hy horder hle]
            | eq =>
              rw [horder] at hcmp
              rw [hplace.congr x y hx hy horder]
              cases hvy : compare v y with
              | lt => rfl
              | gt => rw [hvy] at hless; cases hless
              | eq =>
                rw [hvy] at hless
                exact ih hvalues.tail (fun idx => hlower (idx + 1)) (fun idx => hupper (idx + 1))
                  hcmp hless

variable [KeyParts] {types : List Text} {values : List Value}

theorem range_disjoint (hvalues : Placed (partTypeAt types) values) (hf₁ : AreLiterals types f₁)
    (ht₁ : AreLiterals types t₁) (hf₂ : AreLiterals types f₂) (ht₂ : AreLiterals types t₂)
    (hoverlap : boundsOverlap (.range f₁ t₁) (.range f₂ t₂) = false)
    (h₁ : contains (.range f₁ t₁) values types = true)
    (h₂ : contains (.range f₂ t₂) values types = true) : False := by
  have hends : ∀ {f t}, contains (.range f t) values types = true →
      tupleLess values f = false ∧ tupleLess values t = true := by
    intro f t h
    rw [contains] at h
    split at h
    · cases h
    · simpa using h
  obtain ⟨hlow₁, hhigh₁⟩ := hends h₁
  obtain ⟨hlow₂, hhigh₂⟩ := hends h₂
  rw [boundsOverlap, Bool.and_eq_false_iff, beq_eq_false_iff_ne, beq_eq_false_iff_ne] at hoverlap
  rcases hoverlap with hcmp | hcmp
  · rw [tupleLess_of_boundVecCmp hvalues hf₁ ht₂ hcmp hhigh₂] at hlow₁
    cases hlow₁
  · rw [tupleLess_of_boundVecCmp hvalues hf₂ ht₁ hcmp hhigh₁] at hlow₂
    cases hlow₂

theorem list_disjoint (hvalues : Placed (partTypeAt types) values)
    (hl₁ : ∀ v, some v ∈ l₁ → IsLiteral (partTypeAt types 0) v)
    (hl₂ : ∀ v, some v ∈ l₂ → IsLiteral (partTypeAt types 0) v)
    (hoverlap : boundsOverlap (.list l₁) (.list l₂) = false)
    (h₁ : contains (.list l₁) values types = true) (h₂ : contains (.list l₂) values types = true) :
    False := by
  cases values with
  | nil => cases h₁
  | cons key values =>
    have hplace := hvalues 0 key rfl
    simp only [contains, any_eq_true] at h₁ h₂
    obtain ⟨a, ha, hkey₁⟩ := h₁
    obtain ⟨b, hb, hkey₂⟩ := h₂
    simp only [boundsOverlap, any_eq_false] at hoverlap
    have hdiffer := fun h => hoverlap a ha (any_eq_true.mpr ⟨b, hb, h⟩)
    -- NULL is equal to no literal.
    have hnull : ∀ {x}, IsLiteral (partTypeAt types 0) x → key.isNull = true →
        compare key x ≠ .eq := by
      intro x hx hkey
      rw [Value.isNull_iff.mp hkey]
      cases x with
      | null =>
        have hno := hx.ne_null
        exact absurd rfl hno
      | _ => simp [compare, typeRank]
    cases a with
    | none =>
      cases b with
      | none => exact hdiffer rfl
      | some y => exact hnull (hl₂ y hb) hkey₁ (beq_iff_eq.mp hkey₂)
    | some x =>
      cases b with
      | none => exact hnull (hl₁ x ha) hkey₂ (beq_iff_eq.mp hkey₁)
      | some y =>
        refine hdiffer (beq_iff_eq.mpr ?_)
        exact hplace.eq_of_eq (literal_comparison _) (hl₁ x ha) (hl₂ y hb) (beq_iff_eq.mp hkey₁)
          (beq_iff_eq.mp hkey₂)

omit [TypeNames] in
theorem contains_hash_iff (hpos : 0 < modulus) (hmax : IsInt64 modulus) :
    contains (.hash modulus remainder) values types = true ↔
      ∃ hash, KeyParts.rowHash values types = some hash ∧
        (hash.toNat : Int) % modulus = remainder := by
  rw [contains]
  cases KeyParts.rowHash values types with
  | none => simp
  | some hash =>
    have hmod : ((hash % UInt64.ofInt modulus).toInt64.toInt) = (hash.toNat : Int) % modulus := by
      obtain ⟨m, rfl⟩ := Int.eq_ofNat_of_zero_le hpos.le
      have hm : m < 2 ^ 63 := by exact_mod_cast hmax.2
      have hnat : (hash % UInt64.ofInt m).toNat = hash.toNat % m := by
        have hofInt : (UInt64.ofInt m).toNat = m := by
          rw [UInt64.ofInt, UInt64.toNat_ofNat']
          omega
        rw [UInt64.toNat_mod, hofInt]
      have hlt : hash.toNat % m < 2 ^ 63 := (Nat.mod_lt _ (Int.natCast_pos.mp hpos)).trans hm
      show (hash % UInt64.ofInt m).toBitVec.toInt = _
      rw [BitVec.toInt_eq_toNat_of_lt (by rw [UInt64.toNat_toBitVec, hnat]; omega),
        UInt64.toNat_toBitVec, hnat, Int.natCast_mod]
    simp [hmod]

omit [TypeNames] in
theorem hash_disjoint (hpos₁ : 0 < m₁) (hmax₁ : IsInt64 m₁) (hpos₂ : 0 < m₂) (hmax₂ : IsInt64 m₂)
    (hoverlap : boundsOverlap (.hash m₁ r₁) (.hash m₂ r₂) = false)
    (h₁ : contains (.hash m₁ r₁) values types = true)
    (h₂ : contains (.hash m₂ r₂) values types = true) : False := by
  obtain ⟨hash, hhash, rfl⟩ := (contains_hash_iff hpos₁ hmax₁).mp h₁
  obtain ⟨hash', hhash', rfl⟩ := (contains_hash_iff hpos₂ hmax₂).mp h₂
  cases hhash.symm.trans hhash'
  obtain ⟨a, rfl⟩ := Int.eq_ofNat_of_zero_le hpos₁.le
  obtain ⟨b, rfl⟩ := Int.eq_ofNat_of_zero_le hpos₂.le
  rw [boundsOverlap, gcd_eq, beq_eq_false_iff_ne] at hoverlap
  refine hoverlap ?_
  rw [Int.emod_emod_of_dvd _ (Int.natCast_dvd_natCast.mpr (Nat.gcd_dvd_right b a)),
    Int.emod_emod_of_dvd _ (Int.natCast_dvd_natCast.mpr (Nat.gcd_dvd_left b a))]

theorem contains_disjoint (hvalues : key.strategy ≠ .hash → Placed (partTypeAt types) values)
    (ha : Parsed key types a) (hb : Parsed key types b) (hoverlap : boundsOverlap a b = false) :
    ¬ (contains a values types = true ∧ contains b values types = true) := by
  rintro ⟨h₁, h₂⟩
  -- Bounds of one key are of one kind.
  cases a with
  | default => cases h₁
  | list l₁ =>
    cases b with
    | default => cases h₂
    | list l₂ => exact list_disjoint (hvalues (by simp [ha.1])) ha.2 hb.2 hoverlap h₁ h₂
    | hash m r | range f t => cases ha.1.symm.trans hb.1
  | hash m₁ r₁ =>
    cases b with
    | default => cases h₂
    | list l | range f t => cases ha.1.symm.trans hb.1
    | hash m₂ r₂ => exact hash_disjoint ha.2.1 ha.2.2 hb.2.1 hb.2.2 hoverlap h₁ h₂
  | range f₁ t₁ =>
    cases b with
    | default => cases h₂
    | list l | hash m r => cases ha.1.symm.trans hb.1
    | range f₂ t₂ =>
      exact range_disjoint (hvalues (by simp [ha.1])) ha.2.1 ha.2.2 hb.2.1 hb.2.2 hoverlap h₁ h₂

end Disjoint

section Attach

variable [Primitives] [KeyParts] [TypeNames] {parent : TableDescriptor} {key : PartitionKey}
  {types : List Text}

/-- Partitions attached one after the other. A bound is checked against those that are attached,
in the order in which they are listed; they are not the table that is attached. -/
inductive Attached (parent : TableDescriptor) (key : PartitionKey) (types : List Text) :
    List TableDescriptor → Prop
  | nil : Attached parent key types []
  | attach {siblings listed : List TableDescriptor} {child : TableDescriptor}
    {bound : PartitionBound} (rows : TableDescriptor → List Row) (exclude : Option Nat) :
    Attached parent key types siblings → listed.Perm siblings →
    (∀ sibling ∈ siblings, some sibling.id ≠ exclude) →
    child.partitionBound = some bound → Parsed key types bound →
    checkPartitionBound parent key types listed rows bound child.name exclude = .ok () →
    Attached parent key types (siblings ++ [child])

/-- Bounds of siblings: at most one is the default, and the others do not overlap. -/
def Compatible (a b : PartitionBound) : Prop :=
  ¬ (a.isDefault = true ∧ b.isDefault = true) ∧
    (a.isDefault = false → b.isDefault = false → boundsOverlap a b = false)

variable {bound : PartitionBound} {sibling : TableDescriptor} {siblings : List TableDescriptor}
  {values : List Value}

omit [KeyParts] [TypeNames] in
theorem compatible_of_checkSibling {text siblingBound : PartitionBound}
    (h : checkSibling key bound candidate found sibling = .ok found')
    (htext : sibling.partitionBound = some text)
    (hparsed : parseBound key text = .ok siblingBound) : Compatible siblingBound bound := by
  rw [checkSibling, htext] at h
  simp only [hparsed, Result.bind_eq_ok] at h
  obtain ⟨_, heq, h⟩ := h
  cases heq
  split at h
  · cases h
  next hne =>
    refine ⟨fun hboth => hne (PartitionBound.isDefault_iff.mp hboth.2), fun hdefault => ?_⟩
    cases hdefault
  next hne =>
    refine ⟨fun hboth => hne (PartitionBound.isDefault_iff.mp hboth.1), fun _ hdefault => ?_⟩
    cases hdefault
  · simp only [Result.bind_eq_ok, Result.ensure_eq_ok] at h
    obtain ⟨_, _, _, hoverlap, _⟩ := h
    exact ⟨fun hboth => (by cases hboth.1), fun _ _ => hoverlap⟩
  next hne =>
    simp only [Result.bind_eq_ok, Result.ensure_eq_ok] at h
    obtain ⟨_, hoverlap, _⟩ := h
    refine ⟨fun hboth => ?_, fun _ _ => hoverlap⟩
    simp_all

omit [TypeNames] in
theorem compatible_of_checkPartitionBound
    (h : checkPartitionBound parent key types siblings rows bound candidate exclude = .ok ())
    (hmem : sibling ∈ siblings) (hother : some sibling.id ≠ exclude)
    (htext : sibling.partitionBound = some text)
    (hparsed : parseBound key text = .ok siblingBound) : Compatible siblingBound bound := by
  rw [checkPartitionBound] at h
  simp only [Result.bind_eq_ok] at h
  obtain ⟨_, _, found, hfound, _⟩ := h
  have hlisted : sibling ∈ siblings.filter fun s => some s.id ≠ exclude :=
    mem_filter.mpr ⟨hmem, decide_eq_true hother⟩
  obtain ⟨_, _, hsibling⟩ := Result.exists_ok_of_foldlM hfound hlisted
  exact compatible_of_checkSibling hsibling htext hparsed

omit [Primitives] [KeyParts] in
theorem Parsed.parseBound (h : Parsed key types bound) : Sql.parseBound key bound = .ok bound := by
  cases bound with
  | default => rfl
  | list _ | hash _ _ | range _ _ => exact if_pos h.1

section

variable (h : Attached parent key types siblings)
include h

theorem Attached.parsed (hmem : sibling ∈ siblings) :
    ∃ bound, sibling.partitionBound = some bound ∧ Parsed key types bound := by
  induction h with
  | nil => cases hmem
  | @attach _ _ child bound _ _ _ _ _ hbound hparsed _ ih =>
    rcases mem_append.mp hmem with hmem | hmem
    · exact ih hmem
    rw [mem_singleton.mp hmem]
    exact ⟨bound, hbound, hparsed⟩

theorem Attached.compatible :
    siblings.Pairwise fun a b => ∀ x y, a.partitionBound = some x → b.partitionBound = some y →
      Compatible x y := by
  induction h with
  | nil => exact .nil
  | @attach _ _ child bound _ _ hsiblings hlisted hother hbound _ hcheck ih =>
    refine pairwise_append.mpr ⟨ih, pairwise_singleton _ _, ?_⟩
    intro sibling hsibling last hlast x y hx hy
    rw [mem_singleton.mp hlast, hbound] at hy
    cases hy
    obtain ⟨text, htext, hparsed⟩ := hsiblings.parsed hsibling
    cases htext.symm.trans hx
    exact compatible_of_checkPartitionBound hcheck (hlisted.mem_iff.mpr hsibling)
      (hother sibling hsibling) htext hparsed.parseBound

theorem claims_disjoint (hround : RoundingMonotone)
    (hvalues : key.strategy ≠ .hash → KeyDistinct types values) :
    siblings.Pairwise fun a b =>
      ¬ (claims key types values a = true ∧ claims key types values b = true) := by
  have hplaced : key.strategy ≠ .hash → Placed (partTypeAt types) values := by
    intro hhash idx v hv
    refine literal_position hround fun bits hbits htype => ?_
    exact hvalues hhash idx bits (by rw [hv, hbits]) htype
  refine h.compatible.imp_of_mem ?_
  intro a b ha hb hcompatible hboth
  obtain ⟨x, hx, hxparsed⟩ := h.parsed ha
  obtain ⟨y, hy, hyparsed⟩ := h.parsed hb
  have hclaims : ∀ {child bound}, child.partitionBound = some bound → Parsed key types bound →
      claims key types values child = contains bound values types := by
    intro child bound hbound hparsed
    simp [claims, boundOf, hbound, hparsed.parseBound, Except.toOption]
  rw [hclaims hx hxparsed, hclaims hy hyparsed] at hboth
  have hnot : ∀ {bound}, contains bound values types = true → bound.isDefault = false := by
    intro bound hbound
    cases bound with
    | default => cases hbound
    | _ => rfl
  exact contains_disjoint hplaced hxparsed hyparsed
    ((hcompatible x y hx hy).2 (hnot hboth.1) (hnot hboth.2)) hboth

theorem routeChild_eq_of_perm (hround : RoundingMonotone)
    (hvalues : key.strategy ≠ .hash → KeyDistinct types values) (hperm : siblings.Perm siblings') :
    routeChild key types values siblings = routeChild key types values siblings' := by
  have hdefault : siblings.Pairwise fun a b =>
      ¬ (a.partitionBound.any PartitionBound.isDefault = true ∧
        b.partitionBound.any PartitionBound.isDefault = true) := by
    refine h.compatible.imp fun {a b} hcompatible hboth => ?_
    simp only [Option.any_eq_true] at hboth
    obtain ⟨⟨x, hx, hxdefault⟩, y, hy, hydefault⟩ := hboth
    exact (hcompatible x y hx hy).1 ⟨hxdefault, hydefault⟩
  rw [routeChild, routeChild, find?_eq_of_perm hperm (claims_disjoint h hround hvalues),
    find?_eq_of_perm hperm hdefault]

end

omit [TypeNames] in
theorem mem_of_routeChild (h : routeChild key types values siblings = some child) :
    child ∈ siblings := by
  rcases Option.or_eq_some_iff.mp h with h | ⟨_, h⟩
  all_goals exact mem_of_find?_eq_some h

inductive Descendant (children : Nat → List TableDescriptor) (root : TableDescriptor) :
    TableDescriptor → Prop
  | root : Descendant children root root
  | child {table child : TableDescriptor} : Descendant children root table →
    child ∈ children table.id → Descendant children root child

/-- A partitioned table with its partitions: each is attached by the check. -/
structure PartitionTree where
  root : TableDescriptor
  partitionChildren : Nat → List TableDescriptor
  attached : ∀ table key, Descendant partitionChildren root table →
    table.partitionBy = some key →
    Attached table key (keyTypes table key) (partitionChildren table.id)

/-- No float of a key of the row is nearest to several integers its part is compared with. A
`HASH` key is not compared. -/
def PartitionTree.Distinct (tree : PartitionTree) (row : Row) : Prop :=
  ∀ table key values, Descendant tree.partitionChildren tree.root table →
    table.partitionBy = some key → keyValues table key row = .ok values →
    key.strategy ≠ .hash → KeyDistinct (keyTypes table key) values

theorem routeRow_eq_of_perm (tree : PartitionTree) (hround : RoundingMonotone)
    (hrow : tree.Distinct row) (hperm : ∀ id, (tree.partitionChildren id).Perm (children id))
    (fuel : Nat) (htable : Descendant tree.partitionChildren tree.root table) :
    routeRow tree.partitionChildren fuel table row = routeRow children fuel table row := by
  induction fuel generalizing table with
  | zero => rfl
  | succ fuel ih =>
    rw [routeRow, routeRow]
    cases hkey : table.partitionBy with
    | none => rfl
    | some key =>
      cases hvalues : keyValues table key row with
      | error e => simp only [hvalues]
      | ok values =>
        have hroute := routeChild_eq_of_perm (tree.attached table key htable hkey) hround
          (hrow table key values htable hkey hvalues) (hperm table.id)
        simp only [hvalues, ← hroute]
        cases hchild : routeChild key (keyTypes table key) values
            (tree.partitionChildren table.id) with
        | none => rfl
        | some child => exact ih (htable.child (mem_of_routeChild hchild))

/-- Siblings whose bounds were accepted claim no common key, and a row goes to the same
partition in whatever order they are listed. -/
theorem partitions_never_overlap (tree : PartitionTree) (row : Row) (hround : RoundingMonotone)
    (hrow : tree.Distinct row) :
    (∀ table key values, Descendant tree.partitionChildren tree.root table →
      table.partitionBy = some key → keyValues table key row = .ok values →
      (tree.partitionChildren table.id).Pairwise fun a b =>
        ¬ (claims key (keyTypes table key) values a = true ∧
          claims key (keyTypes table key) values b = true)) ∧
    ∀ children : Nat → List TableDescriptor,
      (∀ id, (tree.partitionChildren id).Perm (children id)) → ∀ fuel,
      routeRow children fuel tree.root row =
        routeRow tree.partitionChildren fuel tree.root row := by
  constructor
  · intro table key values htable hkey hvalues
    exact claims_disjoint (tree.attached table key htable hkey) hround
      (hrow table key values htable hkey hvalues)
  · intro children hperm fuel
    exact (routeRow_eq_of_perm tree hround hrow hperm fuel .root).symm

end Attach

/-! ## A key compared with integers it is not one of -/

namespace Fixed

/-- A quotient rounded to the nearest number, of two to the even one. -/
def roundHalfEven (m half : Nat) : Nat :=
  let kept := m / (2 * half)
  let rest := m % (2 * half)
  if half < rest ∨ rest = half ∧ kept % 2 = 1 then kept + 1 else kept

/-- The 53 bits of a magnitude that are kept, rounded. -/
def mantissa (magnitude : Nat) : Nat :=
  if magnitude.log2 ≤ 52 then magnitude * 2 ^ (52 - magnitude.log2)
  else roundHalfEven magnitude (2 ^ (magnitude.log2 - 53))

def magnitudeBits (magnitude : Nat) : Nat :=
  if magnitude = 0 then 0
  else (magnitude.log2 + 1023) * 2 ^ 52 + (mantissa magnitude - 2 ^ 52)

/-- `n as f64`: the nearest float, of two the even one. -/
def nearestFloat (n : Int) : UInt64 :=
  UInt64.ofNat ((if n < 0 then 2 ^ 63 else 0) + magnitudeBits n.natAbs)

theorem roundHalfEven_mono (h : m ≤ n) :
    roundHalfEven m half ≤ roundHalfEven n half := by
  have hkept : m / (2 * half) ≤ n / (2 * half) := Nat.div_le_div_right h
  simp only [roundHalfEven]
  obtain hlt | heq := hkept.lt_or_eq
  · split <;> split <;> omega
  · -- With the same bits kept, the larger number has the larger rest.
    have hm := Nat.div_add_mod m (2 * half)
    have hn := Nat.div_add_mod n (2 * half)
    rw [heq] at hm ⊢
    split <;> split <;> omega

theorem mantissa_bounds (h : m ≠ 0) : 2 ^ 52 ≤ mantissa m ∧ mantissa m ≤ 2 ^ 53 := by
  have hlow : 2 ^ m.log2 ≤ m := Nat.log2_self_le h
  have hhigh : m < 2 ^ (m.log2 + 1) := Nat.lt_log2_self
  generalize hk : m.log2 = k at hlow hhigh
  rw [mantissa, hk]
  split
  next hle =>
    obtain ⟨d, hd⟩ := Nat.exists_eq_add_of_le hle
    have hsplit : (2 : Nat) ^ 52 = 2 ^ k * 2 ^ d := by rw [← pow_add, ← hd]
    rw [hd, Nat.add_sub_cancel_left, ← hd, show (2 : Nat) ^ 53 = 2 ^ (k + 1) * 2 ^ d by
      rw [← pow_add, show k + 1 + d = 53 by omega], hsplit]
    exact ⟨Nat.mul_le_mul_right _ hlow, Nat.mul_le_mul_right _ hhigh.le⟩
  next hgt =>
    obtain ⟨d, rfl⟩ := Nat.exists_eq_add_of_le (Nat.lt_of_not_le hgt)
    have hdouble : 2 * 2 ^ (52 + 1 + d - 53) = 2 ^ (d + 1) := by
      rw [pow_succ, mul_comm]; congr 2; omega
    have hkept : 2 ^ 52 ≤ m / 2 ^ (d + 1) ∧ m / 2 ^ (d + 1) < 2 ^ 53 := by
      rw [Nat.le_div_iff_mul_le (by positivity), Nat.div_lt_iff_lt_mul (by positivity), ← pow_add,
        ← pow_add]
      exact ⟨(pow_le_pow_right₀ (by decide) (by omega)).trans hlow,
        hhigh.trans_le (pow_le_pow_right₀ (by decide) (by omega))⟩
    simp only [Nat.succ_eq_add_one, roundHalfEven, hdouble]
    split <;> omega

theorem magnitudeBits_mono (h : m ≤ n) : magnitudeBits m ≤ magnitudeBits n := by
  unfold magnitudeBits
  by_cases hm : m = 0
  · rw [if_pos hm]
    exact Nat.zero_le _
  have hn : n ≠ 0 := by omega
  rw [if_neg hm, if_neg hn]
  obtain ⟨hm₁, hm₂⟩ := mantissa_bounds hm
  obtain ⟨hn₁, -⟩ := mantissa_bounds hn
  have hlog : m.log2 ≤ n.log2 := by
    rw [Nat.log2_eq_log_two, Nat.log2_eq_log_two]
    exact Nat.log_mono_right h
  obtain hlt | heq := hlog.lt_or_eq
  · omega
  · have hmantissa : mantissa m ≤ mantissa n := by
      rw [mantissa, mantissa, heq]
      split
      · exact Nat.mul_le_mul_right _ h
      · exact roundHalfEven_mono h
    omega

theorem floatRank_nearestFloat (h : IsInt64 n) : isNan (nearestFloat n) = false ∧
    floatRank (nearestFloat n) =
      if n < 0 then -(magnitudeBits n.natAbs : Int) else magnitudeBits n.natAbs := by
  have hbits : magnitudeBits n.natAbs ≤ 1086 * 2 ^ 52 :=
    (magnitudeBits_mono (show n.natAbs ≤ 2 ^ 63 by unfold IsInt64 at h; omega)).trans
      (by decide +kernel)
  have hnat : (nearestFloat n).toNat = (if n < 0 then 2 ^ 63 else 0) + magnitudeBits n.natAbs := by
    rw [nearestFloat, UInt64.toNat_ofNat', Nat.mod_eq_of_lt]
    split <;> omega
  have hmagnitude : (nearestFloat n % 2 ^ 63).toNat = magnitudeBits n.natAbs := by
    rw [UInt64.toNat_mod, hnat, show (2 ^ 63 : UInt64).toNat = 2 ^ 63 by decide +kernel]
    split <;> omega
  constructor
  · rw [isNan, decide_eq_false_iff_not, UInt64.lt_iff_toNat_lt, hmagnitude,
      show (0x7FF0000000000000 : UInt64).toNat = 2047 * 2 ^ 52 by decide +kernel]
    omega
  · have hsign : nearestFloat n < 2 ^ 63 ↔ ¬ n < 0 := by
      rw [UInt64.lt_iff_toNat_lt, hnat, show (2 ^ 63 : UInt64).toNat = 2 ^ 63 by decide +kernel]
      split <;> omega
    simp only [floatRank, hmagnitude, hsign, ite_not]

/-- Values with the conversion of integers to floats. -/
@[reducible] def rounding : Primitives :=
  { (evaluator fun _ => none).toPrimitives with intToFloat := nearestFloat }

theorem roundingMonotone_rounding : letI := rounding; RoundingMonotone := by
  let := rounding
  intro m n hm hn hle
  obtain ⟨hnanm, hrankm⟩ := floatRank_nearestFloat hm
  obtain ⟨hnann, hrankn⟩ := floatRank_nearestFloat hn
  show floatCmp (nearestFloat m) (nearestFloat n) ≠ .gt
  rw [floatCmp, hnanm, hnann, Ne, compare_gt_iff_gt, not_lt, hrankm, hrankn]
  split
  · split
    · have := magnitudeBits_mono (show n.natAbs ≤ m.natAbs by omega)
      omega
    · omega
  · rw [if_neg (by omega)]
    have := magnitudeBits_mono (show m.natAbs ≤ n.natAbs by omega)
    omega

/-- The key `CASE WHEN b THEN 0 ELSE x END`: its type is that of the first branch. -/
@[reducible] def casePart : KeyParts where
  rowHash _ _ := none
  evalPart _ row _ :=
    match cell row 0 with
    | .bool true => .ok (.int 0)
    | _ => .ok (cell row 1)
  partType _ _ := some (ascii "INTEGER")

def casePartition (id : Nat) (name : String) (n : Int) : TableDescriptor where
  id := id
  name := name
  columns := [⟨ascii "b", ascii "BOOLEAN"⟩, ⟨ascii "x", ascii "DOUBLE PRECISION"⟩]
  partitionBy := none
  partitionBound := some (.list [some (.int n)])

def caseKey : PartitionKey := ⟨.list, [ascii "CASE WHEN b THEN 0 ELSE x END"]⟩

def caseTable : TableDescriptor :=
  { casePartition 0 "t" 0 with partitionBy := some caseKey, partitionBound := none }

/-- `FOR VALUES IN (9007199254740992)` and `FOR VALUES IN (9007199254740993)`. -/
def casePartitions : List TableDescriptor :=
  [casePartition 1 "t1" (2 ^ 53), casePartition 2 "t2" (2 ^ 53 + 1)]

/-- A row with `b` and `x`. -/
def caseRow (b : Bool) (x : UInt64) : Row := [.bool b, .float x]

theorem parsed_caseBound (n : Int) (h : IsInt64 n) : letI := typeNames
    Parsed caseKey [ascii "INTEGER"] (.list [some (.int n)]) := by
  refine ⟨rfl, fun v hv => ?_⟩
  cases mem_singleton.mp hv
  exact h

theorem attached_casePartitions [Primitives] : letI := casePart
    letI := typeNames
    Attached caseTable caseKey [ascii "INTEGER"] casePartitions := by
  let := casePart
  let := typeNames
  have hfirst : Attached caseTable caseKey [ascii "INTEGER"] [casePartition 1 "t1" (2 ^ 53)] :=
    .attach (fun _ => []) none .nil .nil (fun _ h => nomatch h) rfl
      (parsed_caseBound _ (by unfold IsInt64; decide)) rfl
  exact .attach (fun _ => []) none hfirst (.refl _) (fun _ _ => nofun) rfl
    (parsed_caseBound _ (by unfold IsInt64; decide)) rfl

def caseChildren (id : Nat) : List TableDescriptor := if id = 0 then casePartitions else []

/-- The same with `FOR VALUES IN (0)`. -/
def zeroChildren (id : Nat) : List TableDescriptor :=
  if id = 0 then casePartitions ++ [casePartition 3 "t3" 0] else []

theorem descendant_caseTable (h : Descendant zeroChildren caseTable table)
    (hkey : table.partitionBy = some key) : table = caseTable := by
  cases h with
  | root => rfl
  | @child parent _ _ hmem =>
    unfold zeroChildren at hmem
    split at hmem
    · simp only [casePartitions, cons_append, nil_append, mem_cons, not_mem_nil, or_false] at hmem
      rcases hmem with rfl | rfl | rfl <;> cases hkey
    · cases hmem

@[reducible] def caseTree [Primitives] :
    letI := casePart
    letI := typeNames
    PartitionTree :=
  letI := casePart
  letI := typeNames
  { root := caseTable
    partitionChildren := zeroChildren
    attached := by
      intro table key htable hkey
      cases descendant_caseTable htable hkey
      cases hkey
      exact .attach (fun _ => []) none attached_casePartitions (.refl _) (fun _ _ => nofun) rfl
        (parsed_caseBound _ (by unfold IsInt64; decide)) rfl }

end Fixed

/-- A row with an integer key is claimed by one partition. -/
theorem partitions_never_overlap_of_int :
    letI := rounding
    letI := casePart
    letI := typeNames
    (routeRow zeroChildren 2 caseTable (caseRow true 0)).map routedTo = some (some "t3") ∧
      routeRow (fun id => (zeroChildren id).reverse) 2 caseTable (caseRow true 0) =
        routeRow zeroChildren 2 caseTable (caseRow true 0) := by
  let := rounding
  let := casePart
  let := typeNames
  refine ⟨by decide +kernel, (partitions_never_overlap caseTree (caseRow true 0)
    roundingMonotone_rounding ?_).2 _ (fun id => (reverse_perm _).symm) 2⟩
  intro table key values htable hkey hvalues _ idx bits hbits _
  cases descendant_caseTable htable hkey
  cases hkey
  cases hvalues
  match idx with
  | 0 => cases hbits
  | idx + 1 => cases hbits

/-- Both 9007199254740992 and 9007199254740993 are equal to the float 9007199254740992: the row is
claimed by both partitions, and goes to the one that is listed first. -/
theorem float_key_claimed_twice :
    letI := rounding
    letI := casePart
    letI := typeNames
    let row := caseRow false (nearestFloat (2 ^ 53))
    let types := keyTypes caseTable caseKey
    Attached caseTable caseKey types casePartitions ∧
      (∃ values, keyValues caseTable caseKey row = .ok values ∧
        ∀ child ∈ casePartitions, claims caseKey types values child = true) ∧
      (routeRow caseChildren 2 caseTable row).map routedTo = some (some "t1") ∧
      (routeRow (fun id => (caseChildren id).reverse) 2 caseTable row).map routedTo =
        some (some "t2") := by
  let := rounding
  let := casePart
  let := typeNames
  refine ⟨attached_casePartitions, ⟨_, rfl, ?_⟩, ?_, ?_⟩
  · intro child hchild
    simp only [casePartitions, mem_cons, not_mem_nil, or_false] at hchild
    rcases hchild with rfl | rfl
    · decide +kernel
    · decide +kernel
  · decide +kernel
  · decide +kernel

end NodusDb.Sql
