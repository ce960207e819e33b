import NodusDb.Lib.Comparison
import NodusDb.Sql.Value

/-!
# The order of the values of one type

`compare` is a total preorder on the values of one type. Numbers of different types are not
in one order: an integer is converted to a float before it is compared with one, so two
integers can compare equal to the same float.
-/

namespace NodusDb.Sql

/-! ## Numbers and texts -/

/-- Where a float is: NaN is above every other. -/
def floatKey (bits : UInt64) : WithTop Int := if isNan bits then ⊤ else floatRank bits

theorem floatCmp_lt_iff (x y : UInt64) : floatCmp x y = .lt ↔ floatKey x < floatKey y := by
  unfold floatCmp floatKey
  cases isNan x <;> cases isNan y <;> simp [compare_lt_iff_lt]

theorem floatCmp_gt_iff (x y : UInt64) : floatCmp x y = .gt ↔ floatKey y < floatKey x := by
  unfold floatCmp floatKey
  cases isNan x <;> cases isNan y <;> simp [compare_gt_iff_gt]

def Numeric.key : Numeric → Nat ×ₗ ℚ
  | .finite digits scale => toLex (1, digits / 10 ^ scale)
  | d => toLex (d.rank, 0)

theorem scaled_lt_iff (a b : Int) (sa sb : Nat) :
    a * 10 ^ (max sa sb - sa) < b * 10 ^ (max sa sb - sb) ↔
      (a / 10 ^ sa : ℚ) < b / 10 ^ sb := by
  have hscale : ∀ (n : Int) (s : Nat), s ≤ max sa sb →
      (n / 10 ^ s : ℚ) * 10 ^ max sa sb = ((n * 10 ^ (max sa sb - s) : Int) : ℚ) := by
    intro n s hs
    have hpow : (10 : ℚ) ^ max sa sb = 10 ^ (max sa sb - s) * 10 ^ s := by
      rw [← pow_add, Nat.sub_add_cancel hs]
    rw [hpow]
    push_cast
    field_simp
  have hpos : (0 : ℚ) < 10 ^ max sa sb := by positivity
  rw [← mul_lt_mul_iff_left₀ hpos, hscale a sa (le_max_left _ _), hscale b sb (le_max_right _ _),
    Int.cast_lt]

theorem Numeric.cmp_lt_iff (x y : Numeric) : x.cmp y = .lt ↔ x.key < y.key := by
  cases x <;> cases y <;>
    simp [cmp, key, rank, Prod.Lex.toLex_lt_toLex, compare_lt_iff_lt, scaled_lt_iff]

theorem Numeric.cmp_gt_iff (x y : Numeric) : x.cmp y = .gt ↔ y.key < x.key := by
  have hscaled : ∀ (a b : Int) (sa sb : Nat),
      b * 10 ^ (max sa sb - sb) < a * 10 ^ (max sa sb - sa) ↔ (b / 10 ^ sb : ℚ) < a / 10 ^ sa := by
    intro a b sa sb
    rw [max_comm, scaled_lt_iff]
  cases x <;> cases y <;>
    simp [cmp, key, rank, Prod.Lex.toLex_lt_toLex, compare_gt_iff_gt, hscaled]

theorem bytesCmp_lt_iff (x y : Bytes) : bytesCmp x y = .lt ↔ x < y := by
  unfold bytesCmp
  split
  next h => exact iff_of_true rfl h
  next h => split <;> exact iff_of_false (by decide) h

theorem bytesCmp_gt_iff (x y : Bytes) : bytesCmp x y = .gt ↔ y < x := by
  unfold bytesCmp
  split
  next h => exact iff_of_false (by decide) (lt_asymm h)
  next h =>
  split
  next heq => exact iff_of_false (by decide) (heq ▸ lt_irrefl x)
  next hne => exact iff_of_true rfl (lt_of_le_of_ne (not_lt.mp h) (Ne.symm hne))

theorem bytesCmp_eq_iff (x y : Bytes) : bytesCmp x y = .eq ↔ x = y := by
  have hlt := bytesCmp_lt_iff x y
  have hgt := bytesCmp_gt_iff x y
  rcases lt_trichotomy x y with h | rfl | h
  · exact iff_of_false (by rw [hlt.mpr h]; decide) h.ne
  · rw [bytesCmp, if_neg (lt_irrefl x), if_pos rfl]
    exact iff_of_true rfl rfl
  · exact iff_of_false (by rw [hgt.mpr h]; decide) h.ne'

theorem intCmp_comparison : Comparison (Ord.compare : Int → Int → Ordering) fun _ => True :=
  .of_key id (fun _ _ _ _ => compare_lt_iff_lt) (fun _ _ _ _ => compare_gt_iff_gt)

theorem boolCmp_comparison : Comparison (Ord.compare : Bool → Bool → Ordering) fun _ => True :=
  .of_key id (fun _ _ _ _ => compare_lt_iff_lt) (fun _ _ _ _ => compare_gt_iff_gt)

theorem floatCmp_comparison : Comparison floatCmp fun _ => True :=
  .of_key floatKey (fun x y _ _ => floatCmp_lt_iff x y) (fun x y _ _ => floatCmp_gt_iff x y)

theorem numericCmp_comparison : Comparison Numeric.cmp fun _ => True :=
  .of_key Numeric.key (fun x y _ _ => x.cmp_lt_iff y) (fun x y _ _ => x.cmp_gt_iff y)

theorem bytesCmp_comparison : Comparison bytesCmp fun _ => True :=
  .of_key id (fun x y _ _ => bytesCmp_lt_iff x y) (fun x y _ _ => bytesCmp_gt_iff x y)

/-! ## Types -/

inductive ValueType
  | int
  | float
  | numeric
  | bool
  | text
  | json
  | bytea
  | array (item : ValueType)
  | record (fields : List ValueType)

mutual

/-- The values of a type: NULL is of every type. -/
def HasType : ValueType → Value → Prop
  | _, .null => True
  | .int, .int _ => True
  | .float, .float _ => True
  | .numeric, .numeric _ => True
  | .bool, .bool _ => True
  | .text, .text _ => True
  | .json, .json _ => True
  | .bytea, .bytea _ => True
  | .array item, .array items => ∀ v ∈ items, HasType item v
  | .record types, .record fields => HasTypes types fields
  | _, _ => False

def HasTypes : List ValueType → List (Text × Value) → Prop
  | [], [] => True
  | t :: ts, (_, v) :: fields => HasType t v ∧ HasTypes ts fields
  | _, _ => False

end

theorem hasType_null (t : ValueType) : HasType t .null := by
  cases t <;> exact trivial

theorem HasType.cases {t : ValueType} {v : Value} (h : HasType t v) :
    v = .null ∨ match t with
      | .int => ∃ n, True ∧ v = .int n
      | .float => ∃ x, True ∧ v = .float x
      | .numeric => ∃ d, True ∧ v = .numeric d
      | .bool => ∃ b, True ∧ v = .bool b
      | .text => ∃ s, True ∧ v = .text s
      | .json => ∃ s, True ∧ v = .json s
      | .bytea => ∃ s, True ∧ v = .bytea s
      | .array item => ∃ items, (∀ w ∈ items, HasType item w) ∧ v = .array items
      | .record types => ∃ fields, HasTypes types fields ∧ v = .record fields := by
  cases v with
  | null => exact .inl rfl
  | _ =>
    cases t
    all_goals first
      | exact .inr ⟨_, trivial, rfl⟩
      | exact .inr ⟨_, h, rfl⟩
      | exact h.elim

section Comparisons

variable [Primitives]

theorem compareItems_eq (xs ys : List Value) :
    compareItems xs ys = List.compareLex compare xs ys := by
  induction xs generalizing ys with
  | nil =>
    cases ys with
    | nil => rw [compareItems]; rfl
    | cons y ys => rw [compareItems]; rfl
  | cons x xs ih =>
    cases ys with
    | nil => rw [compareItems]; rfl
    | cons y ys => rw [compareItems, List.compareLex_cons_cons, ih]

theorem compare_with_null (h : Comparison compare P) (hne : ∀ v, P v → v ≠ .null) :
    Comparison compare (fun v => v = .null ∨ P v) := by
  refine h.with_bot (by rw [compare]) (fun v hv => ?_) (fun v hv => ?_)
  all_goals
    have hv := hne v hv
    cases v with
    | null => exact absurd rfl hv
    | _ => rfl

theorem comparison_of_type {t : ValueType} {α : Type} {cmp : α → α → Ordering} {P : α → Prop}
    (f : α → Value) (h : Comparison cmp P) (hf : ∀ a b, compare (f a) (f b) = cmp a b)
    (htype : ∀ v, HasType t v → v = .null ∨ ∃ a, P a ∧ v = f a) :
    Comparison compare (HasType t) := by
  have hvalues : Comparison compare fun v => v ≠ .null ∧ ∃ a, P a ∧ v = f a :=
    h.image hf fun v hv => hv.2
  refine (compare_with_null hvalues fun v hv => hv.1).mono fun v hv => ?_
  by_cases hnull : v = .null
  · exact .inl hnull
  · exact .inr ⟨hnull, (htype v hv).resolve_left hnull⟩

mutual

theorem compare_comparison : ∀ t : ValueType, Comparison compare (HasType t)
  | .int => comparison_of_type .int intCmp_comparison (fun _ _ => by rw [compare])
      fun _ h => h.cases
  | .float => comparison_of_type .float floatCmp_comparison (fun _ _ => by rw [compare])
      fun _ h => h.cases
  | .numeric => comparison_of_type .numeric numericCmp_comparison (fun _ _ => by rw [compare])
      fun _ h => h.cases
  | .bool => comparison_of_type .bool boolCmp_comparison (fun _ _ => by rw [compare])
      fun _ h => h.cases
  | .text => comparison_of_type .text bytesCmp_comparison (fun _ _ => by rw [compare])
      fun _ h => h.cases
  | .json => comparison_of_type .json bytesCmp_comparison (fun _ _ => by rw [compare])
      fun _ h => h.cases
  | .bytea => comparison_of_type .bytea bytesCmp_comparison (fun _ _ => by rw [compare])
      fun _ h => h.cases
  | .array item => comparison_of_type .array (compare_comparison item).list
      (fun _ _ => by rw [compare, compareItems_eq]) fun _ h => h.cases
  | .record types => comparison_of_type .record (compareFields_comparison types)
      (fun _ _ => by rw [compare]) fun _ h => h.cases

theorem compareFields_comparison : ∀ ts : List ValueType, Comparison compareFields (HasTypes ts)
  | [] => by
    refine .of_key (fun _ => ()) ?_ ?_
    all_goals
      intro x y hx hy
      cases x with
      | cons _ _ => exact hx.elim
      | nil =>
        cases y with
        | cons _ _ => exact hy.elim
        | nil => simp [compareFields]
  | t :: ts => by
    have hcons := (compare_comparison t).prod (compareFields_comparison ts)
    -- The names of the fields are not compared.
    have hnamed := hcons.comap fun x : (Text × Value) × List (Text × Value) => (x.1.2, x.2)
    refine hnamed.image (f := fun x => x.1 :: x.2) ?_ ?_
    · rintro ⟨⟨_, v⟩, rest⟩ ⟨⟨_, w⟩, rest'⟩
      rw [compareFields]
    intro fields h
    cases fields with
    | nil => exact h.elim
    | cons field fields => exact ⟨(field, fields), h, rfl⟩

end

end Comparisons

end NodusDb.Sql
