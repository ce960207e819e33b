import NodusDb.Lib.Results
import NodusDb.Storage.Api

/-!
# Sequences

A sequence is one row: its last value, whether that value has been handed out, and its options.
`next` is the value `nextval` hands out next, and `advance` the row it stores then.
-/

namespace NodusDb

open List

/-! ## Machine integers -/

/-- `i64::MIN`. -/
def i64Min : Int := -2 ^ 63

/-- `i64::MAX`. -/
def i64Max : Int := 2 ^ 63 - 1

/-- `i64::checked_add`. -/
def checkedAdd (a b : Int) : Option Int :=
  if i64Min ≤ a + b ∧ a + b ≤ i64Max then some (a + b) else none

/-! ## The stored state -/

inductive SequenceType
  | smallint
  | integer
  | bigint
  deriving DecidableEq, Repr

namespace SequenceType

def name : SequenceType → String
  | smallint => "smallint"
  | integer => "integer"
  | bigint => "bigint"

/-- `char::is_whitespace`. -/
def isWhitespace (c : Char) : Bool :=
  let n := c.toNat
  9 ≤ n ∧ n ≤ 13 ∨ 0x2000 ≤ n ∧ n ≤ 0x200A ∨
    n ∈ [0x20, 0x85, 0xA0, 0x1680, 0x2028, 0x2029, 0x202F, 0x205F, 0x3000]

/-- The type a text names, trimmed and in lower case. -/
def parse (text : String) : Result SequenceType :=
  let trimmed := ((text.toList.dropWhile isWhitespace).reverse.dropWhile isWhitespace).reverse
  let other := String.ofList (trimmed.map Char.toLower)
  if other ∈ ["bigint", "int8"] then .ok bigint
  else if other ∈ ["integer", "int", "int4"] then .ok integer
  else if other ∈ ["smallint", "int2"] then .ok smallint
  else .error s!"sequence type must be smallint, integer, or bigint, not {other}"

/-- The smallest and the largest value of the type. -/
def bounds : SequenceType → Int × Int
  | smallint => (-2 ^ 15, 2 ^ 15 - 1)
  | integer => (-2 ^ 31, 2 ^ 31 - 1)
  | bigint => (i64Min, i64Max)

end SequenceType

/-- A definition; unset options take the defaults of the type and direction. -/
structure SequenceSpec where
  dataType : Option String
  increment : Option Int
  minValue : Option Int
  maxValue : Option Int
  start : Option Int
  cache : Option Int
  cycle : Bool
  deriving DecidableEq, Repr

structure SequenceState where
  lastValue : Int
  isCalled : Bool
  start : Int
  min : Int
  max : Int
  increment : Int
  cycle : Bool
  cache : Int
  dataType : String
  deriving DecidableEq, Repr

inductive Value
  | int (n : Int)
  | bool (b : Bool)
  | text (s : String)
  deriving DecidableEq, Repr

abbrev Row := List Value

namespace SequenceState

def new (spec : SequenceSpec) : Result SequenceState := do
  let dataType ← spec.dataType.elim (.ok .bigint) SequenceType.parse
  let (typeMin, typeMax) := dataType.bounds
  let increment := spec.increment.getD 1
  ensure (increment ≠ 0) "INCREMENT must not be zero"
  let min := spec.minValue.getD (if 0 < increment then 1 else typeMin)
  let max := spec.maxValue.getD (if 0 < increment then typeMax else -1)
  ensure (typeMin ≤ min ∧ max ≤ typeMax)
    s!"MINVALUE and MAXVALUE must be within the range of type {dataType.name}"
  ensure (min < max) s!"MINVALUE ({min}) must be less than MAXVALUE ({max})"
  let start := spec.start.getD (if 0 < increment then min else max)
  ensure (min ≤ start) s!"START value ({start}) cannot be less than MINVALUE ({min})"
  ensure (start ≤ max) s!"START value ({start}) cannot be greater than MAXVALUE ({max})"
  let cache := spec.cache.getD 1
  ensure (1 ≤ cache) s!"CACHE ({cache}) must be greater than zero"
  return ⟨start, false, start, min, max, increment, spec.cycle, cache, dataType.name⟩

def toRow (s : SequenceState) : Row :=
  [.int s.lastValue, .int 0, .bool s.isCalled, .int s.start, .int s.min, .int s.max,
   .int s.increment, .bool s.cycle, .int s.cache, .text s.dataType]

def intAt (row : Row) (i : Nat) : Result Int :=
  match row[i]? with
  | some (.int n) => .ok n
  | _ => .error "sequence row is malformed"

def boolAt (row : Row) (i : Nat) : Result Bool :=
  match row[i]? with
  | some (.bool b) => .ok b
  | _ => .error "sequence row is malformed"

/-- The type's name in the last column; rows written before it was stored have none. -/
def typeAt (row : Row) : String :=
  match (row[9]? : Option Value) with
  | some (.text t) => t
  | _ => "bigint"

def fromRow (row : Row) : Result SequenceState := do
  return ⟨← intAt row 0, ← boolAt row 2, ← intAt row 3, ← intAt row 4, ← intAt row 5,
    ← intAt row 6, ← boolAt row 7, ← intAt row 8, typeAt row⟩

theorem fromRow_toRow (s : SequenceState) : fromRow s.toRow = .ok s := rfl

/-! ## Drawing values -/

/-- The value `nextval` hands out next. -/
def next (s : SequenceState) (name : String) : Result Int :=
  if s.isCalled then
    match (checkedAdd s.lastValue s.increment).filter fun n => s.min ≤ n ∧ n ≤ s.max with
    | some n => .ok n
    | none =>
      if s.cycle then .ok (if 0 < s.increment then s.min else s.max)
      else if 0 < s.increment then
        .error s!"nextval: reached maximum value of sequence \"{name}\" ({s.max})"
      else .error s!"nextval: reached minimum value of sequence \"{name}\" ({s.min})"
  else .ok s.lastValue

/-- The state `nextval` stores. -/
def advance (s : SequenceState) (name : String) : Result SequenceState := do
  let next ← s.next name
  return { s with lastValue := next, isCalled := true }

/-- What every stored state keeps of its definition. -/
structure Valid (s : SequenceState) : Prop where
  increment_ne : s.increment ≠ 0
  min_le : s.min ≤ s.lastValue
  le_max : s.lastValue ≤ s.max

theorem new_valid {spec : SequenceSpec} {s : SequenceState} (h : new spec = .ok s) : s.Valid := by
  simp only [new, Result.bind_eq_ok, Result.ensure_eq_ok, Result.pure_eq_ok, exists_const] at h
  obtain ⟨_, -, hinc, -, -, hmin, hmax, -, rfl⟩ := h
  exact ⟨hinc, hmin, hmax⟩

variable {s t init : SequenceState} {name : String} {n : Int} {values : List Int}

theorem next_eq_ok (hs : s.Valid) (hc : s.cycle = false) (h : s.next name = .ok n) :
    (s.min ≤ n ∧ n ≤ s.max) ∧
    n = if s.isCalled then s.lastValue + s.increment else s.lastValue := by
  unfold next at h
  split at h
  next hcalled =>
    rw [if_pos hcalled]
    split at h
    next m hm =>
      cases h
      obtain ⟨hadd, hin⟩ := Option.filter_eq_some_iff.mp hm
      unfold checkedAdd at hadd
      split at hadd
      · exact ⟨by simpa using hin, (Option.some.inj hadd).symm⟩
      · cases hadd
    · rw [hc, if_neg Bool.false_ne_true] at h
      split at h <;> cases h
  next hcalled =>
    rw [if_neg hcalled]
    cases h
    exact ⟨⟨hs.min_le, hs.le_max⟩, rfl⟩

theorem advance_eq_ok : s.advance name = .ok t ↔
    ∃ n, s.next name = .ok n ∧ t = { s with lastValue := n, isCalled := true } := by
  simp only [advance, Result.bind_eq_ok, Result.pure_eq_ok]
  exact exists_congr fun n => and_congr_right fun _ => eq_comm

/-- The values drawn one after the other, and the state after them. -/
inductive Draws (name : String) (init : SequenceState) : List Int → SequenceState → Prop
  | nil : Draws name init [] init
  | snoc {values : List Int} {s t : SequenceState} : Draws name init values s →
      s.advance name = .ok t → Draws name init (values ++ [t.lastValue]) t

structure SameOptions (s t : SequenceState) : Prop where
  min : t.min = s.min
  max : t.max = s.max
  increment : t.increment = s.increment
  cycle : t.cycle = s.cycle

namespace Draws

theorem options (hv : init.Valid) (hc : init.cycle = false) (h : Draws name init values s) :
    SameOptions init s ∧ s.Valid ∧ ∀ v ∈ values, init.min ≤ v ∧ v ≤ init.max := by
  induction h with
  | nil => exact ⟨⟨rfl, rfl, rfl, rfl⟩, hv, nofun⟩
  | snoc _ hadv ih =>
    obtain ⟨hopt, hvalid, hin⟩ := ih
    obtain ⟨n, hn, rfl⟩ := advance_eq_ok.mp hadv
    obtain ⟨hn, -⟩ := next_eq_ok hvalid (hopt.cycle.trans hc) hn
    refine ⟨⟨hopt.min, hopt.max, hopt.increment, hopt.cycle⟩, ⟨hvalid.increment_ne, hn.1, hn.2⟩, ?_⟩
    intro v hv'
    rcases mem_append.mp hv' with hv' | hv'
    · exact hin v hv'
    rw [mem_singleton.mp hv', ← hopt.min, ← hopt.max]
    exact hn

theorem progression (hv : init.Valid) (hc : init.cycle = false) (h : Draws name init values s) :
    ∃ first, values = (List.range values.length).map (fun i : Nat => first + i * init.increment) ∧
      (values ≠ [] → s.isCalled = true ∧
        s.lastValue + init.increment = first + values.length * init.increment) := by
  induction h with
  | nil => exact ⟨0, rfl, fun h => absurd rfl h⟩
  | @snoc values s t hdraws hadv ih =>
    obtain ⟨first, heq, hlast⟩ := ih
    obtain ⟨hopt, hvalid, -⟩ := hdraws.options hv hc
    obtain ⟨n, hn, rfl⟩ := advance_eq_ok.mp hadv
    obtain ⟨-, hnext⟩ := next_eq_ok hvalid (hopt.cycle.trans hc) hn
    by_cases hnil : values = []
    · subst hnil
      exact ⟨n, by simp, fun _ => ⟨rfl, by simp⟩⟩
    obtain ⟨hcalled, hval⟩ := hlast hnil
    rw [if_pos hcalled, hopt.increment, hval] at hnext
    refine ⟨first, ?_, fun _ => ⟨rfl, ?_⟩⟩
    · rw [length_append, length_singleton, range_succ, map_append, ← heq]
      simp [hnext]
    rw [length_append, length_singleton, hnext]
    push_cast
    ring

/-- The values drawn without cycling differ, stay within the bounds and are a
multiple of the increment apart. -/
theorem distinct (hv : init.Valid) (hc : init.cycle = false) (h : Draws name init values s) :
    values.Nodup ∧ (∀ v ∈ values, init.min ≤ v ∧ v ≤ init.max) ∧
    ∀ first ∈ values.head?, ∀ v ∈ values, init.increment ∣ v - first := by
  obtain ⟨first, heq, -⟩ := h.progression hv hc
  refine ⟨?_, (h.options hv hc).2.2, ?_⟩
  · rw [heq]
    refine nodup_range.map fun i j hij => ?_
    have hmul : (i : Int) * init.increment = j * init.increment := by simpa using hij
    exact_mod_cast mul_right_cancel₀ hv.increment_ne hmul
  have hmem : ∀ v ∈ values, ∃ i : Nat, v = first + i * init.increment := by
    intro v hv'
    rw [heq] at hv'
    obtain ⟨i, -, rfl⟩ := mem_map.mp hv'
    exact ⟨i, rfl⟩
  intro f hf v hv'
  obtain ⟨i, rfl⟩ := hmem f (mem_of_mem_head? hf)
  obtain ⟨j, rfl⟩ := hmem v hv'
  exact ⟨j - i, by ring⟩

end Draws

theorem next_of_cycle (hs : s.Valid) (hc : s.cycle = true) (name : String) :
    ∃ n, s.next name = .ok n ∧ s.min ≤ n ∧ n ≤ s.max := by
  have hle := hs.min_le.trans hs.le_max
  unfold next
  split
  · split
    next n hn => exact ⟨n, rfl, by simpa using (Option.filter_eq_some_iff.mp hn).2⟩
    · refine ⟨_, rfl, ?_⟩
      split
      · exact ⟨le_rfl, hle⟩
      · exact ⟨hle, le_rfl⟩
  · exact ⟨_, rfl, hs.min_le, hs.le_max⟩

theorem draws_of_cycle (hs : s.Valid) (hc : s.cycle = true) (name : String) (n : Nat) :
    ∃ values t, Draws name s values t ∧ values.length = n ∧
      (∀ v ∈ values, s.min ≤ v ∧ v ≤ s.max) ∧ SameOptions s t ∧ t.Valid := by
  induction n with
  | zero => exact ⟨[], s, .nil, rfl, by simp, ⟨rfl, rfl, rfl, rfl⟩, hs⟩
  | succ n ih =>
    obtain ⟨values, t, hdraws, hlen, hin, hopt, ht⟩ := ih
    obtain ⟨v, hv, hmin, hmax⟩ := next_of_cycle ht (hopt.cycle.trans hc) name
    refine ⟨_, _, hdraws.snoc (advance_eq_ok.mpr ⟨v, hv, rfl⟩), by simp [hlen], fun w hw => ?_,
      ⟨hopt.min, hopt.max, hopt.increment, hopt.cycle⟩, ⟨ht.increment_ne, hmin, hmax⟩⟩
    rcases mem_append.mp hw with hw | hw
    · exact hin w hw
    · rw [mem_singleton.mp hw, ← hopt.min, ← hopt.max]
      exact ⟨hmin, hmax⟩

/-- The values of a sequence never run out if and only if it cycles. -/
theorem draws_forever_iff {spec : SequenceSpec} (h : new spec = .ok s) (name : String) :
    (∀ n, ∃ values t, Draws name s values t ∧ values.length = n ∧
      ∀ v ∈ values, s.min ≤ v ∧ v ≤ s.max) ↔ s.cycle = true := by
  have hvalid := new_valid h
  constructor
  · intro hdraws
    by_contra hc
    obtain ⟨values, t, hd, hlen, -⟩ := hdraws ((s.max + 1 - s.min).toNat + 1)
    obtain ⟨hnodup, hin, -⟩ := hd.distinct hvalid (Bool.eq_false_iff.mpr hc)
    have hcard := Finset.card_le_card fun v (hv : v ∈ values.toFinset) =>
      Finset.mem_Icc.mpr (hin v (mem_toFinset.mp hv))
    rw [toFinset_card_of_nodup hnodup, hlen, Int.card_Icc] at hcard
    omega
  · intro hc n
    obtain ⟨values, t, hdraws, hlen, hin, -⟩ := draws_of_cycle hvalid hc name n
    exact ⟨values, t, hdraws, hlen, hin⟩

theorem draws_forever_small :
    ∃ s, new ⟨some " Int2", some 5, some 1, some 7, none, none, true⟩ = .ok s ∧
    ∀ n, ∃ values t, Draws "s" s values t ∧ values.length = n ∧
      ∀ v ∈ values, s.min ≤ v ∧ v ≤ s.max := by
  have h : new ⟨some " Int2", some 5, some 1, some 7, none, none, true⟩ = .ok _ := rfl
  exact ⟨_, h, (draws_forever_iff h "s").mpr rfl⟩

end SequenceState

end NodusDb
