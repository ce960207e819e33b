import NodusDb.Lib.JoinChain
import NodusDb.Sql.JoinExec

/-!
# Push-down of conditions

A conjunct of `WHERE` that reads one relation is applied to the relation's rows before
the joins. A conjunct that is never true for NULLs turns the outer joins that would
supply them into inner joins first.

* `holds_of_untrueOnNulls`: conjuncts that are never true for NULLs.
* `pushed_filter_correct`: when the rows of the query stay the same.
-/

namespace NodusDb.Sql

open List hiding chain_cons

open Evaluator JoinStep

/-! ## What a conjunct reads -/

/-- The input a reference names, by its qualifier. -/
def inputOf (name : Text) (inputs : List (List Text)) : Option Nat :=
  (qualifierOf name).bind fun qualifier => inputs.findIdx? fun qualifiers => qualifier ∈ qualifiers

/-- Every reference of a conjunct is to one of the inputs of a side, and there is one. -/
def confined (filter : FilterExpr) (side : List Nat) (inputs : List (List Text)) : Bool :=
  let refs := filterColumnRefs filter
  !refs.isEmpty && refs.all fun name => (inputOf name inputs).any fun i => i ∈ side

/-- The loop of `single_input`, with the input found so far. -/
def singleInputFrom (inputs : List (List Text)) : Option Nat → List Text → Option Nat
  | found, [] => found
  | found, name :: names =>
    match inputOf name inputs with
    | none => none
    | some i =>
      match found with
      | none => singleInputFrom inputs (some i) names
      | some previous => if previous = i then singleInputFrom inputs (some previous) names else none

/-- The one input that every reference of a conjunct is to. -/
def singleInput (filter : FilterExpr) (inputs : List (List Text)) : Option Nat :=
  singleInputFrom inputs none (filterColumnRefs filter)

theorem inputOf_lt {name : Text} {inputs : List (List Text)} (h : inputOf name inputs = some i) :
    i < inputs.length := by
  obtain ⟨qualifier, _, hfind⟩ := Option.bind_eq_some_iff.mp h
  exact (findIdx?_eq_some_iff_findIdx_eq.mp hfind).1

theorem singleInputFrom_lt {inputs : List (List Text)}
    (hfound : ∀ k, found = some k → k < inputs.length)
    (h : singleInputFrom inputs found refs = some i) : i < inputs.length := by
  induction refs generalizing found with
  | nil => exact hfound i h
  | cons name names ih =>
    rw [singleInputFrom] at h
    cases hname : inputOf name inputs with
    | none => simp [hname] at h
    | some k =>
      rw [hname] at h
      cases found with
      | none =>
        refine ih (fun k' hk' => ?_) h
        cases hk'
        exact inputOf_lt hname
      | some previous =>
        simp only at h
        split at h
        · exact ih hfound h
        · cases h

theorem singleInput_lt {filter : FilterExpr} {inputs : List (List Text)}
    (h : singleInput filter inputs = some i) : i < inputs.length :=
  singleInputFrom_lt (fun _ hk => by cases hk) h

mutual

def scalarHasSubquery : ScalarExpr → Bool
  | .subquery _ _ => true
  | .literal _ | .column _ => false
  | .unary (.unary _) e | .unary (.cast _) e | .unary (.extract _) e => scalarHasSubquery e
  | .unary _ _ => true
  | .binary (.binary _) l r => scalarHasSubquery l || scalarHasSubquery r
  | .binary _ _ _ => true
  | .call (.function _) args => scalarsHaveSubquery args
  | .call _ _ => true

def scalarsHaveSubquery : List ScalarExpr → Bool
  | [] => false
  | e :: es => scalarHasSubquery e || scalarsHaveSubquery es

end

/-- A conjunct with a subquery; a `FilterExpr::Scalar` is taken to have none. -/
def hasSubquery : FilterExpr → Bool
  | .exprCmp left _ right => scalarHasSubquery left || scalarHasSubquery right
  | .and a b | .or a b => hasSubquery a || hasSubquery b
  | .not inner => hasSubquery inner
  | .inSubquery _ _ _ _ | .compareSubquery _ _ _ | .quantifiedSubquery _ _ _ _ | .exists _ _ => true
  | _ => false

/-- An expression that is taken to be NULL when a value it reads is. -/
def strict : ScalarExpr → Bool
  | .literal _ | .column _ => true
  | .unary (.unary _) e | .unary (.cast _) e => strict e
  | .binary (.binary _) l r => strict l && strict r
  | _ => false

/-- A conjunct that is taken never to be true when a value it reads is NULL. -/
def nullRejecting : FilterExpr → Bool
  | .predicate _ => true
  | .exprCmp left _ right => strict left && strict right
  | .inList _ _ _ | .inSubquery _ _ _ _ | .compareSubquery _ _ _ | .quantifiedSubquery _ _ _ _ =>
    true
  | .and a b => nullRejecting a && nullRejecting b
  | .not inner => nullRejecting inner
  | _ => false

/-- The operators that give NULL for a NULL. -/
def ScalarBinaryOp.nullStrict : ScalarBinaryOp → Bool
  | .and | .or | .concat => false
  | _ => true

/-- `strict` with such operators only. -/
def strictOps : ScalarExpr → Bool
  | .literal _ | .column _ => true
  | .unary (.unary _) e | .unary (.cast _) e => strictOps e
  | .binary (.binary op) l r => op.nullStrict && (strictOps l && strictOps r)
  | _ => false

/-- The shapes of `nullRejecting` that are unknown where every column read is NULL. Each
part reads a column: the negation of a false constant is true. -/
def unknownOnNulls : FilterExpr → Bool
  | .predicate _ | .inList _ _ _ => true
  | .inSubquery left _ _ leftValue => left ≠ [] && leftValue.isNone
  | .compareSubquery left _ _ => left ≠ []
  | .exprCmp left _ right =>
    strictOps left && strictOps right &&
      !(scalarColumnRefs left ++ scalarColumnRefs right).isEmpty
  | .and a b => unknownOnNulls a && unknownOnNulls b
  | .not inner => unknownOnNulls inner
  | _ => false

/-- The shapes that are not true there. `ANY` is false for a subquery without rows, so it
may not stand under `NOT`; `ALL` is true for one. -/
def untrueOnNulls : FilterExpr → Bool
  | .quantifiedSubquery left op _ all =>
    !all && (op.nullStrict && (strictOps left && !(scalarColumnRefs left).isEmpty))
  | c => unknownOnNulls c

section Pushed

variable (conjuncts : List FilterExpr) (inputs : List (List Text))

def rejectsNulls (side : List Nat) : Bool :=
  conjuncts.any fun c => nullRejecting c && confined c side inputs

/-- What the type of the join with input `i` becomes, if it changes. -/
def reducedType (i : Nat) (joinType : JoinType) : Option JoinType :=
  let onLeft := rejectsNulls conjuncts inputs (List.range i)
  let onRight := rejectsNulls conjuncts inputs [i]
  match joinType with
  | .leftOuter => if onRight then some .inner else none
  | .rightOuter => if onLeft then some .inner else none
  | .fullOuter =>
    if onLeft then some .leftOuter else if onRight then some .rightOuter else none
  | _ => none

/-- One pass over the types from the join with input `i` on, and whether one changed. -/
def reducePass : Nat → List JoinType → List JoinType × Bool
  | _, [] => ([], false)
  | i, t :: ts =>
    let rest := reducePass (i + 1) ts
    match reducedType conjuncts inputs i t with
    | some t' => (t' :: rest.1, true)
    | none => (t :: rest.1, rest.2)

variable {conjuncts inputs} in
/-- A type changes by no longer keeping a side, for a conjunct that rejects NULLs on the
other side. -/
theorem reducedType_cases (h : reducedType conjuncts inputs i t = some t') :
    (rejectsNulls conjuncts inputs [i] = true ∧ t.keepsLeft = true ∧ t'.keepsLeft = false ∧
      t'.keepsRight = t.keepsRight) ∨
    (rejectsNulls conjuncts inputs (List.range i) = true ∧ t.keepsRight = true ∧
      t'.keepsRight = false ∧ t'.keepsLeft = t.keepsLeft) := by
  unfold reducedType at h
  cases t with
  | inner | cross | semi | anti => cases h
  | leftOuter =>
    obtain ⟨hright, ⟨⟩⟩ := Option.ite_none_right_eq_some.mp h
    exact .inl ⟨hright, rfl, rfl, rfl⟩
  | rightOuter =>
    obtain ⟨hleft, ⟨⟩⟩ := Option.ite_none_right_eq_some.mp h
    exact .inr ⟨hleft, rfl, rfl, rfl⟩
  | fullOuter =>
    simp only at h
    split at h
    next hleft =>
      cases h
      exact .inr ⟨hleft, rfl, rfl, rfl⟩
    · obtain ⟨hright, ⟨⟩⟩ := Option.ite_none_right_eq_some.mp h
      exact .inl ⟨hright, rfl, rfl, rfl⟩

def JoinType.weight (t : JoinType) : Nat := t.keepsLeft.toNat + t.keepsRight.toNat

theorem weight_reducedType (h : reducedType conjuncts inputs i t = some t') :
    t'.weight < t.weight := by
  obtain ⟨_, h1, h2, h3⟩ | ⟨_, h1, h2, h3⟩ := reducedType_cases h
  all_goals simp [JoinType.weight, h1, h2, h3]

theorem weight_reducePass (i : Nat) (ts : List JoinType) :
    ((reducePass conjuncts inputs i ts).1.map JoinType.weight).sum ≤ (ts.map JoinType.weight).sum ∧
    ((reducePass conjuncts inputs i ts).2 = true →
      ((reducePass conjuncts inputs i ts).1.map JoinType.weight).sum <
        (ts.map JoinType.weight).sum) := by
  induction ts generalizing i with
  | nil => simp [reducePass]
  | cons t ts ih =>
    obtain ⟨hle, hlt⟩ := ih (i + 1)
    rw [reducePass]
    split
    next t' ht' =>
      have ht := weight_reducedType _ _ ht'
      simp only [map_cons, sum_cons]
      exact ⟨by omega, fun _ => by omega⟩
    · simp only [map_cons, sum_cons]
      exact ⟨by omega, fun h => by have := hlt h; omega⟩

theorem length_reducePass (i : Nat) (ts : List JoinType) :
    (reducePass conjuncts inputs i ts).1.length = ts.length := by
  induction ts generalizing i with
  | nil => rfl
  | cons t ts ih =>
    rw [reducePass]
    split <;> rw [length_cons, length_cons, ih]

/-- The types at the end, when no pass changes one any more. -/
def reduceTypes (types : List JoinType) : List JoinType :=
  if (reducePass conjuncts inputs 1 types).2 then
    reduceTypes (reducePass conjuncts inputs 1 types).1
  else (reducePass conjuncts inputs 1 types).1
termination_by (types.map JoinType.weight).sum
decreasing_by exact (weight_reducePass conjuncts inputs 1 types).2 ‹_›

def nullable (types : List JoinType) (i : Nat) : Bool :=
  types.zipIdx.any fun (t, k) =>
    match t with
    | .leftOuter => i = k + 1
    | .rightOuter => i ≤ k
    | .fullOuter => i ≤ k + 1
    | _ => false

variable (pushable : List Bool)

/-- The input a conjunct is applied to before the joins. -/
def pushesTo (types : List JoinType) (conjunct : FilterExpr) : Option Nat :=
  (singleInput conjunct inputs).filter fun i =>
    !hasSubquery conjunct && (pushable[i]?).getD false && !nullable types i

end Pushed

/-- The parts of a condition after the push-down. -/
structure PushedFilter where
  joinTypes : List JoinType
  inputs : List (Option FilterExpr)
  residual : Option FilterExpr

/-- The conjuncts of a condition that may be missing. -/
def conjunctsOf (filter : Option FilterExpr) : List FilterExpr :=
  (filter.map conjuncts).getD []

def pushedFilter (filter : Option FilterExpr) (inputs : List (List Text)) (pushable : List Bool)
    (joinTypes : List JoinType) : PushedFilter :=
  let conjuncts := conjunctsOf filter
  let types := reduceTypes conjuncts inputs joinTypes
  { joinTypes := types
    inputs := (List.range inputs.length).map fun i =>
      conjunction (conjuncts.filter fun c => pushesTo inputs pushable types c = some i)
    residual :=
      conjunction (conjuncts.filter fun c => (pushesTo inputs pushable types c).isNone) }

/-! ## The rows of a query -/

/-- A relation that is joined to those before it. -/
structure FromJoin where
  joinType : JoinType
  label : Text
  condition : Option FilterExpr
  columns : List ColumnDescriptor
  rows : List Row
  pushable : Bool

/-- The columns of a joined relation are named behind its label. -/
def FromJoin.side (j : FromJoin) : Side where
  rows := j.rows
  names := j.columns.map fun c => j.label ++ dot :: c.name
  columns := j.columns

/-- The relations of `FROM`. -/
structure FromClause where
  head : Side
  joins : List FromJoin

namespace FromClause

variable (fc : FromClause)

def sides : List Side := fc.head :: fc.joins.map FromJoin.side

def inputs : List (List Text) := qualifiers fc.head.names :: fc.joins.map fun j => [j.label]

def pushable : List Bool := true :: fc.joins.map (·.pushable)

def types : List JoinType := fc.joins.map (·.joinType)

def names : List Text := fc.sides.flatMap (·.names)

def columns : List ColumnDescriptor := fc.sides.flatMap (·.columns)

/-- The input each column is of, from input `n` on. -/
def ownersFrom (n : Nat) : List Side → List Nat
  | [] => []
  | s :: sides => List.replicate s.names.length n ++ ownersFrom (n + 1) sides

/-- A reference is to a column of an input of a side. -/
def reads (side : List Nat) (name : Text) : Bool :=
  (colPos fc.names name).any fun k => ((ownersFrom 0 fc.sides)[k]?).any fun i => i ∈ side

end FromClause

def withTypes (joins : List FromJoin) (types : List JoinType) : List FromJoin :=
  List.zipWith (fun j t => { j with joinType := t }) joins types

theorem withTypes_withTypes (js : List FromJoin) (h : ts.length = js.length) :
    withTypes (withTypes js ts) ts' = withTypes js ts' := by
  induction js generalizing ts ts' with
  | nil => rfl
  | cons j js ih =>
    obtain _ | ⟨t, ts⟩ := ts
    · cases h
    cases ts' with
    | nil => rfl
    | cons t' ts' => exact congrArg _ (ih (Nat.succ.inj h))

theorem map_joinType_withTypes (js : List FromJoin) (h : ts.length = js.length) :
    (withTypes js ts).map (·.joinType) = ts := by
  induction js generalizing ts with
  | nil => exact (length_eq_zero_iff.mp h).symm
  | cons j js ih =>
    obtain _ | ⟨t, ts⟩ := ts
    · cases h
    · exact congrArg _ (ih (Nat.succ.inj h))

theorem length_withTypes (js : List FromJoin) {ts : List JoinType} (h : ts.length = js.length) :
    (withTypes js ts).length = js.length := by
  rw [withTypes, length_zipWith, h, Nat.min_self]

theorem getElem?_withTypes {js : List FromJoin} {ts : List JoinType} {k : Nat} {j' : FromJoin}
    (h : (withTypes js ts)[k]? = some j') :
    ∃ j, js[k]? = some j ∧ j'.side = j.side ∧ ts[k]? = some j'.joinType := by
  rw [withTypes, getElem?_zipWith_eq_some] at h
  obtain ⟨j, t, hj, ht, rfl⟩ := h
  exact ⟨j, hj, rfl, ht⟩

/-! ## Chains under way -/

def absentRow (r : Row) : Bool := r.all Value.isNull

theorem absentRow_nulls (n : Nat) : absentRow (nulls n) = true := by
  simp [absentRow, nulls, Value.isNull]

/-- The sides for which the joins supply NULLs, from the join with input `i` on. -/
def nullSides : Nat → List JoinType → List (List Nat)
  | _, [] => []
  | i, t :: ts => (if t.keepsLeft then [[i]] else []) ++
      (if t.keepsRight then [List.range i] else []) ++ nullSides (i + 1) ts

theorem nullSides_reducePass {conjuncts : List FilterExpr} {inputs : List (List Text)} (i : Nat)
    (ts : List JoinType) : nullSides i (reducePass conjuncts inputs i ts).1 ⊆ nullSides i ts := by
  induction ts generalizing i with
  | nil => exact List.Subset.refl _
  | cons t ts ih =>
    rw [reducePass]
    split
    next t' ht' =>
      refine append_subset.mpr ⟨subset_append_of_subset_left _ ?_,
        subset_append_of_subset_right _ (ih (i + 1))⟩
      obtain ⟨_, h1, h2, h3⟩ | ⟨_, h1, h2, h3⟩ := reducedType_cases ht' <;> simp [h1, h2, h3]
    · exact append_subset.mpr ⟨subset_append_left _ _, subset_append_of_subset_right _ (ih (i + 1))⟩

/-- A chain under way: the elements have `n` parts, and each part is one its place may
have. -/
structure Rooted (ok : Nat → Row → Prop) (n : Nat) (absents : List Row) (ls : List (List Row))
    (js : List FromJoin) : Prop where
  length : absents.length = n
  allAbsent : absents.all absentRow = true
  absentsOk : Parts ok absents
  joins : ∀ k j, js[k]? = some j →
    (∀ r ∈ j.rows, ok (n + k) r) ∧ ok (n + k) (nulls j.columns.length)
  start : ∀ l ∈ ls, l.length = n ∧ Parts ok l

section Reduce

variable {conjuncts : List FilterExpr} {inputs : List (List Text)} {ok : Nat → Row → Prop}
variable {p : List Row → Bool} {names : List Text} {columns : List ColumnDescriptor}
variable {absents : List Row} {ls : List (List Row)} {js : List FromJoin} {j : FromJoin} {n : Nat}

theorem length_names (j : FromJoin) : j.side.names.length = j.columns.length :=
  length_map _

namespace Rooted

section

variable (h : Rooted ok n absents ls (j :: js))
include h

theorem absents_concat : Parts ok (absents ++ [nulls j.side.names.length]) := by
  refine h.absentsOk.concat ?_
  rw [h.length, length_names]
  exact (h.joins 0 j rfl).2

theorem tail {ls' : List (List Row)} (hls : ∀ l ∈ ls', l.length = n + 1 ∧ Parts ok l) :
    Rooted ok (n + 1) (absents ++ [nulls j.side.names.length]) ls' js := by
  refine ⟨by rw [length_append, h.length, length_singleton], ?_, h.absents_concat,
    fun k j' hj' => ?_, hls⟩
  · rw [all_append, h.allAbsent, all_cons, absentRow_nulls]
    rfl
  · rw [Nat.add_assoc, Nat.add_comm 1]
    exact h.joins (k + 1) j' hj'

theorem retype (t : JoinType) : Rooted ok n absents ls ({ j with joinType := t } :: js) := by
  refine ⟨h.length, h.allAbsent, h.absentsOk, fun k j' hj' => ?_, h.start⟩
  cases k with
  | zero =>
    cases hj'
    exact h.joins 0 j rfl
  | succ k => exact h.joins (k + 1) j' hj'

end

theorem withTypes (h : Rooted ok n absents ls js) (types : List JoinType) :
    Rooted ok n absents ls (Sql.withTypes js types) := by
  refine ⟨h.length, h.allAbsent, h.absentsOk, fun k j' hj' => ?_, h.start⟩
  obtain ⟨j, hj, heq, _⟩ := getElem?_withTypes hj'
  have hrows : j'.rows = j.rows := congrArg Side.rows heq
  have hcolumns : j'.columns = j.columns := congrArg Side.columns heq
  rw [hrows, hcolumns]
  exact h.joins k j hj

end Rooted

theorem length_reduceTypes (types : List JoinType) :
    (reduceTypes conjuncts inputs types).length = types.length := by
  induction types using reduceTypes.induct conjuncts inputs with
  | case1 types hchanged ih => rw [reduceTypes, if_pos hchanged, ih, length_reducePass]
  | case2 types hsame => rw [reduceTypes, if_neg hsame, length_reducePass]

theorem nullable_of_keepsLeft {types : List JoinType} {k : Nat} {t : JoinType}
    (h : types[k]? = some t) (ht : t.keepsLeft = true) : nullable types (k + 1) = true := by
  refine any_eq_true.mpr ⟨(t, k), mk_mem_zipIdx_iff_getElem?.mpr h, ?_⟩
  cases t with
  | leftOuter | fullOuter => simp
  | _ => cases ht

theorem nullable_of_keepsRight {types : List JoinType} {i k : Nat} {t : JoinType}
    (h : types[k]? = some t) (ht : t.keepsRight = true) (hi : i ≤ k) : nullable types i = true := by
  refine any_eq_true.mpr ⟨(t, k), mk_mem_zipIdx_iff_getElem?.mpr h, ?_⟩
  cases t with
  | rightOuter => simpa using hi
  | fullOuter => simpa using Nat.le_succ_of_le hi
  | _ => cases ht

namespace FromClause

variable (fc : FromClause) (filter : Option FilterExpr)

/-- The rows that joins may put together: for each relation one of its rows, or NULLs. -/
def combos : List (List Row) :=
  (fc.sides.map fun s => nulls s.names.length :: s.rows).sections

def PartOf (i : Nat) (r : Row) : Prop :=
  ∃ s, fc.sides[i]? = some s ∧ r ∈ nulls s.names.length :: s.rows

theorem mem_combos {x : List Row} (hlength : x.length = 1 + fc.joins.length)
    (hparts : Parts fc.PartOf x) : x ∈ fc.combos := by
  rw [combos, mem_sections, forall₂_map_right_iff, forall₂_iff_get]
  have hsides : x.length = fc.sides.length := by
    rw [hlength, sides, length_cons, length_map, Nat.add_comm]
  refine ⟨hsides, fun i hi hi' => ?_⟩
  obtain ⟨s, hs, hr⟩ := hparts i (x.get ⟨i, hi⟩) (getElem?_eq_getElem hi)
  cases (getElem?_eq_getElem hi').symm.trans hs
  exact hr

theorem length_inputs : fc.inputs.length = fc.sides.length := by
  simp [inputs, sides]

theorem rooted : Rooted fc.PartOf 1 [nulls fc.head.names.length]
    (fc.head.rows.map fun row => [row]) fc.joins where
  length := rfl
  allAbsent := by
    rw [all_cons, absentRow_nulls]
    rfl
  absentsOk i r hr := by
    cases i with
    | zero => exact ⟨fc.head, rfl, Option.some.inj hr ▸ mem_cons_self⟩
    | succ i => cases hr
  joins k j hj := by
    have hside : fc.sides[1 + k]? = some j.side := by
      rw [sides, Nat.add_comm, getElem?_cons_succ, getElem?_map, hj]
      rfl
    refine ⟨fun r hr => ⟨j.side, hside, mem_cons_of_mem _ hr⟩, j.side, hside, ?_⟩
    rw [length_names]
    exact mem_cons_self
  start l hl := by
    obtain ⟨row, hrow, rfl⟩ := mem_map.mp hl
    refine ⟨rfl, fun i r hr => ?_⟩
    cases i with
    | zero => exact ⟨fc.head, rfl, Option.some.inj hr ▸ mem_cons_of_mem _ hrow⟩
    | succ i => cases hr

theorem withTypes_types : withTypes fc.joins fc.types = fc.joins := by
  rw [types, withTypes, zipWith_map_right, zipWith_self]
  exact map_id _

/-- The filter as the push-down splits it, and the types of the joins after it. -/
abbrev pushed : PushedFilter := pushedFilter filter fc.inputs fc.pushable fc.types
abbrev reduced : List JoinType := reduceTypes (conjunctsOf filter) fc.inputs fc.types

/-- The input a conjunct of the condition is pushed to. -/
def pushes (c : FilterExpr) : Option Nat :=
  pushesTo fc.inputs fc.pushable (reduceTypes (conjunctsOf filter) fc.inputs fc.types) c

theorem join_pushedInputs (hi : i < fc.sides.length) :
    ((fc.pushed filter).inputs[i]?).join =
      conjunction ((conjunctsOf filter).filter fun c => fc.pushes filter c = some i) := by
  rw [pushed, pushedFilter, getElem?_map, getElem?_range (by rw [length_inputs]; exact hi)]
  rfl

abbrev reducedJoins : List FromJoin :=
  withTypes fc.joins (fc.reduced filter)

end FromClause

section Query

variable [Evaluator]

/-- The rows so far joined with the next relation. -/
def joinNext (left : Side) (j : FromJoin) : Side where
  rows := joinOf (· ++ ·) (· ++ nulls j.columns.length) (nulls left.names.length ++ ·)
    j.joinType.keepsLeft j.joinType.keepsRight
    (fun l r => holdsOption (l ++ r) (left.names ++ j.side.names) (left.columns ++ j.columns)
      j.condition) left.rows j.rows
  names := left.names ++ j.side.names
  columns := left.columns ++ j.columns

/-- The rows of a relation that pass its filter. -/
def Side.filtered (s : Side) (filter : Option FilterExpr) : Side :=
  { s with rows := s.rows.filter fun row => holdsOption row s.names s.columns filter }

/-- The joined relations with their filters, from input `i` on. -/
def filterJoins (filters : List (Option FilterExpr)) : Nat → List FromJoin → List FromJoin
  | _, [] => []
  | i, j :: js =>
    { j with rows := (j.side.filtered (filters[i]?).join).rows } :: filterJoins filters (i + 1) js

/-- The rows of a query: the joined rows for which the condition is true. -/
def queryRows (head : Side) (joins : List FromJoin) (filter : Option FilterExpr) : List Row :=
  let all := joins.foldl joinNext head
  all.rows.filter fun row => holdsOption row all.names all.columns filter

/-- The rows of a query after the push-down. -/
def pushedRows (fc : FromClause) (filter : Option FilterExpr) : List Row :=
  let pushed := pushedFilter filter fc.inputs fc.pushable fc.types
  queryRows (fc.head.filtered (pushed.inputs[0]?).join)
    (filterJoins pushed.inputs 1 (withTypes fc.joins pushed.joinTypes)) pushed.residual

/-! ## The joins as a chain -/

/-- A join as a step of a chain, behind relations with the given columns. -/
def FromJoin.step (names : List Text) (columns : List ColumnDescriptor) (absents : List Row)
    (j : FromJoin) : JoinStep Row where
  keepLeft := j.joinType.keepsLeft
  keepRight := j.joinType.keepsRight
  on l r := holdsOption (l.flatten ++ r) (names ++ j.side.names) (columns ++ j.columns) j.condition
  leftAbsent := absents
  rightAbsent := nulls j.columns.length
  rows := j.rows

def stepsOf (names : List Text) (columns : List ColumnDescriptor) (absents : List Row) :
    List FromJoin → List (JoinStep Row)
  | [] => []
  | j :: js => j.step names columns absents ::
      stepsOf (names ++ j.side.names) (columns ++ j.columns)
        (absents ++ [nulls j.side.names.length]) js

theorem wellFormed_stepsOf (js : List FromJoin) {names : List Text}
    {columns : List ColumnDescriptor} (hlength : absents.length = n)
    (habsents : absents.all absentRow = true) :
    WellFormed absentRow n (stepsOf names columns absents js) := by
  induction js generalizing names columns absents n with
  | nil => exact .nil
  | cons j js ih =>
    refine .cons hlength habsents (absentRow_nulls _) (ih ?_ ?_)
    · rw [length_append, hlength, length_singleton]
    · rw [all_append, habsents, all_cons, absentRow_nulls]
      rfl

theorem foldl_joinNext (js : List FromJoin) (absents : List Row)
    (hrows : left.rows = ls.map List.flatten)
    (habsents : absents.flatten = nulls left.names.length) :
    js.foldl joinNext left =
      { rows := (chain (stepsOf left.names left.columns absents js) ls).map List.flatten
        names := left.names ++ js.flatMap (·.side.names)
        columns := left.columns ++ js.flatMap (·.columns) } := by
  induction js generalizing left absents ls with
  | nil => simp [stepsOf, chain, ← hrows]
  | cons j js ih =>
    have hnext : (joinNext left j).rows =
        ((j.step left.names left.columns absents).apply ls).map flatten := by
      rw [joinNext, hrows]
      exact joinOf_map flatten flatten _ _ _ (fun l r => by simp) (fun l => by simp; rfl)
        (fun r => by simp [FromJoin.step, habsents]) ls
    rw [foldl_cons, ih (absents ++ [nulls j.side.names.length]) hnext]
    · simp [stepsOf, joinNext, chain_cons]
    · simp [habsents, nulls, joinNext]

/-! ## Reduced joins -/

variable (names columns absents js) in
theorem length_stepsOf : (stepsOf names columns absents js).length = js.length := by
  induction js generalizing names columns absents with
  | nil => rfl
  | cons j js ih => rw [stepsOf, length_cons, length_cons, ih]

namespace Rooted

theorem steps (h : Rooted ok n absents ls js) {k : Nat} {s : JoinStep Row}
    (hs : (stepsOf names columns absents js)[k]? = some s) :
    (∀ r ∈ s.rows, ok (n + k) r) ∧ ok (n + k) s.rightAbsent ∧ Parts ok s.leftAbsent := by
  induction js generalizing names columns absents k n ls with
  | nil => cases hs
  | cons j js ih =>
    cases k with
    | zero =>
      cases hs
      exact ⟨(h.joins 0 j rfl).1, (h.joins 0 j rfl).2, h.absentsOk⟩
    | succ k =>
      rw [Nat.add_comm k, ← Nat.add_assoc]
      exact ih (h.tail (forall_mem_nil _)) hs

theorem wellFormed (h : Rooted ok n absents ls js) :
    WellFormed absentRow n (stepsOf names columns absents js) :=
  wellFormed_stepsOf js h.length h.allAbsent

theorem parts (h : Rooted ok n absents ls js) {x : List Row}
    (hx : x ∈ chain (stepsOf names columns absents js) ls) :
    x.length = n + js.length ∧ Parts ok x := by
  rw [← length_stepsOf names columns absents js]
  exact parts_of_mem_chain h.wellFormed (fun k s hs => h.steps hs) h.start hx

variable (names columns) in
theorem next (h : Rooted ok n absents ls (j :: js)) :
    Rooted ok (n + 1) (absents ++ [nulls j.side.names.length])
      ((j.step names columns absents).apply ls) js := by
  have hone : Rooted ok n absents ls [j] :=
    { h with joins := fun k j' hj' => h.joins k j' (by
        cases k with
        | zero => exact hj'
        | succ k => cases hj') }
  refine h.tail fun l hl => ?_
  have hmem : l ∈ chain (stepsOf names columns absents [j]) ls := hl
  exact hone.parts hmem

end Rooted

variable (conjuncts inputs ok p) in
/-- Where a side may not be absent for a conjunct, the condition is not true without it. -/
def Rejects (sides : List (List Nat)) (length : Nat) : Prop :=
  ∀ side ∈ sides, rejectsNulls conjuncts inputs side = true → ∀ x, x.length = length →
    Parts ok x → p x = true → present absentRow side x = true

/-- The first join of a chain may stop keeping a side, for a condition that is not true
where the other side is absent. -/
theorem reducedType_chain (h : Rooted ok n absents ls (j :: js))
    (ht' : reducedType conjuncts inputs n j.joinType = some t')
    (hp : Rejects conjuncts inputs ok p (nullSides n [j.joinType]) (n + (js.length + 1))) :
    (chain (stepsOf names columns absents (j :: js)) ls).filter p =
      (chain (stepsOf names columns absents ({ j with joinType := t' } :: js)) ls).filter p := by
  have hnext := h.next names columns
  have hnext' := (h.retype t').next names columns
  have hp' : ∀ side ∈ nullSides n [j.joinType], rejectsNulls conjuncts inputs side = true →
      ∀ x ∈ chain (stepsOf (names ++ j.side.names) (columns ++ j.columns)
          (absents ++ [nulls j.side.names.length]) js) ((j.step names columns absents).apply ls) ++
        chain (stepsOf (names ++ j.side.names) (columns ++ j.columns)
          (absents ++ [nulls j.side.names.length]) js)
          ((FromJoin.step names columns absents { j with joinType := t' }).apply ls),
        p x = true → present absentRow side x = true := by
    intro side hside hrejects x hx
    have hparts : x.length = n + 1 + js.length ∧ Parts ok x :=
      (mem_append.mp hx).elim hnext.parts hnext'.parts
    exact hp side hside hrejects x (by rw [hparts.1]; omega) hparts.2
  have hlength : ∀ l ∈ ls, l.length = n := fun l hl => (h.start l hl).1
  rw [stepsOf, stepsOf, chain_cons, chain_cons]
  obtain ⟨hrejects, hkeeps, hdrops, hsame⟩ | ⟨hrejects, hkeeps, hdrops, hsame⟩ :=
    reducedType_cases ht'
  · have hstep : FromJoin.step names columns absents { j with joinType := t' } =
        { j.step names columns absents with keepLeft := false } := by
      simp only [FromJoin.step, hdrops, hsame]
      rfl
    refine filter_chain_of_present [n] hnext.wellFormed (fun i hi => by simp at hi; omega)
      (fun l hl => (hnext.start l hl).1) (fun l hl => (hnext'.start l hl).1) ?_
      (hp' [n] (by simp [nullSides, hkeeps]) hrejects)
    rw [hstep]
    exact filter_apply_keepLeft false (absentRow_nulls _) hlength
  · have hstep : FromJoin.step names columns absents { j with joinType := t' } =
        { j.step names columns absents with keepRight := false } := by
      simp only [FromJoin.step, hdrops, hsame]
      rfl
    refine filter_chain_of_present (range n) hnext.wellFormed
      (fun i hi => Nat.lt_succ_of_lt (mem_range.mp hi))
      (fun l hl => (hnext.start l hl).1) (fun l hl => (hnext'.start l hl).1) ?_
      (hp' (range n) (by simp [nullSides, hkeeps]) hrejects)
    rw [hstep]
    exact filter_apply_keepRight false h.length h.allAbsent

theorem reducePass_chain (h : Rooted ok n absents ls js)
    (hp : Rejects conjuncts inputs ok p (nullSides n (js.map (·.joinType))) (n + js.length)) :
    (chain (stepsOf names columns absents js) ls).filter p =
      (chain (stepsOf names columns absents
        (withTypes js (reducePass conjuncts inputs n (js.map (·.joinType))).1)) ls).filter p := by
  induction js generalizing names columns absents ls n with
  | nil => rfl
  | cons j js ih =>
    have htail : ∀ t, Rooted ok n absents ls ({ j with joinType := t } :: js) →
        (chain (stepsOf names columns absents ({ j with joinType := t } :: js)) ls).filter p =
          (chain (stepsOf names columns absents ({ j with joinType := t } :: withTypes js
            (reducePass conjuncts inputs (n + 1) (js.map (·.joinType))).1)) ls).filter p := by
      intro t ht
      refine ih (ht.next names columns) fun side hside hrejects x hx => hp side ?_ hrejects x ?_
      · exact mem_append_right _ hside
      · rw [hx, length_cons]
        omega
    rw [map_cons, reducePass]
    cases ht' : reducedType conjuncts inputs n j.joinType with
    | none => exact htail j.joinType h
    | some t' =>
      rw [reducedType_chain h ht' fun side hside => hp side ?_]
      · exact htail t' (h.retype t')
      · rw [nullSides, nullSides, append_nil] at hside
        exact mem_append_left _ hside

theorem reducePass_withTypes (h : Rooted ok 1 absents ls js) {types : List JoinType}
    (htypes : types.length = js.length)
    (hp : Rejects conjuncts inputs ok p (nullSides 1 types) (1 + js.length)) :
    (chain (stepsOf names columns absents (withTypes js types)) ls).filter p =
      (chain (stepsOf names columns absents
        (withTypes js (reducePass conjuncts inputs 1 types).1)) ls).filter p := by
  rw [reducePass_chain (h.withTypes types), map_joinType_withTypes js htypes,
    withTypes_withTypes js htypes]
  rw [map_joinType_withTypes js htypes, length_withTypes js htypes]
  exact hp

theorem reduceTypes_chain (h : Rooted ok 1 absents ls js) (types : List JoinType)
    (htypes : types.length = js.length)
    (hp : Rejects conjuncts inputs ok p (nullSides 1 types) (1 + js.length)) :
    (chain (stepsOf names columns absents (withTypes js types)) ls).filter p =
      (chain (stepsOf names columns absents
        (withTypes js (reduceTypes conjuncts inputs types))) ls).filter p := by
  induction types using reduceTypes.induct conjuncts inputs with
  | case1 types hchanged ih =>
    rw [reducePass_withTypes h htypes hp, reduceTypes, if_pos hchanged]
    refine ih ?_ fun side hside => hp side (nullSides_reducePass 1 types hside)
    rw [length_reducePass, htypes]
  | case2 types hsame => rw [reducePass_withTypes h htypes hp, reduceTypes, if_neg hsame]

section Filter

variable {filters : List (Option FilterExpr)} {q : Nat → Row → Bool}

theorem stepsOf_filterJoins (hq : ∀ k j, js[k]? = some j → ∀ r,
      q (n + k) r = holdsOption r j.side.names j.columns (filters[n + k]?).join) :
    stepsOf names columns absents (filterJoins filters n js) =
      filterSteps q n (stepsOf names columns absents js) := by
  induction js generalizing names columns absents n with
  | nil => rfl
  | cons j js ih =>
    have hhead : q n = fun r => holdsOption r j.side.names j.columns (filters[n]?).join :=
      funext (hq 0 j rfl)
    rw [filterJoins, stepsOf, stepsOf, filterSteps, hhead]
    refine congrArg _ (ih fun k j' hj' => ?_)
    rw [Nat.add_assoc, Nat.add_comm 1]
    exact hq (k + 1) j' hj'

theorem filterable_stepsOf (hleft : ∀ k j, js[k]? = some j → j.joinType.keepsLeft = true →
      ∀ r, q (n + k) r = true)
    (hright : ∀ k j, js[k]? = some j → j.joinType.keepsRight = true →
      ∀ i < n + k, ∀ r, q i r = true) : Filterable q n (stepsOf names columns absents js) := by
  induction js generalizing names columns absents n with
  | nil => exact .nil
  | cons j js ih =>
    refine .cons (hleft 0 j rfl) (hright 0 j rfl) (ih (fun k j' hj' => ?_) fun k j' hj' => ?_)
    · rw [Nat.add_assoc, Nat.add_comm 1]
      exact hleft (k + 1) j' hj'
    · rw [Nat.add_assoc, Nat.add_comm 1]
      exact hright (k + 1) j' hj'

theorem flatMap_filterJoins (f : List Text → List ColumnDescriptor → List β)
    {types : List JoinType} (h : types.length = js.length) :
    (filterJoins filters n (withTypes js types)).flatMap (fun j => f j.side.names j.columns) =
      js.flatMap fun j => f j.side.names j.columns := by
  induction js generalizing n types with
  | nil => rfl
  | cons j js ih =>
    obtain _ | ⟨t, types⟩ := types
    · cases h
    · exact congrArg (f j.side.names j.columns ++ ·) (ih (Nat.succ.inj h))

end Filter

theorem queryRows_eq (head : Side) (joins : List FromJoin) (filter : Option FilterExpr) :
    queryRows head joins filter =
      ((chain (stepsOf head.names head.columns [nulls head.names.length] joins)
        (head.rows.map fun row => [row])).filter fun x =>
          holdsOption x.flatten (head.names ++ joins.flatMap (·.side.names))
            (head.columns ++ joins.flatMap (·.columns)) filter).map List.flatten := by
  have hrows : head.rows = (head.rows.map fun row => [row]).map flatten := by
    simp [Function.comp_def]
  rw [queryRows, foldl_joinNext joins [nulls head.names.length] hrows (by simp)]
  simp only [filter_map, Function.comp_def]

/-! ## The rows stay the same -/

theorem holdsOption_conjunctsOf {names : List Text} {columns : List ColumnDescriptor}
    (filter : Option FilterExpr) :
    holdsOption row names columns filter =
      (conjunctsOf filter).all (holds row names columns) := by
  cases filter with
  | none => rfl
  | some f => exact holds_conjuncts f

/-! ## Rejected NULLs -/

/-- What `eval_expr` and `apply_binary_op` do with NULLs. -/
structure NullLaws : Prop where
  column : ∀ {row names name i v}, colPos names name = some i → row[i]? = some v →
    evalExpr (.column name) row names = v
  unary : ∀ {row names e op}, evalExpr e row names = .null →
    evalExpr (.unary (.unary op) e) row names = .null
  cast : ∀ {row names e target}, evalExpr e row names = .null →
    evalExpr (.unary (.cast target) e) row names = .null
  /-- Two row expressions are compared otherwise, but they are not strict. -/
  binary : ∀ {row names op l r}, op.nullStrict = true → strictOps l = true → strictOps r = true →
    evalExpr l row names = .null ∨ evalExpr r row names = .null →
    evalExpr (.binary (.binary op) l r) row names = .null
  applyBinary : ∀ {op v}, op.nullStrict = true → applyBinaryOp op .null v = .null

/-- The columns that the references name are NULL. -/
def NullAt (row : Row) (names : List Text) (refs : List Text) : Prop :=
  ∀ name ∈ refs, ∃ i, colPos names name = some i ∧ row[i]? = some .null

omit [Evaluator] in
theorem cell_of_getElem? {row : Row} (h : row[i]? = some v) : cell row i = v := by
  rw [cell, h, Option.getD_some]

section Nulls

variable (hl : NullLaws) {row : Row}
include hl

theorem evalExpr_of_nullAt : ∀ {e : ScalarExpr}, strictOps e = true → scalarColumnRefs e ≠ [] →
    NullAt row names (scalarColumnRefs e) → evalExpr e row names = .null
  | .literal _, _, hrefs, _ => absurd rfl hrefs
  | .column name, _, _, hnull => by
    obtain ⟨i, hi, hrow⟩ := hnull name mem_cons_self
    exact hl.column hi hrow
  | .unary head e, hstrict, hrefs, hnull => by
    cases head with
    | unary op => exact hl.unary (evalExpr_of_nullAt (e := e) hstrict hrefs hnull)
    | cast ty => exact hl.cast (evalExpr_of_nullAt (e := e) hstrict hrefs hnull)
    | _ => cases hstrict
  | .binary head l r, hstrict, hrefs, hnull => by
    cases head with
    | binary op =>
      simp only [strictOps, Bool.and_eq_true] at hstrict
      obtain ⟨hop, hstrictl, hstrictr⟩ := hstrict
      refine hl.binary hop hstrictl hstrictr ?_
      by_cases hrefsl : scalarColumnRefs l = []
      · refine .inr (evalExpr_of_nullAt hstrictr ?_ fun n hn => hnull n (mem_append_right _ hn))
        simpa [scalarColumnRefs, hrefsl] using hrefs
      · exact .inl (evalExpr_of_nullAt hstrictl hrefsl fun n hn => hnull n (mem_append_left _ hn))
    | _ => cases hstrict
  | .call _ _, hstrict, _, _ => by cases hstrict
  | .subquery _ _, hstrict, _, _ => by cases hstrict

theorem evalFilter_of_unknownOnNulls : ∀ {c : FilterExpr}, unknownOnNulls c = true →
    NullAt row names (filterColumnRefs c) → evalFilter row names columns c = none
  | .predicate p, _, hnull => by
    obtain ⟨i, hi, hrow⟩ := hnull p.left mem_cons_self
    simp [evalFilter, evalPredicate, predicateLeft, hi, cell_of_getElem? hrow, Value.isNull]
  | .inList left list negated, _, hnull => by
    obtain ⟨i, hi, hrow⟩ := hnull left mem_cons_self
    simp [evalFilter, evalInList, hi, cell_of_getElem? hrow, Value.isNull]
  | .inSubquery left subquery negated leftValue, hshape, hnull => by
    simp only [unknownOnNulls, Bool.and_eq_true, decide_eq_true_eq, Option.isNone_iff_eq_none]
      at hshape
    obtain ⟨hleft, rfl⟩ := hshape
    rw [filterColumnRefs, if_neg hleft] at hnull
    obtain ⟨i, hi, hrow⟩ := hnull left mem_cons_self
    simp [evalFilter, evalInSubquery, inSubqueryValue, hi, cell_of_getElem? hrow, Value.isNull]
  | .compareSubquery left op subquery, hshape, hnull => by
    rw [filterColumnRefs, if_neg (of_decide_eq_true hshape)] at hnull
    obtain ⟨i, hi, hrow⟩ := hnull left mem_cons_self
    simp [evalFilter, evalCompareSubquery, hi, cell_of_getElem? hrow, Value.isNull]
  | .exprCmp left op right, hshape, hnull => by
    simp only [unknownOnNulls, Bool.and_eq_true, Bool.not_eq_true', isEmpty_eq_false_iff] at hshape
    obtain ⟨⟨hleft, hright⟩, hrefs⟩ := hshape
    by_cases hrefsl : scalarColumnRefs left = []
    · have hr := evalExpr_of_nullAt hl hright (by simpa [hrefsl] using hrefs) fun n hn =>
        hnull n (mem_append_right _ hn)
      simp [evalFilter, hr, Value.isNull]
    · have hl' := evalExpr_of_nullAt hl hleft hrefsl fun n hn => hnull n (mem_append_left _ hn)
      simp [evalFilter, hl', Value.isNull]
  | .and a b, hshape, hnull => by
    simp only [unknownOnNulls, Bool.and_eq_true] at hshape
    rw [evalFilter,
      evalFilter_of_unknownOnNulls hshape.1 fun n hn => hnull n (mem_append_left _ hn),
      evalFilter_of_unknownOnNulls hshape.2 fun n hn => hnull n (mem_append_right _ hn)]
    rfl
  | .not inner, hshape, hnull => by
    rw [evalFilter, evalFilter_of_unknownOnNulls (c := inner) hshape hnull]
    rfl
  | .or _ _, hshape, _ | .isNull _, hshape, _ | .isNotNull _, hshape, _ | .exists _ _, hshape, _
  | .scalar _, hshape, _ | .quantifiedSubquery _ _ _ _, hshape, _ => by cases hshape

theorem quantifiedItems_null (hop : op.nullStrict = true) (items : List Value) (unknown : Bool) :
    (quantifiedItems op .null false unknown items).toCondition ≠ some true := by
  induction items generalizing unknown with
  | nil => cases unknown <;> simp [quantifiedItems, Value.toCondition]
  | cons item items ih =>
    rw [quantifiedItems, hl.applyBinary hop]
    exact ih true

theorem holds_of_untrueOnNulls {c : FilterExpr} (hshape : untrueOnNulls c = true)
    (hnull : NullAt row names (filterColumnRefs c)) : holds row names columns c = false := by
  rw [holds, beq_eq_false_iff_ne]
  cases c with
  | quantifiedSubquery left op subquery all =>
    simp only [untrueOnNulls, Bool.and_eq_true, Bool.not_eq_true', isEmpty_eq_false_iff] at hshape
    obtain ⟨rfl, hop, hstrict, hrefs⟩ := hshape
    rw [evalFilter, evalExpr_of_nullAt hl hstrict hrefs hnull]
    cases runSubplan row names subquery with
    | none => simp
    | some out => exact quantifiedItems_null hl hop _ _
  | _ =>
    rw [evalFilter_of_unknownOnNulls hl hshape hnull]
    simp

end Nulls

namespace FromClause

variable (fc : FromClause) (filter : Option FilterExpr)

/-- The conjuncts are what the push-down takes them for. Where some conjunct is taken to
reject NULLs on a side of an outer join, there is one that reads columns of this side only
and has a shape for which the test is right. A conjunct that is pushed to a relation is
true for a joined row if and only if it is true for the relation's part of the row. -/
structure PushSound : Prop where
  widths : ∀ s ∈ fc.sides, ∀ r ∈ s.rows, r.length = s.names.length
  rejects : ∀ side ∈ nullSides 1 fc.types,
    rejectsNulls (conjunctsOf filter) fc.inputs side = true →
      ∃ c ∈ conjunctsOf filter, untrueOnNulls c = true ∧
        ∀ name ∈ filterColumnRefs c, fc.reads side name = true
  locals : ∀ c ∈ conjunctsOf filter, ∀ i ∈ fc.pushes filter c,
    ∀ x ∈ fc.combos, ∀ r ∈ x[i]?, ∀ s ∈ fc.sides[i]?,
      holds r s.names s.columns c = holds x.flatten fc.names fc.columns c

instance : Decidable (fc.PushSound filter) :=
  decidable_of_iff (_ ∧ _ ∧ _)
    ⟨fun h => ⟨h.1, h.2.1, h.2.2⟩, fun h => ⟨h.widths, h.rejects, h.locals⟩⟩

omit [Evaluator] in
theorem getElem?_flatten_of_owner {sides : List Side} {x : List Row} {n k i : Nat}
    (hx : Forall₂ (fun r s => r.length = s.names.length) x sides)
    (hi : (ownersFrom n sides)[k]? = some i) :
    ∃ r, x[i - n]? = some r ∧ n ≤ i ∧ ∃ v ∈ r, x.flatten[k]? = some v := by
  induction hx generalizing n k with
  | nil => cases hi
  | @cons r s x sides hlength _ ih =>
    rw [ownersFrom] at hi
    by_cases hk : k < s.names.length
    · rw [getElem?_append_left (by simpa using hk), getElem?_replicate, if_pos hk] at hi
      cases hi
      have hr : r[k]? = some r[k] := getElem?_eq_getElem (hlength ▸ hk)
      refine ⟨r, by simp, Nat.le_refl _, r[k], getElem_mem _, ?_⟩
      rw [flatten_cons, getElem?_append_left (hlength ▸ hk), hr]
    · rw [getElem?_append_right (by simpa using hk), length_replicate] at hi
      obtain ⟨r', hr', hle, v, hv, hget⟩ := ih hi
      refine ⟨r', ?_, Nat.le_of_succ_le hle, v, hv, ?_⟩
      · rw [← Nat.succ_pred_eq_of_pos (Nat.sub_pos_of_lt hle), getElem?_cons_succ]
        exact hr'
      · rw [flatten_cons, getElem?_append_right (by omega), hlength, hget]

omit [Evaluator] in
theorem lengths_of_parts {sides : List Side} {x : List Row}
    (hwidths : ∀ s ∈ sides, ∀ r ∈ s.rows, r.length = s.names.length)
    (hx : Forall₂ (fun r s => r ∈ nulls s.names.length :: s.rows) x sides) :
    Forall₂ (fun r s => r.length = s.names.length) x sides := by
  induction hx with
  | nil => exact .nil
  | @cons r s x sides hr _ ih =>
    obtain ⟨hs, hsides⟩ := forall_mem_cons.mp hwidths
    refine .cons ?_ (ih hsides)
    obtain rfl | hr := mem_cons.mp hr
    · exact length_replicate
    · exact hs r hr

omit [Evaluator] in
theorem nullAt_of_absent {fc : FromClause} {x : List Row} {side : List Nat} {refs : List Text}
    (hwidths : ∀ s ∈ fc.sides, ∀ r ∈ s.rows, r.length = s.names.length) (hx : x ∈ fc.combos)
    (habsent : present absentRow side x = false)
    (hrefs : ∀ name ∈ refs, fc.reads side name = true) : NullAt x.flatten fc.names refs := by
  intro name hname
  obtain ⟨k, hk, howner⟩ := (Option.any_eq_true _ _).mp (hrefs name hname)
  obtain ⟨i, hi, hside⟩ := (Option.any_eq_true _ _).mp howner
  rw [combos, mem_sections, forall₂_map_right_iff] at hx
  obtain ⟨r, hr, _, v, hv, hget⟩ := getElem?_flatten_of_owner (lengths_of_parts hwidths hx) hi
  rw [present, Bool.not_eq_false', all_eq_true] at habsent
  have hnull := habsent i (of_decide_eq_true hside)
  rw [Nat.sub_zero] at hr
  rw [hr, Option.all_some, absentRow, all_eq_true] at hnull
  have hv := hnull v hv
  cases v with
  | null => exact ⟨k, hk, hget⟩
  | _ => cases hv

/-- The test that the rows of an input pass before the joins. -/
def pushedTest (i : Nat) (r : Row) : Bool :=
  (fc.sides[i]?).all fun s => holdsOption r s.names s.columns
    ((pushedFilter filter fc.inputs fc.pushable fc.types).inputs[i]?).join

variable {fc filter}

theorem pushedTest_eq (hs : fc.sides[i]? = some s) (r : Row) :
    fc.pushedTest filter i r =
      ((conjunctsOf filter).filter fun c => fc.pushes filter c = some i).all
        (holds r s.names s.columns) := by
  have hi := (List.getElem?_eq_some_iff.mp hs).1
  rw [pushedTest, hs, Option.all_some, join_pushedInputs _ _ hi, holdsOption_conjunction]

theorem pushedTest_of_nullable {i : Nat}
    (h : nullable (fc.reduced filter) i = true) (r : Row) : fc.pushedTest filter i r = true := by
  cases hs : fc.sides[i]? with
  | none => rw [pushedTest, hs, Option.all_none]
  | some s =>
    have hnone : (conjunctsOf filter).filter (fun c => fc.pushes filter c = some i) = [] := by
      refine filter_eq_nil_iff.mpr fun c _ hc => ?_
      have hc := (Option.filter_eq_some_iff.mp (of_decide_eq_true hc)).2
      simp [h] at hc
    rw [pushedTest_eq hs, hnone]
    rfl

section

variable (h : PushSound fc filter)
include h

theorem holdsOption_residual {x : List Row} (hx : x ∈ fc.combos)
    (hlength : x.length = fc.sides.length) :
    holdsOption x.flatten fc.names fc.columns filter =
      (holdsOption x.flatten fc.names fc.columns
          (fc.pushed filter).residual &&
        partsPass (fc.pushedTest filter) x) := by
  rw [holdsOption_conjunctsOf, pushed, pushedFilter, holdsOption_conjunction, Bool.eq_iff_iff,
    Bool.and_eq_true, all_eq_true, all_eq_true, partsPass, all_eq_true]
  constructor
  · intro hall
    refine ⟨fun c hc => hall c (mem_of_mem_filter hc), ?_⟩
    rintro ⟨r, i⟩ hr
    have hr := mk_mem_zipIdx_iff_getElem?.mp hr
    have hi := hlength ▸ (List.getElem?_eq_some_iff.mp hr).1
    have hs := getElem?_eq_getElem hi
    rw [pushedTest_eq hs, all_eq_true]
    intro c hc
    obtain ⟨hc, hpush⟩ := mem_filter.mp hc
    rw [h.locals c hc i (of_decide_eq_true hpush) x hx r hr _ hs]
    exact hall c hc
  · rintro ⟨hrest, hparts⟩ c hc
    cases hpush : fc.pushes filter c with
    | none => exact hrest c (mem_filter.mpr ⟨hc, by rw [← pushes, hpush]; rfl⟩)
    | some i =>
      have hi := singleInput_lt (Option.filter_eq_some_iff.mp hpush).1
      rw [length_inputs] at hi
      have hs := getElem?_eq_getElem hi
      have hr := getElem?_eq_getElem (hlength.symm ▸ hi)
      have htest := hparts _ (mk_mem_zipIdx_iff_getElem?.mpr hr)
      rw [pushedTest_eq hs, all_eq_true] at htest
      rw [← h.locals c hc i hpush x hx _ hr _ hs]
      exact htest c (mem_filter.mpr ⟨hc, decide_eq_true hpush⟩)

variable (fc) in
/-- Joins as steps that start with the rows of the head. -/
abbrev steps (joins : List FromJoin) : List (JoinStep Row) :=
  stepsOf fc.head.names fc.head.columns [nulls fc.head.names.length] joins

theorem chain_pushed :
    (chain (fc.steps (filterJoins (fc.pushed filter).inputs 1 (fc.reducedJoins filter)))
        ((fc.head.filtered ((fc.pushed filter).inputs[0]?).join).rows.map fun row =>
          [row])).filter (fun x =>
            holdsOption x.flatten fc.names fc.columns (fc.pushed filter).residual) =
      (chain (fc.steps (fc.reducedJoins filter)) (fc.head.rows.map fun row => [row])).filter
        fun x => holdsOption x.flatten fc.names fc.columns filter := by
  have hroot := fc.rooted.withTypes (fc.reduced filter)
  have hsteps : fc.steps (filterJoins (fc.pushed filter).inputs 1 (fc.reducedJoins filter)) =
      filterSteps (fc.pushedTest filter) 1 (fc.steps (fc.reducedJoins filter)) := by
    refine stepsOf_filterJoins fun k j' hj' r => ?_
    obtain ⟨j, hj, hside, _⟩ := getElem?_withTypes hj'
    have hcolumns : j'.columns = j.side.columns := congrArg Side.columns hside
    rw [pushedTest, sides, Nat.add_comm, getElem?_cons_succ, getElem?_map, hj, hside, hcolumns]
    rfl
  have hhead : ((fc.head.filtered ((fc.pushed filter).inputs[0]?).join).rows.map fun row => [row]) =
      (fc.head.rows.map fun row => [row]).filter (partsPass (fc.pushedTest filter)) := by
    rw [filter_map]
    refine congrArg _ (filter_congr fun row _ => ?_)
    simp [partsPass, pushedTest, sides]
  have hfilterable : Filterable (fc.pushedTest filter) 1 (fc.steps (fc.reducedJoins filter)) := by
    refine filterable_stepsOf (fun k j' hj' hkeeps => ?_) fun k j' hj' hkeeps i hi => ?_
    · obtain ⟨_, _, _, htype⟩ := getElem?_withTypes hj'
      rw [Nat.add_comm]
      exact pushedTest_of_nullable (nullable_of_keepsLeft htype hkeeps)
    · obtain ⟨_, _, _, htype⟩ := getElem?_withTypes hj'
      exact pushedTest_of_nullable (nullable_of_keepsRight htype hkeeps (by omega))
  rw [hsteps, hhead, chain_filter hroot.wellFormed hfilterable fun l hl => (hroot.start l hl).1,
    filter_filter]
  refine filter_congr fun x hx => ?_
  obtain ⟨hlength, hparts⟩ := hroot.parts hx
  rw [length_withTypes _ (by rw [length_reduceTypes, types, length_map])] at hlength
  refine (holdsOption_residual h (fc.mem_combos hlength hparts) ?_).symm
  rw [hlength, sides, length_cons, length_map, Nat.add_comm]

theorem chain_reduced (hl : NullLaws) :
    (chain (fc.steps fc.joins) (fc.head.rows.map fun row => [row])).filter (fun x =>
          holdsOption x.flatten fc.names fc.columns filter) =
      (chain (fc.steps (fc.reducedJoins filter)) (fc.head.rows.map fun row => [row])).filter
        fun x => holdsOption x.flatten fc.names fc.columns filter := by
  have hp : Rejects (conjunctsOf filter) fc.inputs fc.PartOf
      (fun x => holdsOption x.flatten fc.names fc.columns filter) (nullSides 1 fc.types)
      (1 + fc.joins.length) := by
    intro side hside hrejects x hx hparts hholds
    by_contra habsent
    obtain ⟨c, hc, hshape, hrefs⟩ := h.rejects side hside hrejects
    have hnull := nullAt_of_absent h.widths (fc.mem_combos hx hparts)
      (Bool.eq_false_iff.mpr habsent) hrefs
    simp only [holdsOption_conjunctsOf, all_eq_true] at hholds
    exact Bool.false_ne_true ((holds_of_untrueOnNulls hl hshape hnull).symm.trans (hholds c hc))
  conv_lhs => rw [← fc.withTypes_types]
  exact reduceTypes_chain fc.rooted fc.types (by rw [types, length_map]) hp

theorem pushedRows_eq (hl : NullLaws) :
    pushedRows fc filter = queryRows fc.head fc.joins filter := by
  have hlength : (fc.reduced filter).length =
      fc.joins.length := by
    rw [length_reduceTypes, types, length_map]
  have hnames : fc.head.names ++ fc.joins.flatMap (·.side.names) = fc.names := by
    simp [names, sides, flatMap_map]
  have hcolumns : fc.head.columns ++ fc.joins.flatMap (·.columns) = fc.columns := by
    simp [columns, sides, flatMap_map, FromJoin.side]
  rw [pushedRows, queryRows_eq, queryRows_eq, hnames, hcolumns, chain_reduced h hl,
    ← chain_pushed h]
  simp only [pushedFilter, flatMap_filterJoins (fun names _ => names) hlength,
    flatMap_filterJoins (fun _ columns => columns) hlength]
  rw [← hnames, ← hcolumns]
  rfl

end

end FromClause

end Query

end Reduce

/-! ## Two tables -/

namespace Fixed

/-- `a LEFT JOIN b ON a.id = b.id` for a table `a` with the column `id` and a table `b`
with the columns `id` and `x`. -/
def leftJoined (as bs : List Row) : FromClause where
  head :=
    { rows := as
      names := [ascii "a.id"]
      columns := [⟨ascii "id", ascii "INT"⟩] }
  joins :=
    [{ joinType := .leftOuter
       label := ascii "b"
       condition := some (.predicate ⟨ascii "a.id", .eq, .ident (ascii "b.id")⟩)
       columns := [⟨ascii "id", ascii "INT"⟩, ⟨ascii "x", ascii "INT"⟩]
       rows := bs
       pushable := true }]

/-- `SELECT y FROM e`. -/
def allOfE : LogicalPlan :=
  .select
    { ctes := []
      tableName := ascii "e"
      tableAlias := none
      joins := []
      projection := [.column (ascii "y")]
      groupBy := []
      filter := none
      having := none
      groupingSets := none
      limit := none
      offset := none
      distinct := false
      sort := []
      groupExprs := []
      distinctOn := [] }

/-- An evaluator for which every query has no rows. -/
@[reducible] def noRows : Evaluator := evaluator fun _ => some ⟨[], [], []⟩

theorem nullLaws_noRows : letI := noRows; NullLaws := by
  refine @NullLaws.mk noRows (fun hi hrow => ?_) (fun _ => rfl) (fun _ => rfl) (fun _ _ _ _ => rfl)
    fun _ => rfl
  change ((colPos _ _).map (cell _)).getD Value.null = _
  rw [hi]
  exact cell_of_getElem? hrow

end Fixed

end NodusDb.Sql
