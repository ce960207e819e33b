import NodusDb.Sql.Correlation
import NodusDb.Sql.Value

/-!
# Evaluation of conditions

A condition over a row is true, false or unknown. The evaluation of expressions, the
execution of subqueries and the conversions between types are parameters.
-/

namespace NodusDb.Sql

structure ColumnDescriptor where
  name : Text
  dataType : Text

/-- The rows of a query with the names and types of their columns. -/
structure QueryOutput where
  columns : List Text
  types : List Text
  rows : List Row

/-- What the evaluation of conditions needs of the rest of the executor. -/
class Evaluator extends Primitives, toCase : Lowercase where
  /-- `eval_expr`. -/
  evalExpr : ScalarExpr → Row → List Text → Value
  /-- `execute_logical_inner`; a query that fails has no output. -/
  executeLogicalInner : LogicalPlan → Option QueryOutput
  /-- A literal operand as a value of a type. -/
  coerceOperand : Value → Text → Value
  /-- `coerce(&render(v), column_type(ty))`. -/
  coerceRendered : Value → Text → Value
  /-- `parse_json_ref`: a name that stands for an access to a JSON column. -/
  parseJsonRef : Text → Option (Text × Text × Text)
  /-- `json_extract`. -/
  jsonExtract : Value → Text → Text → Value
  /-- `value_contains`. -/
  valueContains : Value → Value → Bool
  /-- The length of a text that reads as an interval. -/
  intervalSpan : Text → Option Int
  /-- `jsonpath::is_type`. -/
  isJsonpathType : Text → Bool
  /-- `==` on expressions. -/
  exprEq : ScalarExpr → ScalarExpr → Bool
  /-- `apply_binary_op`. -/
  applyBinaryOp : ScalarBinaryOp → Value → Value → Value

open Evaluator

/-! ## Three-valued logic -/

def and3 : Option Bool → Option Bool → Option Bool
  | some false, _ | _, some false => some false
  | some true, some true => some true
  | _, _ => none

def or3 : Option Bool → Option Bool → Option Bool
  | some true, _ | _, some true => some true
  | some false, some false => some false
  | _, _ => none

@[simp] theorem and3_eq_true {a b : Option Bool} :
    and3 a b = some true ↔ a = some true ∧ b = some true := by
  rcases a with _ | _ | _ <;> rcases b with _ | _ | _ <;> simp [and3]

/-- The outcome of a test for membership: a NULL among the values leaves a miss unknown. -/
def membership (isMatch foundNull negated : Bool) : Option Bool :=
  if isMatch then some (!negated) else if foundNull then none else some negated

section Eval

variable [Evaluator]

/-- Texts that read as intervals compare by their length. -/
def intervalAwareCompare (a b : Value) : Ordering :=
  match a, b with
  | .text ls, .text rs =>
    match intervalSpan ls, intervalSpan rs with
    | some l, some r => Ord.compare l r
    | _, _ => compare a b
  | _, _ => compare a b

/-- The outcome of a comparison of values that are not NULL. -/
def compareHolds (op : CompareOp) (left right : Value) : Bool :=
  let ord := intervalAwareCompare left right
  match op with
  | .eq => ord == .eq
  | .ne => ord != .eq
  | .lt => ord == .lt
  | .le => ord != .gt
  | .gt => ord == .gt
  | .ge => ord != .lt
  | .contains => valueContains left right
  | .containedBy => valueContains right left

/-- The same for a comparison with a subquery's value. -/
def compareSubqueryHolds (op : CompareOp) (left right : Value) : Bool :=
  match op with
  | .eq => valuesEqual left right
  | .ne => !valuesEqual left right
  | .lt => compare left right == .lt
  | .le => compare left right != .gt
  | .gt => compare left right == .gt
  | .ge => compare left right != .lt
  | .contains | .containedBy => false

/-- `left <op> ANY|ALL (items)`: any true comparison, all of them not false. -/
def quantifiedItems (op : ScalarBinaryOp) (left : Value) (all : Bool) : Bool → List Value → Value
  | unknown, [] => if unknown then .null else .bool all
  | unknown, item :: items =>
    match applyBinaryOp op left item with
    | .bool b => if b != all then .bool b else quantifiedItems op left all unknown items
    | _ => quantifiedItems op left all true items

mutual

/-- The items of arrays in the place of the arrays. -/
def flattenValue : Value → List Value
  | .array items => flattenValues items
  | v => [v]

def flattenValues : List Value → List Value
  | [] => []
  | v :: vs => flattenValue v ++ flattenValues vs

end

def quantifiedCompare (op : ScalarBinaryOp) (left : Value) (items : List Value) (all : Bool) :
    Value :=
  quantifiedItems op left all false (flattenValues items)

def Value.toCondition : Value → Option Bool
  | .bool b => some b
  | _ => none

variable (row : Row) (colNames : List Text) (columns : List ColumnDescriptor)

/-- The value in a column; a row that is too short has NULL there. -/
def cell (i : Nat) : Value := (row[i]?).getD .null

def typeAt (i : Nat) : Text := ((columns[i]?).map (·.dataType)).getD []

def evalOperand (op : Operand) (expectedType : Text) : Value :=
  match op with
  | .literal v => coerceOperand v expectedType
  | .ident col => ((colPos colNames col).map (cell row)).getD .null

/-- A correlated subquery is run with the row's values. -/
def runSubplan (plan : LogicalPlan) : Option QueryOutput :=
  if subqueryIsCorrelated plan then executeLogicalInner (correlatePlan row colNames [] plan)
  else executeLogicalInner plan

/-- The left side of a comparison: a column, or an access to a JSON column. -/
def predicateLeft (left : Text) : Option (Value × Text) :=
  match colPos colNames left with
  | some i => some (cell row i, typeAt columns i)
  | none => do
    let (base, op, key) ← parseJsonRef left
    let i ← colNames.findIdx? fun c => c = base ∨ (dot :: base).isSuffixOf c
    pure (jsonExtract (cell row i) op key, ascii "TEXT")

def evalPredicate (p : Predicate) : Option Bool :=
  match predicateLeft row colNames columns p.left with
  | none => some false
  | some (left, expectedType) =>
    let right := evalOperand row colNames p.right expectedType
    if left.isNull || right.isNull then none else some (compareHolds p.op left right)

def evalInList (left : Text) (list : List Operand) (negated : Bool) : Option Bool :=
  match colPos colNames left with
  | none => some false
  | some i =>
    if isJsonpathType (typeAt columns i) || (cell row i).isNull then none
    else
      let values := list.map fun op => evalOperand row colNames op (typeAt columns i)
      membership (values.any fun v => !v.isNull && valuesEqual (cell row i) v)
        (values.any Value.isNull) negated

/-- `left IN (subquery)` for a value on the left; a column's type is the type the
subquery's values are read as. -/
def inSubqueryValue (left : Value) (coerceType : Option Text) (subquery : LogicalPlan)
    (negated : Bool) : Option Bool :=
  if coerceType.any isJsonpathType || left.isNull then none
  else do
    let out ← runSubplan row colNames subquery
    let values := (out.rows.filterMap List.head?).map fun c =>
      match coerceType with
      | some ty => if c.isNull then .null else coerceRendered c ty
      | none => c
    membership (values.any fun v => !v.isNull && valuesEqual left v) (values.any Value.isNull)
      negated

def evalInSubquery (left : Text) (subquery : LogicalPlan) (negated : Bool)
    (leftValue : Option Value) : Option Bool :=
  match leftValue with
  | some v => inSubqueryValue row colNames v none subquery negated
  | none =>
    match colPos colNames left with
    | none => some false
    | some i => inSubqueryValue row colNames (cell row i) (some (typeAt columns i)) subquery negated

def evalCompareSubquery (left : Text) (op : CompareOp) (subquery : LogicalPlan) : Option Bool :=
  match colPos colNames left with
  | none => some false
  | some i =>
    if (cell row i).isNull then none
    else do
      let out ← runSubplan row colNames subquery
      -- More than one row is an error of the statement.
      if 1 < out.rows.length then none
      else
        let right := ((out.rows.head?.bind List.head?).map fun v =>
          if v.isNull then .null else coerceRendered v (typeAt columns i)).getD .null
        if right.isNull then none else some (compareSubqueryHolds op (cell row i) right)

def evalFilter : FilterExpr → Option Bool
  | .and a b => and3 (evalFilter a) (evalFilter b)
  | .or a b => or3 (evalFilter a) (evalFilter b)
  | .not a => (evalFilter a).map (!·)
  | .isNull c =>
    match colPos colNames c with
    | some i => some (cell row i).isNull
    | none => some false
  | .isNotNull c =>
    match colPos colNames c with
    | some i => some (!(cell row i).isNull)
    | none => some false
  | .predicate p => evalPredicate row colNames columns p
  | .compareSubquery left op subquery => evalCompareSubquery row colNames columns left op subquery
  | .inList left list negated => evalInList row colNames columns left list negated
  | .inSubquery left subquery negated leftValue =>
    evalInSubquery row colNames columns left subquery negated leftValue
  | .exprCmp left op right =>
    let l := evalExpr left row colNames
    let r := evalExpr right row colNames
    if l.isNull || r.isNull then none else some (compareHolds op l r)
  | .exists subquery negated =>
    (runSubplan row colNames subquery).map fun out => !out.rows.isEmpty != negated
  | .scalar e => (evalExpr e row colNames).toCondition
  | .quantifiedSubquery left op subquery all => do
    let out ← runSubplan row colNames subquery
    let items := out.rows.map fun r => r.head?.getD .null
    (quantifiedCompare op (evalExpr left row colNames) items all).toCondition

/-- A row is kept when the condition is true. -/
def holds (filter : FilterExpr) : Bool := evalFilter row colNames columns filter == some true

/-- The same for a condition that may be missing. -/
def holdsOption (filter : Option FilterExpr) : Bool :=
  filter.all (holds row colNames columns)

/-! ## Conjunctions -/

def conjuncts : FilterExpr → List FilterExpr
  | .and a b => conjuncts a ++ conjuncts b
  | f => [f]

/-- The conditions as one, if there are any. -/
def conjunction : List FilterExpr → Option FilterExpr
  | [] => none
  | first :: parts => some (parts.foldl .and first)

variable {row colNames columns}

@[simp] theorem holds_and {a b : FilterExpr} :
    holds row colNames columns (.and a b) =
      (holds row colNames columns a && holds row colNames columns b) := by
  rw [Bool.eq_iff_iff]
  simp [holds, evalFilter]

theorem holds_conjuncts : ∀ f : FilterExpr,
    holds row colNames columns f = (conjuncts f).all (holds row colNames columns)
  | .and a b => by
    rw [holds_and, conjuncts, List.all_append, holds_conjuncts a, holds_conjuncts b]
  | .predicate _ | .or _ _ | .not _ | .isNull _ | .isNotNull _ | .inList _ _ _
  | .inSubquery _ _ _ _ | .compareSubquery _ _ _ | .exprCmp _ _ _ | .exists _ _ | .scalar _
  | .quantifiedSubquery _ _ _ _ => by simp [conjuncts]

theorem holdsOption_conjunction {parts : List FilterExpr} :
    holdsOption row colNames columns (conjunction parts) =
      parts.all (holds row colNames columns) := by
  cases parts with
  | nil => rfl
  | cons first parts =>
    have hfold : ∀ f, holds row colNames columns (parts.foldl .and f) =
        (holds row colNames columns f && parts.all (holds row colNames columns)) := by
      induction parts with
      | nil => simp
      | cons part parts ih =>
        intro f
        rw [List.foldl_cons, ih, holds_and, List.all_cons, Bool.and_assoc]
    exact hfold first

end Eval

namespace Fixed

/-- An evaluator for columns and literals of types that read a value as it is. -/
@[reducible] def evaluator (execute : LogicalPlan → Option QueryOutput) : Evaluator where
  floatText _ := []
  intToFloat _ := 0
  numericToFloat _ := 0
  hasWhitespace s := 32 ∈ s
  jsonbText _ := []
  jsonbCmp _ _ := .eq
  toCase := asciiLowercase
  evalExpr e row colNames :=
    match e with
    | .literal v => v
    | .column name => ((colPos colNames name).map (cell row)).getD .null
    | _ => .null
  executeLogicalInner := execute
  coerceOperand v _ := v
  coerceRendered v _ := v
  parseJsonRef _ := none
  jsonExtract _ _ _ := .null
  valueContains _ _ := false
  intervalSpan _ := none
  isJsonpathType ty := ty = ascii "JSONPATH"
  exprEq _ _ := false
  applyBinaryOp _ _ _ := .null

end Fixed

end NodusDb.Sql
