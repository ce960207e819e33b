import NodusDb.Storage.Api

/-!
# Values and query plans

The values of a row, the conditions and expressions of a query, and the plans the
planner hands to the executor. Text is UTF-8, so that a split at an ASCII character
is a split of the bytes.

Expressions are grouped by the sub-expressions they have: one, two, or a list in the
order in which they are evaluated. What else a variant holds is its head.
-/

namespace NodusDb.Sql

/-- UTF-8 text: a name, or the text of a value. -/
abbrev Text := Bytes

/-! ## Values -/

/-- A JSON document; a number is kept as its text. -/
inductive Json
  | null
  | bool (b : Bool)
  | number (text : Text)
  | string (s : Text)
  | array (items : List Json)
  | object (fields : List (Text × Json))

/-- A decimal: `digits / 10 ^ scale`. -/
inductive Numeric
  | finite (digits : Int) (scale : Nat)
  | nan
  | infinity
  | negInfinity
  deriving DecidableEq

/-- A value; a float is the bits of an `f64`. -/
inductive Value
  | int (n : Int)
  | float (bits : UInt64)
  | text (s : Text)
  | bool (b : Bool)
  | array (items : List Value)
  | jsonb (document : Json)
  | null
  | numeric (d : Numeric)
  | json (text : Text)
  | record (fields : List (Text × Value))
  | bytea (bytes : Bytes)

abbrev Row := List Value

/-- Comparison with `Value::Null`. -/
def Value.isNull : Value → Bool
  | .null => true
  | _ => false

@[simp] theorem Value.isNull_iff {v : Value} : v.isNull = true ↔ v = .null := by
  cases v <;> simp [isNull]

/-! ## Operators -/

inductive CompareOp
  | eq
  | ne
  | lt
  | le
  | gt
  | ge
  | contains
  | containedBy
  deriving DecidableEq

inductive JoinType
  | inner
  | leftOuter
  | rightOuter
  | fullOuter
  | cross
  | semi
  | anti
  deriving DecidableEq

inductive ScalarUnaryOp
  | neg
  | not
  deriving DecidableEq

inductive ScalarBinaryOp
  | add | sub | mul | div | mod
  | eq | notEq | lt | ltEq | gt | gtEq
  | and | or
  | concat
  | jsonGet | jsonGetText | jsonPath | jsonPathText
  | jsonHasKey | jsonHasAnyKey | jsonHasAllKeys
  | contains | containedBy
  | jsonPathExists | jsonPathMatch
  | tsPhrase
  | overlap
  deriving DecidableEq

inductive PatternKind
  | like
  | similarTo
  | regex
  deriving DecidableEq

inductive SubqueryKind
  | scalar
  | exists
  | array
  deriving DecidableEq

inductive SetOpKind
  | union
  | intersect
  | except
  deriving DecidableEq

/-! ## Expressions -/

inductive UnaryHead
  | unary (op : ScalarUnaryOp)
  | cast (target : Text)
  | isNull (negated : Bool)
  | extract (field : Text)
  | isBool (value : Option Bool) (negated : Bool)
  | dateOffset (months days seconds : Int)
  deriving DecidableEq

inductive BinaryHead
  | binary (op : ScalarBinaryOp)
  | isDistinctFrom (negated : Bool)
  | quantified (op : ScalarBinaryOp) (all : Bool)
  | patternMatch (kind : PatternKind) (caseInsensitive negated : Bool) (escape : Option Char)
  deriving DecidableEq

/-- An expression over a list of sub-expressions: the optional ones that are there and
the lengths of the lists say which sub-expression is which. -/
inductive CallHead
  | function (name : Text)
  | row
  | inList (negated : Bool)
  | aggregate (op arg : Text) (argExpr distinct : Bool) (extraArgs : Nat) (filter : Bool)
      (orderBy : List (Bool × Option Bool))
  | case (operand : Bool) (branches : Nat) (elseResult : Bool)
  | window (func : Text) (args : Nat) (filter : Bool) (partitionBy : Nat)
      (orderBy : List (Bool × Option Bool)) (frame : Text)
  deriving DecidableEq

inductive Operand
  | literal (v : Value)
  | ident (name : Text)

structure Predicate where
  left : Text
  op : CompareOp
  right : Operand

/-! ## Plans -/

mutual

inductive ScalarExpr
  | literal (v : Value)
  | column (name : Text)
  | unary (head : UnaryHead) (expr : ScalarExpr)
  | binary (head : BinaryHead) (left right : ScalarExpr)
  | call (head : CallHead) (items : List ScalarExpr)
  | subquery (plan : LogicalPlan) (kind : SubqueryKind)

inductive FilterExpr
  | predicate (p : Predicate)
  | and (a b : FilterExpr)
  | or (a b : FilterExpr)
  | not (a : FilterExpr)
  | isNull (column : Text)
  | isNotNull (column : Text)
  | inList (left : Text) (list : List Operand) (negated : Bool)
  | inSubquery (left : Text) (subquery : LogicalPlan) (negated : Bool) (leftValue : Option Value)
  | compareSubquery (left : Text) (op : CompareOp) (subquery : LogicalPlan)
  | exprCmp (left : ScalarExpr) (op : CompareOp) (right : ScalarExpr)
  | exists (subquery : LogicalPlan) (negated : Bool)
  | scalar (e : ScalarExpr)
  | quantifiedSubquery (left : ScalarExpr) (op : ScalarBinaryOp) (subquery : LogicalPlan)
      (all : Bool)

/-- What a sort key or a `DISTINCT ON` key reads. -/
inductive SortTarget
  | output (position : Nat)
  | name (name : Text)
  | expr (e : ScalarExpr)

structure SortKey where
  target : SortTarget
  ascending : Bool
  nullsFirst : Option Bool
  withTies : Bool

/-- An item of a select list; its `AS` name is its label. -/
inductive ProjectionItem
  | column (name : Text)
  | aliasedColumn (name label : Text)
  | aggregate (op arg : Text)
  | scalarFunction (funcName : Text) (args : List Text) (label : Option Text)
  | jsonAccess (left operator right : Text) (label : Option Text)
  | caseWhenEq (left : Text) (equals thenValue : Value) (thenColumn : Option Text)
      (elseColumn : Text) (label : Option Text)
  | case (branches : List (Predicate × Operand)) (elseResult : Option Operand)
      (label : Option Text)
  | windowFunction (funcName : Text) (args partitionBy : List Text)
      (orderBy : List (Text × Bool)) (label : Option Text)
  | literal (v : Value)
  | aliasedLiteral (v : Value) (label : Text)
  | expr (e : ScalarExpr) (label : Option Text)
  | subquery (plan : LogicalPlan) (label : Option Text)

structure Join where
  tableName : Text
  tableAlias : Option Text
  condition : Option FilterExpr
  joinType : JoinType
  usingColumns : List Text
  natural : Bool
  lateral : Option LogicalPlan
  semiSubquery : Option LogicalPlan

/-- An item of a `SELECT` without `FROM` that is computed when it runs. -/
inductive DeferredItem
  | scalar (e : ScalarExpr)
  | subquery (plan : LogicalPlan)
  | exists (plan : LogicalPlan) (negated : Bool)

structure Select where
  ctes : List (Text × LogicalPlan)
  tableName : Text
  tableAlias : Option Text
  joins : List Join
  projection : List ProjectionItem
  groupBy : List Text
  filter : Option FilterExpr
  having : Option FilterExpr
  groupingSets : Option (List (List Text))
  limit : Option Nat
  offset : Option Nat
  distinct : Bool
  sort : List SortKey
  groupExprs : List (Text × ScalarExpr)
  distinctOn : List SortTarget

/-- A plan; the statements that are no query are their text. -/
inductive LogicalPlan
  | select (s : Select)
  | setOp (op : SetOpKind) (all : Bool) (left right : LogicalPlan)
  | renamed (input : LogicalPlan) (columns : List Text)
  | values (rows : List (List ScalarExpr))
  | selectLiteral (values : List (Text × Value × Option Text)) (filter : Option FilterExpr)
      (deferred : List (Option DeferredItem))
  | statement (text : Text)

end

end NodusDb.Sql
