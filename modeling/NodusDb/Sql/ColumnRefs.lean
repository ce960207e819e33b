import NodusDb.Lib.Split
import NodusDb.Raft.Records
import NodusDb.Sql.PlanTypes

/-!
# Column references

A reference names a column, alone or behind the qualifier of its relation. This
module has the resolution of a reference against the columns of a row, the
references of conditions and expressions, and the test whether a subquery reads
columns of the query around it.
-/

namespace NodusDb.Sql

/-- `str::to_lowercase`. -/
class Lowercase where
  toLowercase : Text → Text

open Lowercase

/-- The separator between a qualifier and a name. -/
def dot : UInt8 := 46

/-- `name.rsplit('.').next()`. -/
def lastSegment (name : Text) : Text :=
  match rsplitOnce dot name with
  | some (_, tail) => tail
  | none => name

/-- The position of the column a reference names: a column of that very name, one that
ends in it behind a qualifier, the unqualified column, or the same without the schema. -/
def colPos (colNames : List Text) (name : Text) : Option Nat :=
  match colNames.findIdx? (· = name) with
  | some i => some i
  | none =>
    match colNames.findIdx? fun c => (dot :: name).isSuffixOf c with
    | some i => some i
    | none =>
      match _hq : rsplitOnce dot name with
      | none => none
      | some (qualifier, tail) =>
        match colNames.findIdx? (· = tail) with
        | some i => some i
        | none =>
          match _ht : splitOnce dot qualifier with
          | none => none
          | some (_, table) => colPos colNames (table ++ dot :: tail)
termination_by name.length
decreasing_by
  rw [rsplitOnce_eq_some _hq, splitOnce_eq_some _ht]
  simp only [List.length_append, List.length_cons]
  omega

/-! ## The references of an expression -/

mutual

/-- The references in an expression, not inside its subqueries. -/
def scalarColumnRefs : ScalarExpr → List Text
  | .literal _ => []
  | .column name => [name]
  | .unary _ e => scalarColumnRefs e
  | .binary _ l r => scalarColumnRefs l ++ scalarColumnRefs r
  | .call (.aggregate _ arg argExpr _ _ _ _) items =>
    -- `count(*)` reads no column, and an argument that is an expression is an item.
    (if argExpr = false ∧ arg ≠ ascii "*" ∧ arg ≠ [] then [arg] else []) ++
      scalarsColumnRefs items
  | .call _ items => scalarsColumnRefs items
  | .subquery _ _ => []

def scalarsColumnRefs : List ScalarExpr → List Text
  | [] => []
  | e :: es => scalarColumnRefs e ++ scalarsColumnRefs es

end

def Operand.columnRefs : Operand → List Text
  | .literal _ => []
  | .ident name => [name]

/-- The references in a condition, not inside its subqueries. -/
def filterColumnRefs : FilterExpr → List Text
  | .predicate p => p.left :: p.right.columnRefs
  | .and a b | .or a b => filterColumnRefs a ++ filterColumnRefs b
  | .not a => filterColumnRefs a
  | .isNull c | .isNotNull c => [c]
  | .inList left list _ => left :: list.flatMap Operand.columnRefs
  | .inSubquery left _ _ _ | .compareSubquery left _ _ => if left = [] then [] else [left]
  | .exprCmp left _ right => scalarColumnRefs left ++ scalarColumnRefs right
  | .scalar e => scalarColumnRefs e
  | .quantifiedSubquery left _ _ _ => scalarColumnRefs left
  | .exists _ _ => []

section Correlated

variable [Lowercase]

/-- The names that reach a relation: an alias hides the name of the table. -/
def relationQual (name : Text) : Option Text → List Text
  | some tableAlias => [toLowercase tableAlias]
  | none => [toLowercase name, toLowercase (lastSegment name)]

def Select.relationQuals (s : Select) : List Text :=
  relationQual s.tableName s.tableAlias ++
    s.joins.flatMap fun j => relationQual j.tableName j.tableAlias

/-- A reference whose qualifier is none of these names a column of a query around this
one. A name without a qualifier is the query's own. -/
def isOuterRef (name : Text) (innerQuals : List Text) : Bool :=
  match rsplitOnce dot name with
  | some (qualifier, _) =>
    let qualifier := toLowercase qualifier
    !innerQuals.any fun q => q = qualifier ∨ q = lastSegment qualifier
  | none => false

def ProjectionItem.columnRefs : ProjectionItem → List Text
  | .column name | .aliasedColumn name _ => [name]
  | .expr e _ => scalarColumnRefs e
  | .scalarFunction _ args _ => args
  | .jsonAccess left _ right _ => [left, right]
  | _ => []

/-- The references that are looked at to tell whether a query is correlated. -/
def Select.columnRefs (s : Select) : List Text :=
  (s.filter.map filterColumnRefs).getD [] ++ (s.having.map filterColumnRefs).getD [] ++
    (s.joins.flatMap fun j => (j.condition.map filterColumnRefs).getD []) ++
    s.projection.flatMap ProjectionItem.columnRefs

/-- Whether a subquery reads columns of the query around it. -/
def subqueryIsCorrelated : LogicalPlan → Bool
  | .select s => s.columnRefs.any fun name => isOuterRef name s.relationQuals
  | _ => false

end Correlated

end NodusDb.Sql
