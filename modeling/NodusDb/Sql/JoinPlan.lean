import NodusDb.Sql.FilterEval

/-!
# The parts of a join condition

A join condition is split into the equalities between the two sides, which a hash or
merge join finds its pairs by, the conjuncts that read one side only, and the rest.
-/

namespace NodusDb.Sql

open Evaluator

/-- One side of an equality: a column or an expression. -/
inductive HashKey
  | column (name : Text)
  | expr (e : ScalarExpr)

structure JoinPlan where
  hashPairs : List (HashKey × HashKey) := []
  pairTests : List FilterExpr := []
  leftOnly : List FilterExpr := []
  rightOnly : List FilterExpr := []
  joinFilter : List FilterExpr := []

/-- What stands before the last dot of a name. -/
def qualifierOf (name : Text) : Option Text := (rsplitOnce dot name).map (·.1)

/-- The side a reference is on: left is `true`. -/
def side (name : Text) (left right : List Text) : Option Bool :=
  match qualifierOf name with
  | none => none
  | some qualifier =>
    if qualifier ∈ right then some false else if qualifier ∈ left then some true else none

/-- The side all references of an expression are on, if it has any. -/
def scalarSide (e : ScalarExpr) (left right : List Text) : Option Bool :=
  let refs := scalarColumnRefs e
  if refs = [] then none
  else if refs.all fun name => side name left right = some true then some true
  else if refs.all fun name => side name left right = some false then some false
  else none

def HashKey.of : ScalarExpr → HashKey
  | .column name => .column name
  | e => .expr e

def equalityOperands : FilterExpr → Option (ScalarExpr × ScalarExpr)
  | .predicate ⟨left, .eq, .ident right⟩ => some (.column left, .column right)
  | .exprCmp left .eq right => some (left, right)
  | .scalar (.binary (.binary .eq) left right) => some (left, right)
  | _ => none

/-- The left and the right key of an equality between the sides. -/
def equalitySides (conjunct : FilterExpr) (left right : List Text) : Option (HashKey × HashKey) :=
  match equalityOperands conjunct with
  | none => none
  | some (l, r) =>
    match scalarSide l left right, scalarSide r left right with
    | some true, some false => some (.of l, .of r)
    | some false, some true => some (.of r, .of l)
    | _, _ => none

def classifyConjunct (left right : List Text) (plan : JoinPlan) (conjunct : FilterExpr) :
    JoinPlan :=
  match equalitySides conjunct left right with
  | some keys =>
    { plan with
      hashPairs := plan.hashPairs ++ [keys]
      pairTests := plan.pairTests ++ [conjunct] }
  | none =>
    let refs := filterColumnRefs conjunct
    let onLeft := refs.any fun name => side name left right ≠ some false
    let onRight := refs.any fun name => side name left right ≠ some true
    if onLeft && !onRight then { plan with leftOnly := plan.leftOnly ++ [conjunct] }
    else if onRight && !onLeft then { plan with rightOnly := plan.rightOnly ++ [conjunct] }
    else { plan with joinFilter := plan.joinFilter ++ [conjunct] }

section Plan

variable [Evaluator]

def HashKey.same : HashKey → HashKey → Bool
  | .column a, .column b => a = b
  | .expr a, .expr b => exprEq a b
  | _, _ => false

def dedupAfter (kept : HashKey × HashKey) : List (HashKey × HashKey) → List (HashKey × HashKey)
  | [] => []
  | k :: ks =>
    if k.1.same kept.1 && k.2.same kept.2 then dedupAfter kept ks else k :: dedupAfter k ks

/-- `Vec::dedup`: the pairs that equal the one before them go. -/
def dedupPairs : List (HashKey × HashKey) → List (HashKey × HashKey)
  | [] => []
  | k :: ks => k :: dedupAfter k ks

def classify (condition : Option FilterExpr) (left right : List Text) : Option JoinPlan :=
  condition.map fun condition =>
    let plan := (conjuncts condition).foldl (classifyConjunct left right) {}
    { plan with hashPairs := dedupPairs plan.hashPairs }

/-- The plan of a hash join, if there is an equality between the sides. -/
def hashPlan (condition : Option FilterExpr) (left right : List Text) : Option JoinPlan :=
  (classify condition left right).filter fun plan => !plan.hashPairs.isEmpty

/-- The keys a hash or merge join finds its pairs by, and the conditions it checks. -/
structure HashJoinKeys where
  leftKeys : List HashKey
  rightKeys : List HashKey
  pairTests : List FilterExpr
  leftFilter : Option FilterExpr
  rightFilter : Option FilterExpr
  joinFilter : Option FilterExpr

/-- The qualifiers of a row's column names, each once. -/
def qualifiers (names : List Text) : List Text :=
  (names.filterMap qualifierOf).foldl (fun out q => if q ∈ out then out else out ++ [q]) []

def joinKeys (condition : Option FilterExpr) (leftNames rightNames : List Text) :
    Option HashJoinKeys :=
  (hashPlan condition (qualifiers leftNames) (qualifiers rightNames)).map fun plan =>
    { leftKeys := plan.hashPairs.map (·.1)
      rightKeys := plan.hashPairs.map (·.2)
      pairTests := plan.pairTests
      leftFilter := conjunction plan.leftOnly
      rightFilter := conjunction plan.rightOnly
      joinFilter := conjunction plan.joinFilter }

def JoinPlan.all (plan : JoinPlan) (p : FilterExpr → Bool) : Bool :=
  plan.pairTests.all p && plan.leftOnly.all p && plan.rightOnly.all p && plan.joinFilter.all p

omit [Evaluator] in
theorem all_classifyConjunct (left right : List Text) (plan : JoinPlan) (conjunct : FilterExpr)
    (p : FilterExpr → Bool) :
    (classifyConjunct left right plan conjunct).all p = (plan.all p && p conjunct) := by
  unfold classifyConjunct
  simp only
  split
  · simp [JoinPlan.all, Bool.and_assoc, Bool.and_comm]
  split
  · simp [JoinPlan.all, Bool.and_assoc, Bool.and_comm, Bool.and_left_comm]
  · split <;> simp [JoinPlan.all, Bool.and_assoc, Bool.and_comm, Bool.and_left_comm]

theorem classify_all {condition : FilterExpr} {left right : List Text} {plan : JoinPlan}
    (h : classify (some condition) left right = some plan) (p : FilterExpr → Bool) :
    plan.all p = (conjuncts condition).all p := by
  have hfold : ∀ (cs : List FilterExpr) (plan : JoinPlan),
      (cs.foldl (classifyConjunct left right) plan).all p = (plan.all p && cs.all p) := by
    intro cs
    induction cs with
    | nil => simp
    | cons c cs ih =>
      intro plan
      rw [List.foldl_cons, ih, all_classifyConjunct, List.all_cons, Bool.and_assoc]
  cases h
  exact hfold (conjuncts condition) {}

end Plan

end NodusDb.Sql
