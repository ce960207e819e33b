import NodusDb.Sql.ColumnRefs

/-!
# Correlated subqueries

For one outer row, `correlatePlan` puts the row's values in the place of the columns of the query
around. A subquery that `subqueryIsCorrelated` does not report is run once for all outer rows.

* `correlated_detected_iff`: which plans are reported whenever the outer row matters.
-/

namespace NodusDb.Sql

open List

section Correlate

variable [Lowercase] (outerRow : Row) (outerCols : List Text)

def outerLookup (name : Text) : Option Value :=
  (colPos outerCols name).bind fun i => outerRow[i]?

/-- `a <op> b` as `b <flip(op)> a`. -/
def flipOp : CompareOp → CompareOp
  | .lt => .gt
  | .le => .ge
  | .gt => .lt
  | .ge => .le
  | op => op

/-- The value of a name, if it is an outer reference. -/
def outerValue (quals : List Text) (name : Text) : Option Value :=
  if isOuterRef name quals then outerLookup outerRow outerCols name else none

/-- A comparison with the value of its outer side. The inner column stays on the left. -/
def correlatePredicate (quals : List Text) (p : Predicate) : FilterExpr :=
  match p.right with
  | .ident right =>
    match outerValue outerRow outerCols quals right with
    | some v => .predicate { p with right := .literal v }
    | none =>
      match outerValue outerRow outerCols quals p.left with
      | some v =>
        if isOuterRef right quals then .predicate p
        else .predicate ⟨right, flipOp p.op, .literal v⟩
      | none => .predicate p
  | .literal right =>
    match outerValue outerRow outerCols quals p.left with
    | some v => .exprCmp (.literal v) p.op (.literal right)
    | none => .predicate p

def correlateOperand (quals : List Text) : Operand → Operand
  | .ident name => ((outerValue outerRow outerCols quals name).map .literal).getD (.ident name)
  | .literal v => .literal v

def correlateIsNull (quals : List Text) (column : Text) (negated : Bool) : FilterExpr :=
  match outerValue outerRow outerCols quals column with
  | some v => .scalar (.unary (.isNull negated) (.literal v))
  | none => if negated then .isNotNull column else .isNull column

/-- An item of the select list that is an outer column. -/
def outerItem (quals : List Text) (column label : Text) (item : ProjectionItem) : ProjectionItem :=
  match outerValue outerRow outerCols quals column with
  | some v => .expr (.literal v) (some label)
  | none => item

mutual

/-- A plan with the outer row's values for the references of the queries around it. -/
def correlatePlan (enclosingQuals : List Text) : LogicalPlan → LogicalPlan
  | .select s => .select (correlateSelect enclosingQuals s)
  | .setOp op all left right =>
    .setOp op all (correlatePlan enclosingQuals left) (correlatePlan enclosingQuals right)
  | .renamed input columns => .renamed (correlatePlan enclosingQuals input) columns
  | .values rows => .values (correlateRows enclosingQuals rows)
  | .selectLiteral values filter deferred =>
    .selectLiteral values (correlateCondition enclosingQuals filter)
      (correlateDeferred enclosingQuals deferred)
  | .statement text => .statement text

/-- In a `SELECT` its own relations hide those around it. A CTE cannot see the
relations beside it. -/
def correlateSelect (enclosingQuals : List Text) : Select → Select
  | ⟨ctes, tableName, tableAlias, joins, projection, groupBy, filter, having, groupingSets,
      limit, offset, distinct, sort, groupExprs, distinctOn⟩ =>
    let quals := enclosingQuals ++ (relationQual tableName tableAlias ++
      joins.flatMap fun j => relationQual j.tableName j.tableAlias)
    { ctes := correlateCtes enclosingQuals ctes
      tableName := tableName
      tableAlias := tableAlias
      joins := correlateJoins quals joins
      projection := correlateItems quals projection
      groupBy := groupBy
      filter := correlateCondition quals filter
      having := correlateCondition quals having
      groupingSets := groupingSets
      limit := limit
      offset := offset
      distinct := distinct
      sort := correlateSort quals sort
      groupExprs := correlateGroupExprs quals groupExprs
      distinctOn := distinctOn }

def correlateCtes (enclosingQuals : List Text) :
    List (Text × LogicalPlan) → List (Text × LogicalPlan)
  | [] => []
  | (name, cte) :: ctes =>
    (name, correlatePlan enclosingQuals cte) :: correlateCtes enclosingQuals ctes

def correlateJoins (quals : List Text) : List Join → List Join
  | [] => []
  | ⟨tableName, tableAlias, condition, joinType, usingColumns, natural, lateral, semiSubquery⟩ ::
      joins =>
    { tableName := tableName
      tableAlias := tableAlias
      condition := correlateCondition quals condition
      joinType := joinType
      usingColumns := usingColumns
      natural := natural
      lateral := correlateLateral quals lateral
      semiSubquery := semiSubquery } :: correlateJoins quals joins

def correlateLateral (quals : List Text) : Option LogicalPlan → Option LogicalPlan
  | none => none
  | some plan => some (correlatePlan quals plan)

def correlateCondition (quals : List Text) : Option FilterExpr → Option FilterExpr
  | none => none
  | some f => some (correlateFilter quals f)

def correlateItems (quals : List Text) : List ProjectionItem → List ProjectionItem
  | [] => []
  | item :: items => correlateItem quals item :: correlateItems quals items

def correlateItem (quals : List Text) : ProjectionItem → ProjectionItem
  | .column c => outerItem outerRow outerCols quals c (lastSegment c) (.column c)
  | .aliasedColumn c label => outerItem outerRow outerCols quals c label (.aliasedColumn c label)
  | .expr e label => .expr (correlateScalar quals e) label
  | .subquery plan label => .subquery (correlatePlan quals plan) label
  | item => item

def correlateSort (quals : List Text) : List SortKey → List SortKey
  | [] => []
  | ⟨target, ascending, nullsFirst, withTies⟩ :: sort =>
    ⟨correlateTarget quals target, ascending, nullsFirst, withTies⟩ :: correlateSort quals sort

def correlateTarget (quals : List Text) : SortTarget → SortTarget
  | .expr e => .expr (correlateScalar quals e)
  | .output position => .output position
  | .name name => .name name

def correlateGroupExprs (quals : List Text) : List (Text × ScalarExpr) → List (Text × ScalarExpr)
  | [] => []
  | (name, e) :: exprs => (name, correlateScalar quals e) :: correlateGroupExprs quals exprs

def correlateRows (quals : List Text) : List (List ScalarExpr) → List (List ScalarExpr)
  | [] => []
  | row :: rows => correlateScalars quals row :: correlateRows quals rows

def correlateScalars (quals : List Text) : List ScalarExpr → List ScalarExpr
  | [] => []
  | e :: es => correlateScalar quals e :: correlateScalars quals es

def correlateScalar (quals : List Text) : ScalarExpr → ScalarExpr
  | .column name =>
    ((outerValue outerRow outerCols quals name).map .literal).getD (.column name)
  | .subquery plan kind => .subquery (correlatePlan quals plan) kind
  | .literal v => .literal v
  | .unary head e => .unary head (correlateScalar quals e)
  | .binary head l r => .binary head (correlateScalar quals l) (correlateScalar quals r)
  | .call head items => .call head (correlateScalars quals items)

/-- A `SELECT` without `FROM` has no columns of its own, so that a name without a
qualifier is the outer row's too, unless a query in between may have it. -/
def correlateDeferred (enclosingQuals : List Text) :
    List (Option DeferredItem) → List (Option DeferredItem)
  | [] => []
  | item :: items =>
    correlateDeferredItem enclosingQuals item :: correlateDeferred enclosingQuals items

def correlateDeferredItem (enclosingQuals : List Text) :
    Option DeferredItem → Option DeferredItem
  | none => none
  | some (.scalar e) =>
    some (.scalar (if enclosingQuals.isEmpty then bindOuterColumns e
      else correlateScalar enclosingQuals e))
  | some (.subquery plan) => some (.subquery (correlatePlan enclosingQuals plan))
  | some (.exists plan negated) => some (.exists (correlatePlan enclosingQuals plan) negated)

/-- Every column that the outer row has becomes its value. -/
def bindOuterColumns : ScalarExpr → ScalarExpr
  | .column name => ((outerLookup outerRow outerCols name).map .literal).getD (.column name)
  | .subquery plan kind => .subquery (correlatePlan [] plan) kind
  | .literal v => .literal v
  | .unary head e => .unary head (bindOuterColumns e)
  | .binary head l r => .binary head (bindOuterColumns l) (bindOuterColumns r)
  | .call head items => .call head (bindOuterColumnsAll items)

def bindOuterColumnsAll : List ScalarExpr → List ScalarExpr
  | [] => []
  | e :: es => bindOuterColumns e :: bindOuterColumnsAll es

def correlateFilter (quals : List Text) : FilterExpr → FilterExpr
  | .and a b => .and (correlateFilter quals a) (correlateFilter quals b)
  | .or a b => .or (correlateFilter quals a) (correlateFilter quals b)
  | .not a => .not (correlateFilter quals a)
  | .predicate p => correlatePredicate outerRow outerCols quals p
  | .isNull c => correlateIsNull outerRow outerCols quals c false
  | .isNotNull c => correlateIsNull outerRow outerCols quals c true
  | .inSubquery left subquery negated leftValue =>
    let outerLeft := if left = [] then none else outerValue outerRow outerCols quals left
    .inSubquery (if outerLeft.isSome then [] else left) (correlatePlan quals subquery) negated
      (outerLeft.or leftValue)
  | .exists subquery negated => .exists (correlatePlan quals subquery) negated
  | .compareSubquery left op subquery => .compareSubquery left op (correlatePlan quals subquery)
  | .inList left list negated =>
    .inList left (list.map (correlateOperand outerRow outerCols quals)) negated
  | .exprCmp left op right => .exprCmp (correlateScalar quals left) op (correlateScalar quals right)
  | .scalar e => .scalar (correlateScalar quals e)
  | .quantifiedSubquery left op subquery all =>
    .quantifiedSubquery (correlateScalar quals left) op (correlatePlan quals subquery) all

end

end Correlate

/-! ## The names that are replaced -/

section Reads

variable [Lowercase] (quals : List Text)

def outerRefs (names : List Text) : List Text := names.filter fun name => isOuterRef name quals

mutual

/-- The columns of an expression, not inside its subqueries. -/
def scalarColumns : ScalarExpr → List Text
  | .column name => [name]
  | .literal _ | .subquery _ _ => []
  | .unary _ e => scalarColumns e
  | .binary _ l r => scalarColumns l ++ scalarColumns r
  | .call _ items => scalarsColumns items

def scalarsColumns : List ScalarExpr → List Text
  | [] => []
  | e :: es => scalarColumns e ++ scalarsColumns es

end

/-- In a comparison one side is replaced: the right one, if it is an outer reference. -/
def predicateColumns (p : Predicate) : List Text :=
  match p.right with
  | .ident right => if isOuterRef right quals then [right] else [p.left]
  | .literal _ => [p.left]

/-- The names in a condition that are replaced if they are outer references, not inside
its subqueries. -/
def filterColumns : FilterExpr → List Text
  | .and a b | .or a b => filterColumns a ++ filterColumns b
  | .not a => filterColumns a
  | .predicate p => predicateColumns quals p
  | .isNull c | .isNotNull c => [c]
  | .inSubquery left _ _ _ => if left = [] then [] else [left]
  | .exists _ _ | .compareSubquery _ _ _ => []
  | .inList _ list _ => list.flatMap Operand.columnRefs
  | .exprCmp left _ right => scalarColumns left ++ scalarColumns right
  | .scalar e => scalarColumns e
  | .quantifiedSubquery left _ _ _ => scalarColumns left

def conditionColumns : Option FilterExpr → List Text
  | none => []
  | some f => filterColumns quals f

def itemColumns : ProjectionItem → List Text
  | .column c | .aliasedColumn c _ => [c]
  | .expr e _ => scalarColumns e
  | _ => []

end Reads

section Reads

variable [Lowercase]

mutual

def planReads (enclosingQuals : List Text) : LogicalPlan → List Text
  | .select s =>
    let quals := enclosingQuals ++ s.relationQuals
    outerRefs quals (conditionColumns quals s.filter ++ conditionColumns quals s.having ++
      (s.joins.flatMap fun j => conditionColumns quals j.condition) ++
      s.projection.flatMap itemColumns) ++ selectNested enclosingQuals s
  | .setOp _ _ left right => planReads enclosingQuals left ++ planReads enclosingQuals right
  | .renamed input _ => planReads enclosingQuals input
  | .values rows => rowsReads enclosingQuals rows
  | .selectLiteral _ filter deferred =>
    outerRefs enclosingQuals (conditionColumns enclosingQuals filter) ++
      conditionNested enclosingQuals filter ++ deferredReads enclosingQuals deferred
  | .statement _ => []

/-- The names that are replaced in the parts of a `SELECT` other than its own
conditions and select list: CTEs, `LATERAL` subqueries, sort and group expressions, and
the subqueries in all of them. -/
def selectNested (enclosingQuals : List Text) : Select → List Text
  | ⟨ctes, tableName, tableAlias, joins, projection, _, filter, having, _, _, _, _, sort,
      groupExprs, _⟩ =>
    let quals := enclosingQuals ++ (relationQual tableName tableAlias ++
      joins.flatMap fun j => relationQual j.tableName j.tableAlias)
    ctesReads enclosingQuals ctes ++ joinsNested quals joins ++ itemsNested quals projection ++
      conditionNested quals filter ++ conditionNested quals having ++ sortReads quals sort ++
      groupExprsReads quals groupExprs

def ctesReads (enclosingQuals : List Text) : List (Text × LogicalPlan) → List Text
  | [] => []
  | (_, cte) :: ctes => planReads enclosingQuals cte ++ ctesReads enclosingQuals ctes

def joinsNested (quals : List Text) : List Join → List Text
  | [] => []
  | ⟨_, _, condition, _, _, _, lateral, _⟩ :: joins =>
    conditionNested quals condition ++ lateralReads quals lateral ++ joinsNested quals joins

def lateralReads (quals : List Text) : Option LogicalPlan → List Text
  | none => []
  | some plan => planReads quals plan

def conditionNested (quals : List Text) : Option FilterExpr → List Text
  | none => []
  | some f => filterNested quals f

def itemsNested (quals : List Text) : List ProjectionItem → List Text
  | [] => []
  | item :: items => itemNested quals item ++ itemsNested quals items

def itemNested (quals : List Text) : ProjectionItem → List Text
  | .expr e _ => scalarNested quals e
  | .subquery plan _ => planReads quals plan
  | _ => []

def sortReads (quals : List Text) : List SortKey → List Text
  | [] => []
  | ⟨target, _, _, _⟩ :: sort => targetReads quals target ++ sortReads quals sort

def targetReads (quals : List Text) : SortTarget → List Text
  | .expr e => outerRefs quals (scalarColumns e) ++ scalarNested quals e
  | .output _ | .name _ => []

def groupExprsReads (quals : List Text) : List (Text × ScalarExpr) → List Text
  | [] => []
  | (_, e) :: exprs =>
    outerRefs quals (scalarColumns e) ++ scalarNested quals e ++ groupExprsReads quals exprs

def rowsReads (quals : List Text) : List (List ScalarExpr) → List Text
  | [] => []
  | row :: rows =>
    outerRefs quals (scalarsColumns row) ++ scalarsNested quals row ++ rowsReads quals rows

def scalarsNested (quals : List Text) : List ScalarExpr → List Text
  | [] => []
  | e :: es => scalarNested quals e ++ scalarsNested quals es

/-- The names that are replaced in the subqueries of an expression. -/
def scalarNested (quals : List Text) : ScalarExpr → List Text
  | .column _ | .literal _ => []
  | .subquery plan _ => planReads quals plan
  | .unary _ e => scalarNested quals e
  | .binary _ l r => scalarNested quals l ++ scalarNested quals r
  | .call _ items => scalarsNested quals items

def deferredReads (enclosingQuals : List Text) : List (Option DeferredItem) → List Text
  | [] => []
  | item :: items => deferredItemReads enclosingQuals item ++ deferredReads enclosingQuals items

def deferredItemReads (enclosingQuals : List Text) : Option DeferredItem → List Text
  | none => []
  | some (.scalar e) =>
    if enclosingQuals.isEmpty then scalarColumns e ++ scalarNested [] e
    else outerRefs enclosingQuals (scalarColumns e) ++ scalarNested enclosingQuals e
  | some (.subquery plan) | some (.exists plan _) => planReads enclosingQuals plan

/-- The names that are replaced in the subqueries of a condition. -/
def filterNested (quals : List Text) : FilterExpr → List Text
  | .and a b | .or a b => filterNested quals a ++ filterNested quals b
  | .not a => filterNested quals a
  | .predicate _ | .isNull _ | .isNotNull _ | .inList _ _ _ => []
  | .inSubquery _ subquery _ _ | .exists subquery _ | .compareSubquery _ _ subquery =>
    planReads quals subquery
  | .exprCmp left _ right => scalarNested quals left ++ scalarNested quals right
  | .scalar e => scalarNested quals e
  | .quantifiedSubquery left _ subquery _ => scalarNested quals left ++ planReads quals subquery

end

end Reads

section Agree

variable (r₁ r₂ : Row) (cols : List Text)

/-- Two rows have the same values for these names. -/
def Agree (names : List Text) : Prop :=
  ∀ name ∈ names, outerLookup r₁ cols name = outerLookup r₂ cols name

variable {r₁ r₂ : Row} {cols quals : List Text}

@[simp] theorem agree_nil : Agree r₁ r₂ cols [] := fun _ h => nomatch h

@[simp] theorem agree_append {as bs : List Text} :
    Agree r₁ r₂ cols (as ++ bs) ↔ Agree r₁ r₂ cols as ∧ Agree r₁ r₂ cols bs :=
  forall_mem_append

@[simp] theorem agree_singleton {name : Text} :
    Agree r₁ r₂ cols [name] ↔ outerLookup r₁ cols name = outerLookup r₂ cols name := by
  simp [Agree]

theorem map_getD_inj {α β : Type} {f : α → β} {d : β} {o₁ o₂ : Option α}
    (hf : Function.Injective f) (hd : ∀ a, f a ≠ d) :
    (o₁.map f).getD d = (o₂.map f).getD d ↔ o₁ = o₂ := by
  cases o₁ with
  | none => cases o₂ with
    | none => simp
    | some b => simpa using (hd b).symm
  | some a => cases o₂ with
    | none => simpa using hd a
    | some b => simpa using hf.eq_iff

variable [Lowercase]

@[simp] theorem outerRefs_nil : outerRefs quals [] = [] := rfl

@[simp] theorem outerRefs_append (as bs : List Text) :
    outerRefs quals (as ++ bs) = outerRefs quals as ++ outerRefs quals bs :=
  filter_append ..

theorem outerValue_eq_iff {name : Text} :
    outerValue r₁ cols quals name = outerValue r₂ cols quals name ↔
      Agree r₁ r₂ cols (outerRefs quals [name]) := by
  unfold outerValue outerRefs
  cases h : isOuterRef name quals <;> simp [h]

theorem correlatePredicate_eq_iff {p : Predicate} :
    correlatePredicate r₁ cols quals p = correlatePredicate r₂ cols quals p ↔
      Agree r₁ r₂ cols (outerRefs quals (predicateColumns quals p)) := by
  obtain ⟨left, op, right⟩ := p
  cases right with
  | literal v =>
    rw [predicateColumns, ← outerValue_eq_iff]
    simp only [correlatePredicate]
    cases outerValue r₁ cols quals left <;> cases outerValue r₂ cols quals left <;> simp
  | ident right =>
    unfold predicateColumns
    simp only [correlatePredicate]
    cases hright : isOuterRef right quals with
    | true =>
      rw [if_pos rfl, ← outerValue_eq_iff]
      cases outerValue r₁ cols quals right <;> cases outerValue r₂ cols quals right <;>
        cases outerValue r₁ cols quals left <;> cases outerValue r₂ cols quals left <;> simp
    | false =>
      have hnone : ∀ r, outerValue r cols quals right = none := fun r => by
        rw [outerValue, hright, if_neg Bool.false_ne_true]
      rw [if_neg Bool.false_ne_true, ← outerValue_eq_iff, hnone r₁, hnone r₂]
      cases outerValue r₁ cols quals left <;> cases outerValue r₂ cols quals left <;> simp

theorem correlateIsNull_eq_iff {column : Text} {negated : Bool} :
    correlateIsNull r₁ cols quals column negated = correlateIsNull r₂ cols quals column negated ↔
      Agree r₁ r₂ cols (outerRefs quals [column]) := by
  rw [← outerValue_eq_iff]
  unfold correlateIsNull
  cases outerValue r₁ cols quals column <;> cases outerValue r₂ cols quals column <;>
    cases negated <;> simp

theorem correlateOperand_eq_iff {operand : Operand} :
    correlateOperand r₁ cols quals operand = correlateOperand r₂ cols quals operand ↔
      Agree r₁ r₂ cols (outerRefs quals operand.columnRefs) := by
  cases operand with
  | literal v => simp [correlateOperand, Operand.columnRefs]
  | ident name =>
    rw [Operand.columnRefs, ← outerValue_eq_iff]
    exact map_getD_inj (fun _ _ h => Operand.literal.inj h) (fun _ => Operand.noConfusion)

theorem correlateOperands_eq_iff {list : List Operand} :
    list.map (correlateOperand r₁ cols quals) = list.map (correlateOperand r₂ cols quals) ↔
      Agree r₁ r₂ cols (outerRefs quals (list.flatMap Operand.columnRefs)) := by
  induction list with
  | nil => simp
  | cons operand list ih =>
    rw [map_cons, map_cons, cons_eq_cons, correlateOperand_eq_iff, ih,
      flatMap_cons, outerRefs_append, agree_append]

theorem outerItem_eq_iff (h : ∀ v, item ≠ .expr (.literal v) (some label)) :
    outerItem r₁ cols quals column label item = outerItem r₂ cols quals column label item ↔
      Agree r₁ r₂ cols (outerRefs quals [column]) := by
  rw [← outerValue_eq_iff]
  unfold outerItem
  cases outerValue r₁ cols quals column with
  | none => cases outerValue r₂ cols quals column with
    | none => simp
    | some v => simpa using h v
  | some v => cases outerValue r₂ cols quals column with
    | none => simpa using (h v).symm
    | some w => simp

theorem inLeft_eq_iff {left : Text} {leftValue : Option Value} :
    ((if (if left = [] then none else outerValue r₁ cols quals left).isSome then [] else left) =
      (if (if left = [] then none else outerValue r₂ cols quals left).isSome then [] else left) ∧
      (if left = [] then none else outerValue r₁ cols quals left).or leftValue =
        (if left = [] then none else outerValue r₂ cols quals left).or leftValue) ↔
      Agree r₁ r₂ cols (outerRefs quals (if left = [] then [] else [left])) := by
  by_cases hleft : left = []
  · simp [hleft]
  rw [if_neg hleft, if_neg hleft, if_neg hleft, ← outerValue_eq_iff]
  cases outerValue r₁ cols quals left <;> cases outerValue r₂ cols quals left <;>
    simp [hleft, Ne.symm hleft]

mutual

/-- The plans for two rows are the same if and only if the rows agree on the names that
are replaced. -/
theorem correlatePlan_eq_iff (enclosing : List Text) : ∀ plan : LogicalPlan,
    correlatePlan r₁ cols enclosing plan = correlatePlan r₂ cols enclosing plan ↔
      Agree r₁ r₂ cols (planReads enclosing plan)
  | .select s => by
    rw [correlatePlan, correlatePlan, planReads, LogicalPlan.select.injEq]
    exact correlateSelect_eq_iff enclosing s
  | .setOp op all left right => by
    rw [correlatePlan, correlatePlan, planReads, agree_append,
      ← correlatePlan_eq_iff enclosing left, ← correlatePlan_eq_iff enclosing right]
    simp
  | .renamed input columns => by
    rw [correlatePlan, correlatePlan, planReads, ← correlatePlan_eq_iff enclosing input]
    simp
  | .values rows => by
    rw [correlatePlan, correlatePlan, planReads, ← correlateRows_eq_iff enclosing rows]
    simp
  | .selectLiteral values filter deferred => by
    rw [correlatePlan, correlatePlan, planReads, agree_append,
      ← correlateCondition_eq_iff enclosing filter, ← correlateDeferred_eq_iff enclosing deferred]
    simp
  | .statement text => by simp [correlatePlan, planReads]

theorem correlateSelect_eq_iff (enclosing : List Text) : ∀ s : Select,
    correlateSelect r₁ cols enclosing s = correlateSelect r₂ cols enclosing s ↔
      Agree r₁ r₂ cols (outerRefs (enclosing ++ s.relationQuals)
        (conditionColumns (enclosing ++ s.relationQuals) s.filter ++
          conditionColumns (enclosing ++ s.relationQuals) s.having ++
          (s.joins.flatMap fun j => conditionColumns (enclosing ++ s.relationQuals) j.condition) ++
          s.projection.flatMap itemColumns) ++ selectNested enclosing s)
  | ⟨ctes, tableName, tableAlias, joins, projection, groupBy, filter, having, groupingSets, limit,
      offset, distinct, sort, groupExprs, distinctOn⟩ => by
    have hctes := correlateCtes_eq_iff enclosing ctes
    have hjoins := fun quals => correlateJoins_eq_iff quals joins
    have hitems := fun quals => correlateItems_eq_iff quals projection
    have hfilter := fun quals => correlateCondition_eq_iff quals filter
    have hhaving := fun quals => correlateCondition_eq_iff quals having
    have hsort := fun quals => correlateSort_eq_iff quals sort
    have hgroup := fun quals => correlateGroupExprs_eq_iff quals groupExprs
    simp only [correlateSelect, selectNested, Select.mk.injEq, true_and, and_true, hctes, hjoins,
      hitems, hfilter, hhaving, hsort, hgroup, Select.relationQuals, outerRefs_append,
      agree_append]
    tauto

theorem correlateCtes_eq_iff (enclosing : List Text) : ∀ ctes : List (Text × LogicalPlan),
    correlateCtes r₁ cols enclosing ctes = correlateCtes r₂ cols enclosing ctes ↔
      Agree r₁ r₂ cols (ctesReads enclosing ctes)
  | [] => by simp [correlateCtes, ctesReads]
  | (name, cte) :: ctes => by
    rw [ctesReads, agree_append, ← correlatePlan_eq_iff enclosing cte,
      ← correlateCtes_eq_iff enclosing ctes]
    simp [correlateCtes]

theorem correlateJoins_eq_iff (quals : List Text) : ∀ joins : List Join,
    correlateJoins r₁ cols quals joins = correlateJoins r₂ cols quals joins ↔
      Agree r₁ r₂ cols
        (outerRefs quals (joins.flatMap fun j => conditionColumns quals j.condition) ++
          joinsNested quals joins)
  | [] => by simp [correlateJoins, joinsNested]
  | ⟨tableName, tableAlias, condition, joinType, usingColumns, natural, lateral, semi⟩ ::
      joins => by
    have hcondition := correlateCondition_eq_iff quals condition
    have hlateral := correlateLateral_eq_iff quals lateral
    have hjoins := correlateJoins_eq_iff quals joins
    simp only [correlateJoins, joinsNested, cons.injEq, Join.mk.injEq, true_and, and_true,
      hcondition, hlateral, hjoins, flatMap_cons, outerRefs_append, agree_append]
    tauto

theorem correlateLateral_eq_iff (quals : List Text) : ∀ lateral : Option LogicalPlan,
    correlateLateral r₁ cols quals lateral = correlateLateral r₂ cols quals lateral ↔
      Agree r₁ r₂ cols (lateralReads quals lateral)
  | none => by simp [correlateLateral, lateralReads]
  | some plan => by
    rw [lateralReads, ← correlatePlan_eq_iff quals plan]
    simp [correlateLateral]

theorem correlateCondition_eq_iff (quals : List Text) : ∀ condition : Option FilterExpr,
    correlateCondition r₁ cols quals condition = correlateCondition r₂ cols quals condition ↔
      Agree r₁ r₂ cols
        (outerRefs quals (conditionColumns quals condition) ++ conditionNested quals condition)
  | none => by simp [correlateCondition, conditionNested, conditionColumns]
  | some f => by
    rw [conditionColumns, conditionNested, ← correlateFilter_eq_iff quals f]
    simp [correlateCondition]

theorem correlateItems_eq_iff (quals : List Text) : ∀ items : List ProjectionItem,
    correlateItems r₁ cols quals items = correlateItems r₂ cols quals items ↔
      Agree r₁ r₂ cols
        (outerRefs quals (items.flatMap itemColumns) ++ itemsNested quals items)
  | [] => by simp [correlateItems, itemsNested]
  | item :: items => by
    have hitem := correlateItem_eq_iff quals item
    have hitems := correlateItems_eq_iff quals items
    simp only [correlateItems, itemsNested, cons.injEq, hitem, hitems, flatMap_cons,
      outerRefs_append, agree_append]
    tauto

theorem correlateItem_eq_iff (quals : List Text) : ∀ item : ProjectionItem,
    correlateItem r₁ cols quals item = correlateItem r₂ cols quals item ↔
      Agree r₁ r₂ cols (outerRefs quals (itemColumns item) ++ itemNested quals item)
  | .column c => by
    rw [correlateItem, correlateItem, outerItem_eq_iff fun v => ProjectionItem.noConfusion]
    simp [itemColumns, itemNested]
  | .aliasedColumn c label => by
    rw [correlateItem, correlateItem, outerItem_eq_iff fun v => ProjectionItem.noConfusion]
    simp [itemColumns, itemNested]
  | .expr e label => by
    rw [itemColumns, itemNested, ← correlateScalar_eq_iff quals e]
    simp [correlateItem]
  | .subquery plan label => by
    rw [itemNested, itemColumns, outerRefs_nil, List.nil_append, ← correlatePlan_eq_iff quals plan]
    · simp [correlateItem]
    all_goals simp
  | .aggregate _ _ | .scalarFunction _ _ _ | .jsonAccess _ _ _ _ | .caseWhenEq _ _ _ _ _ _
  | .case _ _ _ | .windowFunction _ _ _ _ _ | .literal _ | .aliasedLiteral _ _ => by
    simp [correlateItem, itemColumns, itemNested]

theorem correlateSort_eq_iff (quals : List Text) : ∀ sort : List SortKey,
    correlateSort r₁ cols quals sort = correlateSort r₂ cols quals sort ↔
      Agree r₁ r₂ cols (sortReads quals sort)
  | [] => by simp [correlateSort, sortReads]
  | ⟨target, ascending, nullsFirst, withTies⟩ :: sort => by
    rw [sortReads, agree_append, ← correlateTarget_eq_iff quals target,
      ← correlateSort_eq_iff quals sort]
    simp [correlateSort]

theorem correlateTarget_eq_iff (quals : List Text) : ∀ target : SortTarget,
    correlateTarget r₁ cols quals target = correlateTarget r₂ cols quals target ↔
      Agree r₁ r₂ cols (targetReads quals target)
  | .expr e => by
    rw [targetReads, ← correlateScalar_eq_iff quals e]
    simp [correlateTarget]
  | .output _ | .name _ => by simp [correlateTarget, targetReads]

theorem correlateGroupExprs_eq_iff (quals : List Text) : ∀ exprs : List (Text × ScalarExpr),
    correlateGroupExprs r₁ cols quals exprs = correlateGroupExprs r₂ cols quals exprs ↔
      Agree r₁ r₂ cols (groupExprsReads quals exprs)
  | [] => by simp [correlateGroupExprs, groupExprsReads]
  | (name, e) :: exprs => by
    rw [groupExprsReads, agree_append, ← correlateScalar_eq_iff quals e,
      ← correlateGroupExprs_eq_iff quals exprs]
    simp [correlateGroupExprs]

theorem correlateRows_eq_iff (quals : List Text) : ∀ rows : List (List ScalarExpr),
    correlateRows r₁ cols quals rows = correlateRows r₂ cols quals rows ↔
      Agree r₁ r₂ cols (rowsReads quals rows)
  | [] => by simp [correlateRows, rowsReads]
  | row :: rows => by
    rw [rowsReads, agree_append, ← correlateScalars_eq_iff quals row,
      ← correlateRows_eq_iff quals rows]
    simp [correlateRows]

theorem correlateScalars_eq_iff (quals : List Text) : ∀ es : List ScalarExpr,
    correlateScalars r₁ cols quals es = correlateScalars r₂ cols quals es ↔
      Agree r₁ r₂ cols (outerRefs quals (scalarsColumns es) ++ scalarsNested quals es)
  | [] => by simp [correlateScalars, scalarsColumns, scalarsNested]
  | e :: es => by
    have he := correlateScalar_eq_iff quals e
    have hes := correlateScalars_eq_iff quals es
    simp only [correlateScalars, scalarsColumns, scalarsNested, cons.injEq, he, hes,
      outerRefs_append, agree_append]
    tauto

theorem correlateScalar_eq_iff (quals : List Text) : ∀ e : ScalarExpr,
    correlateScalar r₁ cols quals e = correlateScalar r₂ cols quals e ↔
      Agree r₁ r₂ cols (outerRefs quals (scalarColumns e) ++ scalarNested quals e)
  | .column name => by
    rw [scalarColumns, scalarNested, List.append_nil, ← outerValue_eq_iff]
    rw [correlateScalar, correlateScalar]
    exact map_getD_inj (fun _ _ h => ScalarExpr.literal.inj h) fun _ => ScalarExpr.noConfusion
  | .subquery plan kind => by
    rw [scalarColumns, scalarNested, outerRefs_nil, List.nil_append,
      ← correlatePlan_eq_iff quals plan]
    simp [correlateScalar]
  | .literal v => by simp [correlateScalar, scalarColumns, scalarNested]
  | .unary head e => by
    rw [scalarColumns, scalarNested, ← correlateScalar_eq_iff quals e]
    simp [correlateScalar]
  | .binary head l r => by
    have hl := correlateScalar_eq_iff quals l
    have hr := correlateScalar_eq_iff quals r
    simp only [correlateScalar, scalarColumns, scalarNested, ScalarExpr.binary.injEq, true_and,
      hl, hr, outerRefs_append, agree_append]
    tauto
  | .call head items => by
    rw [scalarColumns, scalarNested, ← correlateScalars_eq_iff quals items]
    simp [correlateScalar]

theorem correlateDeferred_eq_iff (enclosing : List Text) : ∀ items : List (Option DeferredItem),
    correlateDeferred r₁ cols enclosing items = correlateDeferred r₂ cols enclosing items ↔
      Agree r₁ r₂ cols (deferredReads enclosing items)
  | [] => by simp [correlateDeferred, deferredReads]
  | item :: items => by
    rw [deferredReads, agree_append, ← correlateDeferredItem_eq_iff enclosing item,
      ← correlateDeferred_eq_iff enclosing items]
    simp [correlateDeferred]

theorem correlateDeferredItem_eq_iff (enclosing : List Text) : ∀ item : Option DeferredItem,
    correlateDeferredItem r₁ cols enclosing item = correlateDeferredItem r₂ cols enclosing item ↔
      Agree r₁ r₂ cols (deferredItemReads enclosing item)
  | none => by simp [correlateDeferredItem, deferredItemReads]
  | some (.scalar e) => by
    rw [correlateDeferredItem, correlateDeferredItem, deferredItemReads, Option.some.injEq,
      DeferredItem.scalar.injEq]
    split
    · exact bindOuterColumns_eq_iff e
    · exact correlateScalar_eq_iff enclosing e
  | some (.subquery plan) => by
    rw [deferredItemReads, ← correlatePlan_eq_iff enclosing plan]
    simp [correlateDeferredItem]
  | some (.exists plan negated) => by
    rw [deferredItemReads, ← correlatePlan_eq_iff enclosing plan]
    simp [correlateDeferredItem]

theorem bindOuterColumns_eq_iff : ∀ e : ScalarExpr,
    bindOuterColumns r₁ cols e = bindOuterColumns r₂ cols e ↔
      Agree r₁ r₂ cols (scalarColumns e ++ scalarNested [] e)
  | .column name => by
    rw [scalarColumns, scalarNested, List.append_nil, agree_singleton]
    rw [bindOuterColumns, bindOuterColumns]
    exact map_getD_inj (fun _ _ h => ScalarExpr.literal.inj h) fun _ => ScalarExpr.noConfusion
  | .subquery plan kind => by
    rw [scalarColumns, scalarNested, List.nil_append, ← correlatePlan_eq_iff [] plan]
    simp [bindOuterColumns]
  | .literal v => by simp [bindOuterColumns, scalarColumns, scalarNested]
  | .unary head e => by
    rw [scalarColumns, scalarNested, ← bindOuterColumns_eq_iff e]
    simp [bindOuterColumns]
  | .binary head l r => by
    have hl := bindOuterColumns_eq_iff l
    have hr := bindOuterColumns_eq_iff r
    simp only [bindOuterColumns, scalarColumns, scalarNested, ScalarExpr.binary.injEq, true_and,
      hl, hr, agree_append]
    tauto
  | .call head items => by
    rw [scalarColumns, scalarNested, ← bindOuterColumnsAll_eq_iff items]
    simp [bindOuterColumns]

theorem bindOuterColumnsAll_eq_iff : ∀ es : List ScalarExpr,
    bindOuterColumnsAll r₁ cols es = bindOuterColumnsAll r₂ cols es ↔
      Agree r₁ r₂ cols (scalarsColumns es ++ scalarsNested [] es)
  | [] => by simp [bindOuterColumnsAll, scalarsColumns, scalarsNested]
  | e :: es => by
    have he := bindOuterColumns_eq_iff e
    have hes := bindOuterColumnsAll_eq_iff es
    simp only [bindOuterColumnsAll, scalarsColumns, scalarsNested, cons.injEq, he, hes,
      agree_append]
    tauto

theorem correlateFilter_eq_iff (quals : List Text) : ∀ f : FilterExpr,
    correlateFilter r₁ cols quals f = correlateFilter r₂ cols quals f ↔
      Agree r₁ r₂ cols (outerRefs quals (filterColumns quals f) ++ filterNested quals f)
  | .and a b => by
    have ha := correlateFilter_eq_iff quals a
    have hb := correlateFilter_eq_iff quals b
    simp only [correlateFilter, filterColumns, filterNested, FilterExpr.and.injEq, ha, hb,
      outerRefs_append, agree_append]
    tauto
  | .or a b => by
    have ha := correlateFilter_eq_iff quals a
    have hb := correlateFilter_eq_iff quals b
    simp only [correlateFilter, filterColumns, filterNested, FilterExpr.or.injEq, ha, hb,
      outerRefs_append, agree_append]
    tauto
  | .not a => by
    rw [filterColumns, filterNested, ← correlateFilter_eq_iff quals a]
    simp [correlateFilter]
  | .predicate p => by
    rw [filterColumns, filterNested, append_nil, ← correlatePredicate_eq_iff]
    rw [correlateFilter, correlateFilter]
  | .isNull c => by
    rw [filterColumns, filterNested, append_nil, ← correlateIsNull_eq_iff]
    rw [correlateFilter, correlateFilter]
  | .isNotNull c => by
    rw [filterColumns, filterNested, append_nil, ← correlateIsNull_eq_iff]
    rw [correlateFilter, correlateFilter]
  | .inSubquery left subquery negated leftValue => by
    have hplan := correlatePlan_eq_iff quals subquery
    have hleft := @inLeft_eq_iff r₁ r₂ cols quals _ left leftValue
    rw [filterColumns, filterNested, agree_append, ← hplan, ← hleft]
    simp only [correlateFilter, FilterExpr.inSubquery.injEq, true_and]
    tauto
  | .exists subquery negated => by
    rw [filterColumns, filterNested, outerRefs_nil, nil_append,
      ← correlatePlan_eq_iff quals subquery]
    simp [correlateFilter]
  | .compareSubquery left op subquery => by
    rw [filterColumns, filterNested, outerRefs_nil, nil_append,
      ← correlatePlan_eq_iff quals subquery]
    simp [correlateFilter]
  | .inList left list negated => by
    rw [filterColumns, filterNested, append_nil, ← correlateOperands_eq_iff]
    simp [correlateFilter]
  | .exprCmp left op right => by
    have hl := correlateScalar_eq_iff quals left
    have hr := correlateScalar_eq_iff quals right
    simp only [correlateFilter, filterColumns, filterNested, FilterExpr.exprCmp.injEq, true_and,
      hl, hr, outerRefs_append, agree_append]
    tauto
  | .scalar e => by
    rw [filterColumns, filterNested, ← correlateScalar_eq_iff quals e]
    simp [correlateFilter]
  | .quantifiedSubquery left op subquery all => by
    have hl := correlateScalar_eq_iff quals left
    have hplan := correlatePlan_eq_iff quals subquery
    simp only [correlateFilter, filterColumns, filterNested,
      FilterExpr.quantifiedSubquery.injEq, true_and, and_true, hl, hplan, agree_append]
    tauto

end

end Agree

/-! ## Detection -/

theorem append_subset_append {as as' bs bs' : List Text} (h : as ⊆ as') (h' : bs ⊆ bs') :
    as ++ bs ⊆ as' ++ bs' :=
  append_subset.mpr ⟨fun _ hx => mem_append_left _ (h hx), fun _ hx => mem_append_right _ (h' hx)⟩

theorem flatMap_subset_flatMap {α : Type} {as : List α} {f g : α → List Text}
    (h : ∀ a, f a ⊆ g a) : as.flatMap f ⊆ as.flatMap g := by
  intro x hx
  obtain ⟨a, ha, hx⟩ := mem_flatMap.mp hx
  exact mem_flatMap.mpr ⟨a, ha, h a hx⟩

mutual

theorem scalarColumns_subset : ∀ e : ScalarExpr, scalarColumns e ⊆ scalarColumnRefs e
  | .column name => by simp [scalarColumns, scalarColumnRefs]
  | .literal _ | .subquery _ _ => by simp [scalarColumns]
  | .unary _ e => by
    rw [scalarColumns, scalarColumnRefs]
    exact scalarColumns_subset e
  | .binary _ l r => by
    rw [scalarColumns, scalarColumnRefs]
    exact append_subset_append (scalarColumns_subset l) (scalarColumns_subset r)
  | .call (.aggregate _ _ _ _ _ _ _) items => by
    rw [scalarColumns, scalarColumnRefs]
    exact fun _ hx => List.mem_append_right _ (scalarsColumns_subset items hx)
  | .call (.function _) items | .call .row items | .call (.inList _) items
  | .call (.case _ _ _) items | .call (.window _ _ _ _ _ _) items => by
    rw [scalarColumns, scalarColumnRefs]
    · exact scalarsColumns_subset items
    · simp

theorem scalarsColumns_subset : ∀ es : List ScalarExpr, scalarsColumns es ⊆ scalarsColumnRefs es
  | [] => by simp [scalarsColumns]
  | e :: es => by
    rw [scalarsColumns, scalarsColumnRefs]
    exact append_subset_append (scalarColumns_subset e) (scalarsColumns_subset es)

end

section Detection

theorem itemColumns_subset (item : ProjectionItem) : itemColumns item ⊆ item.columnRefs := by
  cases item with
  | expr e label => exact scalarColumns_subset e
  | _ => simp [itemColumns, ProjectionItem.columnRefs]

variable [Lowercase] {quals cols : List Text}

theorem filterColumns_subset : ∀ f : FilterExpr, filterColumns quals f ⊆ filterColumnRefs f
  | .and a b | .or a b => by
    rw [filterColumns, filterColumnRefs]
    exact append_subset_append (filterColumns_subset a) (filterColumns_subset b)
  | .not a => by
    rw [filterColumns, filterColumnRefs]
    exact filterColumns_subset a
  | .predicate ⟨left, op, .literal v⟩ => by
    simp [filterColumns, filterColumnRefs, predicateColumns]
  | .predicate ⟨left, op, .ident right⟩ => by
    simp only [filterColumns, filterColumnRefs, predicateColumns, Operand.columnRefs]
    split <;> simp
  | .inList left list negated => by
    rw [filterColumns, filterColumnRefs]
    exact List.subset_cons_self _ _
  | .exprCmp left op right => by
    rw [filterColumns, filterColumnRefs]
    exact append_subset_append (scalarColumns_subset left) (scalarColumns_subset right)
  | .scalar e => by
    rw [filterColumns, filterColumnRefs]
    exact scalarColumns_subset e
  | .quantifiedSubquery left op subquery all => by
    rw [filterColumns, filterColumnRefs]
    exact scalarColumns_subset left
  | .isNull _ | .isNotNull _ | .inSubquery _ _ _ _ | .exists _ _ | .compareSubquery _ _ _ => by
    simp [filterColumns, filterColumnRefs]

theorem conditionColumns_subset (condition : Option FilterExpr) :
    conditionColumns quals condition ⊆ (condition.map filterColumnRefs).getD [] := by
  cases condition with
  | none => simp [conditionColumns]
  | some f => exact filterColumns_subset f

/-- The names that are replaced in places that are not looked at: for a `SELECT`, all
but its own conditions and select list, and for any other plan all. -/
def hiddenReads : LogicalPlan → List Text
  | .select s => selectNested [] s
  | plan => planReads [] plan

/-- The conditions or the select list of a `SELECT` have an outer reference. -/
def MentionsOuter : LogicalPlan → Prop
  | .select s => ∃ name ∈ s.columnRefs, isOuterRef name s.relationQuals = true
  | _ => False

variable {plan : LogicalPlan}

theorem subqueryIsCorrelated_iff : subqueryIsCorrelated plan = true ↔ MentionsOuter plan := by
  cases plan with
  | select s => simp [subqueryIsCorrelated, MentionsOuter]
  | _ => simp [subqueryIsCorrelated, MentionsOuter]

theorem hidden_or_mentioned {name : Text} (h : name ∈ planReads [] plan) :
    name ∈ hiddenReads plan ∨ MentionsOuter plan := by
  cases plan with
  | select s =>
    rw [planReads] at h
    rcases mem_append.mp h with h | h
    · obtain ⟨hmem, houter⟩ := mem_filter.mp h
      refine .inr ⟨name, ?_, houter⟩
      have hsub : ∀ quals, conditionColumns quals s.filter ++ conditionColumns quals s.having ++
          (s.joins.flatMap fun j => conditionColumns quals j.condition) ++
          s.projection.flatMap itemColumns ⊆ s.columnRefs := fun quals =>
        append_subset_append (append_subset_append (append_subset_append
          (conditionColumns_subset _) (conditionColumns_subset _))
          (flatMap_subset_flatMap fun j => conditionColumns_subset _))
          (flatMap_subset_flatMap itemColumns_subset)
      exact hsub _ hmem
    · exact .inl h
  | _ => exact .inl h

theorem mem_planReads_of_hidden (h : name ∈ hiddenReads plan) :
    name ∈ planReads [] plan := by
  cases plan with
  | select s =>
    rw [planReads]
    exact mem_append_right _ h
  | _ => exact h

/-- The outer row matters if and only if one of the names that are replaced is one of its
columns. -/
theorem rows_matter_iff :
    (∃ r₁ r₂, correlatePlan r₁ cols [] plan ≠ correlatePlan r₂ cols [] plan) ↔
      ∃ name ∈ planReads [] plan, colPos cols name ≠ none := by
  constructor
  · rintro ⟨r₁, r₂, hne⟩
    rw [Ne, correlatePlan_eq_iff, Agree] at hne
    push Not at hne
    obtain ⟨name, hmem, hlookup⟩ := hne
    refine ⟨name, hmem, fun hnone => hlookup ?_⟩
    rw [outerLookup, outerLookup, hnone]
    rfl
  · rintro ⟨name, hmem, hsome⟩
    obtain ⟨i, hi⟩ := Option.ne_none_iff_exists'.mp hsome
    -- Two rows that differ in every column.
    refine ⟨replicate (i + 1) .null, replicate (i + 1) (.int 0), fun heq => ?_⟩
    have hlookup := (correlatePlan_eq_iff [] plan).mp heq name hmem
    simp [outerLookup, hi] at hlookup

/-- A subquery whose plan depends on the outer row is reported, if and only if no
column of the outer query is read in a place that is not looked at, or an outer reference
stands in a place that is. -/
theorem correlated_detected_iff (plan : LogicalPlan) (cols : List Text) :
    ((∃ r₁ r₂, correlatePlan r₁ cols [] plan ≠ correlatePlan r₂ cols [] plan) →
        subqueryIsCorrelated plan = true) ↔
      (∀ name ∈ hiddenReads plan, colPos cols name = none) ∨ MentionsOuter plan := by
  rw [rows_matter_iff, subqueryIsCorrelated_iff]
  constructor
  · intro h
    refine or_iff_not_imp_right.mpr fun hnot name hmem => ?_
    by_contra hne
    exact hnot (h ⟨name, mem_planReads_of_hidden hmem, hne⟩)
  · rintro (hhidden | hmentions) ⟨name, hmem, hne⟩
    · rcases hidden_or_mentioned hmem with hmem | hmentions
      · exact absurd (hhidden name hmem) hne
      · exact hmentions
    · exact hmentions

end Detection

namespace Fixed

/-- `to_lowercase` on ASCII text. -/
@[reducible] def asciiLowercase : Lowercase where
  toLowercase := List.map fun b => if 65 ≤ b ∧ b ≤ 90 then b + 32 else b

/-- `SELECT * FROM i WHERE i.k = o.k`. -/
def inner : LogicalPlan :=
  .select
    { ctes := []
      tableName := ascii "i"
      tableAlias := none
      joins := []
      projection := []
      groupBy := []
      filter := some (.predicate ⟨ascii "i.k", .eq, .ident (ascii "o.k")⟩)
      having := none
      groupingSets := none
      limit := none
      offset := none
      distinct := false
      sort := []
      groupExprs := []
      distinctOn := [] }

end Fixed

/-- The union of two correlated queries is not reported. -/
theorem correlated_union_undetected :
    letI := Fixed.asciiLowercase
    correlatePlan [.int 1] [ascii "o.k"] [] (.setOp .union false Fixed.inner Fixed.inner) ≠
      correlatePlan [.int 2] [ascii "o.k"] [] (.setOp .union false Fixed.inner Fixed.inner) ∧
    subqueryIsCorrelated (.setOp .union false Fixed.inner Fixed.inner) = false := by
  let := Fixed.asciiLowercase
  refine ⟨fun heq => ?_, rfl⟩
  have hlookup := (correlatePlan_eq_iff _ _).mp heq (ascii "o.k") (by decide +kernel)
  have hpos : colPos [ascii "o.k"] (ascii "o.k") = some 0 := by decide +kernel
  simp [outerLookup, hpos] at hlookup

end NodusDb.Sql
