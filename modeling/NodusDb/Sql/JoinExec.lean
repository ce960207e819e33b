import NodusDb.Lib.Joins
import NodusDb.Sql.JoinPlan

/-!
# Hash and merge joins

The executor joins the rows so far with the rows of the next relation. A hash join
looks the left row's key up in a table of the right rows, and a merge join in their
sorted list. Both are compared with the join that the condition defines.

* `joins_correct`: when it is the one that the condition defines.
-/

namespace NodusDb.Sql

open Evaluator List

/-- One side of a join: its rows with the names and types of their columns. -/
structure Side where
  rows : List Row
  names : List Text
  columns : List ColumnDescriptor

def nulls (n : Nat) : Row := List.replicate n .null

def JoinType.keepsLeft : JoinType → Bool
  | .leftOuter | .fullOuter => true
  | _ => false

def JoinType.keepsRight : JoinType → Bool
  | .rightOuter | .fullOuter => true
  | _ => false

section Exec

variable [Evaluator]

/-- The text of a row's key; a row with a NULL in it has none. -/
def hashKey (row : Row) (colNames : List Text) : List HashKey → Option Text
  | [] => some []
  | part :: parts => do
    let value ← match part with
      | .column name => do
        let position ← colPos colNames name
        row[position]?
      | .expr e => some (evalExpr e row colNames)
    if value.isNull then none
    else return render (keyForm value) ++ [1] ++ (← hashKey row colNames parts)

/-- The rows that pass a filter and have a key, with their keys and positions. -/
def Side.keyed (s : Side) (filter : Option FilterExpr) (keys : List HashKey) :
    List (Text × Nat × Row) :=
  s.rows.zipIdx.filterMap fun (row, i) =>
    if holdsOption row s.names s.columns filter then
      (hashKey row s.names keys).map fun key => (key, i, row)
    else none

/-- The rows so far, and the positions of the right rows that are in one of them. -/
structure JoinState where
  nextRows : List Row
  rightMatched : List Nat

variable (joinType : JoinType) (keys : HashJoinKeys) (left right : Side)

/-- The equalities and the conditions over both sides hold for a pair. -/
def pairHolds (combined : Row) : Bool :=
  (keys.pairTests.all (holds combined (left.names ++ right.names) (left.columns ++ right.columns)))
    && holdsOption combined (left.names ++ right.names) (left.columns ++ right.columns)
      keys.joinFilter

/-- A left row with the candidates that its key finds. -/
def probeRow (st : JoinState) (r1 : Row) (candidates : List (Nat × Row)) : JoinState :=
  let hits := candidates.filter fun c => pairHolds keys left right (r1 ++ c.2)
  { nextRows := st.nextRows ++ (hits.map (fun c => r1 ++ c.2) ++
      if hits.isEmpty && joinType.keepsLeft then [r1 ++ nulls right.columns.length] else [])
    rightMatched := st.rightMatched ++ hits.map (·.1) }

/-- The right rows that matched nothing, for a join that keeps them. -/
def finishJoin (st : JoinState) : List Row :=
  st.nextRows ++
    if joinType.keepsRight then
      (right.rows.zipIdx.filter fun r => r.2 ∉ st.rightMatched).map fun r =>
        nulls left.names.length ++ r.1
    else []

/-- The left rows that pass the filter of their side. -/
def keptLeft : List Row :=
  left.rows.filter fun r1 => holdsOption r1 left.names left.columns keys.leftFilter

/-- The right rows with a left row's key, from a table by their keys. -/
def hashCandidates (r1 : Row) : List (Nat × Row) :=
  let table := groupTable (right.keyed keys.rightFilter keys.rightKeys)
  match hashKey r1 left.names keys.leftKeys with
  | some key => (table.get? key).getD []
  | none => []

/-- Each left row probes the table of the right rows. -/
def hashJoin : List Row :=
  finishJoin joinType left right <|
    (keptLeft keys left).foldl (fun st r1 => probeRow joinType keys left right st r1
      (hashCandidates keys left right r1)) ⟨[], []⟩

/-- The right rows with a key, from the list that is sorted by the keys. -/
def mergeCandidates (key : Text) : List (Nat × Row) :=
  let sorted := (right.keyed keys.rightFilter keys.rightKeys).insertionSort fun a b => a.1 ≤ b.1
  ((sorted.dropWhile fun r => r.1 < key).takeWhile fun r => r.1 = key).map (·.2)

def leftKeyed : List (Text × Row) :=
  ((keptLeft keys left).filterMap fun r1 =>
    (hashKey r1 left.names keys.leftKeys).map fun key => (key, r1)).insertionSort
      fun a b => a.1 ≤ b.1

def leftUnkeyed : List Row :=
  (keptLeft keys left).filter fun r1 => (hashKey r1 left.names keys.leftKeys).isNone

/-- Both sides are sorted by their keys and read together. The left rows without a key
come last. -/
def mergeJoin : List Row :=
  let st := (leftKeyed keys left).foldl (fun st l => probeRow joinType keys left right st l.2
    (mergeCandidates keys right l.1)) ⟨[], []⟩
  finishJoin joinType left right <|
    (leftUnkeyed keys left).foldl (fun st r1 => probeRow joinType keys left right st r1 []) st

/-! ## The pairs that are found -/

/-- Two rows have a key, and it is the same. -/
def sameKey (l r : Row) : Bool :=
  match hashKey l left.names keys.leftKeys, hashKey r right.names keys.rightKeys with
  | some a, some b => a = b
  | _, _ => false

/-- The pairs that a hash or merge join finds: each row passes the filter of its side, the
keys are the same, and the conditions on pairs hold. -/
def joined (l r : Row) : Bool :=
  holdsOption l left.names left.columns keys.leftFilter &&
    holdsOption r right.names right.columns keys.rightFilter &&
    sameKey keys left right l r && pairHolds keys left right (l ++ r)

/-- The right rows for a left row, with their positions. -/
def hitsOf (l : Row) : List (Nat × Row) :=
  (right.rows.zipIdx.filter fun r => joined keys left right l r.1).map fun r => (r.2, r.1)

def rowsOf (l : Row) : List Row :=
  (right.rows.filter (joined keys left right l)).map (l ++ ·) ++
    if right.rows.any (joined keys left right l) then []
    else if joinType.keepsLeft then [l ++ nulls right.columns.length] else []

variable {joinType keys left right}

theorem map_hitsOf (l : Row) :
    (hitsOf keys left right l).map (fun c => l ++ c.2) =
      (right.rows.filter (joined keys left right l)).map (l ++ ·) := by
  rw [← map_filter_zipIdx, hitsOf, map_map, map_map]
  rfl

theorem isEmpty_hitsOf (l : Row) :
    (hitsOf keys left right l).isEmpty = !right.rows.any (joined keys left right l) := by
  have hmap : ((hitsOf keys left right l).map (fun c => l ++ c.2)).isEmpty =
      ((right.rows.filter (joined keys left right l)).map (l ++ ·)).isEmpty := by rw [map_hitsOf]
  rw [isEmpty_map, isEmpty_map] at hmap
  rw [hmap, Bool.eq_iff_iff]
  simp [filter_eq_nil_iff]

variable {l : Row}

theorem mem_hitsOf (h : (r, i) ∈ right.rows.zipIdx) :
    i ∈ (hitsOf keys left right l).map (·.1) ↔ joined keys left right l r = true := by
  rw [hitsOf, map_map, mem_map]
  constructor
  · rintro ⟨⟨r', i'⟩, hmem, hi⟩
    obtain ⟨hmem, hjoined⟩ := mem_filter.mp hmem
    cases hi
    have hr := mk_mem_zipIdx_iff_getElem?.mp h
    have hr' := mk_mem_zipIdx_iff_getElem?.mp hmem
    have heq : r' = r := Option.some.inj (hr'.symm.trans hr)
    exact heq ▸ hjoined
  · intro hjoined
    exact ⟨(r, i), mem_filter.mpr ⟨h, hjoined⟩, rfl⟩

variable (joinType) in
theorem foldl_probeRow (row : δ → Row) (candidates : δ → List (Nat × Row)) (items : List δ)
    (h : ∀ item ∈ items,
      ((candidates item).filter fun c => pairHolds keys left right (row item ++ c.2)).Perm
        (hitsOf keys left right (row item))) (st : JoinState) :
    (items.foldl (fun st item => probeRow joinType keys left right st (row item)
        (candidates item)) st).nextRows.Perm
      (st.nextRows ++ (items.map row).flatMap (rowsOf joinType keys left right)) ∧
    ∀ r i, (r, i) ∈ right.rows.zipIdx → (i ∈ (items.foldl (fun st item =>
        probeRow joinType keys left right st (row item) (candidates item)) st).rightMatched ↔
      i ∈ st.rightMatched ∨ ∃ l ∈ items.map row, joined keys left right l r = true) := by
  induction items generalizing st with
  | nil => exact ⟨.of_eq (append_nil _).symm, fun r i _ => by simp⟩
  | cons item items ih =>
    have hhits := h item mem_cons_self
    obtain ⟨hrows, hmatched⟩ := ih (fun x hx => h x (mem_cons_of_mem _ hx))
      (probeRow joinType keys left right st (row item) (candidates item))
    rw [foldl_cons]
    constructor
    · refine hrows.trans ?_
      rw [map_cons, flatMap_cons, ← append_assoc]
      refine List.Perm.append_right _ (List.Perm.append_left _ ?_)
      rw [rowsOf]
      refine List.Perm.append ?_ (.of_eq ?_)
      · rw [← map_hitsOf]
        exact hhits.map _
      rw [hhits.isEmpty_eq, isEmpty_hitsOf]
      cases right.rows.any (joined keys left right (row item)) <;> cases joinType.keepsLeft <;>
        rfl
    · intro r i hr
      rw [hmatched r i hr]
      have hone : i ∈ ((candidates item).filter fun c =>
          pairHolds keys left right (row item ++ c.2)).map (·.1) ↔
          joined keys left right (row item) r = true :=
        (hhits.map _).mem_iff.trans (mem_hitsOf hr)
      simp only [probeRow, mem_append, hone, map_cons, mem_cons, exists_eq_or_imp, or_assoc]

theorem finishJoin_perm (ls : List Row)
    (hrows : st.nextRows.Perm (ls.flatMap (rowsOf joinType keys left right)))
    (hmatched : ∀ r i, (r, i) ∈ right.rows.zipIdx →
      (i ∈ st.rightMatched ↔ ∃ l ∈ ls, joined keys left right l r = true)) :
    (finishJoin joinType left right st).Perm
      (joinOf (· ++ ·) (· ++ nulls right.columns.length) (nulls left.names.length ++ ·)
        joinType.keepsLeft joinType.keepsRight (joined keys left right) ls right.rows) := by
  refine List.Perm.trans ?_ joinOf_rows_perm
  rw [finishJoin]
  refine hrows.append (.of_eq ?_)
  cases joinType.keepsRight with
  | false => rfl
  | true =>
    have hfilter : (right.rows.zipIdx.filter fun r => r.2 ∉ st.rightMatched) =
        right.rows.zipIdx.filter fun r => !ls.any fun l => joined keys left right l r.1 := by
      refine filter_congr fun r hr => ?_
      rw [Bool.eq_iff_iff]
      simpa using not_congr (hmatched r.1 r.2 hr)
    rw [if_pos rfl, if_pos rfl, hfilter, ← map_filter_zipIdx right.rows, map_map]
    rfl

/-- The right rows with the left row's key that pass the conditions on pairs are its
partners. -/
theorem hits_of_key (hleft : holdsOption l left.names left.columns keys.leftFilter = true)
    (hkey : hashKey l left.names keys.leftKeys = some key) :
    ((((right.keyed keys.rightFilter keys.rightKeys).filter fun r => r.1 = key).map (·.2)).filter
      fun c => pairHolds keys left right (l ++ c.2)) = hitsOf keys left right l := by
  unfold Side.keyed hitsOf
  induction right.rows.zipIdx with
  | nil => rfl
  | cons r rs ih =>
    have hjoined : joined keys left right l r.1 =
        (holdsOption r.1 right.names right.columns keys.rightFilter &&
          decide (hashKey r.1 right.names keys.rightKeys = some key) &&
          pairHolds keys left right (l ++ r.1)) := by
      rw [joined, hleft, Bool.true_and, sameKey, hkey]
      cases hashKey r.1 right.names keys.rightKeys with
      | none => simp
      | some k => simp [eq_comm]
    rw [filter_cons, hjoined]
    simp only [filterMap_cons]
    cases holdsOption r.1 right.names right.columns keys.rightFilter with
    | false => simpa using ih
    | true =>
      cases hashKey r.1 right.names keys.rightKeys with
      | none => simpa using ih
      | some k =>
        by_cases hk : k = key
        · cases hpair : pairHolds keys left right (l ++ r.1) <;> simp [hk, hpair, ← ih]
        · simpa [hk] using ih

theorem hitsOf_of_none (hkey : hashKey l left.names keys.leftKeys = none) :
    hitsOf keys left right l = [] := by
  have hnone : ∀ r, joined keys left right l r = false := fun r => by
    rw [joined, sameKey, hkey, Bool.and_false, Bool.false_and]
  simp [hitsOf, hnone]

variable (joinType keys left right)

/-- The join that a hash or merge join computes: the left rows that fail the filter of
their side are left out. -/
def foundJoin : List Row :=
  joinOf (· ++ ·) (· ++ nulls right.columns.length) (nulls left.names.length ++ ·)
    joinType.keepsLeft joinType.keepsRight (joined keys left right) (keptLeft keys left) right.rows

theorem hashJoin_perm :
    (hashJoin joinType keys left right).Perm (foundJoin joinType keys left right) := by
  have hhits : ∀ l ∈ keptLeft keys left, ((hashCandidates keys left right l).filter fun c =>
      pairHolds keys left right (id l ++ c.2)).Perm (hitsOf keys left right (id l)) := by
    intro l hl
    have hleft := (mem_filter.mp hl).2
    unfold hashCandidates
    cases hkey : hashKey l left.names keys.leftKeys with
    | none =>
      rw [id, hitsOf_of_none hkey]
      exact .refl _
    | some key =>
      simp only [id, getD_groupTable]
      exact .of_eq (by convert hits_of_key hleft hkey)
  obtain ⟨hrows, hmatched⟩ := foldl_probeRow joinType id _ _ hhits ⟨[], []⟩
  rw [map_id] at hrows hmatched
  refine finishJoin_perm _ hrows fun r i hr => (hmatched r i hr).trans ?_
  simp

theorem leftKeyed_append_perm :
    ((leftKeyed keys left).map (·.2) ++ leftUnkeyed keys left).Perm (keptLeft keys left) := by
  have hsorted := (perm_insertionSort (fun a b : Text × Row => a.1 ≤ b.1)
    ((keptLeft keys left).filterMap fun r1 =>
      (hashKey r1 left.names keys.leftKeys).map fun key => (key, r1))).map (·.2)
  refine (hsorted.append_right _).trans ?_
  unfold leftUnkeyed
  induction keptLeft keys left with
  | nil => exact .refl _
  | cons l ls ih =>
    cases hkey : hashKey l left.names keys.leftKeys with
    | none => simpa [hkey] using perm_middle.trans (ih.cons l)
    | some key => simpa [hkey] using ih

theorem mergeJoin_perm :
    (mergeJoin joinType keys left right).Perm (foundJoin joinType keys left right) := by
  have hkeyed : ∀ l ∈ leftKeyed keys left, ((mergeCandidates keys right l.1).filter fun c =>
      pairHolds keys left right (l.2 ++ c.2)).Perm (hitsOf keys left right l.2) := by
    intro l hl
    have hmem := (perm_insertionSort _ _).mem_iff.mp hl
    obtain ⟨r1, hr1, hmap⟩ := mem_filterMap.mp hmem
    obtain ⟨key, hkey, hl⟩ := Option.map_eq_some_iff.mp hmap
    subst hl
    rw [← hits_of_key (mem_filter.mp hr1).2 hkey]
    have hsorted := pairwise_insertionSort (fun a b : Text × Nat × Row => a.1 ≤ b.1)
      (right.keyed keys.rightFilter keys.rightKeys)
    have hcandidates : mergeCandidates keys right key =
        (((right.keyed keys.rightFilter keys.rightKeys).insertionSort fun a b =>
          a.1 ≤ b.1).filter fun r => r.1 = key).map (·.2) := by
      rw [mergeCandidates]
      exact congrArg _ (by convert takeWhile_dropWhile_sorted key hsorted)
    rw [hcandidates]
    exact (((perm_insertionSort _ _).filter _).map _).filter _
  obtain ⟨hrows, hmatched⟩ := foldl_probeRow joinType (fun l : Text × Row => l.2) _ _ hkeyed
    ⟨[], []⟩
  have hunkeyed : ∀ l ∈ leftUnkeyed keys left, (([] : List (Nat × Row)).filter fun c =>
      pairHolds keys left right (id l ++ c.2)).Perm (hitsOf keys left right (id l)) := by
    intro l hl
    rw [id, hitsOf_of_none (Option.isNone_iff_eq_none.mp (mem_filter.mp hl).2)]
    exact .refl _
  obtain ⟨hrows', hmatched'⟩ := foldl_probeRow joinType id (fun _ => []) _ hunkeyed
    ((leftKeyed keys left).foldl (fun st l => probeRow joinType keys left right st l.2
      (mergeCandidates keys right l.1)) ⟨[], []⟩)
  rw [map_id] at hrows' hmatched'
  refine (finishJoin_perm ((leftKeyed keys left).map (·.2) ++ leftUnkeyed keys left)
    ?_ fun r i hr => ?_).trans (joinOf_perm (leftKeyed_append_perm keys left))
  · rw [flatMap_append]
    exact hrows'.trans (hrows.append_right _)
  refine (hmatched' r i hr).trans ?_
  rw [hmatched r i hr]
  simp only [not_mem_nil, false_or, mem_append, or_and_right, exists_or]

/-! ## The join of the condition -/

/-- The join that a condition defines: the pairs for which it is true and, for an outer
join, the rows of a kept side that are in no such pair, with NULLs for the other side. -/
def sqlJoin (condition : FilterExpr) : List Row :=
  joinOf (· ++ ·) (· ++ nulls right.columns.length) (nulls left.names.length ++ ·)
    joinType.keepsLeft joinType.keepsRight
    (fun l r => holds (l ++ r) (left.names ++ right.names) (left.columns ++ right.columns)
      condition) left.rows right.rows

/-- The split of the condition decides as the condition does. For a pair on which the
equalities and the conditions over both sides hold, the one-sided conditions hold for
the two rows alone and the rows have the same key, if and only if the one-sided
conditions hold for the pair. A join that keeps the left side has no left row that fails
the left side's condition. -/
structure SplitSound : Prop where
  pairs : ∀ l ∈ left.rows, ∀ r ∈ right.rows, pairHolds keys left right (l ++ r) = true →
    (holdsOption l left.names left.columns keys.leftFilter &&
      holdsOption r right.names right.columns keys.rightFilter && sameKey keys left right l r) =
    (holdsOption (l ++ r) (left.names ++ right.names) (left.columns ++ right.columns)
        keys.leftFilter &&
      holdsOption (l ++ r) (left.names ++ right.names) (left.columns ++ right.columns)
        keys.rightFilter)
  kept : joinType.keepsLeft = true → ∀ l ∈ left.rows,
    holdsOption l left.names left.columns keys.leftFilter = true

instance : Decidable (SplitSound joinType keys left right) :=
  decidable_of_iff (_ ∧ _) ⟨fun h => ⟨h.1, h.2⟩, fun h => ⟨h.pairs, h.kept⟩⟩

/-- The rows have a value for each column, and none is all NULLs. -/
structure ProperRows : Prop where
  left : ∀ l ∈ left.rows, l.length = left.names.length ∧ l ≠ nulls left.names.length
  right : ∀ r ∈ right.rows, r.length = right.columns.length ∧ r ≠ nulls right.columns.length

variable {joinType keys left right} {condition : FilterExpr}

section

variable (h : joinKeys (some condition) left.names right.names = some keys)
include h

theorem holds_joinKeys (row : Row) (names : List Text) (columns : List ColumnDescriptor) :
    holds row names columns condition =
      ((keys.pairTests.all (holds row names columns) &&
          holdsOption row names columns keys.joinFilter) &&
        (holdsOption row names columns keys.leftFilter &&
          holdsOption row names columns keys.rightFilter)) := by
  obtain ⟨plan, hplan, rfl⟩ := Option.map_eq_some_iff.mp h
  have hclassify := (Option.filter_eq_some_iff.mp hplan).1
  rw [holds_conjuncts, ← classify_all hclassify, JoinPlan.all]
  simp only [holdsOption_conjunction]
  cases plan.pairTests.all (holds row names columns) <;>
    cases plan.leftOnly.all (holds row names columns) <;>
    cases plan.rightOnly.all (holds row names columns) <;> simp

/-- A pair is found if and only if the condition is true for it, where the split decides
as the condition does. -/
theorem joined_eq_iff :
    joined keys left right l r = holds (l ++ r) (left.names ++ right.names)
        (left.columns ++ right.columns) condition ↔
      (pairHolds keys left right (l ++ r) = true →
        (holdsOption l left.names left.columns keys.leftFilter &&
          holdsOption r right.names right.columns keys.rightFilter && sameKey keys left right l r) =
        (holdsOption (l ++ r) (left.names ++ right.names) (left.columns ++ right.columns)
            keys.leftFilter &&
          holdsOption (l ++ r) (left.names ++ right.names) (left.columns ++ right.columns)
            keys.rightFilter)) := by
  rw [holds_joinKeys h, joined, ← pairHolds]
  cases pairHolds keys left right (l ++ r) <;> simp

theorem foundJoin_eq_of_sound (hsound : SplitSound joinType keys left right) :
    foundJoin joinType keys left right = sqlJoin joinType left right condition := by
  rw [foundJoin, keptLeft, joinOf_filter (fun l _ r _ hlr => ?_) hsound.kept]
  · exact joinOf_congr fun l hl r hr => (joined_eq_iff h).mpr (hsound.pairs l hl r hr)
  · rw [joined, Bool.and_eq_true, Bool.and_eq_true, Bool.and_eq_true] at hlr
    exact hlr.1.1.1

end

section Proper

omit [Evaluator]

variable (hrows : ProperRows left right) {l r : Row} (hl : l ∈ left.rows) (hr : r ∈ right.rows)

include hrows hl hr in
theorem append_mem_joinOf (hls : ls ⊆ left.rows) :
    l ++ r ∈ joinOf (· ++ ·) (· ++ nulls right.columns.length) (nulls left.names.length ++ ·)
        joinType.keepsLeft joinType.keepsRight on ls right.rows ↔ l ∈ ls ∧ on l r = true := by
  have hwidth := (hrows.left l hl).1
  rw [mem_joinOf]
  constructor
  · rintro (⟨l', hl', r', _, hon, heq⟩ | ⟨_, l', hl', _, heq⟩ | ⟨_, r', _, _, heq⟩)
    · obtain ⟨rfl, rfl⟩ := append_inj heq (hwidth.trans (hrows.left l' (hls hl')).1.symm)
      exact ⟨hl', hon⟩
    · have heq := append_inj heq (hwidth.trans (hrows.left l' (hls hl')).1.symm)
      exact absurd heq.2 (hrows.right r hr).2
    · have heq := append_inj heq (hwidth.trans (length_replicate).symm)
      exact absurd heq.1 (hrows.left l hl).2
  · rintro ⟨hl', hon⟩
    exact .inl ⟨l, hl', r, hr, hon, rfl⟩

include hrows hl in
/-- A left row alone is in a join that keeps the left side if and only if it is one of the
rows and related to nothing. -/
theorem alone_mem_joinOf (hls : ls ⊆ left.rows) (hkeep : joinType.keepsLeft = true) :
    l ++ nulls right.columns.length ∈ joinOf (· ++ ·) (· ++ nulls right.columns.length)
        (nulls left.names.length ++ ·) joinType.keepsLeft joinType.keepsRight on ls right.rows ↔
      l ∈ ls ∧ ∀ r ∈ right.rows, on l r = false := by
  have hwidth := (hrows.left l hl).1
  rw [mem_joinOf]
  constructor
  · rintro (⟨l', hl', r', hr', hon, heq⟩ | ⟨_, l', hl', hnone, heq⟩ | ⟨_, r', _, _, heq⟩)
    · have heq := append_inj heq (hwidth.trans (hrows.left l' (hls hl')).1.symm)
      exact absurd heq.2.symm (hrows.right r' hr').2
    · obtain ⟨rfl, _⟩ := append_inj heq (hwidth.trans (hrows.left l' (hls hl')).1.symm)
      exact ⟨hl', hnone⟩
    · have heq := append_inj heq (hwidth.trans (length_replicate).symm)
      exact absurd heq.1 (hrows.left l hl).2
  · rintro ⟨hl', hnone⟩
    exact .inr (.inl ⟨hkeep, l, hl', hnone, rfl⟩)

end Proper

/-- A join with the right rows tells the pairs and the left rows alone, so the split is
right. -/
theorem sound_of_foundJoin (h : joinKeys (some condition) left.names right.names = some keys)
    (hrows : ProperRows left right) (hmem : ∀ row, row ∈ foundJoin joinType keys left right ↔
      row ∈ sqlJoin joinType left right condition) : SplitSound joinType keys left right := by
  have hkept : keptLeft keys left ⊆ left.rows := filter_subset_self _
  have hfilter : ∀ l r, joined keys left right l r = true →
      holdsOption l left.names left.columns keys.leftFilter = true := by
    intro l r hlr
    rw [joined, Bool.and_eq_true, Bool.and_eq_true, Bool.and_eq_true] at hlr
    exact hlr.1.1.1
  have hsame : ∀ l ∈ left.rows, ∀ r ∈ right.rows, joined keys left right l r =
      holds (l ++ r) (left.names ++ right.names) (left.columns ++ right.columns) condition := by
    intro l hl r hr
    have hpair := hmem (l ++ r)
    rw [foundJoin, sqlJoin, append_mem_joinOf hrows hl hr hkept,
      append_mem_joinOf hrows hl hr (List.Subset.refl _)] at hpair
    rw [Bool.eq_iff_iff]
    constructor
    · intro hlr
      exact (hpair.mp ⟨mem_filter.mpr ⟨hl, hfilter l r hlr⟩, hlr⟩).2
    · intro hholds
      exact (hpair.mpr ⟨hl, hholds⟩).2
  refine ⟨fun l hl r hr => (joined_eq_iff h).mp (hsame l hl r hr), fun hkeep l hl => ?_⟩
  -- A left row that fails its side's filter is in no pair, so it stands alone in the join.
  by_contra hfail
  have halone := hmem (l ++ nulls right.columns.length)
  rw [foundJoin, sqlJoin, alone_mem_joinOf hrows hl hkept hkeep,
    alone_mem_joinOf hrows hl (List.Subset.refl _) hkeep] at halone
  have hnone : ∀ r ∈ right.rows, holds (l ++ r) (left.names ++ right.names)
      (left.columns ++ right.columns) condition = false := by
    intro r hr
    rw [← hsame l hl r hr, Bool.eq_false_iff]
    exact fun hlr => hfail (hfilter l r hlr)
  exact hfail (mem_filter.mp (halone.mpr ⟨hl, hnone⟩).1).2

/-- A hash join and a merge join give the rows of the join that the condition defines if
the split of the condition decides as the condition does and an outer join has no left
row that fails the left side's condition. For rows that are not all NULLs the rows are
wrong otherwise. -/
theorem joins_correct (h : joinKeys (some condition) left.names right.names = some keys) :
    (SplitSound joinType keys left right →
      (hashJoin joinType keys left right).Perm (sqlJoin joinType left right condition) ∧
      (mergeJoin joinType keys left right).Perm (sqlJoin joinType left right condition)) ∧
    (ProperRows left right →
      (hashJoin joinType keys left right).Perm (sqlJoin joinType left right condition) ∨
      (mergeJoin joinType keys left right).Perm (sqlJoin joinType left right condition) →
      SplitSound joinType keys left right) := by
  have hhash := hashJoin_perm joinType keys left right
  have hmerge := mergeJoin_perm joinType keys left right
  constructor
  · intro hsound
    rw [← foundJoin_eq_of_sound h hsound]
    exact ⟨hhash, hmerge⟩
  · rintro hrows (hperm | hperm)
    · exact sound_of_foundJoin h hrows fun row => (hhash.symm.trans hperm).mem_iff
    · exact sound_of_foundJoin h hrows fun row => (hmerge.symm.trans hperm).mem_iff

end Exec

/-! ## Two tables -/

namespace Fixed

/-- Rows of a table `l` with the columns `id` and `x`. -/
def leftSide (rows : List Row) : Side where
  rows := rows
  names := [ascii "l.id", ascii "l.x"]
  columns := [⟨ascii "id", ascii "INT"⟩, ⟨ascii "x", ascii "INT"⟩]

/-- Rows of a table `r` with the column `id`. -/
def rightSide (rows : List Row) : Side where
  rows := rows
  names := [ascii "r.id"]
  columns := [⟨ascii "id", ascii "INT"⟩]

/-- `l.id = r.id`. -/
def sameId : FilterExpr := .predicate ⟨ascii "l.id", .eq, .ident (ascii "r.id")⟩

/-- `l.id = r.id AND l.x = 1`. -/
def sameIdOne : FilterExpr :=
  .and sameId (.predicate ⟨ascii "l.x", .eq, .literal (.int 1)⟩)

end Fixed

/-- `l LEFT JOIN r ON l.id = r.id AND l.x = 1` for the row `(1, 1)` of `l`. -/
theorem joins_correct_sameIdOne :
    letI := Fixed.evaluator fun _ => none
    let left := Fixed.leftSide [[.int 1, .int 1]]
    let right := Fixed.rightSide [[.int 1], [.int 2]]
    ∃ keys, joinKeys (some Fixed.sameIdOne) left.names right.names = some keys ∧
      (hashJoin .leftOuter keys left right).Perm
        (sqlJoin .leftOuter left right Fixed.sameIdOne) := by
  let := Fixed.evaluator fun _ => none
  intro left right
  have hkeys : (joinKeys (some Fixed.sameIdOne) left.names right.names).any (fun keys =>
      decide (SplitSound .leftOuter keys left right)) = true := by decide +kernel
  obtain ⟨keys, hkeys, hsound⟩ := (Option.any_eq_true _ _).mp hkeys
  exact ⟨keys, hkeys, ((joins_correct hkeys).1 (of_decide_eq_true hsound)).1⟩

/-- The same join for the row `(1, 2)` of `l`: the row fails `l.x = 1` and is lost. -/
theorem left_join_loses_row :
    letI := Fixed.evaluator fun _ => none
    let left := Fixed.leftSide [[.int 1, .int 2]]
    let right := Fixed.rightSide [[.int 1]]
    sqlJoin .leftOuter left right Fixed.sameIdOne = [[.int 1, .int 2, .null]] ∧
    ∃ keys, joinKeys (some Fixed.sameIdOne) left.names right.names = some keys ∧
      hashJoin .leftOuter keys left right = [] ∧ mergeJoin .leftOuter keys left right = [] := by
  let := Fixed.evaluator fun _ => none
  intro left right
  have hkeys : (joinKeys (some Fixed.sameIdOne) left.names right.names).any (fun keys =>
      (hashJoin .leftOuter keys left right).isEmpty &&
        (mergeJoin .leftOuter keys left right).isEmpty) = true := by decide +kernel
  obtain ⟨keys, hkeys, hempty⟩ := (Option.any_eq_true _ _).mp hkeys
  rw [Bool.and_eq_true, List.isEmpty_iff, List.isEmpty_iff] at hempty
  have hholds : holds [.int 1, .int 2, .int 1] (left.names ++ right.names)
      (left.columns ++ right.columns) Fixed.sameIdOne = false := by decide +kernel
  refine ⟨?_, keys, hkeys, hempty⟩
  rw [sqlJoin, joinOf_congr fun l hl r hr => show _ = false by
    rw [List.mem_singleton.mp hl, List.mem_singleton.mp hr]
    exact hholds]
  rfl

end NodusDb.Sql
